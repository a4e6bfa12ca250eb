/-
  A BYTE STREAM OF FRAMES  (`FrameDecoder`, raft/message_codec.h).

  The transport appends what it has read and asks for the next payload, in any order.  What is in the
  buffer behind the offset is always the beginning of the frames that are still to come
  (`next_step`), so that however the stream is cut, the payloads come out in order (`run_frames`).

  `clear` empties the buffer and leaves the OFFSET where it is: unless that is zero, the first bytes
  appended afterwards are skipped.
-/
import Mathlib.Data.List.ReduceOption
import SqlDb.Raft.MessageSize

namespace SqlDb.Raft.FrameDecoder

open Codec List

inductive Use
  | append (bytes : Bytes)
  | next

/-- While the offset lies beyond the end of the buffer, the source looks at memory outside of it. -/
def clear (d : FrameDecoder) : FrameDecoder := { d with buffer := [] }

/-- The answers to the calls of `next`, and the decoder afterwards. -/
def run (d : FrameDecoder) : List Use → List (Except Error (Option Bytes)) × FrameDecoder
  | [] => ([], d)
  | .append bytes :: uses => (d.append bytes).run uses
  | .next :: uses => (d.next.1 :: (d.next.2.run uses).1, (d.next.2.run uses).2)

/-- All bytes that are appended. -/
def appended : List Use → Bytes
  | [] => []
  | .append bytes :: uses => bytes ++ appended uses
  | .next :: uses => appended uses

def frames (payloads : List Bytes) : Bytes := payloads.flatMap framePayload

/-- The buffer holds `bytes` behind the offset. -/
def Pending (d : FrameDecoder) (bytes : Bytes) : Prop :=
  d.consumed ≤ d.buffer.length ∧ d.buffer.drop d.consumed = bytes

theorem length_framePayload (payload : Bytes) :
    (framePayload payload).length = 4 + payload.length := by
  unfold framePayload frame
  rw [length_append, length_bigEndian]

variable {d : FrameDecoder} {bytes more : Bytes} {payloads : List Bytes}

theorem Pending.append (h : d.Pending bytes) : (d.append more).Pending (bytes ++ more) := by
  obtain ⟨hle, hdrop⟩ := h
  refine ⟨?_, ?_⟩
  · show d.consumed ≤ (d.buffer ++ more).length
    rw [length_append]
    omega
  · show (d.buffer ++ more).drop d.consumed = _
    rw [drop_append_of_le_length hle, hdrop]

/-- As long as a frame has not arrived as a whole, nothing is taken. -/
theorem next_short {payload : Bytes} (h : d.Pending bytes) (hsize : payload.length ≤ kMaxFrameBytes)
    (hpre : bytes <+: framePayload payload) (hshort : bytes.length < (framePayload payload).length) :
    d.next = (.ok none, d) := by
  have hlt : payload.length < 256 ^ 4 := Nat.lt_of_le_of_lt hsize (by decide)
  rw [length_framePayload] at hshort
  unfold next
  dsimp only
  rw [h.2]
  split
  · rfl
  · rename_i hlen
    have htake : bytes.take 4 = bigEndian 4 payload.length := by
      rw [(prefix_iff_eq_take.mp hpre), take_take, Nat.min_eq_left (by omega)]
      exact take_left' (length_bigEndian 4 _)
    rw [htake, ofBigEndian_bigEndian hlt, if_neg (by omega), if_pos (by omega)]

/-- **What a call of `next` does**: it takes the first of the coming payloads, or waits because that
    one is not there yet. -/
theorem next_step (h : d.Pending bytes) (hframes : bytes ++ more = frames payloads)
    (hsize : ∀ p ∈ payloads, p.length ≤ kMaxFrameBytes) :
    (d.next = (.ok none, d) ∧ (more = [] → payloads = [])) ∨
    ∃ p rest after, payloads = p :: rest ∧ d.next.1 = .ok (some p) ∧ d.next.2.Pending after ∧
      after ++ more = frames rest := by
  cases payloads with
  | nil =>
    obtain ⟨rfl, rfl⟩ := append_eq_nil_iff.mp hframes
    refine Or.inl ⟨?_, fun _ => rfl⟩
    unfold next
    rw [h.2]
    rfl
  | cons p rest =>
    obtain ⟨hp, hrest⟩ := forall_mem_cons.mp hsize
    have hall : bytes ++ more = framePayload p ++ frames rest := hframes
    rcases Nat.lt_or_ge bytes.length (framePayload p).length with hlt | hge
    · have hpre : bytes <+: framePayload p :=
        prefix_of_prefix_length_le ⟨more, hall⟩ (prefix_append _ _) (Nat.le_of_lt hlt)
      refine Or.inl ⟨next_short h hp hpre hlt, ?_⟩
      rintro rfl
      have hlen := congrArg length hall
      rw [append_nil, length_append] at hlen
      omega
    · obtain ⟨after, rfl⟩ : framePayload p <+: bytes :=
        prefix_of_prefix_length_le (prefix_append _ _) ⟨more, hall⟩ hge
      rw [append_assoc] at hall
      have hnext := next_frame h.2 hp
      exact Or.inr ⟨p, rest, after, rfl, hnext.1, hnext.2, append_cancel_left hall⟩

/-- Whatever has been appended so far, the answers are the first payloads, in order. -/
theorem run_frames (uses : List Use) : ∀ {d : FrameDecoder} {bytes : Bytes} {payloads : List Bytes},
    d.Pending bytes → bytes ++ appended uses = frames payloads →
    (∀ p ∈ payloads, p.length ≤ kMaxFrameBytes) →
    ∃ (answers : List (Option Bytes)) (rest : List Bytes), (d.run uses).1 = answers.map .ok ∧
      answers.reduceOption ++ rest = payloads ∧
      (d.run uses).2.Pending (frames rest) := by
  induction uses with
  | nil =>
    intro d bytes payloads h hframes _
    rw [appended, append_nil] at hframes
    exact ⟨[], payloads, rfl, rfl, hframes ▸ h⟩
  | cons use uses ih =>
    intro d bytes payloads h hframes hsize
    cases use with
    | append new => exact ih h.append (by rw [append_assoc]; exact hframes) hsize
    | next =>
      unfold run
      rcases next_step h hframes hsize with ⟨hwait, -⟩ | ⟨p, ps, after, rfl, hp, hafter, hps⟩
      · obtain ⟨answers, rest, hans, hrest, hpending⟩ := ih h hframes hsize
        rw [hwait]
        exact ⟨none :: answers, rest, by rw [hans]; rfl, hrest, hpending⟩
      · obtain ⟨answers, rest, hans, hrest, hpending⟩ :=
          ih hafter hps fun q hq => hsize q (mem_cons_of_mem _ hq)
        exact ⟨some p :: answers, rest, by rw [hp, hans]; rfl,
          by rw [reduceOption_cons_of_some, cons_append, hrest], hpending⟩

/-- A cleared decoder is a new one exactly if its offset is zero: otherwise it does not see the
    first of enough empty frames. -/
theorem clear_iff (d : FrameDecoder) :
    (∀ uses, (d.clear.run uses).1 = (run {} uses).1) ↔ d.consumed = 0 := by
  constructor
  · intro h
    by_contra hpos
    have hzeros := h [.append (replicate (d.consumed + 3) 0), .next]
    have hnew : (append {} (replicate (d.consumed + 3) 0)).buffer.drop 0
        = framePayload [] ++ replicate (d.consumed - 1) 0 := by
      show replicate (d.consumed + 3) 0 = replicate 4 0 ++ _
      rw [← replicate_add]
      congr 1
      omega
    have hold : (d.clear.append (replicate (d.consumed + 3) 0)).next.1 = .ok none := by
      unfold next
      rw [if_pos]
      show ((replicate (d.consumed + 3) 0).drop d.consumed).length < 4
      rw [length_drop, length_replicate]
      omega
    have hfirst := (next_frame (d := append {} (replicate (d.consumed + 3) 0)) hnew (by decide)).1
    simp [run, hold, hfirst] at hzeros
  · intro h uses
    obtain ⟨buffer, consumed⟩ := d
    obtain rfl : consumed = 0 := h
    rfl

/-- **A stream of frames.**  For all payloads that fit, however their frames are cut and whenever
    `next` is called: when all has been appended, the answers so far are the first payloads in order,
    and the next call answers with the first of the others, or with nothing if there is none.  A
    decoder that is cleared at any point behaves as a new one exactly if its offset is zero. -/
theorem stream_of_frames (payloads : List Bytes) (hsize : ∀ p ∈ payloads, p.length ≤ kMaxFrameBytes)
    (uses : List Use) (huses : appended uses = frames payloads) :
    (∃ (answers : List (Option Bytes)) (rest : List Bytes), (run {} uses).1 = answers.map .ok ∧
      answers.reduceOption ++ rest = payloads ∧ (run {} uses).2.next.1 = .ok rest.head?) ∧
    ∀ d : FrameDecoder, (∀ later, (d.clear.run later).1 = (run {} later).1) ↔ d.consumed = 0 := by
  refine ⟨?_, clear_iff⟩
  obtain ⟨answers, rest, hans, hrest, hpending⟩ :=
    run_frames uses (d := {}) ⟨Nat.zero_le _, rfl⟩ huses hsize
  refine ⟨answers, rest, hans, hrest, ?_⟩
  have hfit : ∀ p ∈ rest, p.length ≤ kMaxFrameBytes := fun p hp =>
    hsize p (hrest ▸ mem_append_right _ hp)
  rcases next_step hpending (append_nil _) hfit with ⟨hwait, hnone⟩ | ⟨p, ps, _, rfl, hp, -⟩
  · rw [hwait, hnone rfl]
    rfl
  · exact hp

/-- Three frames, the second of which is cut in its length and in its payload. -/
def threeFrames : List Use :=
  [.append [0, 0, 0, 1, 7, 0, 0], .next, .next, .append [0, 2, 8], .next, .append [9, 0, 0, 0, 0], .next]

theorem stream_of_frames_three :
    (run {} threeFrames).1 = [.ok (some [7]), .ok none, .ok none, .ok (some [8, 9])] ∧
    ∃ (answers : List (Option Bytes)) (rest : List Bytes), (run {} threeFrames).1 = answers.map .ok ∧
      answers.reduceOption ++ rest = [[7], [8, 9], []] ∧
      (run {} threeFrames).2.next.1 = .ok rest.head? :=
  ⟨by decide, (stream_of_frames [[7], [8, 9], []] (by decide) threeFrames (by decide)).1⟩

/-- A payload is taken while a byte of the next frame is there already, and the decoder is cleared:
    of the two empty frames that come then it skips the first and a part of the second. -/
theorem cleared_decoder_skips :
    let d := (run {} [.append [0, 0, 0, 1, 7, 0], .next]).2
    (d.clear.run [.append (frames [[], []]), .next]).1 = [.ok none] ∧
      (run {} [.append (frames [[], []]), .next]).1 = [.ok (some [])] := by
  decide

end SqlDb.Raft.FrameDecoder
