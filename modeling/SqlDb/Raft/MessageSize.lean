/-
  HOW LONG THE MESSAGES OF A GROUP ARE, AND WHICH FRAMES THE RECEIVER TAKES.

  A frame is taken by `FrameDecoder::next` up to `kMaxFrameBytes` of payload; a longer one ends the
  connection.  The sender compares nothing:

  - votes and responses have a FIXED length;
  - a snapshot is cut into chunks of `kSnapshotChunkBytes`, which all fit (`snapshotMessages_small`);
  - an append request carries EVERYTHING from `next_index` on, in one message.

  Every message of a run was sent at some moment of it (`sentBy_run`).  It can be delivered exactly if
  the log that the sender then had, from the receiver's `next_index` on, fits (`deliverable_iff`).  It
  need not: `lagging_sends` follows a leader whose only follower does not answer.  Each proposal goes
  out with all the earlier ones, and the sixty-fourth proposal of one mebibyte no longer fits.
-/
import Mathlib.Algebra.Order.BigOperators.Group.List
import SqlDb.Raft.MessageCodec
import SqlDb.Raft.Safety

namespace SqlDb.Raft

open Codec RaftNode List

/-! ## Sizes -/

/-- The length of a message without what it carries. -/
def Message.fixedSize : Message → Nat
  | .requestVote _ => 42
  | .requestVoteResponse _ => 19
  | .appendEntries _ => 66
  | .appendEntriesResponse _ => 43
  | .installSnapshot _ => 59
  | .installSnapshotResponse _ => 19

/-- The length of what a message carries: entries, each with its index, its term and its length, or a
    piece of a snapshot. -/
def Message.carriedSize : Message → Nat
  | .appendEntries r => (r.entries.map fun e => 24 + e.data.length).sum
  | .installSnapshot r => r.data.length
  | _ => 0

theorem length_putBool (b : Bool) : (putBool b).length = 1 := length_bigEndian 1 _

theorem length_putEntry (e : LogEntry) : (putEntry e).length = 24 + e.data.length := by
  simp only [putEntry, block, length_append, length_bigEndian]
  omega

theorem length_encodeMessage (groupId : Nat) (m : Message) :
    (encodeMessage groupId m).length = m.fixedSize + m.carriedSize := by
  have hfields : m.fields.length + 10 = m.fixedSize + m.carriedSize := by
    cases m with
    | appendEntries r =>
      simp only [Message.fields, encodeAppendEntries, Message.fixedSize, Message.carriedSize,
        length_append, length_bigEndian, length_flatMap, length_putEntry]
      omega
    | _ =>
      simp only [Message.fields, encodeRequestVote, encodeRequestVoteResponse,
        encodeAppendEntriesResponse, encodeInstallSnapshot, encodeInstallSnapshotResponse, block,
        Message.fixedSize, Message.carriedSize, length_append, length_bigEndian, length_putBool]
      try omega
  simp only [encodeMessage, length_append, length_bigEndian]
  omega

/-! ## Frames -/

/-- A frame that is not too long is taken off the stream, whatever comes after it. -/
theorem FrameDecoder.next_frame {d : FrameDecoder} {payload rest : Bytes}
    (hpending : d.buffer.drop d.consumed = framePayload payload ++ rest)
    (hsize : payload.length ≤ kMaxFrameBytes) : d.next.1 = .ok (some payload) ∧
      d.next.2.consumed ≤ d.next.2.buffer.length ∧
      d.next.2.buffer.drop d.next.2.consumed = rest := by
  have hlt : payload.length < 256 ^ 4 := hsize.trans_lt (by decide)
  have hhead : (bigEndian 4 payload.length).length = 4 := length_bigEndian 4 _
  have hframe : framePayload payload ++ rest = bigEndian 4 payload.length ++ (payload ++ rest) :=
    append_assoc _ _ _
  have hlen : d.buffer.length - d.consumed = 4 + (payload.length + rest.length) := by
    rw [← length_drop, hpending, hframe, length_append, hhead, length_append]
  have hafter : d.buffer.drop (d.consumed + (4 + payload.length)) = rest := by
    rw [← drop_drop, hpending]
    exact drop_left' (by rw [framePayload, frame, length_append, hhead])
  unfold next
  dsimp only
  rw [hpending, hframe, take_left' hhead, drop_left' hhead, ofBigEndian_bigEndian hlt,
    length_append, hhead, if_neg (by omega), if_neg (by omega), length_append,
    if_neg (by omega), take_left' rfl]
  split_ifs with hall
  · refine ⟨rfl, le_rfl, ?_⟩
    rw [← hafter, ← Nat.add_assoc, hall, drop_length]
    rfl
  · exact ⟨rfl, by dsimp only; omega, by rw [← hafter, Nat.add_assoc]⟩

/-- The message is not longer than a frame may be, and the receiver takes its frame off the stream. -/
def Deliverable (groupId : Nat) (m : Message) : Prop :=
  (encodeMessage groupId m).length ≤ kMaxFrameBytes ∧
    ∀ (d : FrameDecoder) rest, d.buffer.drop d.consumed = encodeFrame groupId m ++ rest →
      d.next.1 = .ok (some (encodeMessage groupId m))

theorem deliverable_iff_size (groupId : Nat) (m : Message) :
    Deliverable groupId m ↔ m.fixedSize + m.carriedSize ≤ kMaxFrameBytes := by
  unfold Deliverable
  rw [← length_encodeMessage groupId m]
  constructor
  · exact fun h => h.1
  · intro hsize
    exact ⟨hsize, fun d rest hpending => (FrameDecoder.next_frame hpending hsize).1⟩

/-! ## The pieces of a snapshot -/

theorem snapshotChunks_small {header r : InstallSnapshotRequest} {blob : Bytes} {fuel offset : Nat}
    (h : r ∈ snapshotChunks header blob fuel offset) : r.data.length ≤ kSnapshotChunkBytes := by
  induction fuel generalizing offset with
  | zero => simp [snapshotChunks] at h
  | succ fuel ih =>
    unfold snapshotChunks at h
    split at h
    · rcases mem_cons.mp h with rfl | h
      · show ((blob.drop offset).take _).length ≤ _
        rw [length_take]
        omega
      · exact ih h
    · simp at h

theorem snapshotMessages_small {header r : InstallSnapshotRequest} {blob : Bytes}
    (h : r ∈ snapshotMessages header blob) : r.data.length ≤ kSnapshotChunkBytes := by
  unfold snapshotMessages at h
  split at h
  · obtain rfl := mem_singleton.mp h
    exact Nat.zero_le _
  · exact snapshotChunks_small h

variable {σ : Type} [StateMachine σ] {J : Prop} {g : Group}

omit [StateMachine σ] in
theorem RaftNode.relinquish_outbox (leaderId : Option NodeId) (x : RaftNode σ) :
    (relinquish leaderId x).outbox = x.outbox := by
  unfold relinquish
  dsimp only
  split <;> rfl

/-- A step sends one message, or none. -/
theorem RaftNode.NodeStep.outbox_cases {inp : Option (NodeId × Message)} {x y : RaftNode σ}
    (hs : NodeStep J inp x y) : y.outbox = x.outbox ∨
      ∃ dst m, Sendable inp x dst m ∧ y = x.send dst m := by
  cases hs with
  | send dst m h => exact Or.inr ⟨dst, m, h, rfl⟩
  | quiet h => exact Or.inl (congrArg RaftNode.outbox h).symm
  | stepDown leaderId => exact Or.inl (relinquish_outbox leaderId x)
  | newTerm term leaderId store => exact Or.inl (relinquish_outbox leaderId _)
  | applied machine entry =>
    left
    unfold RaftNode.applied completeAppliedProposal
    split <;> rfl
  | _ => exact Or.inl rfl

/-! ## The moments of sending -/

/-- On the way to `w`, step by step, node `env.src` was `x` and sent `env`. -/
def SentBy (g : Group) (machine : NodeId → σ) (w : World σ) (env : Envelope) (x : RaftNode σ) : Prop :=
  ∃ (w₀ : World σ) (inp : Option (NodeId × Message)),
    Relation.ReflTransGen (WorldStep False g) (World.init g machine) (w₀.absorb env.src x) ∧
    Sendable inp x env.dst env.message ∧
    Relation.ReflTransGen (WorldStep False g)
      (w₀.absorb env.src (x.send env.dst env.message)) w

omit [StateMachine σ] in
theorem mem_sent_send (w : World σ) (env : Envelope) (x : RaftNode σ) :
    env ∈ (w.absorb env.src (x.send env.dst env.message)).sent :=
  mem_append_right _ (mem_map.mpr ⟨(env.dst, env.message), mem_append_right _ mem_cons_self, rfl⟩)

/-- A step adds to what has been sent one message of a node, or nothing. -/
theorem WorldStep.sent_cases {w w' : World σ} (hs : WorldStep J g w w')
    (hquiet : ∀ n, (w.nodes n).outbox = []) : w'.sent = w.sent ∨
      ∃ (w₀ : World σ) (env : Envelope) (inp : Option (NodeId × Message)) (x : RaftNode σ),
        w = w₀.absorb env.src x ∧ Sendable inp x env.dst env.message ∧
        w' = w₀.absorb env.src (x.send env.dst env.message) ∧ w'.sent = w.sent ++ [env] := by
  cases hs with
  | node w n inp x y hn hinp hs =>
    rcases hs.outbox_cases with hout | ⟨dst, m, hsend, rfl⟩
    · exact Or.inl (by simp only [World.absorb, hout])
    · refine Or.inr ⟨w, ⟨n, dst, m⟩, inp, x, rfl, hsend, rfl, ?_⟩
      simp [World.absorb, RaftNode.send]
  | enter w n now faults hn =>
    have hnone : (w.enter n now faults).outbox = [] := hquiet n
    exact Or.inl (by simp [World.absorb, hnone])
  | restart w n machine now hn =>
    have hnone : (World.reboot g (w.nodes n) n machine now).outbox = [] := by
      show (RaftNode.start (create (g.config n) _ machine now)).2.outbox = []
      rw [start_eq hn]
      rfl
    exact Or.inl (by simp [World.absorb, hnone])

/-- What has been sent stays sent. -/
theorem WorldStep.sent_mono {w w' : World σ} (hs : WorldStep J g w w') {env : Envelope}
    (henv : env ∈ w.sent) : env ∈ w'.sent := by
  cases hs with
  | node w n inp x y hn hinp hs =>
    rcases hs.outbox_cases with hout | ⟨dst, m, -, rfl⟩
    · simpa only [World.absorb, hout] using henv
    · simp only [World.absorb, RaftNode.send, map_append, ← append_assoc]
      exact mem_append_left _ henv
  | enter | restart => exact mem_append_left _ henv

theorem SentBy.mem {machine : NodeId → σ} {w : World σ} {env : Envelope} {x : RaftNode σ}
    (h : SentBy g machine w env x) : env ∈ w.sent := by
  obtain ⟨w₀, inp, -, -, hpath⟩ := h
  induction hpath with
  | refl => exact mem_sent_send w₀ env x
  | tail _ hs ih => exact hs.sent_mono ih

/-- Every message of a run was sent at some moment of the run. -/
theorem sentBy_run (g : Group) (machine : NodeId → σ) (inputs : List (Input σ)) :
    ∀ env ∈ (World.run g machine inputs).sent,
      ∃ x, SentBy g machine (World.run g machine inputs) env x := by
  obtain ⟨-, -, -, -, h⟩ := World.run_rule (J := False)
    (P := fun _ w => Relation.ReflTransGen (WorldStep False g) (World.init g machine) w ∧
      ∀ env ∈ w.sent, ∃ x, SentBy g machine w env x) machine
    ⟨.refl, by intro env henv; simp [World.init] at henv⟩
    (fun _ _ _ w w' hsim h hs _ _ => by
      refine ⟨h.1.tail hs, fun env henv => ?_⟩
      have hold : env ∈ w.sent → ∃ x, SentBy g machine w' env x := fun henv => by
        obtain ⟨x, w₀, inp, hinit, hsend, hpath⟩ := h.2 env henv
        exact ⟨x, w₀, inp, hinit, hsend, hpath.tail hs⟩
      rcases hs.sent_cases fun n => (hsim.quiet n).1 with
        hsame | ⟨w₀, env', inp, x, rfl, hsend, rfl, hnew⟩
      · exact hold (hsame ▸ henv)
      · rcases mem_snoc.mp (hnew ▸ henv) with henv | rfl
        · exact hold henv
        · exact ⟨x, w₀, inp, h.1, hsend, .refl⟩) inputs fun h => h.elim
  exact h

/-! ## What can be delivered -/

/-- The length of the data of an entry. -/
def RaftNode.entryLength (x : RaftNode σ) (i : Nat) : Nat :=
  match x.logStore.entryAt i with
  | .ok e => e.data.length
  | .error _ => 0

/-- How many entries of the node's log `dst` is behind, by its `next_index`. -/
def RaftNode.lag (x : RaftNode σ) (dst : NodeId) : Nat :=
  x.lastLogIndex + 1 - (x.nextIndex.find dst).getD 0

/-- The length of a message with all entries from `next_index` on. -/
def RaftNode.suffixSize (x : RaftNode σ) (dst : NodeId) : Nat :=
  66 + ((List.range' ((x.nextIndex.find dst).getD 0) (x.lag dst)).map fun i =>
    24 + x.entryLength i).sum

omit [StateMachine σ] in
/-- The request carries the log from `next_index` on. -/
theorem RaftNode.BuiltBy.suffixSize_eq {x : RaftNode σ} {q : AppendEntriesRequest} {dst : NodeId}
    (h : x.BuiltBy q) (hnext : (x.nextIndex.find dst).getD 0 = q.prevLogIndex + 1) :
    x.suffixSize dst = (Message.appendEntries q).fixedSize + (Message.appendEntries q).carriedSize := by
  have hlast : q.prevLogIndex + q.entries.length = x.lastLogIndex := h.last
  have hlag : x.lag dst = q.entries.length := by
    unfold lag
    omega
  have hlist : (List.range' (q.prevLogIndex + 1) q.entries.length).map (fun i => 24 + x.entryLength i)
      = q.entries.map fun e => 24 + e.data.length := by
    refine List.ext_getElem (by simp) fun k hk hk' => ?_
    have hentry := h.entries k _ (getElem?_eq_getElem (by simpa using hk'))
    rw [Nat.add_right_comm] at hentry
    simp [entryLength, hentry]
  unfold suffixSize
  rw [hlag, hnext, hlist]
  rfl

omit [StateMachine σ] in
/-- A suffix of small entries is at most as long as they could be. -/
theorem RaftNode.suffixSize_le {x : RaftNode σ} {dst : NodeId} {size : Nat}
    (h : ∀ i, x.entryLength i ≤ size) : x.suffixSize dst ≤ 66 + x.lag dst * (24 + size) := by
  have hle : ∀ n ∈ (List.range' ((x.nextIndex.find dst).getD 0) (x.lag dst)).map
      (fun i => 24 + x.entryLength i), n ≤ 24 + size := by
    intro n hn
    obtain ⟨i, -, rfl⟩ := mem_map.mp hn
    exact Nat.add_le_add_left (h i) 24
  exact Nat.add_le_add_left (by simpa using sum_le_card_nsmul _ _ hle) 66

/-- A message can be delivered if it is not an append request, or the log of its sender from
    `next_index` on fits. -/
theorem SentBy.fits_iff {machine : NodeId → σ} {w : World σ} {env : Envelope} {x : RaftNode σ}
    (h : SentBy g machine w env x) (groupId : Nat) : Deliverable groupId env.message ↔
      ∀ q, env.message = .appendEntries q → x.suffixSize env.dst ≤ kMaxFrameBytes := by
  obtain ⟨w₀, inp, -, hsend, -⟩ := h
  rw [deliverable_iff_size]
  cases hm : env.message with
  | appendEntries q =>
    rw [hm] at hsend
    rw [← hsend.2.2.suffixSize_eq hsend.2.1]
    exact ⟨fun h _ _ => h, fun h => h q rfl⟩
  | installSnapshot r =>
    rw [hm] at hsend
    obtain ⟨-, -, -, -, -, blob, -, hmem⟩ := hsend
    refine iff_of_true ?_ nofun
    have hroom : 59 + kSnapshotChunkBytes ≤ kMaxFrameBytes := by decide
    exact (Nat.add_le_add_left (snapshotMessages_small hmem) 59).trans hroom
  | _ => exact iff_of_true (by simp [Message.fixedSize, Message.carriedSize, kMaxFrameBytes]) nofun

/-- **Every Raft message can be delivered**, in every run of every group, EXACTLY IF whenever a node
    sends an append request, its log from `next_index` on fits into a frame.  It does as long as the
    receiver is at most 63 entries of one mebibyte behind. -/
theorem deliverable_iff (g : Group) (machine : NodeId → σ) (inputs : List (Input σ)) (groupId : Nat) :
    ((∀ env ∈ (World.run g machine inputs).sent, Deliverable groupId env.message) ↔
      ∀ env x q, SentBy g machine (World.run g machine inputs) env x →
        env.message = .appendEntries q → x.suffixSize env.dst ≤ kMaxFrameBytes) ∧
    ∀ (x : RaftNode σ) dst, x.lag dst ≤ 63 → (∀ i, x.entryLength i ≤ 2 ^ 20) →
      x.suffixSize dst ≤ kMaxFrameBytes := by
  refine ⟨⟨fun h env x q hx => (hx.fits_iff groupId).mp (h env hx.mem) q, fun h env henv => ?_⟩,
    fun x dst hlag hsmall => ?_⟩
  · obtain ⟨x, hx⟩ := sentBy_run g machine inputs env henv
    exact (hx.fits_iff groupId).mpr fun q hq => h env x q hx hq
  · have hroom : 66 + 63 * (24 + 2 ^ 20) ≤ kMaxFrameBytes := by decide
    exact (suffixSize_le hsmall).trans ((Nat.add_le_add_left (Nat.mul_le_mul_right _ hlag) 66).trans hroom)

/-! ## A leader whose followers do not answer -/

/-- The no-op of a new leader, and one entry after another with the same data. -/
def piled (data : Bytes) (n : Nat) : List LogEntry :=
  ⟨1, 1, []⟩ :: (List.range n).map fun k => ⟨k + 2, 1, data⟩

/-- Node 3 leads in term 1 with `n` entries on its log, of which it has heard nothing. -/
structure Piling (data : Bytes) (n : Nat) (x : RaftNode NullMachine) : Prop where
  peers : x.config.peers = [1, 2, 3]
  nodeId : x.config.nodeId = 3
  role : x.role = .leader
  term : x.hardState.term = 1
  included : x.lastIncludedIndex = 0
  last : x.lastLogIndex = n + 1
  entries : x.logStore.entries = piled data n
  lastIndex : x.logStore.lastIndex = n + 1
  noSnapshot : x.logStore.snapshotMeta = {}
  next : ∀ p ∈ [1, 2], x.nextIndex.find p = some 1
  matched : ∀ p ∈ [1, 2], x.matchIndex.find p = some 0

theorem piling_zero (data : Bytes) :
    Piling data 0 ((World.run trio nullMachines (trioElection.take 3)).nodes 3) where
  peers := by decide +kernel
  nodeId := by decide +kernel
  role := by decide +kernel
  term := by decide +kernel
  included := by decide +kernel
  last := by decide +kernel
  entries := by
    show _ = [(⟨1, 1, []⟩ : LogEntry)]
    decide +kernel
  lastIndex := by decide +kernel
  noSnapshot := by decide +kernel
  next := by decide +kernel
  matched := by decide +kernel

section Piling

variable {data : Bytes} {n : Nat} {x : RaftNode NullMachine}

theorem piled_succ (data : Bytes) (n : Nat) : piled data (n + 1) = piled data n ++ [⟨n + 2, 1, data⟩] := by
  simp [piled, range_succ]

theorem length_piled (data : Bytes) (n : Nat) : (piled data n).length = n + 1 := by simp [piled]

/-- The entries behind the first `next` ones. -/
theorem entriesFrom_all {store : LogStore} (hmeta : store.snapshotMeta = {}) (k : Nat) :
    ∀ next, store.entries.length = next + k → store.lastIndex = next + k →
      entriesFrom store (next + 1) k = .ok (store.entries.drop next) := by
  induction k with
  | zero =>
    intro next hlen _
    rw [drop_eq_nil_of_le (by omega)]
    rfl
  | succ k ih =>
    intro next hlen hlast
    have hlt : next < store.entries.length := by omega
    have hentry : store.entryAt (next + 1) = .ok store.entries[next] := by
      rw [LogStore.entryAt_above (by rw [hmeta]; exact Nat.succ_pos _) (by omega), hmeta]
      simp [hlt]
    unfold entriesFrom
    rw [hentry]
    dsimp only
    rw [ih (next + 1) (by omega) (by omega), drop_eq_getElem_cons hlt]
    rfl

theorem quorum_zero (hp : x.config.peers = [1, 2, 3])
    (h : ∀ p ∈ [1, 2], x.matchIndex.find p = some 0) : x.quorumMatchIndex = 0 := by
  by_contra hne
  have h1 := (le_quorumMatchIndex_iff (x := x) (by rw [hp]; simp) (k := 1)).mp (by omega)
  rw [hp] at h1
  simp [matchOf, h 1 (by simp), h 2 (by simp)] at h1
  have hle := h1.trans (length_filter_le _ _)
  simp at hle

/-- The append request with the whole log. -/
def wholeLog (x : RaftNode NullMachine) : AppendEntriesRequest :=
  { term := x.hardState.term, leaderId := x.config.nodeId, prevLogIndex := 0,
    prevLogTerm := x.lastIncludedTerm, entries := x.logStore.entries, leaderCommit := x.commitIndex,
    round := x.heartbeatRound }

theorem sendAppendEntries_whole {dst : NodeId}
    (hnext : x.nextIndex.find dst = some 1) (hmatch : x.matchIndex.find dst = some 0)
    (hincluded : x.lastIncludedIndex = 0) (hmeta : x.logStore.snapshotMeta = {})
    (hlen : x.logStore.entries.length = x.lastLogIndex) (hlast : x.logStore.lastIndex = x.lastLogIndex) :
    sendAppendEntries dst x = (.ok (), x.send dst (.appendEntries (wholeLog x))) := by
  have htouch : x.nextIndex.touch dst (x.lastLogIndex + 1) = x.nextIndex := by
    simp [OrdMap.touch, hnext]
  have htouch' : x.matchIndex.touch dst 0 = x.matchIndex := by
    simp [OrdMap.touch, hmatch]
  have hentries := entriesFrom_all hmeta x.lastLogIndex 0 (by omega) (by omega)
  unfold sendAppendEntries
  simp only [Prog.modify_bind_apply, Prog.get_bind_apply, htouch, htouch', hnext, Option.getD_some]
  rw [if_neg (by omega), if_pos (by omega), Prog.lift_ok_bind, Nat.add_sub_cancel]
  have hentries : entriesFrom x.logStore 1 x.lastLogIndex = .ok x.logStore.entries := hentries
  rw [hentries, Prog.lift_ok_bind]
  rfl

theorem Piling.length (h : Piling data n x) : x.logStore.entries.length = x.lastLogIndex := by
  rw [h.entries, length_piled, h.last]

theorem recording_ok {m : Act NullMachine Unit} {y : RaftNode NullMachine} (h : m x = (.ok (), y)) :
    recording m x = (.ok (), y) := by
  unfold recording Prog.orElse
  rw [h]

/-- The whole log goes to both followers. -/
theorem Piling.sendToPeers (h : Piling data n x) :
    RaftNode.sendToPeers x = (.ok (), (x.send 1 (.appendEntries (wholeLog x))).send 2
      (.appendEntries (wholeLog x))) := by
  have hlast : x.logStore.lastIndex = x.lastLogIndex := h.lastIndex.trans h.last.symm
  have hothers : x.others = [1, 2] := by
    simp [others, h.peers, h.nodeId]
  have hfirst := sendAppendEntries_whole (h.next 1 (by simp)) (h.matched 1 (by simp)) h.included
    h.noSnapshot h.length hlast
  have hsecond := sendAppendEntries_whole (x := x.send 1 (.appendEntries (wholeLog x)))
    (h.next 2 (by simp)) (h.matched 2 (by simp)) h.included h.noSnapshot h.length hlast
  unfold RaftNode.sendToPeers
  rw [Prog.get_bind_apply, hothers]
  show (recording (sendAppendEntries 1) >>= fun _ => recording (sendAppendEntries 2) >>= fun _ => pure ()) x = _
  rw [Prog.bind_apply_ok (recording_ok hfirst), Prog.bind_apply_ok (recording_ok hsecond)]
  rfl

/-- Nothing is committed. -/
theorem Piling.advanceCommit (h : Piling data n x) :
    RaftNode.advanceCommit x = (.ok (), x) := by
  unfold RaftNode.advanceCommit
  rw [Prog.get_bind_apply, if_pos (Or.inl (by rw [quorum_zero h.peers h.matched]; exact Nat.zero_le _))]
  rfl

theorem Piling.appendOwn {store : LogStore} (h : Piling data n x)
    (happend : x.logStore.append ⟨x.lastLogIndex + 1, x.hardState.term, data⟩ = .ok store) :
    Piling data (n + 1) (x.appendOwn store ⟨x.lastLogIndex + 1, x.hardState.term, data⟩) := by
  obtain ⟨-, -, -, rfl⟩ := LogStore.append_ok happend
  have hne : ∀ p ∈ [1, 2], ¬ p = x.config.nodeId := by
    rw [h.nodeId]
    decide
  exact {
    peers := h.peers, nodeId := h.nodeId, role := h.role, term := h.term, included := h.included
    last := congrArg (· + 1) h.last
    entries := by
      show x.logStore.entries ++ [_] = _
      rw [h.entries, h.last, h.term, piled_succ]
    lastIndex := congrArg (· + 1) h.last
    noSnapshot := h.noSnapshot
    next := fun p hp => by
      show (x.nextIndex.insert _ _).find p = _
      rw [OrdMap.find_insert, if_neg (hne p hp), h.next p hp]
    matched := fun p hp => by
      show (x.matchIndex.insert _ _).find p = _
      rw [OrdMap.find_insert, if_neg (hne p hp), h.matched p hp] }

/-- A proposal is added to the log, and the whole log goes to both followers. -/
theorem Piling.propose (h : Piling data n x)
    (hsound : ∀ op, x.logStore.faults op = none) :
    ∃ y, Piling data (n + 1) y ∧ y.outbox = x.outbox ∧
      (RaftNode.propose data x).2
        = (y.send 1 (.appendEntries (wholeLog y))).send 2 (.appendEntries (wholeLog y)) := by
  obtain ⟨store, happend⟩ : ∃ store,
      x.logStore.append ⟨x.lastLogIndex + 1, x.hardState.term, data⟩ = .ok store := by
    unfold LogStore.append LogStore.write
    rw [if_neg (by simp [h.term]), if_neg (by rw [h.last, h.lastIndex]; simp), hsound]
    exact ⟨_, rfl⟩
  have hz := h.appendOwn happend
  let z := x.appendOwn store ⟨x.lastLogIndex + 1, x.hardState.term, data⟩
  have hy : Piling data (n + 1) { z with heartbeatRound := z.heartbeatRound + 1 } := { hz with }
  refine ⟨_, hy, rfl, ?_⟩
  unfold RaftNode.propose
  rw [Prog.get_bind_apply, if_neg (by simp [h.role])]
  dsimp only
  rw [happend, Prog.lift_ok_bind, Prog.modify_bind_apply]
  have hadvance : recording RaftNode.advanceCommit z = (.ok (), z) := recording_ok hz.advanceCommit
  have hsend : sendHeartbeats z = _ := hy.sendToPeers
  refine (congrArg Prod.snd (Prog.bind_apply_ok hadvance)).trans ?_
  exact congrArg Prod.snd (Prog.bind_apply_ok hsend)

/-- Node 3 gets one proposal after another. -/
def piling (data : Bytes) (n : Nat) : List (Input NullMachine) :=
  trioElection.take 3 ++ List.replicate n (.propose 3 data)

theorem Piling.step {w : World NullMachine} (h : Piling data n (w.nodes 3)) :
    ∃ y, Piling data (n + 1) y ∧ w.step trio (.propose 3 data)
      = w.absorb 3 ((y.send 1 (.appendEntries (wholeLog y))).send 2 (.appendEntries (wholeLog y))) := by
  have henter : Piling data n (w.enter 3 0 fun _ => none) := { h with }
  obtain ⟨y, hy, -, hpropose⟩ := henter.propose fun _ => rfl
  refine ⟨y, hy, ?_⟩
  rw [← hpropose]
  have hmem : (3 : NodeId) ∈ trio.peers := by decide
  unfold World.step Input.propose
  dsimp only
  rw [if_pos hmem]

end Piling

theorem run_piling_succ (data : Bytes) (n : Nat) :
    World.run trio nullMachines (piling data (n + 1))
      = (World.run trio nullMachines (piling data n)).step trio (.propose 3 data) := by
  unfold piling World.run
  rw [replicate_succ', ← append_assoc, foldl_append]
  rfl

theorem piling_run (data : Bytes) (n : Nat) :
    Piling data n ((World.run trio nullMachines (piling data n)).nodes 3) := by
  induction n with
  | zero =>
    unfold piling
    rw [replicate_zero, append_nil]
    exact piling_zero data
  | succ n ih =>
    obtain ⟨y, hy, hstep⟩ := ih.step
    rw [run_piling_succ, hstep, absorb_nodes_self]
    exact { hy with }

/-- With the last of the proposals, all of them go to node 1. -/
theorem lagging_sends (data : Bytes) (n : Nat) :
    ∃ r, ⟨3, 1, .appendEntries r⟩ ∈ (World.run trio nullMachines (piling data (n + 1))).sent ∧
      r.entries = piled data (n + 1) := by
  obtain ⟨y, hy, hstep⟩ := (piling_run data n).step
  refine ⟨wholeLog y, ?_, hy.entries⟩
  rw [run_piling_succ, hstep]
  refine mem_append_right _ (mem_map.mpr ⟨(1, .appendEntries (wholeLog y)), ?_, rfl⟩)
  exact mem_append_left _ (mem_append_right _ mem_cons_self)

theorem sum_piled (data : Bytes) (n : Nat) :
    ((piled data n).map fun e => 24 + e.data.length).sum = 24 + n * (24 + data.length) := by
  have hdata : ((List.range n).map fun k => (⟨k + 2, 1, data⟩ : LogEntry)).map
      (fun e => 24 + e.data.length) = List.replicate n (24 + data.length) := by
    rw [map_map, eq_replicate_iff]
    simp
  unfold piled
  rw [map_cons, sum_cons, hdata, sum_replicate_nat]
  rfl

/-- One mebibyte. -/
def mebibyte : Bytes := List.replicate (2 ^ 20) 0

/-- **Sixty-four proposals of one mebibyte do not fit into a frame.** -/
theorem pile_undeliverable :
    (∀ i ∈ piling mebibyte 64, ∀ n data, i.action = .propose n data → data.length ≤ 2 ^ 20) ∧
    ∃ env ∈ (World.run trio nullMachines (piling mebibyte 64)).sent,
      ∀ groupId, ¬ Deliverable groupId env.message := by
  have hlength : mebibyte.length = 2 ^ 20 := length_replicate
  constructor
  · intro i hi n data hpropose
    rcases mem_append.mp hi with hi | hi
    · have hnone : ∀ i ∈ trioElection.take 3, ∀ n data, i.action ≠ .propose n data := by
        simp [trioElection, Input.tick, Input.deliver]
      exact absurd hpropose (hnone i hi n data)
    · obtain ⟨-, rfl⟩ := mem_replicate.mp hi
      obtain ⟨rfl, rfl⟩ := Action.propose.inj hpropose
      exact hlength.le
  · obtain ⟨r, hr, hentries⟩ := lagging_sends mebibyte 63
    refine ⟨_, hr, fun groupId hdeliverable => ?_⟩
    have hsize := (deliverable_iff_size groupId _).mp hdeliverable
    simp only [Message.fixedSize, Message.carriedSize, hentries, sum_piled, hlength,
      kMaxFrameBytes] at hsize
    omega

end SqlDb.Raft
