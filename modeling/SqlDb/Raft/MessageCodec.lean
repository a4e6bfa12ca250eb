/-
  THE WIRE FORMAT OF RAFT MESSAGES  (raft/message_codec.{h,cpp}).

      version u8 · group u64 · type u8 · fields of the type           (all numbers big-endian)
      entries = count u64, then for each: index u64 · term u64 · data block

  A frame is a payload behind its length as a u32; `FrameDecoder` takes frames off a byte stream.

  The format is EXACT (`decodeMessage_iff`): a byte string is accepted as `(g, m)` if and only if it
  is what `encodeMessage g m` writes, for numbers that fit their 64-bit fields.  Round trip, rejection
  of cut, padded and second spellings all follow from this one equivalence.

  The source reads all fields of a message before it looks whether one of them failed; whichever it
  was, the error is the same, so that reading can stop at the first.
-/
import SqlDb.Lib.Format
import SqlDb.Raft.ProposalPayload

namespace SqlDb.Raft

open Codec

def kMessageVersion : Nat := 3

def kMaxFrameBytes : Nat := 64 * 1024 * 1024

def truncatedMessage (what : String) : Error :=
  ⟨.invalidArgument, "truncated raft message while reading " ++ what⟩

def malformedMessage (what : String) : Error :=
  ⟨.invalidArgument, "malformed raft message: " ++ what⟩

/-! ## Writing -/

def putBool (b : Bool) : Bytes := bigEndian 1 (if b then 1 else 0)

def putEntry (entry : LogEntry) : Bytes :=
  bigEndian 8 entry.index ++ bigEndian 8 entry.term ++ block entry.data

def Message.type : Message → Nat
  | .requestVote _ => 1
  | .requestVoteResponse _ => 2
  | .appendEntries _ => 3
  | .appendEntriesResponse _ => 4
  | .installSnapshot _ => 5
  | .installSnapshotResponse _ => 6

def encodeRequestVote (r : RequestVoteRequest) : Bytes :=
  bigEndian 8 r.term ++ bigEndian 8 r.candidateId ++ bigEndian 8 r.lastLogIndex ++
    bigEndian 8 r.lastLogTerm

def encodeRequestVoteResponse (r : RequestVoteResponse) : Bytes :=
  bigEndian 8 r.term ++ putBool r.voteGranted

def encodeAppendEntries (r : AppendEntriesRequest) : Bytes :=
  bigEndian 8 r.term ++ bigEndian 8 r.leaderId ++ bigEndian 8 r.prevLogIndex ++
    bigEndian 8 r.prevLogTerm ++ bigEndian 8 r.leaderCommit ++ bigEndian 8 r.round ++
    bigEndian 8 r.entries.length ++ r.entries.flatMap putEntry

def encodeAppendEntriesResponse (r : AppendEntriesResponse) : Bytes :=
  bigEndian 8 r.term ++ putBool r.success ++ bigEndian 8 r.matchIndex ++ bigEndian 8 r.round ++
    bigEndian 8 r.hintLastIndex

def encodeInstallSnapshot (r : InstallSnapshotRequest) : Bytes :=
  bigEndian 8 r.term ++ bigEndian 8 r.leaderId ++ bigEndian 8 r.lastIncludedIndex ++
    bigEndian 8 r.lastIncludedTerm ++ bigEndian 8 r.offset ++ putBool r.done ++ block r.data

def encodeInstallSnapshotResponse (r : InstallSnapshotResponse) : Bytes :=
  bigEndian 8 r.term ++ putBool r.success

def Message.fields : Message → Bytes
  | .requestVote r => encodeRequestVote r
  | .requestVoteResponse r => encodeRequestVoteResponse r
  | .appendEntries r => encodeAppendEntries r
  | .appendEntriesResponse r => encodeAppendEntriesResponse r
  | .installSnapshot r => encodeInstallSnapshot r
  | .installSnapshotResponse r => encodeInstallSnapshotResponse r

def encodeMessage (groupId : Nat) (message : Message) : Bytes :=
  bigEndian 1 kMessageVersion ++ bigEndian 8 groupId ++ bigEndian 1 message.type ++ message.fields

/-! ## Reading -/

def readBool (e : Error) : Reader Error Bool := do
  let value ← readNumber e 1
  if 1 < value then Prog.throw e else pure (value == 1)

def readEntry (e : Error) : Reader Error LogEntry := do
  let index ← readNumber e 8
  let term ← readNumber e 8
  let data ← readBlock e
  pure { index, term, data }

def readRequestVote : Reader Error RequestVoteRequest := do
  let e := truncatedMessage "RequestVoteRequest"
  let term ← readNumber e 8
  let candidateId ← readNumber e 8
  let lastLogIndex ← readNumber e 8
  let lastLogTerm ← readNumber e 8
  pure { term, candidateId, lastLogIndex, lastLogTerm }

def readRequestVoteResponse : Reader Error RequestVoteResponse := do
  let e := truncatedMessage "RequestVoteResponse"
  let term ← readNumber e 8
  let voteGranted ← readBool e
  pure { term, voteGranted }

/-- `size` is the size of the whole payload. -/
def readAppendEntries (size : Nat) : Reader Error AppendEntriesRequest := do
  let e := truncatedMessage "AppendEntriesRequest"
  let term ← readNumber e 8
  let leaderId ← readNumber e 8
  let prevLogIndex ← readNumber e 8
  let prevLogTerm ← readNumber e 8
  let leaderCommit ← readNumber e 8
  let round ← readNumber e 8
  let count ← readNumber e 8
  if size < count then Prog.throw (malformedMessage "entry count exceeds payload size")
  else
    let entries ← readMany (readEntry (truncatedMessage "AppendEntriesRequest entry")) count
    pure { term, leaderId, prevLogIndex, prevLogTerm, entries, leaderCommit, round }

def readAppendEntriesResponse : Reader Error AppendEntriesResponse := do
  let e := truncatedMessage "AppendEntriesResponse"
  let term ← readNumber e 8
  let success ← readBool e
  let matchIndex ← readNumber e 8
  let round ← readNumber e 8
  let hintLastIndex ← readNumber e 8
  pure { term, success, matchIndex, round, hintLastIndex }

def readInstallSnapshot : Reader Error InstallSnapshotRequest := do
  let e := truncatedMessage "InstallSnapshotRequest"
  let term ← readNumber e 8
  let leaderId ← readNumber e 8
  let lastIncludedIndex ← readNumber e 8
  let lastIncludedTerm ← readNumber e 8
  let offset ← readNumber e 8
  let done ← readBool e
  let data ← readBlock e
  pure { term, leaderId, lastIncludedIndex, lastIncludedTerm, offset, done, data }

def readInstallSnapshotResponse : Reader Error InstallSnapshotResponse := do
  let e := truncatedMessage "InstallSnapshotResponse"
  let term ← readNumber e 8
  let success ← readBool e
  pure { term, success }

/-- The fields of a message of the given type. -/
def readFields (size : Nat) : Nat → Reader Error Message
  | 1 => do
    let request ← readRequestVote
    pure (.requestVote request)
  | 2 => do
    let response ← readRequestVoteResponse
    pure (.requestVoteResponse response)
  | 3 => do
    let request ← readAppendEntries size
    pure (.appendEntries request)
  | 4 => do
    let response ← readAppendEntriesResponse
    pure (.appendEntriesResponse response)
  | 5 => do
    let request ← readInstallSnapshot
    pure (.installSnapshot request)
  | 6 => do
    let response ← readInstallSnapshotResponse
    pure (.installSnapshotResponse response)
  | type => Prog.throw (malformedMessage ("unknown message type " ++ toString type))

/-- A group and a message for it. -/
structure DecodedRaftMessage where
  groupId : Nat := 0
  message : Message
deriving DecidableEq, Repr

def readMessage (size : Nat) : Reader Error DecodedRaftMessage := do
  let version ← readNumber (truncatedMessage "u8") 1
  if version ≠ kMessageVersion then
    Prog.throw (malformedMessage ("unsupported version " ++ toString version))
  else
    let groupId ← readNumber (truncatedMessage "u64") 8
    let type ← readNumber (truncatedMessage "u8") 1
    let message ← readFields size type
    pure { groupId, message }

def decodeMessage (payload : Bytes) : Except Error DecodedRaftMessage :=
  whole (malformedMessage "trailing bytes") (readMessage payload.length) payload

/-! ## Frames -/

def framePayload (payload : Bytes) : Bytes := frame 4 payload

def encodeFrame (groupId : Nat) (message : Message) : Bytes :=
  framePayload (encodeMessage groupId message)

/-- Bytes of a stream; those before `consumed` have been handed out. -/
structure FrameDecoder where
  buffer : Bytes := []
  consumed : Nat := 0

namespace FrameDecoder

def append (d : FrameDecoder) (bytes : Bytes) : FrameDecoder := { d with buffer := d.buffer ++ bytes }

/-- The next frame's payload, if the buffer holds all of it. -/
def next (d : FrameDecoder) : Except Error (Option Bytes) × FrameDecoder :=
  let pending := d.buffer.drop d.consumed
  if pending.length < 4 then (.ok none, d)
  else
    let size := ofBigEndian (pending.take 4)
    if kMaxFrameBytes < size then
      (.error (malformedMessage ("frame size " ++ toString size ++ " exceeds the limit")), d)
    else if pending.length - 4 < size then (.ok none, d)
    else
      let payload := (pending.drop 4).take size
      let consumed := d.consumed + 4 + size
      if consumed = d.buffer.length then (.ok (some payload), { buffer := [], consumed := 0 })
      else (.ok (some payload), { d with consumed })

end FrameDecoder

/-! ## What fits

A number fits its field, a list its count: the source's types (`uint64_t`, `size_t`) hold no others. -/

def LogEntry.Fits (e : LogEntry) : Prop :=
  e.index < 256 ^ 8 ∧ e.term < 256 ^ 8 ∧ e.data.length < 256 ^ 8

def RequestVoteRequest.Fits (r : RequestVoteRequest) : Prop :=
  r.term < 256 ^ 8 ∧ r.candidateId < 256 ^ 8 ∧ r.lastLogIndex < 256 ^ 8 ∧ r.lastLogTerm < 256 ^ 8

def AppendEntriesRequest.Fits (r : AppendEntriesRequest) : Prop :=
  r.term < 256 ^ 8 ∧ r.leaderId < 256 ^ 8 ∧ r.prevLogIndex < 256 ^ 8 ∧ r.prevLogTerm < 256 ^ 8 ∧
    r.leaderCommit < 256 ^ 8 ∧ r.round < 256 ^ 8 ∧ r.entries.length < 256 ^ 8 ∧
    ∀ e ∈ r.entries, e.Fits

def AppendEntriesResponse.Fits (r : AppendEntriesResponse) : Prop :=
  r.term < 256 ^ 8 ∧ r.matchIndex < 256 ^ 8 ∧ r.round < 256 ^ 8 ∧ r.hintLastIndex < 256 ^ 8

def InstallSnapshotRequest.Fits (r : InstallSnapshotRequest) : Prop :=
  r.term < 256 ^ 8 ∧ r.leaderId < 256 ^ 8 ∧ r.lastIncludedIndex < 256 ^ 8 ∧
    r.lastIncludedTerm < 256 ^ 8 ∧ r.offset < 256 ^ 8 ∧ r.data.length < 256 ^ 8

def Message.Fits : Message → Prop
  | .requestVote r => r.Fits
  | .requestVoteResponse r => r.term < 256 ^ 8
  | .appendEntries r => r.Fits
  | .appendEntriesResponse r => r.Fits
  | .installSnapshot r => r.Fits
  | .installSnapshotResponse r => r.term < 256 ^ 8

def DecodedRaftMessage.Fits (d : DecodedRaftMessage) : Prop :=
  d.groupId < 256 ^ 8 ∧ d.message.Fits

/-! ## Each part is an exact format -/

theorem reads_bool (e : Error) : Reads (readBool e) putBool fun _ => True where
  undo b rest _ := by
    unfold readBool putBool
    cases b with
    | true | false => rw [Prog.bind_apply_ok (readNumber_append e rest (by decide))]; rfl
  sound input b rest hr := by
    obtain ⟨n, left, hn, hb⟩ := Prog.bind_eq_ok.mp hr
    obtain ⟨-, rfl⟩ := (reads_number e 1).sound input n left hn
    by_cases hlt : 1 < n
    · rw [if_pos hlt] at hb
      simp at hb
    · rw [if_neg hlt] at hb
      obtain ⟨hok, rfl⟩ := Prod.mk.inj hb
      cases hok
      -- the two bytes that are accepted are the two that are written
      obtain rfl | rfl : n = 0 ∨ n = 1 := by omega
      · exact ⟨trivial, rfl⟩
      · exact ⟨trivial, rfl⟩

theorem reads_entry (e : Error) : Reads (readEntry e) putEntry LogEntry.Fits := by
  have hparts : Reads (readEntry e) _ fun b => True ∧ _ :=
    (reads_number e 8).bind LogEntry.index fun i _ =>
    (reads_number e 8).bind LogEntry.term fun t _ =>
    (reads_block e).bind LogEntry.data fun d _ => reads_record _ fun b => by
      cases b; simp [and_assoc]
  refine hparts.congr (fun b => ?_) fun b _ => ?_
  · simp [LogEntry.Fits]
  · simp [putEntry]

theorem reads_requestVote : Reads readRequestVote encodeRequestVote RequestVoteRequest.Fits := by
  have hparts : Reads readRequestVote _ fun b => True ∧ _ :=
    (reads_number _ 8).bind RequestVoteRequest.term fun t _ =>
    (reads_number _ 8).bind RequestVoteRequest.candidateId fun c _ =>
    (reads_number _ 8).bind RequestVoteRequest.lastLogIndex fun i _ =>
    (reads_number _ 8).bind RequestVoteRequest.lastLogTerm fun l _ =>
    reads_record _ fun b => by cases b; simp [and_assoc]
  refine hparts.congr (fun b => ?_) fun b _ => ?_
  · simp [RequestVoteRequest.Fits]
  · simp [encodeRequestVote]

theorem reads_requestVoteResponse : Reads readRequestVoteResponse encodeRequestVoteResponse
    fun r => r.term < 256 ^ 8 := by
  have hparts : Reads readRequestVoteResponse _ fun b => True ∧ _ :=
    (reads_number _ 8).bind RequestVoteResponse.term fun t _ =>
    (reads_bool _).bind RequestVoteResponse.voteGranted fun v _ =>
    reads_record _ fun b => by cases b; simp
  refine hparts.congr (fun b => ?_) fun b _ => ?_
  · simp
  · simp [encodeRequestVoteResponse]

/-- The entries of a request whose other fields are known.  Their count is checked against the size
    of the payload before any of them is read. -/
theorem reads_entries (size n : Nat) {known : AppendEntriesRequest → Prop}
    {build : List LogEntry → AppendEntriesRequest}
    (hbuild : ∀ b es, known b ∧ b.entries = es ↔ b = build es) :
    Reads (if size < n then Prog.throw (malformedMessage "entry count exceeds payload size")
      else do
        let entries ← readMany (readEntry (truncatedMessage "AppendEntriesRequest entry")) n
        pure (build entries))
      (fun b => b.entries.flatMap putEntry)
      fun b => (known b ∧ b.entries.length = n) ∧ b.entries.length ≤ size ∧
        ∀ e ∈ b.entries, e.Fits := by
  have hmany : Reads _ _ fun b => (known b ∧ b.entries.length = n) ∧ _ :=
    (reads_many (reads_entry (truncatedMessage "AppendEntriesRequest entry")) n).bind
      AppendEntriesRequest.entries fun es hes => reads_record (build es) fun b => by
        rw [← hbuild]
        constructor
        · rintro ⟨⟨hk, -⟩, rfl⟩
          exact ⟨hk, rfl⟩
        · rintro ⟨hk, rfl⟩
          exact ⟨⟨hk, hes.1⟩, rfl⟩
  have hguard := Reads.guarded (e := malformedMessage "entry count exceeds payload size")
    (c := size < n) (fun b => size < b.entries.length) (fun b hk => by rw [hk.2]) hmany
  refine hguard.congr (fun b => and_congr_right fun hk => ?_) fun b _ => (List.append_nil _).symm
  rw [Nat.not_lt, and_true, hk.2]
  simp

theorem reads_appendEntries (size : Nat) : Reads (readAppendEntries size) encodeAppendEntries
    fun r => r.Fits ∧ r.entries.length ≤ size := by
  have hparts : Reads (readAppendEntries size) _ fun b => True ∧ _ :=
    (reads_number _ 8).bind AppendEntriesRequest.term fun t _ =>
    (reads_number _ 8).bind AppendEntriesRequest.leaderId fun l _ =>
    (reads_number _ 8).bind AppendEntriesRequest.prevLogIndex fun i _ =>
    (reads_number _ 8).bind AppendEntriesRequest.prevLogTerm fun p _ =>
    (reads_number _ 8).bind AppendEntriesRequest.leaderCommit fun c _ =>
    (reads_number _ 8).bind AppendEntriesRequest.round fun r _ =>
    (reads_number _ 8).bind (fun b : AppendEntriesRequest => b.entries.length) fun n _ =>
    reads_entries size n fun b es => by cases b; simp; tauto
  refine hparts.congr (fun b => ?_) fun b _ => ?_
  · simp only [AppendEntriesRequest.Fits]
    tauto
  · simp [encodeAppendEntries]

theorem reads_appendEntriesResponse : Reads readAppendEntriesResponse encodeAppendEntriesResponse
    AppendEntriesResponse.Fits := by
  have hparts : Reads readAppendEntriesResponse _ fun b => True ∧ _ :=
    (reads_number _ 8).bind AppendEntriesResponse.term fun t _ =>
    (reads_bool _).bind AppendEntriesResponse.success fun s _ =>
    (reads_number _ 8).bind AppendEntriesResponse.matchIndex fun m _ =>
    (reads_number _ 8).bind AppendEntriesResponse.round fun r _ =>
    (reads_number _ 8).bind AppendEntriesResponse.hintLastIndex fun h _ =>
    reads_record _ fun b => by cases b; simp [and_assoc]
  refine hparts.congr (fun b => ?_) fun b _ => ?_
  · simp [AppendEntriesResponse.Fits]
  · simp [encodeAppendEntriesResponse]

theorem reads_installSnapshot : Reads readInstallSnapshot encodeInstallSnapshot
    InstallSnapshotRequest.Fits := by
  have hparts : Reads readInstallSnapshot _ fun b => True ∧ _ :=
    (reads_number _ 8).bind InstallSnapshotRequest.term fun t _ =>
    (reads_number _ 8).bind InstallSnapshotRequest.leaderId fun l _ =>
    (reads_number _ 8).bind InstallSnapshotRequest.lastIncludedIndex fun i _ =>
    (reads_number _ 8).bind InstallSnapshotRequest.lastIncludedTerm fun p _ =>
    (reads_number _ 8).bind InstallSnapshotRequest.offset fun o _ =>
    (reads_bool _).bind InstallSnapshotRequest.done fun f _ =>
    (reads_block _).bind InstallSnapshotRequest.data fun d _ =>
    reads_record _ fun b => by cases b; simp [and_assoc]
  refine hparts.congr (fun b => ?_) fun b _ => ?_
  · simp [InstallSnapshotRequest.Fits]
  · simp [encodeInstallSnapshot]

theorem reads_installSnapshotResponse :
    Reads readInstallSnapshotResponse encodeInstallSnapshotResponse fun r => r.term < 256 ^ 8 := by
  have hparts : Reads readInstallSnapshotResponse _ fun b => True ∧ _ :=
    (reads_number _ 8).bind InstallSnapshotResponse.term fun t _ =>
    (reads_bool _).bind InstallSnapshotResponse.success fun s _ =>
    reads_record _ fun b => by cases b; simp
  refine hparts.congr (fun b => ?_) fun b _ => ?_
  · simp
  · simp [encodeInstallSnapshotResponse]

/-! ## The whole message -/

def Message.entryCount : Message → Nat
  | .appendEntries r => r.entries.length
  | _ => 0

theorem reads_fields (size type : Nat) : Reads (readFields size type) Message.fields
    fun m => m.type = type ∧ m.Fits ∧ m.entryCount ≤ size := by
  match type with
  | 1 =>
    refine reads_requestVote.map Message.requestVote (fun _ => rfl) fun m => ?_
    cases m <;> simp [Message.type, Message.Fits, Message.entryCount]
  | 2 =>
    refine reads_requestVoteResponse.map Message.requestVoteResponse (fun _ => rfl) fun m => ?_
    cases m <;> simp [Message.type, Message.Fits, Message.entryCount]
  | 3 =>
    refine (reads_appendEntries size).map Message.appendEntries (fun _ => rfl) fun m => ?_
    cases m <;> simp [Message.type, Message.Fits, Message.entryCount]
  | 4 =>
    refine reads_appendEntriesResponse.map Message.appendEntriesResponse (fun _ => rfl) fun m => ?_
    cases m <;> simp [Message.type, Message.Fits, Message.entryCount]
  | 5 =>
    refine reads_installSnapshot.map Message.installSnapshot (fun _ => rfl) fun m => ?_
    cases m <;> simp [Message.type, Message.Fits, Message.entryCount]
  | 6 =>
    refine reads_installSnapshotResponse.map Message.installSnapshotResponse (fun _ => rfl) fun m => ?_
    cases m <;> simp [Message.type, Message.Fits, Message.entryCount]
  | 0 => exact reads_throw _ fun m h => by cases m <;> simp [Message.type] at h
  | n + 7 => exact reads_throw _ fun m h => by cases m <;> simp [Message.type] at h

theorem Message.type_lt (m : Message) : m.type < 256 ^ 1 := by
  cases m <;> simp [Message.type]

theorem reads_message (size : Nat) : Reads (readMessage size)
    (fun d => encodeMessage d.groupId d.message)
    fun d => d.Fits ∧ d.message.entryCount ≤ size := by
  have hfields : ∀ g t, Reads (do
      let message ← readFields size t
      pure (DecodedRaftMessage.mk g message)) (fun d => d.message.fields)
      fun d => ((True ∧ d.groupId = g) ∧ d.message.type = t) ∧
        d.message.Fits ∧ d.message.entryCount ≤ size := by
    intro g t
    refine (reads_fields size t).map (DecodedRaftMessage.mk g) (fun _ => rfl) fun d => ?_
    constructor
    · rintro ⟨⟨⟨-, rfl⟩, htype⟩, hfits⟩
      exact ⟨d.message, rfl, htype, hfits⟩
    · rintro ⟨m, rfl, htype, hfits⟩
      exact ⟨⟨⟨trivial, rfl⟩, htype⟩, hfits⟩
  have hbody : Reads (do
      let groupId ← readNumber (truncatedMessage "u64") 8
      let type ← readNumber (truncatedMessage "u8") 1
      let message ← readFields size type
      pure (DecodedRaftMessage.mk groupId message)) _ fun d => True ∧ _ :=
    (reads_number (truncatedMessage "u64") 8).bind DecodedRaftMessage.groupId fun g _ =>
    (reads_number (truncatedMessage "u8") 1).bind
      (fun d : DecodedRaftMessage => d.message.type) fun t _ => hfields g t
  -- the version is read first, and only one is accepted
  constructor
  · rintro d rest ⟨⟨hgroup, hfits⟩, hcount⟩
    unfold readMessage encodeMessage
    rw [List.append_assoc, List.append_assoc, List.append_assoc,
      Prog.bind_apply_ok (readNumber_append _ _ (by decide)), if_neg (by simp)]
    have hundo := hbody.undo d rest ⟨trivial, hgroup, d.message.type_lt, hfits, hcount⟩
    rwa [List.append_assoc, List.append_assoc] at hundo
  · intro input d rest hr
    obtain ⟨v, left, hv, hd⟩ := Prog.bind_eq_ok.mp hr
    obtain ⟨-, rfl⟩ := (reads_number _ 1).sound input v left hv
    by_cases hversion : v ≠ kMessageVersion
    · rw [if_pos hversion] at hd
      simp at hd
    · rw [if_neg hversion] at hd
      obtain ⟨⟨-, hgroup, -, hfits, hcount⟩, rfl⟩ := hbody.sound left d rest hd
      refine ⟨⟨⟨hgroup, hfits⟩, hcount⟩, ?_⟩
      rw [not_not.mp hversion]
      simp [encodeMessage]

theorem entryCount_le (g : Nat) (m : Message) : m.entryCount ≤ (encodeMessage g m).length := by
  have hfields : m.entryCount ≤ m.fields.length := by
    cases m with
    | appendEntries r =>
      have hentry : ∀ e, 0 < (putEntry e).length := by
        intro e
        simp only [putEntry, block, List.length_append, length_bigEndian]
        omega
      have hle := length_le_length_flatMap hentry r.entries
      simp only [Message.entryCount, Message.fields, encodeAppendEntries, List.length_append]
      omega
    | _ => exact Nat.zero_le _
  unfold encodeMessage
  rw [List.length_append]
  omega

/-- **The format is exact**: what is accepted as a message is what is written for it. -/
theorem decodeMessage_iff {payload : Bytes} {d : DecodedRaftMessage} :
    decodeMessage payload = .ok d ↔ d.Fits ∧ payload = encodeMessage d.groupId d.message := by
  unfold decodeMessage
  rw [(reads_message payload.length).whole_iff]
  constructor
  · rintro ⟨⟨hfits, -⟩, heq⟩
    exact ⟨hfits, heq⟩
  · rintro ⟨hfits, heq⟩
    refine ⟨⟨hfits, ?_⟩, heq⟩
    rw [heq]
    exact entryCount_le _ _

/-- No message begins another one. -/
theorem decodeMessage_append {payload more : Bytes} {d d' : DecodedRaftMessage}
    (h : decodeMessage payload = .ok d) (h' : decodeMessage (payload ++ more) = .ok d') :
    more = [] := by
  obtain ⟨hfits, hd⟩ := decodeMessage_iff.mp h
  obtain ⟨hfits', hd'⟩ := decodeMessage_iff.mp h'
  have hcount := entryCount_le d.groupId d.message
  have hcount' := entryCount_le d'.groupId d'.message
  rw [← hd] at hcount
  rw [← hd', List.length_append] at hcount'
  refine ((reads_message (payload.length + more.length)).append_unique
    ⟨hfits, by omega⟩ ⟨hfits', hcount'⟩ ?_).1
  rw [← hd, ← hd']

/-- **The wire format.**  A message comes back from its encoding; what is accepted is the encoding of
    the message it is accepted as; of two byte strings one of which begins the other at most one is
    accepted; and a proposal without empty range removals comes back from its payload. -/
theorem wire_format_exact :
    (∀ g m, g < 256 ^ 8 → m.Fits → decodeMessage (encodeMessage g m) = .ok ⟨g, m⟩) ∧
    (∀ b g m, decodeMessage b = .ok ⟨g, m⟩ → encodeMessage g m = b) ∧
    (∀ b more d, decodeMessage b = .ok d → more ≠ [] → ∀ d', decodeMessage (b ++ more) ≠ .ok d') ∧
    (∀ p : ProposalPayload, p.Fits → p.batch.all Kv.Op.valid = true →
      decodeProposalPayload (encodeProposalPayload p) = .ok p) := by
  refine ⟨?_, ?_, ?_, ?_⟩
  · intro g m hg hm
    exact decodeMessage_iff.mpr ⟨⟨hg, hm⟩, rfl⟩
  · intro b g m h
    exact (decodeMessage_iff.mp h).2.symm
  · intro b more d h hmore d' h'
    exact hmore (decodeMessage_append h h')
  · intro p hp hvalid
    rw [decodeProposalPayload_encode hp, if_pos hvalid]

/-- A vote and a batch with a put, a remove and a range. -/
theorem wire_format_exact_vote :
    decodeMessage (encodeMessage 2 (.requestVoteResponse ⟨5, true⟩))
      = .ok ⟨2, .requestVoteResponse ⟨5, true⟩⟩ ∧
    decodeProposalPayload
      (encodeProposalPayload ⟨1, 2, [.put [1] [2], .remove [3], .removeRange [4] [5]]⟩)
      = .ok ⟨1, 2, [.put [1] [2], .remove [3], .removeRange [4] [5]]⟩ := by
  refine ⟨wire_format_exact.1 2 (.requestVoteResponse ⟨5, true⟩) (by decide)
    (show 5 < 256 ^ 8 by decide),
    wire_format_exact.2.2.2 _ ⟨by decide, by decide, by decide, ?_⟩ (by decide)⟩
  simp [opFits]

end SqlDb.Raft
