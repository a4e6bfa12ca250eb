/-
  THE LOG STORE  (raft/memory_log_store.h).

  Entries are kept from the snapshot boundary on: position `k` of `entries` holds the entry with
  index `lastIncludedIndex + 1 + k`.  At the boundary itself only the term is known.

  Reads return what was written.  A WRITE may be refused by the device: `faults` says, for the step
  being executed, which writes are and with what error.  A refused write changes nothing — so a
  refused write followed by a restart is also a crash in the middle of a handler.
-/
import SqlDb.Lib.History
import SqlDb.Raft.Types

namespace SqlDb.Raft

/-- The operations that write to the device. -/
inductive WriteOp
  | append (entry : LogEntry)
  | truncateSuffix (start : Nat)
  | saveHardState (hardState : HardState)
  | installSnapshot (snapshot : SnapshotMetadata)
deriving DecidableEq, Repr

structure LogStore where
  entries : List LogEntry := []
  lastIndex : Nat := 0
  snapshotMeta : SnapshotMetadata := {}
  hardState : HardState := {}
  /-- The writes the device refuses during the current step. -/
  faults : WriteOp → Option Error := fun _ => none

namespace LogStore

/-- The device's answer to a write that the store itself accepts. -/
def write (s : LogStore) (op : WriteOp) (result : LogStore) : Except Error LogStore :=
  match s.faults op with
  | some e => .error e
  | none => .ok result

def append (s : LogStore) (entry : LogEntry) : Except Error LogStore :=
  if entry.index = 0 ∨ entry.term = 0 then
    .error ⟨.invalidArgument, "invalid log entry"⟩
  else if entry.index ≠ s.lastIndex + 1 then
    .error ⟨.invalidArgument, "append must extend the log by exactly one entry"⟩
  else
    s.write (.append entry)
      { s with entries := s.entries ++ [entry], lastIndex := entry.index }

def entryAt (s : LogStore) (index : Nat) : Except Error LogEntry :=
  if index = 0 ∨ s.lastIndex < index then
    .error ⟨.invalidArgument, "log index out of range"⟩
  else if index < s.snapshotMeta.lastIncludedIndex then
    .error ⟨.invalidArgument, "log index is inside the compacted snapshot prefix"⟩
  else if index = s.snapshotMeta.lastIncludedIndex then
    .ok ⟨index, s.snapshotMeta.lastIncludedTerm, []⟩
  else
    -- the source indexes a vector here; in range by `LogStore.Wf` below
    match s.entries[index - 1 - s.snapshotMeta.lastIncludedIndex]? with
    | some entry => .ok entry
    | none => .error ⟨.internalError, "vector index out of range"⟩

def truncateSuffix (s : LogStore) (start : Nat) : Except Error LogStore :=
  if start = 0 ∨ start ≤ s.snapshotMeta.lastIncludedIndex ∨ s.lastIndex + 1 < start then
    .error ⟨.invalidArgument, "truncate suffix out of range"⟩
  else
    s.write (.truncateSuffix start)
      { s with
        entries := s.entries.take (start - 1 - s.snapshotMeta.lastIncludedIndex)
        lastIndex := start - 1 }

def saveHardState (s : LogStore) (hardState : HardState) : Except Error LogStore :=
  s.write (.saveHardState hardState) { s with hardState := hardState }

def installSnapshot (s : LogStore) (snapshot : SnapshotMetadata) : Except Error LogStore :=
  if snapshot.lastIncludedIndex = 0 ∨ snapshot.lastIncludedTerm = 0 then
    .error ⟨.invalidArgument, "invalid snapshot metadata"⟩
  else
    s.write (.installSnapshot snapshot)
      { s with
        entries := s.entries.dropWhile fun e => e.index ≤ snapshot.lastIncludedIndex
        snapshotMeta := snapshot
        lastIndex := max s.lastIndex snapshot.lastIncludedIndex }

/-! ## Well-formed stores -/

/-- The entries are the ones above the boundary, in order and without a gap. -/
structure Wf (s : LogStore) : Prop where
  length : s.snapshotMeta.lastIncludedIndex + s.entries.length = s.lastIndex
  index : ∀ (k : Nat) e, s.entries[k]? = some e →
    e.index = s.snapshotMeta.lastIncludedIndex + 1 + k

variable {s s' : LogStore} {e : LogEntry} {i : Nat}

theorem wf_empty : Wf {} where
  length := rfl
  index := fun k e he => by simp at he

theorem Wf.boundary_le (h : Wf s) : s.snapshotMeta.lastIncludedIndex ≤ s.lastIndex := by
  have := h.length
  omega

theorem write_ok {op : WriteOp} {r : LogStore} (h : s.write op r = .ok s') : s' = r := by
  unfold write at h
  split at h
  · simp at h
  · exact (Except.ok.inj h).symm

theorem append_ok (h : s.append e = .ok s') :
    e.index = s.lastIndex + 1 ∧ e.term ≠ 0 ∧
      s' = { s with entries := s.entries ++ [e], lastIndex := e.index } := by
  unfold append at h
  split at h
  · simp at h
  · split at h
    · simp at h
    · rename_i h0 h1
      exact ⟨by omega, by omega, write_ok h⟩

theorem truncateSuffix_ok {start : Nat} (h : s.truncateSuffix start = .ok s') :
    s.snapshotMeta.lastIncludedIndex < start ∧ start ≤ s.lastIndex + 1 ∧
      s' = { s with
        entries := s.entries.take (start - 1 - s.snapshotMeta.lastIncludedIndex)
        lastIndex := start - 1 } := by
  unfold truncateSuffix at h
  split at h
  · simp at h
  · exact ⟨by omega, by omega, write_ok h⟩

theorem saveHardState_ok {hs : HardState} (h : s.saveHardState hs = .ok s') :
    s' = { s with hardState := hs } := write_ok h

theorem installSnapshot_ok {m : SnapshotMetadata} (h : s.installSnapshot m = .ok s') :
    m.lastIncludedIndex ≠ 0 ∧ m.lastIncludedTerm ≠ 0 ∧
      s' = { s with
        entries := s.entries.dropWhile fun e => e.index ≤ m.lastIncludedIndex
        snapshotMeta := m
        lastIndex := max s.lastIndex m.lastIncludedIndex } := by
  unfold installSnapshot at h
  split at h
  · simp at h
  · exact ⟨by omega, by omega, write_ok h⟩

/-! ## Reading, and reading after a write -/

theorem entryAt_boundary (h0 : 0 < s.snapshotMeta.lastIncludedIndex)
    (h : s.snapshotMeta.lastIncludedIndex ≤ s.lastIndex) :
    s.entryAt s.snapshotMeta.lastIncludedIndex =
      .ok ⟨s.snapshotMeta.lastIncludedIndex, s.snapshotMeta.lastIncludedTerm, []⟩ := by
  unfold entryAt
  rw [if_neg (by omega), if_neg (by omega), if_pos rfl]

/-- Above the boundary a read is a lookup. -/
theorem entryAt_above (hi : s.snapshotMeta.lastIncludedIndex < i) (hl : i ≤ s.lastIndex) :
    s.entryAt i = .ok e ↔
      s.entries[i - 1 - s.snapshotMeta.lastIncludedIndex]? = some e := by
  unfold entryAt
  rw [if_neg (by omega), if_neg (by omega), if_neg (by omega)]
  cases hx : s.entries[i - 1 - s.snapshotMeta.lastIncludedIndex]? with
  | none | some => simp

theorem entryAt_range (h : s.entryAt i = .ok e) :
    0 < i ∧ i ≤ s.lastIndex ∧ s.snapshotMeta.lastIncludedIndex ≤ i := by
  unfold entryAt at h
  split at h
  · simp at h
  · split at h
    · simp at h
    · exact ⟨by omega, by omega, by omega⟩

theorem Wf.entryAt_exists (h : Wf s) (h0 : 0 < i) (hlo : s.snapshotMeta.lastIncludedIndex ≤ i)
    (hhi : i ≤ s.lastIndex) : ∃ e, s.entryAt i = .ok e := by
  rcases Nat.eq_or_lt_of_le hlo with heq | hlt
  · obtain rfl := heq
    exact ⟨_, entryAt_boundary h0 hhi⟩
  · have hlen := h.length
    have hk : i - 1 - s.snapshotMeta.lastIncludedIndex < s.entries.length := by omega
    exact ⟨_, (entryAt_above hlt hhi).mpr (List.getElem?_eq_getElem hk)⟩

theorem Wf.entryAt_index (h : Wf s) (he : s.entryAt i = .ok e) : e.index = i := by
  obtain ⟨h0, hhi, hlo⟩ := entryAt_range he
  rcases Nat.eq_or_lt_of_le hlo with heq | hlt
  · obtain rfl := heq
    rw [entryAt_boundary h0 hhi] at he
    rw [← Except.ok.inj he]
  · rw [h.index _ _ ((entryAt_above hlt hhi).mp he)]
    omega

theorem Wf.append (h : Wf s) (ha : s.append e = .ok s') : Wf s' := by
  obtain ⟨hidx, -, rfl⟩ := append_ok ha
  have hlen := h.length
  refine ⟨by simp only [List.length_append, List.length_singleton]; omega, fun k x hx => ?_⟩
  rcases getElem?_snoc.mp hx with hold | ⟨rfl, rfl⟩
  · exact h.index k x hold
  · show x.index = s.snapshotMeta.lastIncludedIndex + 1 + s.entries.length
    omega

/-- Stores with the same snapshot agree on an entry that both have at the same place. -/
theorem entryAt_congr (hmeta : s'.snapshotMeta = s.snapshotMeta)
    (hlast : i ≤ s'.lastIndex ↔ i ≤ s.lastIndex)
    (hentry : s.snapshotMeta.lastIncludedIndex < i → i ≤ s.lastIndex →
      s'.entries[i - 1 - s.snapshotMeta.lastIncludedIndex]?
        = s.entries[i - 1 - s.snapshotMeta.lastIncludedIndex]?) : s'.entryAt i = s.entryAt i := by
  have hout : (i = 0 ∨ s'.lastIndex < i) ↔ (i = 0 ∨ s.lastIndex < i) := by omega
  unfold entryAt
  rw [hmeta]
  simp only [hout]
  split_ifs
  · rfl
  · rfl
  · rfl
  · rw [hentry (by omega) (by omega)]

/-- After an append: the new entry at the end, the old ones below. -/
theorem Wf.entryAt_append (h : Wf s) (ha : s.append e = .ok s') (i : Nat) :
    s'.entryAt i = if i = e.index then .ok e else s.entryAt i := by
  obtain ⟨hidx, -, rfl⟩ := append_ok ha
  have hlen := h.length
  by_cases hi : i = e.index
  · unfold entryAt
    rw [if_pos hi]
    rw [if_neg (by simp only; omega), if_neg (by simp only; omega), if_neg (by simp only; omega)]
    have : i - 1 - s.snapshotMeta.lastIncludedIndex = s.entries.length := by omega
    simp [this]
  · rw [if_neg hi]
    refine entryAt_congr rfl (by simp only; omega) fun _ _ => ?_
    exact List.getElem?_append_left (by omega)

theorem Wf.truncateSuffix {start : Nat} (h : Wf s) (ht : s.truncateSuffix start = .ok s') :
    Wf s' := by
  obtain ⟨hlo, hhi, rfl⟩ := truncateSuffix_ok ht
  have hlen := h.length
  refine ⟨by simp only [List.length_take]; omega, fun k x hx => ?_⟩
  simp only [List.getElem?_take] at hx
  split at hx
  · exact h.index k x hx
  · simp at hx

/-- After a truncation: nothing at or above the cut, the old entries below. -/
theorem entryAt_truncateSuffix {start : Nat} (ht : s.truncateSuffix start = .ok s')
    (hi : i < start) : s'.entryAt i = s.entryAt i := by
  obtain ⟨hlo, hhi, rfl⟩ := truncateSuffix_ok ht
  refine entryAt_congr rfl (by simp only; omega) fun _ _ => ?_
  rw [List.getElem?_take, if_pos (by omega)]

/-- Dropping the superseded entries is dropping a prefix of known length. -/
theorem Wf.dropWhile_eq (h : Wf s) {b : Nat} (hb : s.snapshotMeta.lastIncludedIndex ≤ b) :
    s.entries.dropWhile (fun e => e.index ≤ b) =
      s.entries.drop (b - s.snapshotMeta.lastIncludedIndex) := by
  -- generalised over the boundary, for the induction on the entries
  suffices hgen : ∀ (l : List LogEntry) (m : Nat), m ≤ b →
      (∀ (k : Nat) e, l[k]? = some e → e.index = m + 1 + k) →
      l.dropWhile (fun e => e.index ≤ b) = l.drop (b - m) from
    hgen s.entries _ hb h.index
  intro l
  induction l with
  | nil => intro m _ _; simp
  | cons x xs ih =>
    intro m hm hidx
    have hx := hidx 0 x rfl
    rcases Nat.eq_or_lt_of_le hm with heq | hlt
    · subst heq
      rw [List.dropWhile_cons_of_neg (by simp; omega), Nat.sub_self, List.drop_zero]
    · rw [List.dropWhile_cons_of_pos (by simp; omega),
        ih (m + 1) (by omega) fun k e he => by have := hidx (k + 1) e he; omega]
      obtain ⟨d, hd⟩ : ∃ d, b - m = d + 1 := ⟨b - m - 1, by omega⟩
      rw [hd, List.drop_succ_cons, show b - (m + 1) = d by omega]

theorem Wf.installSnapshot {m : SnapshotMetadata} (h : Wf s)
    (hb : s.snapshotMeta.lastIncludedIndex ≤ m.lastIncludedIndex)
    (hi : s.installSnapshot m = .ok s') : Wf s' := by
  obtain ⟨-, -, rfl⟩ := installSnapshot_ok hi
  have hlen := h.length
  constructor
  · simp only [h.dropWhile_eq hb, List.length_drop]
    omega
  · intro k x hx
    simp only [h.dropWhile_eq hb, List.getElem?_drop] at hx
    rw [h.index _ x hx]
    simp only
    omega

/-- After a snapshot: only the term at the boundary, the old entries above it. -/
theorem Wf.entryAt_installSnapshot {m : SnapshotMetadata} (h : Wf s)
    (hb : s.snapshotMeta.lastIncludedIndex ≤ m.lastIncludedIndex)
    (hi : s.installSnapshot m = .ok s') (hlt : m.lastIncludedIndex < i) :
    s'.entryAt i = s.entryAt i := by
  obtain ⟨-, -, rfl⟩ := installSnapshot_ok hi
  unfold entryAt
  simp only
  by_cases hout : i = 0 ∨ s.lastIndex < i
  · rw [if_pos (by omega), if_pos hout]
  · rw [if_neg (by omega), if_neg hout, if_neg (by omega), if_neg (by omega), if_neg (by omega),
      if_neg (by omega), h.dropWhile_eq hb, List.getElem?_drop,
      show m.lastIncludedIndex - s.snapshotMeta.lastIncludedIndex +
        (i - 1 - m.lastIncludedIndex) = i - 1 - s.snapshotMeta.lastIncludedIndex by omega]

end LogStore

end SqlDb.Raft
