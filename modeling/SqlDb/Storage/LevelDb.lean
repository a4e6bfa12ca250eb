/-
  THE LEVELDB STORE'S BATCHES  (`LevelDBStore::apply_batch_locked`,
  storage/leveldb_engine/leveldb_engine.cpp) AGAINST THE MOCK STORE'S.

  leveldb has no range delete, so the store expands one into single deletes of the keys an iterator
  finds — in the database as it is BEFORE the batch.  The mock store applies the operations one after
  the other.  A key that is new to the store, put by the batch and then covered by a later range
  delete of the same batch is therefore deleted by the one and kept by the other, and that is the
  only difference (`engines_agree_iff`).

  What is assumed of leveldb: a `WriteBatch` is applied as a whole and in order, and an iterator
  visits the keys in order as they were when it was created.
-/
import SqlDb.Storage.TxBuffer

namespace SqlDb.Kv

structure LevelDbStore where
  data : Data := default
  isOpen : Bool := false
  /-- Writes to the database fail. -/
  failWrites : Bool := false
deriving DecidableEq

namespace LevelDbStore

/-- The records one operation adds to the leveldb batch: `Put`s and `Delete`s only. -/
def expand (data : Data) : Op → WriteBatch
  | .put key value => [.put key value]
  | .remove key => [.remove key]
  | .removeRange start stop =>
    ((data.entries.dropWhile fun p => p.1 < start).takeWhile fun p => p.1 < stop).map
      fun p => .remove p.1

def applyBatchLocked (s : LevelDbStore) (batch : WriteBatch) : Status × LevelDbStore :=
  if !s.isOpen then (.internalError, s)
  else if !batch.all Op.valid then (.invalidArgument, s)
  else if s.failWrites then (.ioError, s)
  else (.ok, { s with data := applyOps (batch.flatMap (expand s.data)) s.data })

end LevelDbStore

open LevelDbStore

/-! ## Operations and one key -/

/-- The key a put or a remove is about. -/
def Op.point : Op → Option Bytes
  | .put key _ => some key
  | .remove key => some key
  | .removeRange _ _ => none

theorem Op.answer_removeRange (start stop k : Bytes) : (Op.removeRange start stop).answer k
    = if !decide (k < start) && decide (k < stop) then .tombstone else .none := rfl

theorem Op.answer_cases {op : Op} {k : Bytes} (h : op.point ≠ some k) :
    op.answer k = .none ∨ op.answer k = .tombstone := by
  cases op with
  | put | remove => exact Or.inl (if_neg fun hk => h (by rw [hk]; rfl))
  | removeRange start stop =>
    rw [Op.answer_removeRange]
    split
    · exact Or.inr rfl
    · exact Or.inl rfl

/-- The batch's last put or remove of `k`, if there is one. -/
theorem last_point (k : Bytes) (ops : WriteBatch) :
    (∀ op ∈ ops, op.point ≠ some k) ∨
      ∃ pre op post, ops = pre ++ op :: post ∧ op.point = some k ∧
        ∀ o ∈ post, o.point ≠ some k := by
  induction ops with
  | nil => exact Or.inl (by simp)
  | cons a ops ih =>
    rcases ih with hnone | ⟨pre, op, post, rfl, hop, hpost⟩
    · by_cases ha : a.point = some k
      · exact Or.inr ⟨[], a, ops, rfl, ha, hnone⟩
      · exact Or.inl (List.forall_mem_cons.mpr ⟨ha, hnone⟩)
    · exact Or.inr ⟨a :: pre, op, post, rfl, hop, hpost⟩

theorem find_applyOps_untouched {ops : WriteBatch} {k : Bytes} (h : ∀ op ∈ ops, op.answer k = .none)
    (data : Data) : (applyOps ops data).find k = data.find k := by
  induction ops generalizing data with
  | nil => rfl
  | cons op ops ih =>
    obtain ⟨hop, hops⟩ := List.forall_mem_cons.mp h
    show (applyOps ops (applyOp data op)).find k = _
    rw [ih hops, find_applyOp, hop]
    rfl

/-- Without a put of its own a key can only go away. -/
theorem find_applyOps_gone {ops : WriteBatch} {k : Bytes} (h : ∀ op ∈ ops, op.point ≠ some k)
    {data : Data} (hgone : data.find k = none ∨ ∃ op ∈ ops, op.answer k = .tombstone) :
    (applyOps ops data).find k = none := by
  induction ops generalizing data with
  | nil => exact hgone.resolve_right (by simp)
  | cons op ops ih =>
    obtain ⟨hop, hops⟩ := List.forall_mem_cons.mp h
    show (applyOps ops (applyOp data op)).find k = none
    refine ih hops ?_
    rw [find_applyOp]
    rcases Op.answer_cases hop with ha | ha
    · rw [ha]
      refine hgone.imp id ?_
      rintro ⟨o, ho, hoa⟩
      rcases List.mem_cons.mp ho with rfl | ho
      · rw [ha] at hoa
        simp at hoa
      · exact ⟨o, ho, hoa⟩
    · rw [ha]
      exact Or.inl rfl

/-! ## The expanded batch -/

section Expand

variable {data : Data} {k : Bytes}

theorem expand_removeRange (start stop : Bytes) : expand data (.removeRange start stop)
    = (data.inside { start := some start, stop := some stop }).entries.map fun p => .remove p.1 :=
  congrArg (List.map _) (materialize_eq data { start := some start, stop := some stop })

/-- For a key of the store the expanded operation does what the operation does. -/
theorem find_expand_of_mem {v : Bytes} (hk : data.find k = some v) (op : Op) (d : Data) :
    (applyOps (expand data op) d).find k = (op.answer k).resolve (d.find k) := by
  cases op with
  | put key value => exact find_applyOp d (.put key value) k
  | remove key => exact find_applyOp d (.remove key) k
  | removeRange start stop =>
    rw [expand_removeRange]
    have hcovers : KeyRange.contains { start := some start, stop := some stop } k
        = (!decide (k < start) && decide (k < stop)) := rfl
    rw [Op.answer_removeRange]
    split_ifs with hout
    · refine SortedMap.find_eq_none.mpr fun v' hmem => ?_
      refine ((mem_applyOps_removes _ _).mp hmem).2 (k, v) ?_ rfl
      exact SortedMap.mem_keep.mpr ⟨SortedMap.find_eq_some.mp hk, hcovers.trans hout⟩
    · refine find_applyOps_untouched (fun op hop => ?_) d
      obtain ⟨p, hp, rfl⟩ := List.mem_map.mp hop
      refine if_neg fun hkp => hout ?_
      rw [← hcovers, hkp]
      exact (SortedMap.mem_keep.mp hp).2

/-- An expanded range delete says nothing about a key that is new to the store. -/
theorem answer_expand_of_new (hk : data.find k = none) {op : Op} (hop : op.point ≠ some k) :
    ∀ o ∈ expand data op, o.answer k = .none := by
  intro o ho
  cases op with
  | put | remove =>
    obtain rfl := List.mem_singleton.mp ho
    exact if_neg fun h => hop (by rw [h]; rfl)
  | removeRange start stop =>
    rw [expand_removeRange] at ho
    obtain ⟨p, hp, rfl⟩ := List.mem_map.mp ho
    refine if_neg fun h => SortedMap.find_eq_none.mp hk p.2 ?_
    rw [h]
    exact (SortedMap.mem_keep.mp hp).1

theorem find_expandAll_of_mem {v : Bytes} (hk : data.find k = some v) (ops : WriteBatch)
    {d d' : Data} (h : d.find k = d'.find k) :
    (applyOps ops d).find k = (applyOps (ops.flatMap (expand data)) d').find k := by
  induction ops generalizing d d' with
  | nil => exact h
  | cons op ops ih =>
    rw [List.flatMap_cons, applyOps_append]
    refine ih ?_
    rw [find_applyOp, find_expand_of_mem hk, h]

theorem find_expandAll_of_new (hk : data.find k = none) {ops : WriteBatch}
    (h : ∀ op ∈ ops, op.point ≠ some k) (d : Data) :
    (applyOps (ops.flatMap (expand data)) d).find k = d.find k := by
  refine find_applyOps_untouched (fun o ho => ?_) d
  obtain ⟨op, hop, ho⟩ := List.mem_flatMap.mp ho
  exact answer_expand_of_new hk (h op hop) o ho

theorem expand_point {op : Op} (h : op.point = some k) : expand data op = [op] := by
  cases op with
  | put | remove => rfl
  | removeRange start stop => simp [Op.point] at h

/-- The last put or remove of a new key decides alone. -/
theorem find_expandAll_last (hk : data.find k = none) {pre post : WriteBatch} {op : Op}
    (hop : op.point = some k) (hpost : ∀ o ∈ post, o.point ≠ some k) (d : Data) :
    (applyOps ((pre ++ op :: post).flatMap (expand data)) d).find k = (op.answer k).resolve none := by
  rw [List.flatMap_append, List.flatMap_cons, expand_point hop, applyOps_append, applyOps_append,
    find_expandAll_of_new hk hpost]
  show (applyOp _ op).find k = _
  rw [find_applyOp]
  cases op with
  | put key value | remove key =>
    have hkey : k = key := (Option.some.inj hop).symm
    simp only [Op.answer, if_pos hkey]
    rfl
  | removeRange start stop => simp [Op.point] at hop

end Expand

/-! ## When the engines agree -/

/-- No put of a key that is new to the store is followed by a range delete that covers it, unless the
    key itself is put or removed again. -/
def NoShadowedPut (data : Data) (batch : WriteBatch) : Prop :=
  ∀ pre k v post, batch = pre ++ .put k v :: post → data.find k = none →
    (∀ op ∈ post, op.point ≠ some k) → ∀ op ∈ post, op.answer k = .none

/-- Applying in order and expanding first give the same content exactly without shadowed puts. -/
theorem applyOps_eq_expand_iff (data : Data) (batch : WriteBatch) :
    applyOps batch data = applyOps (batch.flatMap (expand data)) data ↔
      NoShadowedPut data batch := by
  constructor
  · rintro heq pre k v post rfl hk hpost op hop
    by_contra hne
    -- the mock store loses the key, leveldb keeps it
    have hmock : (applyOps (pre ++ .put k v :: post) data).find k = none := by
      rw [applyOps_append]
      show (applyOps post (applyOp _ (.put k v))).find k = none
      exact find_applyOps_gone hpost
        (Or.inr ⟨op, hop, (Op.answer_cases (hpost op hop)).resolve_left hne⟩)
    rw [heq, find_expandAll_last hk rfl hpost] at hmock
    simp [Op.answer, OverlayOp.resolve] at hmock
  · intro hsafe
    refine SortedMap.ext_find fun k => ?_
    cases hk : data.find k with
    | some v => exact find_expandAll_of_mem hk batch rfl
    | none =>
      rcases last_point k batch with hnone | ⟨pre, op, post, rfl, hop, hpost⟩
      · rw [find_expandAll_of_new hk hnone, find_applyOps_gone hnone (Or.inl hk), hk]
      · rw [find_expandAll_last hk hop hpost, applyOps_append]
        show (applyOps post (applyOp _ op)).find k = _
        cases op with
        | put key v =>
          obtain rfl : key = k := Option.some.inj hop
          rw [find_applyOps_untouched (hsafe pre key v post rfl hk hpost), find_applyOp]
          simp [Op.answer, OverlayOp.resolve]
        | remove key =>
          obtain rfl : key = k := Option.some.inj hop
          have hgone : (applyOp (applyOps pre data) (.remove key)).find key = none := by
            rw [find_applyOp]
            simp [Op.answer, OverlayOp.resolve]
          rw [find_applyOps_gone hpost (Or.inl hgone)]
          simp [Op.answer, OverlayOp.resolve]
        | removeRange start stop => simp [Op.point] at hop

/-- Both engines reject the batch and change nothing, or both end with the same content. -/
def EnginesAgree (data : Data) (batch : WriteBatch) : Prop :=
  let mock := ({ data, isOpen := true } : MockStore).writeBatch batch
  let level := ({ data, isOpen := true } : LevelDbStore).applyBatchLocked batch
  (mock.1 ≠ .ok ∧ level.1 ≠ .ok ∧ mock.2.data = data ∧ level.2.data = data) ∨
    (mock.1 = .ok ∧ level.1 = .ok ∧ mock.2.data = level.2.data)

/-- **The two engines commit the same result** exactly if the batch is rejected or shadows no put. -/
theorem engines_agree_iff (data : Data) (batch : WriteBatch) :
    EnginesAgree data batch ↔ (batch.all Op.valid = true → NoShadowedPut data batch) := by
  by_cases hvalid : batch.all Op.valid = true
  · simp only [EnginesAgree, MockStore.writeBatch, LevelDbStore.applyBatchLocked, hvalid,
      Bool.not_true, Bool.false_eq_true, if_false, ne_eq, not_true_eq_false, false_and, false_or,
      true_and, forall_const]
    exact applyOps_eq_expand_iff data batch
  · simp [EnginesAgree, MockStore.writeBatch, LevelDbStore.applyBatchLocked, hvalid]

/-- A key is put and its range deleted in one batch: gone from the mock store, there in leveldb. -/
theorem shadowed_put_differs :
    ¬ EnginesAgree default [.put [1] [7], .removeRange [0] [9]] ∧
    (({ isOpen := true } : MockStore).writeBatch [.put [1] [7], .removeRange [0] [9]]).2.data.find [1]
      = none ∧
    (({ isOpen := true } : LevelDbStore).applyBatchLocked
      [.put [1] [7], .removeRange [0] [9]]).2.data.find [1] = some [7] := by
  refine ⟨?_, by decide, by decide⟩
  rintro (⟨hmock, -⟩ | ⟨-, -, hdata⟩)
  · exact hmock (by decide)
  · exact absurd (congrArg (SortedMap.find · [1]) hdata) (by decide)

end SqlDb.Kv
