/-
  THE LEVELDB ITERATOR  (`LevelDBIterator`, storage/leveldb_engine/leveldb_engine.cpp) AGAINST THE
  MOCK ITERATOR'S.

  leveldb's own iterator walks ALL keys of the store; `LevelDBIterator` moves it and hides what lies
  outside the range.  The mock iterator walks a copy of the rows of the range.

  What is assumed of leveldb: its iterator is a position in the sorted list of rows; `Seek` goes to
  the first key that is not below the target, and every way off either end leaves it invalid.

  Both report what stands at their position, so two positions agree if they show the same row
  (`seen`).  Moving keeps them in agreement.  Of the calls that choose a position, three do not:
    * to the END of a range whose upper bound lies beyond the last key, `Seek` finds nothing, and the
      code gives up instead of taking the last key;
    * to the last row BACKWARDS with a start that is not a key, the code steps over the first row of
      the range, and out of it;
    * to the last row backwards without a start, the code goes to the wrong end.
  `iterators_agree_iff` says that there are no others.
-/
import SqlDb.Lib.HalfOpen
import SqlDb.Storage.Iterator

namespace SqlDb.Kv

open List

open MockIterator (lowerBoundIndex upperBoundIndex seekTarget)

/-- The iterator of the leveldb library; `index ≥ rows.length` is not valid. -/
structure LevelDbCursor where
  rows : List (Bytes × Bytes)
  index : Nat

namespace LevelDbCursor

variable (c : LevelDbCursor)

def row : Option (Bytes × Bytes) := c.rows[c.index]?

def seek (target : Bytes) : LevelDbCursor :=
  { c with index := lowerBoundIndex c.rows target }

def seekToFirst : LevelDbCursor := { c with index := 0 }

def seekToLast : LevelDbCursor := { c with index := c.rows.length - 1 }

def next : LevelDbCursor := { c with index := c.index + 1 }

def prev : LevelDbCursor :=
  { c with index := if c.index = 0 then c.rows.length else c.index - 1 }

end LevelDbCursor

structure LevelDbIterator where
  it : LevelDbCursor
  range : KeyRange
  status : Status := .ok

variable (x : LevelDbIterator)

namespace LevelDbIterator

def inRange : Bool :=
  match x.it.row with
  | some p => x.range.contains p.1
  | none => false

/-- Reading from leveldb does not fail. -/
def updateStatus : LevelDbIterator :=
  { x with status := if x.inRange then .ok else .notFound }

def valid : Bool := x.status == .ok && x.inRange

def key : Bytes :=
  if x.valid then (x.it.row.map Prod.fst).getD [] else []

def value : Bytes :=
  if x.valid then (x.it.row.map Prod.snd).getD [] else []

/-- To the last key before the end of the range. -/
def seekBeforeEnd : LevelDbCursor :=
  match x.range.stop with
  | some stop =>
    let it := x.it.seek stop
    match it.row with
    | some p => if p.1 < stop then it else it.prev
    | none => it
  | none => x.it.seekToLast

def seekToFirst : LevelDbIterator :=
  updateStatus { x with it := match x.range.direction with
    | .forward =>
      match x.range.start with
      | some start => x.it.seek start
      | none => x.it.seekToFirst
    | .reverse => x.seekBeforeEnd }

def seekToLast : LevelDbIterator :=
  updateStatus { x with it := match x.range.direction with
    | .forward => x.seekBeforeEnd
    | .reverse =>
      match x.range.start with
      | some start =>
        let it := x.it.seek start
        match it.row with
        | some p => if start < p.1 then it.prev else it
        | none => it
      | none => x.it.seekToLast }

/-- The key lies at or after the end of the range. -/
def beyondEnd (range : KeyRange) (key : Bytes) : Bool :=
  match range.stop with
  | some stop => !decide (key < stop)
  | none => false

def seek (key : Bytes) : LevelDbIterator :=
  match x.range.direction with
  | .forward => updateStatus { x with it := x.it.seek (seekTarget x.range key) }
  | .reverse =>
    if beyondEnd x.range key then x.seekToFirst
    else
      let it := x.it.seek key
      updateStatus { x with it := match it.row with
        | some p => if key < p.1 then it.prev else it
        | none => it.seekToLast }

def next : LevelDbIterator :=
  if !x.valid then x
  else
    updateStatus { x with it := match x.range.direction with
      | .forward => x.it.next
      | .reverse => x.it.prev }

def prev : LevelDbIterator :=
  if !x.valid then x
  else
    updateStatus { x with it := match x.range.direction with
      | .forward => x.it.prev
      | .reverse => x.it.next }

/-- A new iterator stands on its first row. -/
def create (data : Data) (range : KeyRange) : LevelDbIterator :=
  seekToFirst { it := ⟨data.entries, 0⟩, range }

end LevelDbIterator

/-! ## Runs of calls -/

inductive IteratorCall
  | seekToFirst
  | seekToLast
  | seek (key : Bytes)
  | next
  | prev
deriving DecidableEq

def LevelDbIterator.call : IteratorCall → LevelDbIterator
  | .seekToFirst => x.seekToFirst
  | .seekToLast => x.seekToLast
  | .seek key => x.seek key
  | .next => x.next
  | .prev => x.prev

def MockIterator.call (x : MockIterator) : IteratorCall → MockIterator
  | .seekToFirst => x.seekToFirst
  | .seekToLast => x.seekToLast
  | .seek key => x.seek key
  | .next => x.next
  | .prev => x.prev

/-- What an iterator reports: `valid()`, `key()` and `value()`. -/
abbrev Report := Bool × Bytes × Bytes

def LevelDbIterator.report : Report := (x.valid, x.key, x.value)

def MockIterator.report (x : MockIterator) : Report := (x.valid, x.key, x.value)

/-- The reports of a new iterator and after each of the calls. -/
def levelDbReports (data : Data) (range : KeyRange) (calls : List IteratorCall) : List Report :=
  (calls.scanl LevelDbIterator.call (LevelDbIterator.create data range)).map LevelDbIterator.report

def mockReports (data : Data) (range : KeyRange) (calls : List IteratorCall) : List Report :=
  (calls.scanl MockIterator.call
    (MockIterator.create (MockStore.materialize data range) range)).map MockIterator.report

/-! ## What a position shows -/

/-- The report of an iterator that shows this row, or none. -/
def look (row : Option (Bytes × Bytes)) : Report :=
  (row.isSome, (row.map Prod.fst).getD [], (row.map Prod.snd).getD [])

theorem look_inj {r r' : Option (Bytes × Bytes)} (h : look r = look r') : r = r' := by
  unfold look at h
  cases r <;> cases r' <;> simp_all [Prod.ext_iff]

variable {i j : Nat}

section Positions

variable (data : Data) (range : KeyRange)

/-- The row of leveldb's position `i`, if it lies in the range. -/
def seen (i : Nat) : Option (Bytes × Bytes) :=
  data.entries[i]?.filter fun p => range.contains p.1

/-- The iterator with leveldb's iterator at `i`. -/
def levelAt (i : Nat) : LevelDbIterator :=
  LevelDbIterator.updateStatus { it := ⟨data.entries, i⟩, range }

/-- The position of the first key that is not below the range. -/
def startIndex : Nat :=
  match range.start with
  | some start => lowerBoundIndex data.entries start
  | none => 0

/-- The position of the first key that is not before the end of the range. -/
def stopIndex : Nat :=
  match range.stop with
  | some stop => lowerBoundIndex data.entries stop
  | none => data.entries.length

/-- The rows of the range, as the mock iterator copies them. -/
abbrev rowsIn : List (Bytes × Bytes) := MockStore.materialize data range

variable {data range}

/-- Keys below a bound come first. -/
theorem below_first (data : Data) (k : Bytes) :
    data.entries.Pairwise fun p q => decide (q.1 < k) = true → decide (p.1 < k) = true :=
  data.sorted.imp fun {p q} hpq hq =>
    decide_eq_true (IsTrans.trans p.1 q.1 k hpq (of_decide_eq_true hq))

/-- Keys that are not above a bound come first. -/
theorem notAbove_first (data : Data) (k : Bytes) :
    data.entries.Pairwise fun p q => (!decide (k < q.1)) = true → (!decide (k < p.1)) = true :=
  data.sorted.imp fun hpq hq => by
    simp only [Bool.not_eq_true', decide_eq_false_iff_not] at hq ⊢
    exact fun hkp => hq (IsTrans.trans _ _ _ hkp hpq)

variable {p : Bytes × Bytes}

theorem lt_lowerBoundIndex (k : Bytes) {i : Nat}
    (hi : data.entries[i]? = some p) : i < lowerBoundIndex data.entries k ↔ p.1 < k :=
  (SortedMap.lt_length_takeWhile_iff (below_first data k) hi).trans decide_eq_true_iff

theorem lt_upperBoundIndex (k : Bytes) {i : Nat}
    (hi : data.entries[i]? = some p) : i < upperBoundIndex data.entries k ↔ ¬ k < p.1 :=
  (SortedMap.lt_length_takeWhile_iff (notAbove_first data k) hi).trans (by simp)

theorem lowerBoundIndex_le (l : List (Bytes × Bytes)) (k : Bytes) :
    lowerBoundIndex l k ≤ l.length := ( takeWhile_prefix _).length_le

theorem upperBoundIndex_le (l : List (Bytes × Bytes)) (k : Bytes) :
    upperBoundIndex l k ≤ l.length := ( takeWhile_prefix _).length_le

theorem stopIndex_le : stopIndex data range ≤ data.entries.length := by
  unfold stopIndex
  split
  · exact lowerBoundIndex_le _ _
  · exact le_rfl

/-- The rows of the range stand between the two indices. -/
theorem rowsIn_eq : rowsIn data range
    = (data.entries.take (stopIndex data range)).drop (startIndex data range) := by
  have hdrop : ∀ start, data.entries.dropWhile (fun p => decide (p.1 < start))
      = data.entries.drop (lowerBoundIndex data.entries start) := by
    intro start
    have h : (data.entries.takeWhile (fun p => decide (p.1 < start)) ++
        data.entries.dropWhile (fun p => decide (p.1 < start))).drop
          (lowerBoundIndex data.entries start) = _ := drop_left
    rw [takeWhile_append_dropWhile] at h
    exact h.symm
  have htake : ∀ stop s, (data.entries.drop s).takeWhile (fun p => decide (p.1 < stop))
      = (data.entries.take (lowerBoundIndex data.entries stop)).drop s :=
    fun stop s => SortedMap.takeWhile_drop (below_first data stop) s
  unfold rowsIn MockStore.materialize startIndex stopIndex
  cases range.start <;> cases range.stop <;> simp [hdrop, htake, ← htake _ 0]

theorem length_rowsIn :
    (rowsIn data range).length = stopIndex data range - startIndex data range := by
  have hle := @stopIndex_le data range
  rw [rowsIn_eq, length_drop, length_take]
  omega

theorem rowsIn_eq_nil : rowsIn data range = [] ↔ stopIndex data range ≤ startIndex data range := by
  rw [← length_eq_zero_iff, length_rowsIn, Nat.sub_eq_zero_iff_le]

theorem getElem?_rowsIn (j : Nat) : (rowsIn data range)[j]?
    = if startIndex data range + j < stopIndex data range then
        data.entries[startIndex data range + j]? else none := by
  rw [rowsIn_eq, getElem?_drop, getElem?_take]

theorem lowerBoundIndex_rowsIn (k : Bytes) : lowerBoundIndex (rowsIn data range) k
    = min (stopIndex data range) (lowerBoundIndex data.entries k) - startIndex data range := by
  rw [rowsIn_eq]
  exact SortedMap.length_takeWhile_slice (below_first data k) _ _

theorem upperBoundIndex_rowsIn (k : Bytes) : upperBoundIndex (rowsIn data range) k
    = min (stopIndex data range) (upperBoundIndex data.entries k) - startIndex data range := by
  rw [rowsIn_eq]
  exact SortedMap.length_takeWhile_slice (notAbove_first data k) _ _

theorem contains_iff {i : Nat} (hi : data.entries[i]? = some p) :
    range.contains p.1 = true ↔ startIndex data range ≤ i ∧ i < stopIndex data range := by
  have hlt := lt_of_getElem? hi
  have hbelow := fun k => lt_lowerBoundIndex k hi
  unfold KeyRange.contains startIndex stopIndex
  cases range.start <;> cases range.stop <;> simp [← hbelow, hlt]

theorem rowsIn_contains : ∀ p ∈ rowsIn data range, range.contains p.1 = true := by
  intro p hp
  rw [rowsIn, materialize_eq] at hp
  exact (SortedMap.mem_keep.mp hp).2

/-- **What is seen** at a position is the row that stands there, if it is between the two indices. -/
theorem seen_eq (i : Nat) : seen data range i
    = if startIndex data range ≤ i ∧ i < stopIndex data range then data.entries[i]? else none := by
  unfold seen
  cases hi : data.entries[i]? with
  | none => simp
  | some p =>
    rw [Option.filter_some]
    simp only [contains_iff hi]

/-! ## Reports -/

theorem valid_levelAt (i : Nat) : (levelAt data range i).valid = (seen data range i).isSome := by
  unfold levelAt LevelDbIterator.updateStatus LevelDbIterator.valid seen
  cases h : LevelDbIterator.inRange { it := ⟨data.entries, i⟩, range } with
  | true | false =>
    unfold LevelDbIterator.inRange at h
    dsimp only at h
    cases hi : data.entries[i]? <;> simp_all [LevelDbIterator.inRange, LevelDbCursor.row]

theorem report_levelAt (i : Nat) : (levelAt data range i).report = look (seen data range i) := by
  have hvalid := @valid_levelAt data range i
  unfold LevelDbIterator.report LevelDbIterator.key LevelDbIterator.value
  rw [hvalid]
  show (_, (if _ then ((data.entries[i]?).map Prod.fst).getD [] else []),
    (if _ then ((data.entries[i]?).map Prod.snd).getD [] else [])) = _
  unfold seen
  cases data.entries[i]? with
  | none => rfl
  | some p =>
    rw [Option.filter_some]
    cases range.contains p.1 <;> rfl

theorem valid_mockAt (j : Nat) :
    MockIterator.valid ⟨rowsIn data range, range, j⟩ = ((rowsIn data range)[j]?).isSome := by
  rw [MockIterator.valid_at rowsIn_contains]
  cases hj : (rowsIn data range)[j]? with
  | none => exact decide_eq_false (Nat.not_lt.mpr (getElem?_eq_none_iff.mp hj))
  | some p => exact decide_eq_true (lt_of_getElem? hj)

theorem report_mockAt (j : Nat) :
    MockIterator.report ⟨rowsIn data range, range, j⟩ = look (rowsIn data range)[j]? := by
  unfold MockIterator.report MockIterator.key MockIterator.value
  rw [valid_mockAt]
  cases (rowsIn data range)[j]? <;> rfl

/-! ## Moving -/

/-- Two positions show the same row, or none. -/
def Agree (data : Data) (range : KeyRange) (i j : Nat) : Prop :=
  seen data range i = (rowsIn data range)[j]?

/-- Positions agree if they stand on the same row, or both on none. -/
theorem agree_iff : Agree data range i j ↔
    (startIndex data range ≤ i ∧ i < stopIndex data range ∧ i = startIndex data range + j) ∨
    (¬ (startIndex data range ≤ i ∧ i < stopIndex data range) ∧
      stopIndex data range ≤ startIndex data range + j) := by
  have hle := @stopIndex_le data range
  unfold Agree
  rw [seen_eq, getElem?_rowsIn]
  by_cases hi : startIndex data range ≤ i ∧ i < stopIndex data range
  · rw [if_pos hi]
    split
    · rw [getElem?_inj (by omega) (SortedMap.nodup_entries data)]
      omega
    · rw [getElem?_eq_none_iff]
      omega
  · rw [if_neg hi]
    split
    · rw [eq_comm, getElem?_eq_none_iff]
      omega
    · exact iff_of_true rfl (by omega)

theorem Agree.index (h : Agree data range i j)
    (hvalid : (seen data range i).isSome = true) : i = startIndex data range + j := by
  rw [seen_eq] at hvalid
  split at hvalid
  · rcases agree_iff.mp h with hsame | hnone
    · exact hsame.2.2
    · omega
  · simp at hvalid

theorem agree_up (j : Nat) : Agree data range (startIndex data range + j + 1) (j + 1) := by
  rw [agree_iff]
  omega

theorem agree_down (j : Nat) : Agree data range
    (if startIndex data range + j = 0 then data.entries.length else startIndex data range + j - 1)
    (if j = 0 then (rowsIn data range).length else j - 1) := by
  have hle := @stopIndex_le data range
  rw [agree_iff, length_rowsIn]
  split <;> split <;> omega

/-- Moving on, or back, from positions that agree leads to positions that agree. -/
theorem Agree.move (h : Agree data range i j) :
    (∃ i' j', (levelAt data range i).next = levelAt data range i' ∧
      MockIterator.next ⟨rowsIn data range, range, j⟩ = ⟨rowsIn data range, range, j'⟩ ∧
      Agree data range i' j') ∧
    (∃ i' j', (levelAt data range i).prev = levelAt data range i' ∧
      MockIterator.prev ⟨rowsIn data range, range, j⟩ = ⟨rowsIn data range, range, j'⟩ ∧
      Agree data range i' j') := by
  have hmock := @valid_mockAt data range j
  unfold LevelDbIterator.next LevelDbIterator.prev MockIterator.next MockIterator.prev
  rw [valid_levelAt, hmock, ← show seen data range i = (rowsIn data range)[j]? from h]
  cases hvalid : (seen data range i).isSome with
  | false => exact ⟨⟨i, j, rfl, rfl, h⟩, ⟨i, j, rfl, rfl, h⟩⟩
  | true =>
    obtain rfl := h.index hvalid
    simp only [Bool.not_true, Bool.false_eq_true, if_false]
    cases hdir : range.direction with
    | forward =>
      refine ⟨⟨_, _, ?_, rfl, agree_up j⟩, ⟨_, _, ?_, rfl, agree_down j⟩⟩
      all_goals simp only [levelAt, LevelDbIterator.updateStatus, hdir]; rfl
    | reverse =>
      refine ⟨⟨_, _, ?_, rfl, agree_down j⟩, ⟨_, _, ?_, rfl, agree_up j⟩⟩
      all_goals simp only [levelAt, LevelDbIterator.updateStatus, hdir]; rfl

/-! ## Choosing a position -/

/-- Something shows that the range ends: a key at or after its upper bound. -/
def EndSeen (data : Data) (range : KeyRange) : Prop :=
  match range.stop with
  | none => True
  | some stop => rowsIn data range = [] ∨ ∃ p ∈ data.entries, ¬ p.1 < stop

/-- The start of the range is a key; without a start, there is one key only. -/
def StartSeen (data : Data) (range : KeyRange) : Prop :=
  match range.start with
  | some start => rowsIn data range = [] ∨ ∃ p ∈ data.entries, p.1 = start
  | none => rowsIn data range = [] ∨ data.entries.length = 1

/-- The position `seekBeforeEnd` goes to. -/
def endIndex (data : Data) (range : KeyRange) : Nat :=
  (LevelDbIterator.seekBeforeEnd { it := ⟨data.entries, 0⟩, range }).index

/-- Where the keys reach a bound. -/
theorem exists_not_below {k : Bytes} : (∃ p ∈ data.entries, ¬ p.1 < k) ↔
    lowerBoundIndex data.entries k < data.entries.length := by
  constructor
  · rintro ⟨p, hp, hge⟩
    obtain ⟨i, hi⟩ := mem_iff_getElem?.mp hp
    have hlt := lt_of_getElem? hi
    rw [← lt_lowerBoundIndex k hi] at hge
    omega
  · intro hlt
    have hrow := getElem?_eq_getElem hlt
    exact ⟨_, mem_of_getElem? hrow, fun h => Nat.lt_irrefl _ ((lt_lowerBoundIndex k hrow).mpr h)⟩

theorem endSeen_iff : EndSeen data range ↔ range.stop = none ∨
    stopIndex data range ≤ startIndex data range ∨ stopIndex data range < data.entries.length := by
  unfold EndSeen
  rw [rowsIn_eq_nil]
  unfold stopIndex
  cases range.stop with
  | none => simp
  | some stop => simp only [exists_not_below, reduceCtorEq, false_or]

theorem endIndex_eq : endIndex data range
    = if stopIndex data range = 0 ∨
        (range.stop ≠ none ∧ stopIndex data range = data.entries.length) then data.entries.length
      else stopIndex data range - 1 := by
  unfold endIndex LevelDbIterator.seekBeforeEnd stopIndex
  cases range.stop with
  | none =>
    show data.entries.length - 1 = _
    split <;> simp_all
  | some stop =>
    have hle := lowerBoundIndex_le data.entries stop
    dsimp only [LevelDbCursor.seek, LevelDbCursor.row, LevelDbCursor.prev]
    cases hp : data.entries[lowerBoundIndex data.entries stop]? with
    | none =>
      have hge := getElem?_eq_none_iff.mp hp
      rw [if_pos (Or.inr ⟨by simp, by omega⟩)]
      dsimp only
      omega
    | some p =>
      have hlt := lt_of_getElem? hp
      have hnot : ¬ p.1 < stop := fun h => Nat.lt_irrefl _ ((lt_lowerBoundIndex stop hp).mpr h)
      dsimp only
      rw [if_neg hnot]
      dsimp only
      split <;> split <;> omega

/-- Going to the end of the range finds its last row exactly if something shows that it ends. -/
theorem agree_end_iff : Agree data range (endIndex data range) ((rowsIn data range).length - 1) ↔
    EndSeen data range := by
  have hle := @stopIndex_le data range
  rw [agree_iff, endIndex_eq, endSeen_iff, length_rowsIn]
  by_cases hstop : range.stop = none
  · have hend : stopIndex data range = data.entries.length := by
      unfold stopIndex
      rw [hstop]
    simp only [hstop, ne_eq, not_true_eq_false, false_and, or_false, true_or, iff_true]
    split <;> omega
  · simp only [hstop, ne_eq, not_false_eq_true, true_and, false_or]
    split <;> omega

/-- From the first row that is not below a key, back to the last one that is not above it; `other` if
    all rows are below. -/
def stepBack (data : Data) (key : Bytes) (other : Nat) : Nat :=
  match data.entries[lowerBoundIndex data.entries key]? with
  | some p => if key < p.1 then
        if lowerBoundIndex data.entries key = 0 then data.entries.length
        else lowerBoundIndex data.entries key - 1
      else lowerBoundIndex data.entries key
  | none => other

/-- The position of the last row backwards. -/
def backIndex (data : Data) (range : KeyRange) : Nat :=
  match range.start with
  | some start => stepBack data start (lowerBoundIndex data.entries start)
  | none => data.entries.length - 1

/-- leveldb's position after a seek backwards to a key that is not beyond the range. -/
def floorIndex (data : Data) (key : Bytes) : Nat := stepBack data key (data.entries.length - 1)

/-- The rows below a key and the rows not above it differ by the row of the key itself. -/
theorem bounds_of_key (key : Bytes) :
    lowerBoundIndex data.entries key ≤ upperBoundIndex data.entries key ∧
    upperBoundIndex data.entries key ≤ lowerBoundIndex data.entries key + 1 := by
  have hle := upperBoundIndex_le data.entries key
  constructor
  · refine SortedMap.length_takeWhile_le fun p _ hp => ?_
    simp only [decide_eq_true_eq, Bool.not_eq_true', decide_eq_false_iff_not] at hp ⊢
    exact fun h => SortedMap.key_irrefl _ (IsTrans.trans _ _ _ hp h)
  · by_contra hlt
    -- two rows that are not below the key, and not above it either
    have hp := getElem?_eq_getElem
      (show lowerBoundIndex data.entries key < data.entries.length by omega)
    have hq := getElem?_eq_getElem
      (show lowerBoundIndex data.entries key + 1 < data.entries.length by omega)
    have hpq := pairwise_iff_getElem.mp data.sorted _ _
      (lt_of_getElem? hp) (lt_of_getElem? hq) (Nat.lt_succ_self _)
    have hpk := mt (lt_lowerBoundIndex key hp).mpr (Nat.lt_irrefl _)
    exact (lt_upperBoundIndex key hq).mp (by omega) (HalfOpen.lt_of_not_lt_of_lt hpk hpq)

theorem exists_key {key : Bytes} : (∃ p ∈ data.entries, p.1 = key) ↔
    lowerBoundIndex data.entries key < upperBoundIndex data.entries key := by
  have hle := upperBoundIndex_le data.entries key
  constructor
  · rintro ⟨p, hp, rfl⟩
    obtain ⟨i, hi⟩ := mem_iff_getElem?.mp hp
    have hlow := mt (lt_lowerBoundIndex p.1 hi).mp (SortedMap.key_irrefl _)
    have hup := (lt_upperBoundIndex p.1 hi).mpr (SortedMap.key_irrefl _)
    omega
  · intro hlt
    have hrow := getElem?_eq_getElem (hlt.trans_le hle)
    refine ⟨_, mem_of_getElem? hrow, ?_⟩
    exact Std.Trichotomous.trichotomous (r := (· < ·)) _ _
      (fun h => Nat.lt_irrefl _ ((lt_lowerBoundIndex key hrow).mpr h))
      ((lt_upperBoundIndex key hrow).mp hlt)

theorem stepBack_eq (key : Bytes) (other : Nat) : stepBack data key other
    = if lowerBoundIndex data.entries key = data.entries.length then other
      else if upperBoundIndex data.entries key = 0 then data.entries.length
      else upperBoundIndex data.entries key - 1 := by
  obtain ⟨hlow, hup⟩ := @bounds_of_key data key
  have hle := lowerBoundIndex_le data.entries key
  unfold stepBack
  cases hp : data.entries[lowerBoundIndex data.entries key]? with
  | none =>
    have hge := getElem?_eq_none_iff.mp hp
    exact (if_pos (by omega)).symm
  | some p =>
    have hlt := lt_of_getElem? hp
    have habove := lt_upperBoundIndex key hp
    refine Eq.trans ?_ (if_neg (by omega)).symm
    dsimp only
    by_cases hkey : key < p.1
    · have hnot := mt habove.mp (not_not.mpr hkey)
      rw [if_pos hkey]
      split <;> split <;> omega
    · have hself := habove.mpr hkey
      rw [if_neg hkey, if_neg (by omega)]
      omega

/-- The last row backwards is the first row of the range, exactly if the start is a key, or the only
    key there is. -/
theorem agree_back : Agree data range (backIndex data range) 0 ↔ StartSeen data range := by
  have hle := @stopIndex_le data range
  unfold StartSeen backIndex
  rw [agree_iff, rowsIn_eq_nil]
  cases hstart : range.start with
  | none =>
    -- the walk starts at the first key, and the code goes to the last one
    have hzero : startIndex data range = 0 := by simp [startIndex, hstart]
    dsimp only
    omega
  | some start =>
    have hindex : startIndex data range = lowerBoundIndex data.entries start := by
      simp [startIndex, hstart]
    obtain ⟨hlow, hup⟩ := @bounds_of_key data start
    have hupper := upperBoundIndex_le data.entries start
    dsimp only
    rw [stepBack_eq, exists_key]
    split
    · omega
    · split <;> omega

/-- Seeking forwards: the first row that is not below the target. -/
theorem agree_seek_forward {target : Bytes} (ht : ∀ start ∈ range.start, ¬ target < start) :
    Agree data range (lowerBoundIndex data.entries target)
      (lowerBoundIndex (rowsIn data range) target) := by
  have hstart : startIndex data range ≤ lowerBoundIndex data.entries target := by
    unfold startIndex
    cases hs : range.start with
    | none => exact Nat.zero_le _
    | some start =>
      refine SortedMap.length_takeWhile_le fun p _ hp => ?_
      simp only [decide_eq_true_eq] at hp ⊢
      exact HalfOpen.lt_of_lt_of_not_lt hp (ht start hs)
  rw [agree_iff, lowerBoundIndex_rowsIn]
  omega

theorem floorIndex_eq (key : Bytes) : floorIndex data key
    = if upperBoundIndex data.entries key = 0 then data.entries.length
      else upperBoundIndex data.entries key - 1 := by
  have hlow := (@bounds_of_key data key).1
  have hle := upperBoundIndex_le data.entries key
  unfold floorIndex
  rw [stepBack_eq]
  split <;> split <;> omega

/-- Rows beyond the end of the range are above a key that is not, and the other way round. -/
theorem upperBoundIndex_of_beyondEnd (key : Bytes) :
    (LevelDbIterator.beyondEnd range key = false →
      upperBoundIndex data.entries key ≤ stopIndex data range) ∧
    (LevelDbIterator.beyondEnd range key = true →
      stopIndex data range ≤ upperBoundIndex data.entries key) := by
  unfold LevelDbIterator.beyondEnd stopIndex
  cases range.stop with
  | none => exact ⟨fun _ => upperBoundIndex_le _ _, nofun⟩
  | some stop =>
    simp only [Bool.not_eq_false', Bool.not_eq_true', decide_eq_true_eq, decide_eq_false_iff_not]
    constructor
    · intro hkey
      refine SortedMap.length_takeWhile_le fun p _ hp => ?_
      simp only [Bool.not_eq_true', decide_eq_false_iff_not, decide_eq_true_eq] at hp ⊢
      exact HalfOpen.lt_of_not_lt_of_lt hp hkey
    · intro hkey
      refine SortedMap.length_takeWhile_le fun p _ hp => ?_
      simp only [Bool.not_eq_true', decide_eq_false_iff_not, decide_eq_true_eq] at hp ⊢
      exact fun h => hkey (IsTrans.trans _ _ _ h hp)

/-- Seeking backwards: the last row that is not above the key. -/
theorem agree_seek_reverse {key : Bytes} (hkey : LevelDbIterator.beyondEnd range key = false) :
    Agree data range (floorIndex data key)
      (if upperBoundIndex (rowsIn data range) key = 0 then (rowsIn data range).length
        else upperBoundIndex (rowsIn data range) key - 1) := by
  have hle := @stopIndex_le data range
  have hend := (@upperBoundIndex_of_beyondEnd data range key).1 hkey
  rw [agree_iff, floorIndex_eq, upperBoundIndex_rowsIn, length_rowsIn]
  split <;> split <;> omega

/-- No row of the range is above a key beyond its end. -/
theorem upperBoundIndex_beyond {key : Bytes} (h : LevelDbIterator.beyondEnd range key = true) :
    upperBoundIndex (rowsIn data range) key = (rowsIn data range).length := by
  have hend := (@upperBoundIndex_of_beyondEnd data range key).2 h
  rw [upperBoundIndex_rowsIn, length_rowsIn]
  omega

/-! ## Agreement of whole runs -/

/-- The call leaves both iterators on the same row. -/
def IteratorCall.Safe (data : Data) (range : KeyRange) : IteratorCall → Prop
  | .seekToFirst => range.direction = .reverse → EndSeen data range
  | .seekToLast =>
    match range.direction with
    | .forward => EndSeen data range
    | .reverse => StartSeen data range
  | .seek key =>
    range.direction = .reverse → LevelDbIterator.beyondEnd range key = true → EndSeen data range
  | .next => True
  | .prev => True

theorem seekTarget_not_lt (range : KeyRange) (key : Bytes) :
    ∀ start ∈ range.start, ¬ seekTarget range key < start := by
  intro start hstart
  unfold seekTarget
  rw [Option.mem_def.mp hstart]
  dsimp only
  split
  · exact SortedMap.key_irrefl start
  · assumption

/-- The position of the first row of a scan. -/
def firstIndex (data : Data) (range : KeyRange) : Nat :=
  match range.direction with
  | .forward => startIndex data range
  | .reverse => endIndex data range

theorem seekBeforeEnd_at (i : Nat) (status : Status) :
    LevelDbIterator.seekBeforeEnd { it := ⟨data.entries, i⟩, range, status }
      = ⟨data.entries, endIndex data range⟩ := by
  unfold endIndex LevelDbIterator.seekBeforeEnd
  cases range.stop with
  | none => rfl
  | some stop =>
    dsimp only [LevelDbCursor.seek, LevelDbCursor.row]
    cases data.entries[lowerBoundIndex data.entries stop]? with
    | none => rfl
    | some p =>
      dsimp only
      split <;> rfl

theorem seekToFirst_at (i : Nat) (status : Status) :
    LevelDbIterator.seekToFirst { it := ⟨data.entries, i⟩, range, status }
      = levelAt data range (firstIndex data range) := by
  unfold LevelDbIterator.seekToFirst firstIndex
  rw [seekBeforeEnd_at]
  cases range.direction with
  | forward =>
    unfold startIndex
    cases range.start <;> rfl
  | reverse => rfl

theorem seekToLast_at (i : Nat) (status : Status) :
    LevelDbIterator.seekToLast { it := ⟨data.entries, i⟩, range, status }
      = levelAt data range (match range.direction with
        | .forward => endIndex data range
        | .reverse => backIndex data range) := by
  unfold LevelDbIterator.seekToLast
  rw [seekBeforeEnd_at]
  cases range.direction with
  | forward => rfl
  | reverse =>
    unfold backIndex stepBack
    cases range.start with
    | none => rfl
    | some start =>
      dsimp only [LevelDbCursor.seek, LevelDbCursor.row]
      cases data.entries[lowerBoundIndex data.entries start]? with
      | none => rfl
      | some p =>
        dsimp only
        split <;> rfl

theorem seek_at (i : Nat) (status : Status) (key : Bytes) :
    LevelDbIterator.seek { it := ⟨data.entries, i⟩, range, status } key
      = levelAt data range (match range.direction with
        | .forward => lowerBoundIndex data.entries (seekTarget range key)
        | .reverse => if LevelDbIterator.beyondEnd range key then firstIndex data range
            else floorIndex data key) := by
  unfold LevelDbIterator.seek
  rw [seekToFirst_at]
  cases range.direction with
  | forward => rfl
  | reverse =>
    dsimp only
    split
    · rfl
    · unfold floorIndex stepBack
      dsimp only [LevelDbCursor.seek, LevelDbCursor.row]
      cases data.entries[lowerBoundIndex data.entries key]? with
      | none => rfl
      | some p =>
        dsimp only
        split <;> rfl

theorem seekToFirst_mock (j : Nat) : MockIterator.seekToFirst ⟨rowsIn data range, range, j⟩
    = ⟨rowsIn data range, range, match range.direction with
      | .forward => 0
      | .reverse => (rowsIn data range).length - 1⟩ := by
  unfold MockIterator.seekToFirst
  dsimp only
  split_ifs with hnil
  · rw [hnil]
    cases range.direction <;> rfl
  · rfl

theorem seekToLast_mock (j : Nat) : MockIterator.seekToLast ⟨rowsIn data range, range, j⟩
    = ⟨rowsIn data range, range, match range.direction with
      | .forward => (rowsIn data range).length - 1
      | .reverse => 0⟩ := by
  unfold MockIterator.seekToLast
  dsimp only
  split_ifs with hnil
  · rw [hnil]
    cases range.direction <;> rfl
  · rfl

/-- The first row of a scan: the iterators agree exactly if the call is safe. -/
theorem agree_first : Agree data range (firstIndex data range)
      (match range.direction with
        | .forward => 0
        | .reverse => (rowsIn data range).length - 1) ↔
    IteratorCall.Safe data range .seekToFirst := by
  unfold firstIndex IteratorCall.Safe
  cases range.direction with
  | forward =>
    refine iff_of_true ?_ (by simp)
    dsimp only
    rw [agree_iff]
    omega
  | reverse =>
    simp only [forall_const]
    exact agree_end_iff

/-- **One call.**  From positions that agree, a call leads to positions that agree exactly if it is
    safe. -/
theorem agree_call (h : Agree data range i j) (call : IteratorCall) :
    ∃ i' j', (levelAt data range i).call call = levelAt data range i' ∧
      MockIterator.call ⟨rowsIn data range, range, j⟩ call = ⟨rowsIn data range, range, j'⟩ ∧
      (Agree data range i' j' ↔ call.Safe data range) := by
  cases call with
  | next =>
    obtain ⟨i', j', hl, hm, ha⟩ := h.move.1
    exact ⟨i', j', hl, hm, iff_of_true ha trivial⟩
  | prev =>
    obtain ⟨i', j', hl, hm, ha⟩ := h.move.2
    exact ⟨i', j', hl, hm, iff_of_true ha trivial⟩
  | seekToFirst => exact ⟨_, _, seekToFirst_at i _, seekToFirst_mock j, agree_first⟩
  | seekToLast =>
    refine ⟨_, _, seekToLast_at i _, seekToLast_mock j, ?_⟩
    unfold IteratorCall.Safe
    cases range.direction with
    | forward => exact agree_end_iff
    | reverse => exact agree_back
  | seek key =>
    refine ⟨_, _, seek_at i _ key, rfl, ?_⟩
    unfold IteratorCall.Safe
    have hfirst := @agree_first data range
    have hforward := @agree_seek_forward data _ _ (seekTarget_not_lt range key)
    unfold IteratorCall.Safe at hfirst
    cases hdir : range.direction with
    | forward =>
      exact iff_of_true hforward (by simp)
    | reverse =>
      simp only [hdir, forall_const] at hfirst ⊢
      cases hbeyond : LevelDbIterator.beyondEnd range key with
      | true =>
        have hlast : (if upperBoundIndex (rowsIn data range) key = 0 then
            (rowsIn data range).length else upperBoundIndex (rowsIn data range) key - 1)
            = (rowsIn data range).length - 1 := by
          rw [upperBoundIndex_beyond hbeyond]
          split <;> omega
        rw [if_pos rfl, hlast, hfirst]
        simp
      | false => exact iff_of_true (agree_seek_reverse hbeyond) (by simp)

theorem report_eq_iff (i j : Nat) : (levelAt data range i).report
      = MockIterator.report ⟨rowsIn data range, range, j⟩ ↔ Agree data range i j := by
  rw [report_levelAt, report_mockAt]
  exact ⟨look_inj, fun h => by rw [show seen data range i = _ from h]⟩

/-- **A run of calls**: the reports are the same exactly if every call is safe. -/
theorem agree_run (h : Agree data range i j) (calls : List IteratorCall) :
    (calls.scanl LevelDbIterator.call (levelAt data range i)).map LevelDbIterator.report
      = (calls.scanl MockIterator.call ⟨rowsIn data range, range, j⟩).map MockIterator.report ↔
    ∀ call ∈ calls, call.Safe data range := by
  induction calls generalizing i j with
  | nil => simp [(report_eq_iff i j).mpr h]
  | cons call calls ih =>
    obtain ⟨i', j', hl, hm, hsafe⟩ := agree_call h call
    rw [scanl_cons, scanl_cons, map_cons, map_cons, hl, hm,
      (report_eq_iff i j).mpr h, forall_mem_cons]
    simp only [List.cons.injEq, true_and]
    by_cases hagree : Agree data range i' j'
    · rw [ih hagree, and_iff_right (hsafe.mp hagree)]
    · refine iff_of_false (fun heq => hagree ?_) fun hall => hagree (hsafe.mpr hall.1)
      -- the reports right after the call
      have hhead := congrArg List.head? heq
      cases calls <;> simpa [report_eq_iff] using hhead

end Positions

instance : Iterator LevelDbIterator where
  valid := LevelDbIterator.valid
  key := LevelDbIterator.key
  value := LevelDbIterator.value
  next := LevelDbIterator.next

/-- From positions that agree, both iterators visit the same rows. -/
theorem Agree.yields {data : Data} {range : KeyRange} (h : Agree data range i j)
    (rows : List (Bytes × Bytes)) : Yields (levelAt data range i) rows ↔
      Yields (⟨rowsIn data range, range, j⟩ : MockIterator) rows := by
  induction rows generalizing i j with
  | nil =>
    have hvalid := congrArg Prod.fst ((report_eq_iff i j).mpr h)
    exact Eq.congr_left hvalid
  | cons p rows ih =>
    obtain ⟨hvalid, hrest⟩ := Prod.mk.inj ((report_eq_iff i j).mpr h)
    obtain ⟨hkey, hvalue⟩ := Prod.mk.inj hrest
    obtain ⟨i', j', hl, hm, ha⟩ := h.move.1
    show (levelAt data range i).valid = true ∧ (levelAt data range i).key = p.1 ∧
      (levelAt data range i).value = p.2 ∧ Yields (levelAt data range i).next rows ↔
      MockIterator.valid _ = true ∧ MockIterator.key _ = p.1 ∧ MockIterator.value _ = p.2 ∧
        Yields (MockIterator.next _) rows
    rw [hvalid, hkey, hvalue, hl, hm]
    exact and_congr_right fun _ => and_congr_right fun _ => and_congr_right fun _ => ih ha

/-- A new leveldb iterator visits the rows of the range, in scan order, if the call that positions it
    is safe. -/
theorem yields_levelDb (data : Data) (range : KeyRange)
    (hsafe : IteratorCall.Safe data range .seekToFirst) :
    Yields (LevelDbIterator.create data range) (range.direction.order (rowsIn data range)) := by
  have hmock := MockIterator.yields_create (@rowsIn_contains data range)
  unfold MockIterator.create at hmock
  rw [seekToFirst_mock] at hmock
  unfold LevelDbIterator.create
  rw [seekToFirst_at]
  exact ((agree_first.mpr hsafe).yields _).mpr hmock

/-- If it is not, the new iterator visits nothing. -/
theorem yields_levelDb_nil (data : Data) (range : KeyRange)
    (hmissed : ¬ IteratorCall.Safe data range .seekToFirst) :
    Yields (LevelDbIterator.create data range) [] := by
  obtain ⟨hreverse, hend⟩ := Classical.not_imp.mp hmissed
  rw [endSeen_iff, not_or, not_or] at hend
  obtain ⟨hstop, -, hlast⟩ := hend
  have hle := @stopIndex_le data range
  unfold LevelDbIterator.create
  rw [seekToFirst_at, firstIndex, hreverse]
  show (levelAt data range (endIndex data range)).valid = false
  rw [valid_levelAt, seen_eq, endIndex_eq, if_pos (Or.inr ⟨hstop, by omega⟩), if_neg (by omega)]
  rfl

/-- **The two iterators** report the same after every call exactly if every call, the first one made
    by the constructor, is safe; and a reverse scan by leveldb is the reversal of the forward scan
    exactly if something shows that the range ends. -/
theorem iterators_agree_iff (data : Data) (range : KeyRange) (calls : List IteratorCall) :
    (levelDbReports data range calls = mockReports data range calls ↔
      ∀ call ∈ .seekToFirst :: calls, call.Safe data range) ∧
    Yields (LevelDbIterator.create data { range with direction := .forward }) (rowsIn data range) ∧
    (Yields (LevelDbIterator.create data { range with direction := .reverse })
      (rowsIn data range).reverse ↔ EndSeen data range) := by
  refine ⟨?_, ?_, ?_⟩
  · unfold levelDbReports mockReports LevelDbIterator.create MockIterator.create
    rw [seekToFirst_at, seekToFirst_mock, forall_mem_cons]
    by_cases hsafe : IteratorCall.Safe data range .seekToFirst
    · rw [agree_run (agree_first.mpr hsafe), and_iff_right hsafe]
    · refine iff_of_false (fun heq => hsafe (agree_first.mp ?_)) fun hall => hsafe hall.1
      have hhead := congrArg List.head? heq
      cases calls <;> simpa [report_eq_iff] using hhead
  · exact yields_levelDb data { range with direction := .forward } (by simp [IteratorCall.Safe])
  · constructor
    · intro hreverse
      by_contra hnot
      have hempty := yields_levelDb_nil data { range with direction := .reverse }
        fun hsafe => hnot (hsafe rfl)
      have hrows := reverse_eq_nil_iff.mp (hreverse.unique hempty)
      apply hnot
      unfold EndSeen
      split
      · trivial
      · exact Or.inl hrows
    · intro hseen
      exact yields_levelDb data { range with direction := .reverse } fun _ => hseen

/-- One key, and a reverse scan of what lies before a later key: leveldb reports nothing. -/
theorem reverse_scan_loses_row :
    levelDbReports (SortedMap.insert default [1] [7]) { stop := some [9], direction := .reverse } []
      = [(false, [], [])] ∧
    mockReports (SortedMap.insert default [1] [7]) { stop := some [9], direction := .reverse } []
      = [(true, [1], [7])] := by decide

end SqlDb.Kv
