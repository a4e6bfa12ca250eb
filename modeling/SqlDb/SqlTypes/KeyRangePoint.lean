/-
  POINTS  (`KeyRange::is_point`, `KeyRange::point_value`, sql_types/key_range.h).

  A range is taken for a point if it is closed and its two bounds are equal, if it is half-open
  between two integers with difference 1, or if it holds nothing but NULL.  The difference is taken
  in 64 bits, where it may wrap around; a range that is not empty is not taken for a point by that,
  since its bounds are less than 2^64 apart.  What is taken for a point contains one key
  (`contains_iff_of_isPoint`).
-/
import SqlDb.SqlTypes.KeyRangeScan
import SqlDb.SqlTypes.Schema

namespace SqlDb.Sql

/-- `as_int`: the number of an integer, a date, a time or a datetime. -/
def Value.asInt : Value → Option Int64
  | .int n _ _ => some n
  | _ => none

namespace KeyRange

open KeyCodecs HalfOpen

/-- Half-open between two integers with difference 1. -/
def isUnitRange (r : KeyRange) : Bool :=
  match r.low, r.high with
  | some (.int a s _), some (.int b t _) => s.isInteger && t.isInteger && b - a = 1
  | _, _ => false

/-- The two bounds are integers. -/
def hasIntegerBounds (r : KeyRange) : Bool :=
  match r.low, r.high with
  | some a, some b => a.type.isInteger && b.type.isInteger
  | _, _ => false

def isPoint (r : KeyRange) : Bool :=
  if r.isEmpty then false
  else if !r.highInclusive && !r.lowExclusive && r.hasIntegerBounds then r.isUnitRange
  else
    match r.low, r.high with
    | some a, some b => r.highInclusive && !r.lowExclusive && a.eq b
    | none, some b => b.isNull && r.highInclusive
    | _, none => false

/-- NULL if the range is no point. -/
def pointValue (r : KeyRange) : Value :=
  if !r.isPoint then .null
  else
    match r.low, r.high with
    | some a, some b => if r.lowExclusive then b else a
    | some a, none => a
    | none, some b => b
    | none, none => .null

/-! ## What the factories contain -/

/-- The key of a value, or of NULL, in a family. -/
abbrev keyIn (tag : UInt8) (v : Value) : Key := boundKey tag v false

/-- Nothing is between a key and the string right after it. -/
theorem not_lt_succ (k w : Key) : ¬ w < k ++ [0x00] ↔ k < w :=
  (OrderedBytes.lt_iff_not_lt_succ k w).symm

theorem lt_succ (k w : Key) : w < k ++ [0x00] ↔ ¬ k < w :=
  (not_iff_comm.mp (not_lt_succ k w)).symm

theorem key_eq_iff {k w : Key} : k = w ↔ ¬ k < w ∧ ¬ w < k := by
  constructor
  · rintro rfl
    exact ⟨List.lt_irrefl k, List.lt_irrefl k⟩
  · rintro ⟨hkw, hwk⟩
    rcases trichotomous_of (fun s t : Key => s < t) k w with h | h | h
    · exact absurd h hkw
    · exact h
    · exact absurd h hwk

section Factories

variable {tag : UInt8} (htag : tag ≠ kTagNull) {v x : Value} (hv : OfFamily tag v)
  (hx : OfFamily tag x)

include htag hx

theorem contains_built {r : KeyRange} (hr : Built (InFamily tag) (OfFamilyOrNone tag) r) :
    r.contains x = true ↔ Inside (r.lowAt tag) (r.highAt tag) (keyIn tag x) :=
  contains_iff htag (hr.wf fun _ => id) (Or.inr hx)

include hv

theorem contains_gt : (gt v).contains x = true ↔ keyIn tag v < keyIn tag x := by
  have hr : gt v = { type := v.type, low := some v, lowExclusive := true } := by
    simp [gt, fromValue, hv.1]
  rw [contains_built htag hx (.gt (Or.inr hv)), hr]
  show Inside (some (keyIn tag v ++ [0x00])) none (keyIn tag x) ↔ _
  rw [Inside, above_some, not_lt_succ]
  exact and_iff_left (below_none _)

theorem contains_ge : (ge v).contains x = true ↔ ¬ keyIn tag x < keyIn tag v := by
  have hr : ge v = { type := v.type, low := some v } := by simp [ge, fromValue, hv.1]
  rw [contains_built htag hx (.ge (Or.inr hv)), hr]
  show Inside (some (keyIn tag v)) none (keyIn tag x) ↔ _
  rw [Inside, above_some]
  exact and_iff_left (below_none _)

theorem contains_lt : (lt v).contains x = true ↔ keyIn tag x < keyIn tag v := by
  have hr : lt v = { type := v.type, low := some .null, lowExclusive := true, high := some v } := by
    simp [lt, nonNull, hv.1]
  rw [contains_built htag hx (.lt (Or.inr hv)), hr]
  show Inside (some (keyIn tag .null ++ [0x00])) (some (keyIn tag v)) (keyIn tag x) ↔ _
  rw [Inside, above_some, below_some, not_lt_succ]
  exact and_iff_right (null_lt_value hx (Or.inl rfl) htag false false)

theorem contains_le : (le v).contains x = true ↔ ¬ keyIn tag v < keyIn tag x := by
  have hr : le v =
      { type := v.type, low := some .null, lowExclusive := true, high := some v
        highInclusive := true } := by
    simp [le, nonNull, hv.1]
  rw [contains_built htag hx (.le (Or.inr hv)), hr]
  show Inside (some (keyIn tag .null ++ [0x00])) (some (keyIn tag v ++ [0x00])) (keyIn tag x) ↔ _
  rw [Inside, above_some, below_some, not_lt_succ, lt_succ]
  exact and_iff_right (null_lt_value hx (Or.inl rfl) htag false false)

theorem contains_closed {w : Value} (hw : OfFamily tag w) : (closed v w).contains x = true ↔
    ¬ keyIn tag x < keyIn tag v ∧ ¬ keyIn tag w < keyIn tag x := by
  have hr : closed v w = { type := v.type, low := some v, high := some w, highInclusive := true } := by
    simp [closed, hv.1, hw.1]
  rw [contains_built htag hx (.closed (Or.inr hv) (Or.inr hw)), hr]
  show Inside (some (keyIn tag v)) (some (keyIn tag w ++ [0x00])) (keyIn tag x) ↔ _
  rw [Inside, above_some, below_some, lt_succ]

theorem contains_point : (point v).contains x = true ↔ keyIn tag x = keyIn tag v := by
  have hr : point v = closed v v := by simp [point, hv.1]
  rw [hr, contains_closed htag hv hx hv, key_eq_iff]

omit hv

theorem contains_nullOnly (t : DataType) (ht : tagOf t = tag ∨ tagOf t = kTagNull) :
    (nullOnly t).contains x = false := by
  rw [← Bool.not_eq_true, contains_built htag hx (.nullOnly ht)]
  show ¬ Inside none (some (keyIn tag .null ++ [0x00])) (keyIn tag x)
  rintro ⟨-, hbelow⟩
  exact (lt_succ _ _).mp (below_some.mp hbelow) (null_lt_value hx (Or.inl rfl) htag false false)

theorem contains_nonNull (t : DataType) (ht : tagOf t = tag ∨ tagOf t = kTagNull) :
    (nonNull t).contains x = true := by
  rw [contains_built htag hx (.nonNull ht)]
  show Inside (some (keyIn tag .null ++ [0x00])) none (keyIn tag x)
  refine ⟨above_some.mpr ((not_lt_succ _ _).mpr ?_), below_none _⟩
  exact null_lt_value hx (Or.inl rfl) htag false false

theorem contains_of_isAll {r : KeyRange} (hr : Wf tag r) (h : r.isAll = true) :
    r.contains x = true := by
  obtain ⟨hlow, hhigh⟩ : r.low = none ∧ r.high = none := by simpa [isAll] using h
  rw [contains_iff htag hr (Or.inr hx), lowAt, highAt, hlow, hhigh]
  exact ⟨above_none _, below_none _⟩

theorem contains_all (t : DataType) (ht : tagOf t = tag ∨ tagOf t = kTagNull) :
    (all t).contains x = true :=
  contains_of_isAll htag hx (wf_all t ht) rfl

end Factories

/-! ## Points -/

/-- Values that are equal have one key. -/
theorem encodeValue_of_eq {v w : Value} (h : v.eq w = true) : encodeValue v = encodeValue w := by
  rcases Value.eq_cases h with rfl | ⟨n, s, t, hs, ht, rfl, rfl, hs', ht'⟩ | ⟨x, s, t, hs, ht, rfl, rfl⟩
  · rfl
  · unfold encodeValue
    rw [tagOf_int, tagOf_int]
  · unfold encodeValue
    rw [tagOf_str, tagOf_str]

/-- 64-bit numbers whose difference is 1 are neighbours, unless it wraps around. -/
theorem toInt_of_sub_eq_one {a b : Int64} (hlt : a < b) (h : b - a = 1) : b.toInt = a.toInt + 1 := by
  have hb : b = a + 1 := by
    rw [← h, Int64.add_comm, Int64.sub_add_cancel]
  rw [Int64.lt_iff_toInt_lt] at hlt
  have hbmax := b.toInt_lt
  have hamin := a.le_toInt
  conv_lhs => rw [hb, Int64.toInt_add, show (1 : Int64).toInt = 1 from rfl]
  exact Int.bmod_eq_of_le (by omega) (by omega)

section Point

variable {tag : UInt8} (htag : tag ≠ kTagNull) {r : KeyRange} (h : Wf tag r)
  (hp : r.isPoint = true)

/-- The three shapes of a point. -/
theorem isPoint_cases (h : Wf tag r) (hp : r.isPoint = true) : r.isEmpty = false ∧
    ((∃ a s ha b t hb, r.low = some (.int a s ha) ∧ r.high = some (.int b t hb) ∧
        r.lowExclusive = false ∧ r.highInclusive = false ∧ b - a = 1) ∨
      (∃ v w, r.low = some v ∧ r.high = some w ∧ r.lowExclusive = false ∧ r.highInclusive = true ∧
        v.eq w = true ∧ v.isNull = false) ∨
      (r.low = none ∧ r.high = some .null ∧ r.highInclusive = true)) := by
  unfold isPoint at hp
  split at hp
  · simp at hp
  · rename_i hempty
    refine ⟨by simpa using hempty, ?_⟩
    split_ifs at hp with hopen
    · simp only [Bool.and_eq_true, Bool.not_eq_true'] at hopen
      unfold isUnitRange at hp
      split at hp
      · rename_i a s ha b t hb hlow hhigh
        simp only [Bool.and_eq_true, decide_eq_true_eq] at hp
        exact Or.inl ⟨a, s, ha, b, t, hb, hlow, hhigh, hopen.1.2, hopen.1.1, hp.2⟩
      · simp at hp
    · split at hp
      · rename_i v w hlow hhigh
        simp only [Bool.and_eq_true, Bool.not_eq_true'] at hp
        refine Or.inr (Or.inl ⟨v, w, hlow, hhigh, hp.1.2, hp.1.1, hp.2, ?_⟩)
        cases v with
        | null => exact absurd (h.normal hlow) (by simp [hp.1.2])
        | _ => rfl
      · rename_i w hlow hhigh
        simp only [Bool.and_eq_true] at hp
        refine Or.inr (Or.inr ⟨hlow, ?_, hp.2⟩)
        cases w with
        | null => exact hhigh
        | _ => exact absurd hp.1 (by simp [Value.isNull])
      · simp at hp

include htag h hp

omit h hp in
/-- Nothing of a family comes before its NULL. -/
theorem not_lt_null {v : Value} (hv : InFamily tag v) : ¬ keyIn tag v < keyIn tag .null := by
  rcases hv with rfl | hv
  · exact List.lt_irrefl _
  · exact List.lt_asymm (null_lt_value hv (Or.inl rfl) htag false false)

omit h hp in
/-- Between two neighbouring integers there is nothing. -/
theorem keyIn_lt_iff_of_sub_eq_one {a b : Int64} {s t : DataType} {ha hb}
    (hfa : OfFamily tag (.int a s ha)) (hfb : OfFamily tag (.int b t hb)) (hlt : a < b)
    (hsub : b - a = 1) {v : Value} (hv : InFamily tag v) :
    keyIn tag v < keyIn tag (.int b t hb) ↔ ¬ keyIn tag (.int a s ha) < keyIn tag v := by
  rcases hv with rfl | hv
  · exact iff_of_true (null_lt_value hfb (Or.inl rfl) htag false false) (not_lt_null htag (Or.inr hfa))
  · have hkey : ∀ {w : Value}, OfFamily tag w → keyIn tag w = encodeValue w := by
      intro w hw
      unfold keyIn boundKey
      rw [hw.1]
      rfl
    rw [hkey hv, hkey hfa, hkey hfb, encodeValue_lt_iff hv hfb, encodeValue_lt_iff hfa hv]
    have htagInt : tag = kTagInt64 := hfa.2.symm.trans (tagOf_int a s ha)
    cases v with
    | int n u hu =>
      have hnext := toInt_of_sub_eq_one hlt hsub
      show n < b ↔ ¬ a < n
      rw [Int64.lt_iff_toInt_lt, Int64.lt_iff_toInt_lt]
      omega
    | null => exact absurd hv.1 (by simp [Value.isNull])
    | bool c => exact absurd (hv.2.trans htagInt) (by rw [tagOf_bool]; decide)
    | str x u hu => exact absurd (hv.2.trans htagInt) (by rw [tagOf_str]; decide)

/-- **A point contains one key.** -/
theorem contains_iff_of_isPoint : InFamily tag r.pointValue ∧ ∀ v, InFamily tag v →
    (r.contains v = true ↔ keyIn tag v = keyIn tag r.pointValue) := by
  obtain ⟨hempty, hcases⟩ := isPoint_cases h hp
  rcases hcases with ⟨a, s, ha, b, t, hb, hlow, hhigh, hle, hhi, hsub⟩ |
    ⟨v, w, hlow, hhigh, hle, hhi, heq, hnull⟩ | ⟨hlow, hhigh, hhi⟩
  · have hfa : OfFamily tag (.int a s ha) := (h.low _ hlow).resolve_left (by simp)
    have hfb : OfFamily tag (.int b t hb) := (h.high _ hhigh).resolve_left (by simp)
    have hvalue : r.pointValue = .int a s ha := by
      unfold pointValue
      rw [hp, hlow, hhigh, hle]
      rfl
    have hlt : a < b := by
      have hkeys := (isEmpty_eq_false.mp hempty).2 _ (mem_lowKey.mpr ⟨_, hlow, rfl⟩) _
        (mem_highKey.mpr ⟨_, hhigh, rfl⟩)
      rw [hle, hhi] at hkeys
      exact (encodeValue_lt_iff hfa hfb).mp hkeys
    rw [hvalue]
    refine ⟨Or.inr hfa, fun v hv => ?_⟩
    rw [contains_iff htag h hv]
    unfold lowAt highAt
    rw [hlow, hhigh, hle, hhi]
    show Inside (some (keyIn tag (.int a s ha))) (some (keyIn tag (.int b t hb))) (keyIn tag v) ↔ _
    rw [Inside, above_some, below_some, key_eq_iff,
      keyIn_lt_iff_of_sub_eq_one htag hfa hfb hlt hsub hv]
  · have hfv : OfFamily tag v := (h.low _ hlow).resolve_left (by rintro rfl; simp [Value.isNull] at hnull)
    have hvalue : r.pointValue = v := by
      unfold pointValue
      rw [hp, hlow, hhigh, hle]
      rfl
    have hsame : keyIn tag w = keyIn tag v := by
      have hfw : w.isNull = false := by
        cases w with
        | null => cases v <;> simp [Value.eq, Value.isNull] at heq hnull
        | _ => rfl
      unfold keyIn boundKey
      rw [hnull, hfw, encodeValue_of_eq heq]
    rw [hvalue]
    refine ⟨Or.inr hfv, fun x hx => ?_⟩
    rw [contains_iff htag h hx]
    unfold lowAt highAt
    rw [hlow, hhigh, hle, hhi]
    show Inside (some (keyIn tag v)) (some (keyIn tag w ++ [0x00])) (keyIn tag x) ↔ _
    rw [Inside, above_some, below_some, lt_succ, hsame, key_eq_iff]
  · have hvalue : r.pointValue = .null := by
      unfold pointValue
      rw [hp, hlow, hhigh]
      rfl
    rw [hvalue]
    refine ⟨Or.inl rfl, fun v hv => ?_⟩
    rw [contains_iff htag h hv]
    unfold lowAt highAt
    rw [hlow, hhigh, hhi]
    show Inside none (some (keyIn tag .null ++ [0x00])) (keyIn tag v) ↔ _
    rw [Inside, below_some, lt_succ, key_eq_iff]
    exact and_congr_left fun _ => iff_of_true (above_none _) (not_lt_null htag hv)

end Point

end KeyRange

/-! ## Values that fit, and their keys -/

namespace Value

open KeyCodecs KeyRange

variable {t : DataType} {v w : Value}

theorem Fits.ofFamily (h : v.Fits t) : OfFamily (tagOf t) v := by
  obtain ⟨hint, hstr, hbool, htemp⟩ := DataType.kind_of_sameFamily h.family
  refine ⟨h.notNull, ?_⟩
  unfold tagOf
  rw [hint, hstr, hbool, htemp]

/-- A type with a value that fits has a family. -/
theorem Fits.tag (h : v.Fits t) : tagOf t ≠ kTagNull := by
  intro htag
  rcases h.kind with hk | hk | hk | hk <;> revert hk htag <;> cases t <;> decide

theorem toKey_eq_keyIn (v : Value) (t : DataType) : toKey v t = keyIn (tagOf t) v := by
  cases v <;> rfl

theorem keyIn_of_notNull {tag : UInt8} (h : v.isNull = false) : keyIn tag v = encodeValue v := by
  cases v with
  | null => exact absurd h (by decide)
  | _ => rfl

theorem keyIn_lt_iff (hv : v.Fits t) (hw : w.Fits t) :
    keyIn (tagOf t) v < keyIn (tagOf t) w ↔ v.Less w := by
  rw [keyIn_of_notNull hv.notNull, keyIn_of_notNull hw.notNull]
  exact encodeValue_lt_iff hv.ofFamily hw.ofFamily

/-- The comparison of two values says how their keys are ordered. -/
theorem exists_sqlOrder (hv : v.Fits t) (hw : w.Fits t) :
    ∃ o, sqlOrder v w = some o ∧ (o = .lt ↔ keyIn (tagOf t) v < keyIn (tagOf t) w) ∧
      (o = .gt ↔ keyIn (tagOf t) w < keyIn (tagOf t) v) ∧
      (o = .eq ↔ keyIn (tagOf t) v = keyIn (tagOf t) w) := by
  obtain ⟨o, ho, hcmp⟩ := sqlOrder_of_fits hv hw
  have hlt := hcmp.lt.trans (keyIn_lt_iff hv hw).symm
  have hgt := hcmp.gt.trans (keyIn_lt_iff hw hv).symm
  refine ⟨o, ho, hlt, hgt, ?_⟩
  rw [key_eq_iff, ← hlt, ← hgt]
  cases o <;> decide

end Value

end SqlDb.Sql
