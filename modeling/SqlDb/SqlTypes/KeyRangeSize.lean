/-
  HOW MANY VALUES A RANGE HAS  (`KeyRange::size`, sql_types/key_range.h).

  `size` subtracts the bounds of a range of integers and corrects the difference for a closed upper
  and an open lower end; `is_point` subtracts the bounds of a half-open range.  Both do it in
  `int64_t`, where the difference of two bounds need not fit: the behaviour is then undefined.

  What is computed without overflow is right: a point contains one value, and a size is the number of
  values.  The subtractions are free of overflow exactly if the difference of the bounds, plus one for
  a closed upper end, is below 2^63 (`sizes_exact_iff`).
-/
import Mathlib.Data.Int.Interval
import Mathlib.Data.Set.Card
import SqlDb.SqlTypes.KeyRangePoint

namespace SqlDb.Sql.KeyRange

open KeyCodecs HalfOpen Value

/-- A result of 64-bit arithmetic; `none` is an overflow. -/
def checked (n : Int) : Option Int := if -2 ^ 63 ≤ n ∧ n < 2 ^ 63 then some n else none

variable (r : KeyRange)

def isBounded : Bool :=
  match r.lowKey, r.highKey with
  | some lk, some hk => decide (lk < hk)
  | _, _ => false

/-- The bounds of a bounded range between integers. -/
def integerBounds : Option (Int64 × Int64) :=
  match r.low, r.high with
  | some (.int a s _), some (.int b t _) =>
    if s.isInteger && t.isInteger && r.isBounded then some (a, b) else none
  | _, _ => none

/-- `some none` is the source's `nullopt`. -/
def size : Option (Option Int) :=
  match r.integerBounds with
  | none => some none
  | some (a, b) => do
    let count ← checked (b.toInt - a.toInt)
    let count ← if r.highInclusive then checked (count + 1) else some count
    let count ← if r.lowExclusive then checked (count - 1) else some count
    some (if count ≤ 0 then none else some count)

/-- `is_point` comes to its subtraction, and that overflows.  A range with two bounds that is not
    empty is bounded. -/
def isPointOverflows : Bool :=
  !r.isEmpty && !r.highInclusive && !r.lowExclusive &&
    r.integerBounds.any fun p => (checked (p.2.toInt - p.1.toInt)).isNone

/-- The first number of a range from `a` on. -/
def firstFrom (a : Int64) : Int := a.toInt + if r.lowExclusive then 1 else 0

/-- The first number after a range up to `b`. -/
def endAt (b : Int64) : Int := b.toInt + if r.highInclusive then 1 else 0

/-- The difference of the bounds fits, and also with one more for a closed upper end. -/
def CountFits : Prop := ∀ p ∈ r.integerBounds, r.endAt p.2 - p.1.toInt < 2 ^ 63

section Integers

variable {tag : UInt8} {r : KeyRange} {a b : Int64} (hb : r.integerBounds = some (a, b))

include hb

theorem integerBounds_spec : ∃ s hs t ht, r.low = some (.int a s hs) ∧
    r.high = some (.int b t ht) ∧ r.isBounded = true := by
  unfold integerBounds at hb
  split at hb
  · rename_i a' s hs b' t ht hlow hhigh
    split at hb
    · rename_i hcond
      cases hb
      simp only [Bool.and_eq_true] at hcond
      exact ⟨s, hs, t, ht, hlow, hhigh, hcond.2⟩
    · simp at hb
  · simp at hb

omit hb in
theorem keyIn_int_lt (tag : UInt8) (x y : Int64) (s t : DataType) (hs ht) :
    keyIn tag (.int x s hs) < keyIn tag (.int y t ht) ↔ x.toInt < y.toInt := by
  rw [keyIn_of_notNull rfl, keyIn_of_notNull rfl,
    encodeValue_lt_iff ⟨rfl, tagOf_int x s hs⟩ ⟨rfl, tagOf_int y t ht⟩]
  exact Int64.lt_iff_toInt_lt

/-- The lower bound is not above the upper one. -/
theorem integerBounds_le : a.toInt ≤ b.toInt := by
  obtain ⟨s, hs, t, ht, hlow, hhigh, hbounded⟩ := integerBounds_spec hb
  by_contra hlt
  have hkeys := (keyIn_int_lt (tagOf r.type) b a t s ht hs).mpr (by omega)
  have hafter := (lt_succ _ _).mpr (List.lt_asymm hkeys)
  unfold isBounded at hbounded
  rw [lowKey_eq, highKey_eq, lowAt, highAt, hlow, hhigh] at hbounded
  simp only [Option.map_some, decide_eq_true_eq] at hbounded
  cases hl : r.lowExclusive <;> cases hh : r.highInclusive <;> rw [hl, hh] at hbounded
  · exact List.lt_asymm hkeys hbounded
  · exact (lt_succ _ _).mp hbounded hkeys
  · exact List.lt_asymm hafter hbounded
  · exact (lt_succ _ _).mp hbounded hafter

theorem contains_int (h : Wf tag r) (htag : tag ≠ kTagNull) (x : Int64) (u : DataType) (hu) :
    r.contains (.int x u hu) = true ↔ r.firstFrom a ≤ x.toInt ∧ x.toInt < r.endAt b := by
  obtain ⟨s, hs, t, ht, hlow, hhigh, -⟩ := integerBounds_spec hb
  have hfamily : OfFamily tag (.int a s hs) := (h.low _ hlow).resolve_left (by simp)
  have hx : OfFamily tag (.int x u hu) :=
    ⟨rfl, (tagOf_int x u hu).trans ((tagOf_int a s hs).symm.trans hfamily.2)⟩
  have hlower := keyIn_int_lt tag x a u s hu hs
  have hlower' := keyIn_int_lt tag a x s u hs hu
  have hupper := keyIn_int_lt tag x b u t hu ht
  have hupper' := keyIn_int_lt tag b x t u ht hu
  rw [contains_iff htag h (Or.inr hx), lowAt, highAt, hlow, hhigh, Inside, Option.map_some,
    Option.map_some, above_some, below_some]
  unfold firstFrom endAt
  refine and_congr ?_ ?_
  · cases r.lowExclusive with
    | false =>
      rw [hlower]
      simp
    | true =>
      refine (not_lt_succ _ _).trans (hlower'.trans ?_)
      simp only [if_true]
      omega
  · cases r.highInclusive with
    | false =>
      rw [hupper]
      simp
    | true =>
      refine (lt_succ _ _).trans ((not_congr hupper').trans ?_)
      simp only [if_true]
      omega

/-- So many 64-bit numbers are in the range. -/
theorem ncard_contains (h : Wf tag r) (htag : tag ≠ kTagNull) (u : DataType) (hu) :
    {x : Int64 | r.contains (.int x u hu) = true}.ncard = (r.endAt b - r.firstFrom a).toNat := by
  have hmin : -2 ^ 63 ≤ r.firstFrom a := by
    have := a.le_toInt
    unfold firstFrom
    split <;> omega
  have hmax : r.endAt b ≤ 2 ^ 63 := by
    have := b.toInt_lt
    unfold endAt
    split <;> omega
  have himage : Set.image Int64.toInt {x : Int64 | r.contains (.int x u hu) = true}
      = ↑(Finset.Ico (r.firstFrom a) (r.endAt b)) := by
    ext n
    simp only [Set.mem_image, Set.mem_ofPred_eq, contains_int hb h htag, Finset.coe_Ico, Set.mem_Ico]
    constructor
    · rintro ⟨x, hx, rfl⟩
      exact hx
    · intro hn
      have hto : (Int64.ofInt n).toInt = n := Int64.toInt_ofInt_of_le (by omega) (by omega)
      exact ⟨Int64.ofInt n, by rwa [hto], hto⟩
  have hinj : Function.Injective Int64.toInt := fun _ _ => Int64.toInt_inj.mp
  rw [← Set.ncard_image_of_injective _ hinj, himage, Set.ncard_coe_finset, Int.card_Ico]

/-- The computation overflows exactly if the difference does not fit, and otherwise counts. -/
theorem size_spec : (r.size = none ↔ ¬ r.endAt b - a.toInt < 2 ^ 63) ∧
    ∀ n, r.size = some (some n) → 0 < n ∧ n = r.endAt b - r.firstFrom a := by
  have hle := integerBounds_le hb
  unfold size endAt firstFrom
  rw [hb]
  dsimp only
  by_cases hfirst : b.toInt - a.toInt < 2 ^ 63
  · have hdifference : checked (b.toInt - a.toInt) = some (b.toInt - a.toInt) :=
      if_pos ⟨by omega, hfirst⟩
    rw [hdifference]
    unfold checked
    cases r.highInclusive <;> cases r.lowExclusive <;> simp
    all_goals grind
  · have hdifference : checked (b.toInt - a.toInt) = none := if_neg fun h => hfirst h.2
    rw [hdifference]
    refine ⟨iff_of_true rfl (by split <;> omega), nofun⟩

end Integers

/-- **Points and sizes are exact, and computed without overflow, exactly if the count fits.** -/
theorem sizes_exact_iff {tag : UInt8} (htag : tag ≠ kTagNull) {r : KeyRange}
    (hr : Built (InFamily tag) (OfFamilyOrNone tag) r) :
    ((r.isPoint = true → InFamily tag r.pointValue ∧ ∀ v, InFamily tag v →
        (r.contains v = true ↔ keyIn tag v = keyIn tag r.pointValue)) ∧
      (∀ n, r.size = some (some n) → ∀ t ht,
        ({x : Int64 | r.contains (.int x t ht) = true}.ncard : Int) = n) ∧
      r.isPointOverflows = false ∧ r.size ≠ none) ↔ r.CountFits := by
  have hwf := hr.wf fun _ => id
  constructor
  · rintro ⟨-, -, -, hsize⟩ ⟨a, b⟩ hb
    exact not_not.mp (mt (size_spec hb).1.mpr hsize)
  · intro hfits
    refine ⟨contains_iff_of_isPoint htag hwf, ?_, ?_, ?_⟩
    · intro n hn t ht
      cases hb : r.integerBounds with
      | none => simp [size, hb] at hn
      | some p =>
        obtain ⟨hpos, heq⟩ := (size_spec hb).2 n hn
        rw [ncard_contains hb hwf htag, ← heq]
        omega
    · unfold isPointOverflows
      cases hb : r.integerBounds with
      | none => simp
      | some p =>
        have hle := integerBounds_le hb
        have hfit := hfits p hb
        have hend : p.2.toInt ≤ r.endAt p.2 := by
          unfold endAt
          split <;> omega
        have hchecked : checked (p.2.toInt - p.1.toInt) = some (p.2.toInt - p.1.toInt) :=
          if_pos ⟨by omega, by omega⟩
        simp [hchecked]
    · cases hb : r.integerBounds with
      | none => simp [size, hb]
      | some p => exact mt (size_spec hb).1.mp (not_not.mpr (hfits p hb))

theorem sizes_exact_one_to_five :
    (closed (.int 1 .int rfl) (.int 5 .int rfl)).CountFits ∧
    (closed (.int 1 .int rfl) (.int 5 .int rfl)).size ≠ none := by
  have hfits : (closed (.int 1 .int rfl) (.int 5 .int rfl)).CountFits := by
    intro p hp
    cases hp
    decide
  exact ⟨hfits, ((@sizes_exact_iff kTagInt64 (by decide) _
    (.closed (Or.inr ⟨rfl, rfl⟩) (Or.inr ⟨rfl, rfl⟩))).mpr hfits).2.2.2⟩

/-- The size of the range of all 64-bit numbers overflows. -/
theorem whole_range_overflows :
    Built (InFamily kTagInt64) (OfFamilyOrNone kTagInt64)
      (closed (.int Int64.minValue .bigInt rfl) (.int Int64.maxValue .bigInt rfl)) ∧
    (closed (.int Int64.minValue .bigInt rfl) (.int Int64.maxValue .bigInt rfl)).size = none :=
  ⟨.closed (Or.inr ⟨rfl, rfl⟩) (Or.inr ⟨rfl, rfl⟩), by decide⟩

end SqlDb.Sql.KeyRange
