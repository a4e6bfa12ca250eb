/-
  RANGES AS PHYSICAL SCANS  (`KeyRange::to_str_key_range`, sql_types/key_range.h; `Table::scan`,
  relation/table.cpp puts the table's prefix in front of both ends).

  For a scan a range is flattened to one half-open interval of keys.  The flattening is a second
  piece of code beside `contains`, and it writes NULL and the infinite ends with the range's own type,
  or with the column's if the range's type is UNKNOWN.

  The two agree, and the scan stays inside the column's family, exactly if every bound fits the
  family (`scan_iff`): a value by its own tag, NULL and an infinite end by the tag of the type they
  are written with.  All ranges built from one family do fit, unless a range carries the type of NULL
  itself — as `range(NULL, NULL)` and what is made from it — which is neither UNKNOWN nor in a family.
-/
import SqlDb.SqlTypes.KeyRangeOps

namespace SqlDb.Sql.KeyRange

open KeyCodecs HalfOpen

/-- The keys from `start` up to, and without, `stop`. -/
structure StrKeyRange where
  start : Key
  stop : Key
deriving DecidableEq

/-- A bound that is present, or the string right after it; `default` is used for a value without a
    key. -/
def flatBound (type : DataType) (default : Key) (v : Value) (after : Bool) : Key :=
  let k := if v.isNull then minKeyForType type else toKeyUntyped v
  let k := if k = [] then default else k
  if after then inclusiveUpperBound k else k

def toStrKeyRangeImpl (r : KeyRange) (type : DataType) : StrKeyRange :=
  if r.isEmpty then ⟨minKeyForType type, minKeyForType type⟩
  else
    { start := match r.low with
        | none => minKeyForType type
        | some v => flatBound type (minKeyForType type) v r.lowExclusive
      stop := match r.high with
        | none => upperKeyForType type
        | some v => flatBound type (upperKeyForType type) v r.highInclusive }

/-- The range's own type, or the column's. -/
def effectiveType (r : KeyRange) (fallback : DataType) : DataType :=
  if r.type = .unknownType then fallback else r.type

def toStrKeyRange (r : KeyRange) (fallback : DataType) : StrKeyRange :=
  r.toStrKeyRangeImpl (r.effectiveType fallback)

/-! ## Agreement -/

/-- `contains` and the scan agree on the family of `t`, and the scan stays inside it. -/
structure ScanAgrees (r : KeyRange) (t : DataType) : Prop where
  same : ∀ v, InFamily (tagOf t) v → (r.contains v = true ↔
    (r.toStrKeyRange t).start ≤ toKey v t ∧ toKey v t < (r.toStrKeyRange t).stop)
  start_inside : minKeyForType t ≤ (r.toStrKeyRange t).start ∧
    (r.toStrKeyRange t).start ≤ upperKeyForType t
  stop_inside : minKeyForType t ≤ (r.toStrKeyRange t).stop ∧
    (r.toStrKeyRange t).stop ≤ upperKeyForType t

/-- The tag a bound is written with; `type` is the type of NULL and of an infinite end. -/
def boundTag (type : DataType) : Option Value → UInt8
  | none => tagOf type
  | some v => if v.isNull then tagOf type else tagOf v.type

/-- Every bound that the scan is made of is written with the family's tag; the scan of an empty range
    has two ends that are written like NULL. -/
def FitsFamily (r : KeyRange) (t : DataType) : Prop :=
  if r.isEmpty then tagOf (r.effectiveType t) = tagOf t
  else boundTag (r.effectiveType t) r.low = tagOf t ∧ boundTag (r.effectiveType t) r.high = tagOf t

instance (r : KeyRange) (t : DataType) : Decidable (r.FitsFamily t) :=
  inferInstanceAs (Decidable (if r.isEmpty then _ else _ ∧ _))

section Flat

variable {t type : DataType} {v : Value}

theorem flatBound_eq (default : Key) (after : Bool) :
    flatBound type default v after = boundKey (tagOf type) v after := by
  cases v <;> rfl

theorem toKey_eq (v : Value) (t : DataType) : toKey v t = boundKey (tagOf t) v false := rfl

/-- The first byte of a bound's key is its tag, and a second one follows. -/
theorem boundKey_head (type : DataType) (v : Value) (after : Bool) :
    ∃ f rest, boundKey (tagOf type) v after = boundTag type (some v) :: f :: rest := by
  cases v <;> cases after <;> exact ⟨_, _, rfl⟩

/-- A key of at least two bytes lies inside the bounds of a family if its tag is the family's. -/
theorem inside_iff (ht : tagOf t ≠ kTagNull) (h f : UInt8) (rest : Key) :
    (minKeyForType t ≤ h :: f :: rest ∧ h :: f :: rest ≤ upperKeyForType t) ↔ h = tagOf t := by
  have hlow : h :: f :: rest < minKeyForType t ↔ h < tagOf t := by
    unfold minKeyForType makeNullKey kNullFlag
    simp [List.cons_lt_cons_iff]
  have hhigh : upperKeyForType t < h :: f :: rest ↔ tagOf t < h := by
    have hlt := tagOf_lt t
    unfold upperKeyForType
    rw [if_neg ht, List.cons_lt_cons_iff]
    simp only [List.nil_lt_cons, and_true, UInt8.lt_iff_toNat_lt, ← UInt8.toNat_inj,
      UInt8.toNat_add, UInt8.toNat_one, Nat.mod_eq_of_lt (show (tagOf t).toNat + 1 < 2 ^ 8 by omega)]
    omega
  rw [← List.not_lt, ← List.not_lt, hlow, hhigh, UInt8.not_lt, UInt8.not_lt]
  constructor
  · rintro ⟨h1, h2⟩
    exact UInt8.le_antisymm h2 h1
  · rintro rfl
    exact ⟨UInt8.le_refl _, UInt8.le_refl _⟩

/-- The keys of a family lie between its bounds. -/
theorem toKey_inside (ht : tagOf t ≠ kTagNull) (hv : InFamily (tagOf t) v) :
    minKeyForType t ≤ toKey v t ∧ toKey v t < upperKeyForType t := by
  have htag : boundTag t (some v) = tagOf t := by
    rcases hv with rfl | hv
    · rfl
    · simp [boundTag, hv.1, hv.2]
  obtain ⟨f, rest, hkey⟩ := boundKey_head t v false
  rw [toKey_eq, hkey, htag]
  constructor
  · exact ((inside_iff ht _ f rest).mpr rfl).1
  · exact (cons_lt_upper_iff ht _ _).mpr (UInt8.le_refl _)

/-- The upper end of a family, or of everything, against the bounds of a family. -/
theorem upper_inside_iff (ht : tagOf t ≠ kTagNull)
    (htype : tagOf type = tagOf t ∨ tagOf type = kTagNull) :
    (minKeyForType t ≤ upperKeyForType type ∧ upperKeyForType type ≤ upperKeyForType t) ↔
      tagOf type = tagOf t := by
  have hlt := tagOf_lt t
  rcases htype with htype | htype
  · have hsame : upperKeyForType type = upperKeyForType t := by
      unfold upperKeyForType
      rw [htype]
    rw [hsame]
    refine iff_of_true ⟨List.le_of_lt ?_, List.le_refl _⟩ htype
    exact (cons_lt_upper_iff ht _ _).mpr (UInt8.le_refl _)
  · refine iff_of_false ?_ (fun h => ht (h.symm.trans htype))
    rintro ⟨-, hle⟩
    apply hle
    unfold upperKeyForType
    rw [if_pos htype, if_neg ht]
    refine List.cons_lt_cons_iff.mpr (Or.inl ?_)
    rw [UInt8.lt_iff_toNat_lt, UInt8.toNat_add, UInt8.toNat_one,
      Nat.mod_eq_of_lt (show (tagOf t).toNat + 1 < 2 ^ 8 by omega)]
    exact (show (tagOf t).toNat + 1 < 5 by omega).trans_le (by decide)

end Flat

section Scan

variable {t : DataType} (ht : tagOf t ≠ kTagNull) {r : KeyRange}

theorem effectiveType_tag (hfam : OfFamilyOrNone (tagOf t) r.type) :
    OfFamilyOrNone (tagOf t) (r.effectiveType t) := by
  unfold effectiveType
  split
  · exact Or.inl rfl
  · exact hfam

theorem toStrKeyRange_empty (he : r.isEmpty = true) : r.toStrKeyRange t =
    ⟨minKeyForType (r.effectiveType t), minKeyForType (r.effectiveType t)⟩ := by
  unfold toStrKeyRange toStrKeyRangeImpl
  rw [if_pos he]

theorem start_eq (he : r.isEmpty = false) : (r.toStrKeyRange t).start =
    (r.lowAt (tagOf (r.effectiveType t))).getD (minKeyForType (r.effectiveType t)) := by
  unfold toStrKeyRange toStrKeyRangeImpl lowAt
  rw [if_neg (by simp [he])]
  cases r.low with
  | none => rfl
  | some v => exact flatBound_eq _ _

theorem stop_eq (he : r.isEmpty = false) : (r.toStrKeyRange t).stop =
    (r.highAt (tagOf (r.effectiveType t))).getD (upperKeyForType (r.effectiveType t)) := by
  unfold toStrKeyRange toStrKeyRangeImpl highAt
  rw [if_neg (by simp [he])]
  cases r.high with
  | none => rfl
  | some v => exact flatBound_eq _ _

include ht

/-- The lower end of the scan is inside the family exactly if the lower bound fits. -/
theorem start_inside_iff (he : r.isEmpty = false) :
    (minKeyForType t ≤ (r.toStrKeyRange t).start ∧ (r.toStrKeyRange t).start ≤ upperKeyForType t) ↔
      boundTag (r.effectiveType t) r.low = tagOf t := by
  rw [start_eq he]
  unfold lowAt
  cases r.low with
  | none => exact inside_iff ht _ _ _
  | some v =>
    obtain ⟨f, rest, hkey⟩ := boundKey_head (r.effectiveType t) v r.lowExclusive
    simp only [Option.map_some, Option.getD_some]
    rw [hkey]
    exact inside_iff ht _ _ _

theorem stop_inside_iff (hfam : OfFamilyOrNone (tagOf t) r.type) (he : r.isEmpty = false) :
    (minKeyForType t ≤ (r.toStrKeyRange t).stop ∧ (r.toStrKeyRange t).stop ≤ upperKeyForType t) ↔
      boundTag (r.effectiveType t) r.high = tagOf t := by
  rw [stop_eq he]
  unfold highAt
  cases r.high with
  | none => exact upper_inside_iff ht (effectiveType_tag hfam)
  | some v =>
    obtain ⟨f, rest, hkey⟩ := boundKey_head (r.effectiveType t) v r.highInclusive
    simp only [Option.map_some, Option.getD_some]
    rw [hkey]
    exact inside_iff ht _ _ _

omit ht in
/-- A bound that fits is in the family, and its key is the one it has there. -/
theorem boundTag_some {type : DataType} {v : Value} (h : boundTag type (some v) = tagOf t) :
    InFamily (tagOf t) v ∧
      ∀ after, boundKey (tagOf type) v after = boundKey (tagOf t) v after := by
  cases hnull : v.isNull with
  | true =>
    have htag : tagOf type = tagOf t := by simpa [boundTag, hnull] using h
    refine ⟨Or.inl ?_, fun after => by rw [htag]⟩
    cases v <;> simp_all [Value.isNull]
  | false =>
    have hv : OfFamily (tagOf t) v := ⟨hnull, by simpa [boundTag, hnull] using h⟩
    exact ⟨Or.inr hv, fun after => boundKey_value hv _ _ after⟩

/-- Inside a family the scan visits what the range contains. -/
theorem same_of_fits (hfam : OfFamilyOrNone (tagOf t) r.type)
    (hnormal : r.low = some .null → r.lowExclusive = true) (he : r.isEmpty = false)
    (hlow : boundTag (r.effectiveType t) r.low = tagOf t)
    (hhigh : boundTag (r.effectiveType t) r.high = tagOf t) {v : Value}
    (hv : InFamily (tagOf t) v) : r.contains v = true ↔
      (r.toStrKeyRange t).start ≤ toKey v t ∧ toKey v t < (r.toStrKeyRange t).stop := by
  have hwf : Wf (tagOf t) r := by
    refine ⟨fun w hw => ?_, fun w hw => ?_, hfam, hnormal⟩
    · rw [Option.mem_def.mp hw] at hlow
      exact (boundTag_some hlow).1
    · rw [Option.mem_def.mp hw] at hhigh
      exact (boundTag_some hhigh).1
  obtain ⟨hmin, hupper⟩ := toKey_inside ht hv
  rw [contains_iff ht hwf hv, start_eq he, stop_eq he, ← toKey_eq]
  refine and_congr ?_ ?_
  · unfold lowAt
    cases hl : r.low with
    | none =>
      have htag : tagOf (r.effectiveType t) = tagOf t := by rwa [hl] at hlow
      have hsame : minKeyForType (r.effectiveType t) = minKeyForType t := by
        unfold minKeyForType
        rw [htag]
      exact iff_of_true (above_none _) (by rw [Option.map_none, Option.getD_none, hsame]; exact hmin)
    | some w =>
      rw [hl] at hlow
      simp only [Option.map_some, Option.getD_some, above_some]
      rw [(boundTag_some hlow).2]
      exact List.not_lt
  · unfold highAt
    cases hh : r.high with
    | none =>
      have htag : tagOf (r.effectiveType t) = tagOf t := by rwa [hh] at hhigh
      have hsame : upperKeyForType (r.effectiveType t) = upperKeyForType t := by
        unfold upperKeyForType
        rw [htag]
      exact iff_of_true (below_none _)
        (by rw [Option.map_none, Option.getD_none, hsame]; exact hupper)
    | some w =>
      rw [hh] at hhigh
      simp only [Option.map_some, Option.getD_some, below_some]
      rw [(boundTag_some hhigh).2]

/-- **The scan agrees with the range exactly if the range fits the family.** -/
theorem scanAgrees_iff (hfam : OfFamilyOrNone (tagOf t) r.type)
    (hnormal : r.low = some .null → r.lowExclusive = true) : r.ScanAgrees t ↔ r.FitsFamily t := by
  unfold FitsFamily
  cases he : r.isEmpty with
  | true =>
    rw [if_pos rfl]
    have hscan := toStrKeyRange_empty (t := t) he
    have hends := inside_iff ht (tagOf (r.effectiveType t)) kNullFlag []
    constructor
    · intro h
      have hstart := h.start_inside
      rw [hscan] at hstart
      exact hends.mp hstart
    · intro htag
      have hboth := hends.mpr htag
      refine ⟨fun v _ => ?_, by rw [hscan]; exact hboth, by rw [hscan]; exact hboth⟩
      rw [hscan]
      refine iff_of_false (by simp [contains, he]) ?_
      rintro ⟨hle, hlt⟩
      exact hle hlt
  | false =>
    rw [if_neg (by simp)]
    constructor
    · intro h
      exact ⟨(start_inside_iff ht he).mp h.start_inside,
        (stop_inside_iff ht hfam he).mp h.stop_inside⟩
    · rintro ⟨hlow, hhigh⟩
      exact ⟨fun v hv => same_of_fits ht hfam hnormal he hlow hhigh hv,
        (start_inside_iff ht he).mpr hlow, (stop_inside_iff ht hfam he).mpr hhigh⟩

end Scan

/-! ## Ranges that are built -/

/-- A range whose type is of the family, or UNKNOWN, fits the family if its bounds do. -/
theorem fits_of_wf {t : DataType} {r : KeyRange} (h : Wf (tagOf t) r)
    (htype : tagOf r.type = tagOf t ∨ r.type = .unknownType) : r.FitsFamily t := by
  have heffective : tagOf (r.effectiveType t) = tagOf t := by
    unfold effectiveType
    split
    · rfl
    · exact htype.resolve_right (by assumption)
  have hbound : ∀ bound : Option Value, (∀ v ∈ bound, InFamily (tagOf t) v) →
      boundTag (r.effectiveType t) bound = tagOf t := by
    rintro (_ | v) hbound
    · exact heffective
    · rcases hbound v rfl with rfl | hv
      · exact heffective
      · simp [boundTag, hv.1, hv.2]
  unfold FitsFamily
  split
  · exact heffective
  · exact ⟨hbound _ h.low, hbound _ h.high⟩

/-- What is built from the values of a column's family and its types. -/
def OfColumn (t : DataType) (r : KeyRange) : Prop :=
  Built (InFamily (tagOf t)) (fun s => tagOf s = tagOf t ∨ s = .unknownType) r

section OfColumn

variable {t : DataType} (ht : tagOf t ≠ kTagNull) {r : KeyRange} (hr : r.OfColumn t)

include hr

theorem OfColumn.wf : Wf (tagOf t) r := by
  refine Built.wf ?_ hr
  rintro s (hs | rfl)
  · exact Or.inl hs
  · exact Or.inr rfl

include ht

theorem OfColumn.scanAgrees : r.ScanAgrees t := by
  have hplain := Built.plain (fun _ => id) (fun v hv hnull => Or.inl (hv.allowed hnull)) hr
  have hwf := OfColumn.wf hr
  exact (scanAgrees_iff ht hwf.type hplain.normal).mpr (fits_of_wf hwf (hplain.type.elim id fun h => Or.inr h.1))

end OfColumn

/-- **`contains` agrees with the scan.**  Of the ranges that can be built at all, exactly those that
    fit the family; and all that are built from values of the family and its types. -/
theorem scan_iff (t : DataType) (ht : tagOf t ≠ kTagNull) :
    (∀ r, Built (fun _ => True) (fun _ => True) r → OfFamilyOrNone (tagOf t) r.type →
      (r.ScanAgrees t ↔ r.FitsFamily t)) ∧
    (∀ r, Built (InFamily (tagOf t)) (fun s => tagOf s = tagOf t ∨ s = .unknownType) r →
      r.ScanAgrees t) := by
  constructor
  · intro r hr hfam
    have hplain : Plain (fun _ => True) (fun _ => True) r := hr.plain (fun _ => id) fun _ _ _ => trivial
    exact scanAgrees_iff ht hfam hplain.normal
  · intro r hr
    exact OfColumn.scanAgrees ht hr

/-- The integers from 3 on, as a scan of an INT column. -/
theorem scan_iff_from_three : (ge (.ofInt 3)).ScanAgrees .int :=
  (scan_iff .int (by decide)).2 _ (.ge (Or.inr ⟨rfl, rfl⟩))

/-- From the number 1 to the string "a": the scan ends among the keys of the strings. -/
theorem mixed_scan_leaves_family :
    Built (fun _ => True) (fun _ => True) (closed (.ofInt 1) (.ofStr [97])) ∧
      OfFamilyOrNone (tagOf .bigInt) (closed (.ofInt 1) (.ofStr [97])).type ∧
      ¬ (closed (.ofInt 1) (.ofStr [97])).ScanAgrees .bigInt := by
  refine ⟨.closed trivial trivial, Or.inl rfl, fun h => ?_⟩
  exact h.stop_inside.2 (by decide)

end SqlDb.Sql.KeyRange
