/-
  CONDITIONS ON THE PRIMARY KEY  (`range_of_condition`, `split_primary_key`, `collect_exclusions`,
  planner/optimizer.cpp).

  A range compares KEYS and a filter compares VALUES.  For two values that fit the type of the primary
  key both orders are the same, and then

  * the ranges of a condition contain a key exactly if the condition keeps the row
    (`rangeOfCondition_spec`);
  * the two parts of a split WHERE together keep the rows of the WHERE (`splitPrimaryKey_spec`);
  * a key is left out only if the filter leaves out its row (`exclusionsOf_spec`).

  "Fits" is more than "is of the family": a DATE counts days and a DATETIME seconds, so that a filter
  may take one for the other, and a range may not.
-/
import SqlDb.Planner.RangeList
import SqlDb.Planner.RewriterLeaves

namespace SqlDb

namespace Plan

open Sql Condition KeyCodecs KeyRange

/-- What a primary key of type `t` may be compared with. -/
def KeyLiteral (t : DataType) (v : Value) : Prop := v = .null ∨ v.Fits t

/-- The values that the column `pk` is compared with are literals for it. -/
def keyRule (pk : Identifier) (t : DataType) : LeafRule where
  column := fun _ => True
  literal := fun column v => column.eq pk = true → KeyLiteral t v
  congr := by
    intro a b v hab h hb
    refine h ?_
    simp only [Identifier.eq, decide_eq_true_eq] at hab hb ⊢
    exact hab.trans hb

/-- Moreover, there is no other column. -/
def onKeyRule (pk : Identifier) (t : DataType) : LeafRule where
  column := fun column => column.eq pk = true
  literal := (keyRule pk t).literal
  congr := (keyRule pk t).congr

/-- A null pointer keeps all rows. -/
def keepsPtr (lookup : Lookup) (p : ConditionPtr) : Bool := p.all (keeps lookup)

theorem keeps_junction (lookup : Lookup) (op : Junction) (left right : Condition) :
    (junction op left right).keeps lookup = op.keepsOf [left.keeps lookup, right.keeps lookup] := by
  have h := Junction.keeps_truthOf op [left.evaluate lookup, right.evaluate lookup]
  unfold keeps
  rw [evaluate_junction]
  simpa using h

/-! ## Ranges -/

variable {pk : Identifier} {c : Condition}

section Ranges

variable {t : DataType} {x v : Value}

/-- Ranges that contain the keys of which `kept` holds. -/
structure Translates (t : DataType) (ranges : List KeyRange) (kept : Value → Prop) : Prop where
  ofColumn : ∀ r ∈ ranges, r.OfColumn t
  contains : ∀ x, x.Fits t → ((∃ r ∈ ranges, r.contains x = true) ↔ kept x)

theorem translates_one {r : KeyRange} {kept : Value → Prop} (hr : r.OfColumn t)
    (h : ∀ x, x.Fits t → (r.contains x = true ↔ kept x)) : Translates t [r] kept := by
  refine ⟨List.forall_mem_singleton.mpr hr, fun x hx => ?_⟩
  rw [← h x hx]
  simp

theorem keeps_fromBool (b : Bool) : whereKeeps (truthFromBool b) = b := by
  cases b <;> rfl

/-- How the keys of two values of one family are ordered; NULL and a value of another family have
    no order. -/
def keyOrder (x v : Value) : Option Ordering :=
  if v.isNull || decide (tagOf x.type ≠ tagOf v.type) then none
  else some (cmpBytes (encodeValue x) (encodeValue v))

/-- What an operator says of two values that are ordered like this. -/
def holdsOf (op : CompareOp) (o : Option Ordering) : Bool := o.any fun o => whereKeeps (truthOfOrder op o)

/-- The operators that ranges express, each with its range. -/
def indexableRanges (v : Value) : List (CompareOp × KeyRange) :=
  [(.eq, point v), (.gt, gt v), (.ge, ge v), (.lt, lt v), (.le, le v)]

variable {op : CompareOp}

theorem keeps_indexable (hop : op.isIndexable = true) (x v : Value) :
    whereKeeps (sqlCompareOp op x v) = holdsOf op (sqlOrder x v) := by
  unfold sqlCompareOp holdsOf
  cases op <;> first | exact absurd hop (by decide) | (cases sqlOrder x v <;> rfl)

theorem sqlOrder_eq_keyOrder (hx : x.Fits t) (hv : v.Fits t) : sqlOrder x v = keyOrder x v := by
  obtain ⟨o, ho, hlt, hgt, -⟩ := Value.exists_sqlOrder hx hv
  rw [Value.keyIn_of_notNull hx.notNull, Value.keyIn_of_notNull hv.notNull] at hlt hgt
  obtain ⟨hlt', hgt'⟩ := compares_cmpBytes (encodeValue x) (encodeValue v)
  have hsame : cmpBytes (encodeValue x) (encodeValue v) = o := by
    rw [← hlt'] at hlt
    rw [← hgt'] at hgt
    cases o <;> cases h : cmpBytes (encodeValue x) (encodeValue v) <;> simp_all
  rw [ho, ← hsame]
  simp [keyOrder, hv.notNull, hx.ofFamily.2, hv.ofFamily.2]

section Indexable

variable {op : CompareOp} {r : KeyRange} (hr : (op, r) ∈ indexableRanges v)

include hr

theorem indexable_cases : (op = .eq ∧ r = point v) ∨ (op = .gt ∧ r = gt v) ∨ (op = .ge ∧ r = ge v) ∨
    (op = .lt ∧ r = lt v) ∨ (op = .le ∧ r = le v) := by
  simpa [indexableRanges] using hr

theorem isIndexable_of_mem : op.isIndexable = true := by
  rcases indexable_cases hr with ⟨rfl, -⟩ | ⟨rfl, -⟩ | ⟨rfl, -⟩ | ⟨rfl, -⟩ | ⟨rfl, -⟩ <;> rfl

theorem ofColumn_indexable (hv : OfFamily (tagOf t) v) : r.OfColumn t := by
  have hin : InFamily (tagOf t) v := Or.inr hv
  rcases indexable_cases hr with ⟨-, rfl⟩ | ⟨-, rfl⟩ | ⟨-, rfl⟩ | ⟨-, rfl⟩ | ⟨-, rfl⟩
  exacts [.point hin, .gt hin, .ge hin, .lt hin, .le hin]

/-- In a family a range contains what its operator says of the keys. -/
theorem contains_indexable {tag : UInt8} (htag : tag ≠ kTagNull) (hx : OfFamily tag x)
    (hv : OfFamily tag v) : r.contains x = true ↔ holdsOf op (keyOrder x v) = true := by
  have horder : keyOrder x v = some (cmpBytes (keyIn tag x) (keyIn tag v)) := by
    rw [Value.keyIn_of_notNull hx.1, Value.keyIn_of_notNull hv.1]
    simp [keyOrder, hv.1, hv.2, hx.2]
  obtain ⟨hlt, hgt⟩ := compares_cmpBytes (keyIn tag x) (keyIn tag v)
  rw [horder]
  rcases indexable_cases hr with ⟨rfl, rfl⟩ | ⟨rfl, rfl⟩ | ⟨rfl, rfl⟩ | ⟨rfl, rfl⟩ | ⟨rfl, rfl⟩
  · rw [contains_point htag hv hx, key_eq_iff, ← hlt, ← hgt]
    cases cmpBytes (keyIn tag x) (keyIn tag v) <;> decide
  · rw [contains_gt htag hv hx, ← hgt]
    cases cmpBytes (keyIn tag x) (keyIn tag v) <;> decide
  · rw [contains_ge htag hv hx, ← hlt]
    cases cmpBytes (keyIn tag x) (keyIn tag v) <;> decide
  · rw [contains_lt htag hv hx, ← hlt]
    cases cmpBytes (keyIn tag x) (keyIn tag v) <;> decide
  · rw [contains_le htag hv hx, ← hgt]
    cases cmpBytes (keyIn tag x) (keyIn tag v) <;> decide

/-- Of two values that fit, an operator says what it says of their keys. -/
theorem translates_indexable (hv : v.Fits t) :
    Translates t [r] fun x => whereKeeps (sqlCompareOp op x v) = true := by
  refine translates_one (ofColumn_indexable hr hv.ofFamily) fun x hx => ?_
  rw [contains_indexable hr hx.tag hx.ofFamily hv.ofFamily, keeps_indexable (isIndexable_of_mem hr),
    sqlOrder_eq_keyOrder hx hv]

end Indexable

theorem translates_empty (t : DataType) : Translates t [.empty t] fun _ => False := by
  refine translates_one (.empty (Or.inl rfl)) fun x _ => ?_
  simp [contains_empty]

/-- Nothing that looks at the value of NULL is TRUE. -/
theorem keeps_compare_null (hop : op.isNullOp = false) (x : Value) :
    whereKeeps (sqlCompareOp op x .null) = false := by
  have horder : sqlOrder x .null = none := by simp [sqlOrder, Value.isNull]
  have hlike : ∀ negated, sqlLike x .null negated = .unknown := by
    intro negated
    cases x <;> rfl
  cases op <;> first | exact absurd hop (by decide) | simp [sqlCompareOp, horder, hlike, whereKeeps]

theorem isNull_iff {v : Value} : v.isNull = true ↔ v = .null := by
  cases v <;> simp [Value.isNull]

theorem KeyLiteral.fits (h : KeyLiteral t v) (hv : v.isNull = false) : v.Fits t := by
  rcases h with rfl | h
  · exact absurd hv (by decide)
  · exact h

/-- The range of a comparison that can be translated. -/
theorem rangeOfCondition_indexable (hop : op.isIndexable = true) (column : Identifier) :
    (v.isNull = true ∧ rangeOfCondition t (.compare column op v) = some [.empty t]) ∨
    (v.isNull = false ∧ ∃ r, (op, r) ∈ indexableRanges v ∧
      rangeOfCondition t (.compare column op v) = some [r]) := by
  cases hv : v.isNull <;> cases op <;>
    first | exact absurd hop (by decide) | simp [rangeOfCondition, hv, indexableRanges, CompareOp.isIndexable]

variable {column : Identifier} {ranges : List KeyRange}

theorem rangeOfCondition_compare (hv : op.isNullOp = false → KeyLiteral t v)
    (h : rangeOfCondition t (.compare column op v) = some ranges) :
    Translates t ranges fun x => whereKeeps (sqlCompareOp op x v) = true := by
  cases hop : op.isIndexable with
  | true =>
    have hnull : op.isNullOp = false := by cases op <;> first | rfl | exact absurd hop (by decide)
    rcases rangeOfCondition_indexable (v := v) (t := t) hop column with ⟨hv', hone⟩ | ⟨hv', r, hr, hone⟩
    · obtain rfl := isNull_iff.mp hv'
      obtain rfl := Option.some.inj (hone.symm.trans h)
      simpa [keeps_compare_null hnull] using translates_empty t
    · obtain rfl := Option.some.inj (hone.symm.trans h)
      exact translates_indexable hr ((hv hnull).fits hv')
  | false =>
    unfold rangeOfCondition at h
    split at h
    · rename_i hop
      obtain rfl := hop
      cases h
      refine translates_one (.nullOnly (Or.inl rfl)) fun x hx => ?_
      rw [contains_nullOnly hx.tag hx.ofFamily t (Or.inl rfl)]
      simp [sqlCompareOp, hx.notNull, keeps_fromBool]
    · split at h
      · rename_i hop
        obtain rfl := hop
        cases h
        refine translates_one (.nonNull (Or.inl rfl)) fun x hx => ?_
        rw [contains_nonNull hx.tag hx.ofFamily t (Or.inl rfl)]
        simp [sqlCompareOp, hx.notNull, keeps_fromBool]
      · simp [hop] at h

variable {values : List Value}

/-- The ranges of an IN are the points of its values, without NULL. -/
theorem mem_inList {isNotIn : Bool}
    (h : rangeOfCondition t (.inList column isNotIn values) = some ranges) :
    isNotIn = false ∧ ∀ r, r ∈ ranges ↔ (∃ v ∈ values, v.isNull = false ∧ point v = r) ∨
      (r = .empty t ∧ ∀ v ∈ values, v.isNull = true) := by
  unfold rangeOfCondition at h
  split at h
  · simp at h
  · rename_i hnot
    refine ⟨by simpa using hnot, fun r => ?_⟩
    dsimp only at h
    split_ifs at h with hnil
    · cases h
      have hnull : ∀ v ∈ values, v.isNull = true := by simpa using hnil
      simp only [List.mem_singleton]
      refine ⟨fun hr => Or.inr ⟨hr, hnull⟩, ?_⟩
      rintro (⟨v, hv, hv', -⟩ | ⟨hr, -⟩)
      · simp [hnull v hv] at hv'
      · exact hr
    · cases h
      simp only [List.mem_map, List.mem_filter, Bool.not_eq_true', and_assoc]
      refine ⟨Or.inl, ?_⟩
      rintro (hr | ⟨-, hnull⟩)
      · exact hr
      · exact absurd (by simpa using hnull) hnil

/-- An IN is exact if the point of each of its values is. -/
theorem exists_inList {isNotIn : Bool}
    (h : rangeOfCondition t (.inList column isNotIn values) = some ranges)
    {inside : KeyRange → Prop} (hempty : ¬ inside (.empty t))
    (hpoint : ∀ v ∈ values, v.isNull = false →
      (inside (point v) ↔ whereKeeps (sqlCompareOp .eq x v) = true)) :
    (∃ r ∈ ranges, inside r) ↔ ∃ v ∈ values, whereKeeps (sqlCompareOp .eq x v) = true := by
  simp only [(mem_inList h).2]
  constructor
  · rintro ⟨-, ⟨v, hv, hnull, rfl⟩ | ⟨rfl, -⟩, hin⟩
    · exact ⟨v, hv, (hpoint v hv hnull).mp hin⟩
    · exact absurd hin hempty
  · rintro ⟨v, hv, hkeeps⟩
    have hnull : v.isNull = false := by
      rw [← Bool.not_eq_true, isNull_iff]
      rintro rfl
      rw [keeps_compare_null rfl] at hkeeps
      simp at hkeeps
    exact ⟨_, Or.inl ⟨v, hv, hnull, rfl⟩, (hpoint v hv hnull).mpr hkeeps⟩

theorem rangeOfCondition_inList {isNotIn : Bool} (hv : ∀ v ∈ values, KeyLiteral t v)
    (h : rangeOfCondition t (.inList column isNotIn values) = some ranges) :
    isNotIn = false ∧
      Translates t ranges fun x => ∃ v ∈ values, whereKeeps (sqlCompareOp .eq x v) = true := by
  have hone : ∀ v ∈ values, v.isNull = false →
      Translates t [point v] fun x => whereKeeps (sqlCompareOp .eq x v) = true :=
    fun v hmem hnull => translates_indexable (by simp [indexableRanges]) ((hv v hmem).fits hnull)
  obtain ⟨hnot, hmem⟩ := mem_inList h
  refine ⟨hnot, fun r hr => ?_, fun x hx => ?_⟩
  · rcases (hmem r).mp hr with ⟨v, hv, hnull, rfl⟩ | ⟨rfl, -⟩
    · exact (hone v hv hnull).ofColumn _ (by simp)
    · exact .empty (Or.inl rfl)
  · refine exists_inList h (by simp [contains_empty]) fun v hv hnull => ?_
    simpa using (hone v hv hnull).contains x hx

/-- **The ranges of a condition contain the keys of the rows that it keeps.** -/
theorem rangeOfCondition_spec (ht : tagOf t ≠ kTagNull)
    (hc : (onKeyRule pk t).Holds c) (h : rangeOfCondition t c = some ranges) :
    Translates t ranges fun x => c.keeps (fun _ => some x) = true := by
  induction c generalizing ranges with
  | compare column op v => exact rangeOfCondition_compare (fun hop => hc.2 hop hc.1) h
  | inList column isNotIn values =>
    obtain ⟨rfl, htrans⟩ := rangeOfCondition_inList (fun v hv => hc.2 v hv hc.1) h
    simp only [keeps_inList, List.any_eq_true]
    exact htrans
  | not child => simp [rangeOfCondition] at h
  | junction op left right ihl ihr =>
    unfold rangeOfCondition at h
    split at h
    · rename_i l r hl hr
      have hleft := ihl hc.1 hl
      have hright := ihr hc.2 hr
      cases op with
      | and =>
        cases h
        obtain ⟨hcolumn, -, -, hcontains⟩ := merged_intersectRanges ht (separates_endsBefore ht)
          hleft.ofColumn hright.ofColumn
        refine ⟨hcolumn, fun x hx => ?_⟩
        rw [hcontains x (Or.inr hx.ofFamily), hleft.contains x hx, hright.contains x hx,
          keeps_junction]
        simp [Junction.keepsOf]
      | or =>
        cases h
        obtain ⟨hcolumn, -, -, hcontains⟩ := merged_uniteRanges ht (separates_endsBefore ht)
          hleft.ofColumn hright.ofColumn
        refine ⟨hcolumn, fun x hx => ?_⟩
        rw [hcontains x (Or.inr hx.ofFamily), hleft.contains x hx, hright.contains x hx,
          keeps_junction]
        simp [Junction.keepsOf]
    · simp at h

/-! ## Literals of any type -/

/-- The stored key of `x` lies in the scan of the range. -/
def InScan (t : DataType) (r : KeyRange) (x : Value) : Prop :=
  (r.toStrKeyRange t).start ≤ toKey x t ∧ toKey x t < (r.toStrKeyRange t).stop

/-- The scans of a condition find the keys of the rows that it keeps. -/
def Exact (t : DataType) (c : Condition) : Prop :=
  ∃ ranges, rangeOfCondition t c = some ranges ∧
    ∀ x, x.Fits t → ((∃ r ∈ ranges, InScan t r x) ↔ c.keeps (fun _ => some x) = true)

theorem not_inScan_empty (t : DataType) (x : Value) : ¬ InScan t (.empty t) x :=
  fun ⟨hstart, hstop⟩ => hstart hstop

/-- The scan of a comparison stays in the family of its literal. -/
theorem inScan_indexable (hx : x.Fits t) (hv : v.isNull = false) {r : KeyRange}
    (hr : (op, r) ∈ indexableRanges v) : InScan t r x ↔ holdsOf op (keyOrder x v) = true := by
  have htag : tagOf v.type ≠ kTagNull := by
    cases v with
    | null => exact absurd hv (by decide)
    | int n s hs => rw [tagOf_int]; decide
    | bool b => exact (tagOf_bool b).symm ▸ (by decide)
    | str y s hs => rw [tagOf_str]; decide
  have hscan := (ofColumn_indexable hr ⟨hv, rfl⟩).scanAgrees htag
  have htype : r.toStrKeyRange t = r.toStrKeyRange v.type := by
    have hr' : r.type = v.type := by
      rcases indexable_cases hr with ⟨-, rfl⟩ | ⟨-, rfl⟩ | ⟨-, rfl⟩ | ⟨-, rfl⟩ | ⟨-, rfl⟩ <;>
        simp [point, closed, gt, ge, lt, le, fromValue, nonNull, hv]
    have hknown : v.type ≠ .unknownType := fun h => htag (by rw [h]; rfl)
    simp [toStrKeyRange, effectiveType, hr', hknown]
  have hkey : toKey x t = toKey x v.type := by simp [toKey, hx.notNull]
  unfold InScan
  rw [htype, hkey]
  by_cases hsame : tagOf x.type = tagOf v.type
  · have hfamily : OfFamily (tagOf v.type) x := ⟨hx.notNull, hsame⟩
    rw [← hscan.same x (Or.inr hfamily), contains_indexable hr htag hfamily ⟨hv, rfl⟩]
  · refine iff_of_false (fun h => hsame ?_) (by simp [keyOrder, hsame, holdsOf])
    obtain ⟨hstart, hstop⟩ := h
    obtain ⟨f, rest, hhead⟩ := boundKey_head v.type x false
    rw [toKey_eq, hhead] at hstart hstop
    have htagx : boundTag v.type (some x) = tagOf x.type := by simp [boundTag, hx.notNull]
    rw [← htagx]
    exact (inside_iff htag _ f rest).mp ⟨List.le_trans hscan.start_inside.1 hstart,
      List.le_trans (List.le_of_lt hstop) hscan.stop_inside.2⟩

theorem exact_compare_iff (hop : op.isIndexable = true) : Exact t (.compare column op v) ↔
      ∀ x, x.Fits t → holdsOf op (keyOrder x v) = holdsOf op (sqlOrder x v) := by
  have hkeeps : ∀ x, (Condition.compare column op v).keeps (fun _ => some x)
      = holdsOf op (sqlOrder x v) := fun x => keeps_indexable hop x v
  unfold Exact
  simp only [hkeeps]
  rcases rangeOfCondition_indexable (v := v) (t := t) hop column with ⟨hv, hone⟩ | ⟨hv, r, hr, hone⟩
  · obtain rfl := isNull_iff.mp hv
    have horder : ∀ x, sqlOrder x .null = none ∧ keyOrder x .null = none := fun x =>
      ⟨by simp [sqlOrder, Value.isNull], by simp [keyOrder, Value.isNull]⟩
    simp [hone, horder, not_inScan_empty, holdsOf]
  · simp only [hone, Option.some.injEq, exists_eq_left', List.mem_singleton, exists_eq_left]
    refine forall₂_congr fun x hx => ?_
    rw [inScan_indexable hx hv hr]
    exact Bool.eq_iff_iff.symm

/-- **Comparisons and IN lists of the primary key are translated exactly** if and only if the filter
    orders the keys of the column and the literal as their stored keys are ordered: within the family
    of the literal, and not at all outside of it. -/
theorem translation_exact_iff (t : DataType) (column : Identifier) (literals : Value → Prop) :
    ((∀ v, literals v → ∀ op, op.isIndexable = true → Exact t (.compare column op v)) ∧
      ∀ values, (∀ v ∈ values, literals v) → Exact t (.inList column false values)) ↔
    ∀ v, literals v → ∀ x, x.Fits t → sqlOrder x v = keyOrder x v := by
  constructor
  · rintro ⟨h, -⟩ v hv x hx
    have hall := fun op hop => (exact_compare_iff hop).mp (h v hv op hop) x hx
    have heq := hall .eq rfl
    have hlt := hall .lt rfl
    have hgt := hall .gt rfl
    revert heq hlt hgt
    generalize sqlOrder x v = o, keyOrder x v = o'
    rcases o with _ | _ | _ | _ <;> rcases o' with _ | _ | _ | _ <;> decide
  · intro h
    have hone : ∀ v, literals v → ∀ op, op.isIndexable = true → Exact t (.compare column op v) :=
      fun v hv op hop => (exact_compare_iff hop).mpr fun x hx => by rw [h v hv x hx]
    refine ⟨hone, fun values hvalues => ?_⟩
    obtain ⟨ranges, hranges⟩ : ∃ ranges,
        rangeOfCondition t (.inList column false values) = some ranges := by
      simp only [rangeOfCondition, Bool.false_eq_true, if_false]
      split <;> exact ⟨_, rfl⟩
    refine ⟨ranges, hranges, fun x hx => ?_⟩
    rw [keeps_inList, List.any_eq_true]
    refine exists_inList hranges (not_inScan_empty t x) fun v hv hnull => ?_
    have hpoint : (CompareOp.eq, point v) ∈ indexableRanges v := by simp [indexableRanges]
    rw [inScan_indexable hx hnull hpoint, keeps_indexable rfl, h v (hvalues v hv) x hx]

/-- The filter finds the key 5 equal to the text '5', and the scan of the text does not find it. -/
theorem text_five_not_found : (Value.ofInt 5).Fits .int ∧
    rangeOfCondition .int (.compare (.ofText (ascii "id")) .eq (.ofStr (ascii "5")))
      = some [point (.ofStr (ascii "5"))] ∧
    ¬ InScan .int (point (.ofStr (ascii "5"))) (.ofInt 5) ∧
    sqlCompareOp .eq (.ofInt 5) (.ofStr (ascii "5")) = .true := by
  exact ⟨⟨rfl, rfl, nofun⟩, rfl, by unfold InScan; decide, by decide⟩

end Ranges

variable {t : DataType}

/-- A condition on the key alone looks at nothing else. -/
theorem evaluate_of_onKey (hc : (onKeyRule pk t).Holds c) {lookup : Lookup} {x : Value}
    (hx : ∀ column, column.eq pk = true → lookup column = some x) :
    c.evaluate lookup = c.evaluate fun _ => some x := by
  induction c with
  | compare column op v | inList column isNotIn values => simp only [evaluate, hx column hc.1]
  | junction op left right ihl ihr => rw [evaluate_junction, evaluate_junction, ihl hc.1, ihr hc.2]
  | not child ih => exact congrArg truthNot (ih hc)

/-! ## Splitting -/

section Split

variable {lookup : Lookup} {l r : ConditionPtr}

@[simp] theorem keepsPtr_none : keepsPtr lookup none = true := rfl

@[simp] theorem keepsPtr_some (c : Condition) : keepsPtr lookup (some c) = c.keeps lookup := rfl

theorem keepsPtr_join_and : keepsPtr lookup (join .and l r) = (keepsPtr lookup l && keepsPtr lookup r) := by
  cases l <;> cases r <;> simp [join, keeps_junction, Junction.keepsOf]

theorem keepsPtr_join_or (hl : l ≠ none) (hr : r ≠ none) :
    keepsPtr lookup (join .or l r) = (keepsPtr lookup l || keepsPtr lookup r) := by
  cases l with
  | none => exact absurd rfl hl
  | some l =>
    cases r with
    | none => exact absurd rfl hr
    | some r => simp [join, keeps_junction, Junction.keepsOf]

theorem join_eq_none {op : Junction} : join op l r = none ↔ l = none ∧ r = none := by
  cases l <;> cases r <;> simp [join]

theorem LeafRule.holdsPtr_join {rule : LeafRule} {op : Junction} (hl : rule.HoldsPtr l)
    (hr : rule.HoldsPtr r) : rule.HoldsPtr (join op l r) := by
  cases l with
  | none => exact hr
  | some l =>
    cases r with
    | none => exact hl
    | some r => exact holdsPtr_some.mpr ⟨holdsPtr_some.mp hl, holdsPtr_some.mp hr⟩

/-- What the two parts of a tree keep to. -/
structure SplitOf (pk : Identifier) (t : DataType) (c : Condition) (split : SplitConditions) :
    Prop where
  notBoth : ¬ (split.pkCond = none ∧ split.remaining = none)
  onKey : (onKeyRule pk t).HoldsPtr split.pkCond
  literals : (keyRule pk t).HoldsPtr split.remaining
  keeps : ∀ lookup,
    (keepsPtr lookup split.pkCond && keepsPtr lookup split.remaining) = c.keeps lookup

/-- A condition on the key alone has the literals that it may have. -/
theorem LeafRule.HoldsPtr.of_onKey
    (h : (onKeyRule pk t).HoldsPtr l) : (keyRule pk t).HoldsPtr l := by
  have hmono : ∀ c, (onKeyRule pk t).Holds c → (keyRule pk t).Holds c := by
    intro c hc
    induction c with
    | compare | inList => exact ⟨trivial, hc.2⟩
    | junction op left right ihl ihr => exact ⟨ihl hc.1, ihr hc.2⟩
    | not child ih => exact ih hc
  exact fun c hc => hmono c (h c hc)

theorem SplitOf.rebuild_ne_none
    {split : SplitConditions} (h : SplitOf pk t c split) : rebuildSplit split ≠ none :=
  fun hnone => h.notBoth (join_eq_none.mp hnone)

theorem SplitOf.keeps_rebuild
    {split : SplitConditions} (h : SplitOf pk t c split) (lookup : Lookup) :
    keepsPtr lookup (rebuildSplit split) = c.keeps lookup :=
  keepsPtr_join_and.trans (h.keeps lookup)

/-- **The comparisons of the key and the rest together keep the rows of the tree.** -/
theorem splitPrimaryKey_spec
    (hc : (keyRule pk t).Holds c) : SplitOf pk t c (splitPrimaryKey pk c) := by
  induction c with
  | compare column op v | inList column isNotIn values =>
    unfold splitPrimaryKey
    split_ifs with hkey
    · have hcolumn : column.eq pk = true := (Bool.and_eq_true _ _ ▸ hkey).1
      exact ⟨by simp, LeafRule.holdsPtr_some.mpr ⟨hcolumn, hc.2⟩, LeafRule.holdsPtr_none, by simp⟩
    · exact ⟨by simp, LeafRule.holdsPtr_none, LeafRule.holdsPtr_some.mpr hc, by simp⟩
  | not child =>
    exact ⟨by simp [splitPrimaryKey], LeafRule.holdsPtr_none, LeafRule.holdsPtr_some.mpr hc,
      by simp [splitPrimaryKey]⟩
  | junction op left right ihl ihr =>
    have hleft := ihl hc.1
    have hright := ihr hc.2
    cases op with
    | and =>
      refine ⟨?_, LeafRule.holdsPtr_join hleft.onKey hright.onKey,
        LeafRule.holdsPtr_join hleft.literals hright.literals, fun lookup => ?_⟩
      · show ¬ (join .and _ _ = none ∧ join .and _ _ = none)
        rw [join_eq_none, join_eq_none]
        exact fun h => hleft.notBoth ⟨h.1.1, h.2.1⟩
      · show (keepsPtr lookup (join .and _ _) && keepsPtr lookup (join .and _ _)) = _
        rw [keepsPtr_join_and, keepsPtr_join_and, keeps_junction, ← hleft.keeps, ← hright.keeps]
        simp only [Junction.keepsOf, List.all_cons, List.all_nil, id, Bool.and_true]
        rw [Bool.and_assoc, Bool.and_assoc,
          Bool.and_left_comm (keepsPtr lookup (splitPrimaryKey pk left).remaining)]
    | or =>
      simp only [splitPrimaryKey]
      split_ifs with hnone
      · have hl : (splitPrimaryKey pk left).pkCond ≠ none := fun h => hleft.notBoth ⟨h, hnone.1⟩
        have hr : (splitPrimaryKey pk right).pkCond ≠ none := fun h => hright.notBoth ⟨h, hnone.2⟩
        refine ⟨fun h => hl (join_eq_none.mp h.1).1, LeafRule.holdsPtr_join hleft.onKey hright.onKey,
          LeafRule.holdsPtr_none, fun lookup => ?_⟩
        rw [keepsPtr_join_or hl hr, keeps_junction, ← hleft.keeps, ← hright.keeps, hnone.1, hnone.2]
        simp [Junction.keepsOf]
      · have hl := hleft.rebuild_ne_none
        have hr := hright.rebuild_ne_none
        refine ⟨fun h => hl (join_eq_none.mp h.2).1, LeafRule.holdsPtr_none, ?_, fun lookup => ?_⟩
        · exact LeafRule.holdsPtr_join (LeafRule.holdsPtr_join hleft.onKey.of_onKey hleft.literals)
            (LeafRule.holdsPtr_join hright.onKey.of_onKey hright.literals)
        · rw [keepsPtr_join_or hl hr, keeps_junction, hleft.keeps_rebuild, hright.keeps_rebuild]
          simp [Junction.keepsOf]

end Split

/-! ## Exclusions -/

section Exclusions

variable {pk : Identifier} {t : DataType} {x : Value}

theorem mem_add {s : KeySet} {v w : Value} (h : w ∈ s.add v) : w ∈ s ∨ w = v := by
  unfold KeySet.add at h
  split at h
  · exact Or.inl h
  · simpa using h

theorem mem_foldl_add {s : KeySet} {vs : List Value} {w : Value} (h : w ∈ vs.foldl KeySet.add s) :
    w ∈ s ∨ w ∈ vs := by
  induction vs generalizing s with
  | nil => exact Or.inl h
  | cons v vs ih =>
    rcases ih h with h | h
    · rcases mem_add h with h | rfl
      · exact Or.inl h
      · exact Or.inr (List.mem_cons_self ..)
    · exact Or.inr (List.mem_cons_of_mem v h)

/-- A filter finds two values equal that have one key. -/
theorem compare_of_sameKey {v : Value} (hx : x.Fits t) (hv : v.Fits t)
    (h : KeySet.sameKey v x = true) : sqlCompareOp .eq x v = .true := by
  obtain ⟨o, ho, -, -, heq⟩ := Value.exists_sqlOrder hx hv
  have hkey : keyIn (tagOf t) x = keyIn (tagOf t) v := by
    rw [Value.keyIn_of_notNull hx.notNull, Value.keyIn_of_notNull hv.notNull]
    simp only [KeySet.sameKey, decide_eq_true_eq, toKeyUntyped, hx.notNull, hv.notNull,
      Bool.false_eq_true, if_false] at h
    exact h.symm
  simp [sqlCompareOp, ho, truthOfOrder, heq.mpr hkey, truthFromBool]

section Row

variable {lookup : Lookup} (hx : x.Fits t)
  (hlookup : ∀ column, column.eq pk = true → lookup column = some x)

include hx hlookup

/-- A point that is collected and has the key of a row is one that the row is not kept for. -/
theorem mem_collectExclusions (hc : (keyRule pk t).Holds c) {out : KeySet} {v : Value}
    (hv : v ∈ collectExclusions pk out c) (hsame : KeySet.sameKey v x = true) :
    v ∈ out ∨ c.keeps lookup = false := by
  induction c generalizing out with
  | not child => exact Or.inl hv
  | compare column op w =>
    unfold collectExclusions at hv
    split_ifs at hv with hne
    · simp only [Bool.and_eq_true, decide_eq_true_eq, Bool.not_eq_true'] at hne
      obtain ⟨⟨hcolumn, rfl⟩, hnull⟩ := hne
      rcases mem_add hv with hv | rfl
      · exact Or.inl hv
      · have htrue := compare_of_sameKey hx ((hc.2 rfl hcolumn).fits hnull) hsame
        have hfalse : sqlCompareOp .ne x v = .false := by
          rw [show CompareOp.ne = CompareOp.flip .eq from rfl, sqlCompareOp_flip, htrue]
          rfl
        refine Or.inr ?_
        simp [keeps, evaluate, hlookup column hcolumn, hfalse, whereKeeps]
    · exact Or.inl hv
  | inList column isNotIn values =>
    unfold collectExclusions at hv
    split_ifs at hv with hnot
    · simp only [Bool.and_eq_true] at hnot
      obtain ⟨hcolumn, rfl⟩ := hnot
      rcases mem_foldl_add hv with hv | hv
      · exact Or.inl hv
      · obtain ⟨hmem, hnull⟩ := List.mem_filter.mp hv
        have htrue := compare_of_sameKey hx ((hc.2 v hmem hcolumn).fits (by simpa using hnull)) hsame
        have hin : evaluateIn x values = .true := by
          have hkeeps := Junction.keeps_truthOf .or (values.map (sqlCompareOp .eq x))
          rw [← evaluateIn_eq, List.map_map] at hkeeps
          have hany : Junction.or.keepsOf (values.map (whereKeeps ∘ sqlCompareOp .eq x)) = true := by
            simp only [Junction.keepsOf, List.any_map, List.any_eq_true]
            exact ⟨v, hmem, by simp [htrue, whereKeeps]⟩
          exact of_decide_eq_true (hkeeps.trans hany)
        refine Or.inr ?_
        simp [keeps, evaluate, hlookup column hcolumn, hin, truthNot, whereKeeps]
    · exact Or.inl hv
  | junction op left right ihl ihr =>
    cases op with
    | or => exact Or.inl hv
    | and =>
      have hand : left.keeps lookup = false ∨ right.keeps lookup = false →
          (junction .and left right).keeps lookup = false := by
        rw [keeps_junction]
        rintro (h | h) <;> simp [Junction.keepsOf, h]
      rcases ihr hc.2 hv with h | h
      · rcases ihl hc.1 h with h | h
        · exact Or.inl h
        · exact Or.inr (hand (Or.inl h))
      · exact Or.inr (hand (Or.inr h))

/-- **A row whose key is left out is one that the filter leaves out.** -/
theorem exclusionsOf_spec {p : ConditionPtr} (hp : (keyRule pk t).HoldsPtr p)
    (hexcluded : (exclusionsOf pk p).contains x = true) : keepsPtr lookup p = false := by
  cases p with
  | none => simp [exclusionsOf, KeySet.contains] at hexcluded
  | some c =>
    obtain ⟨v, hv, hsame⟩ := List.any_eq_true.mp hexcluded
    exact (mem_collectExclusions hx hlookup (hp c rfl) hv hsame).resolve_left (by simp)

end Row

end Exclusions

end Plan

end SqlDb
