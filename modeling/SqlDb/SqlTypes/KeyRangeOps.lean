/-
  SET OPERATIONS ON RANGES ARE POINTWISE  (`intersect`, `unite`, `subtract`, `complement`, `covers`,
  sql_types/key_range.h).

  All operations pick bounds of their arguments by comparing keys.  In a family every comparison says
  something about the bounds as ends of intervals (`lowLe_of`, `highLe_of`, `reaches_of`); the rest is
  about intervals and not about keys.

  `Built` are the ranges that the factories and the operations make from the values of one family.
-/
import SqlDb.SqlTypes.KeyRange

namespace SqlDb.Sql.KeyRange

open KeyCodecs HalfOpen List

/-! ## Comparisons -/

section Compare

variable {tag : UInt8} (htag : tag ≠ kTagNull) {a b : KeyRange} (ha : Wf tag a) (hb : Wf tag b)

include htag ha hb

theorem lowLe_of (hle : ∀ lk ∈ a.lowKey, ∃ olk ∈ b.lowKey, ¬ olk < lk) :
    LowLe (a.lowAt tag) (b.lowAt tag) := by
  intro x hx
  obtain ⟨v, hv, rfl⟩ := Option.map_eq_some_iff.mp hx
  obtain ⟨olk, ho, hnot⟩ := hle _ (mem_lowKey.mpr ⟨v, hv, rfl⟩)
  obtain ⟨w, hw, rfl⟩ := mem_lowKey.mp ho
  exact ⟨_, Option.map_eq_some_iff.mpr ⟨w, hw, rfl⟩, not_boundKey_lt htag hb.type (hb.low w hw)
    (ha.low v hv) (hb.low_proper hw) (ha.low_proper hv) hnot⟩

theorem highLe_of (hea : a.endsBeforeNull = false) (heb : b.endsBeforeNull = false)
    (hle : ∀ ohk ∈ b.highKey, ∃ hk ∈ a.highKey, ¬ ohk < hk) :
    HighLe (a.highAt tag) (b.highAt tag) := by
  intro x hx
  obtain ⟨w, hw, rfl⟩ := Option.map_eq_some_iff.mp hx
  obtain ⟨hk, hh, hnot⟩ := hle _ (mem_highKey.mpr ⟨w, hw, rfl⟩)
  obtain ⟨v, hv, rfl⟩ := mem_highKey.mp hh
  exact ⟨_, Option.map_eq_some_iff.mpr ⟨v, hv, rfl⟩, not_boundKey_lt htag hb.type (hb.high w hw)
    (ha.high v hv) (high_proper heb hw) (high_proper hea hv) hnot⟩

/-- The upper bound of `a` reaches the lower bound of `b`. -/
theorem reaches_of (hea : a.endsBeforeNull = false)
    (hnot : ∀ hk ∈ a.highKey, ∀ olk ∈ b.lowKey, ¬ hk < olk) :
    Reaches (a.highAt tag) (b.lowAt tag) := by
  intro x hx y hy
  obtain ⟨v, hv, rfl⟩ := Option.map_eq_some_iff.mp hx
  obtain ⟨w, hw, rfl⟩ := Option.map_eq_some_iff.mp hy
  exact not_boundKey_lt htag ha.type (ha.high v hv) (hb.low w hw) (high_proper hea hv)
    (hb.low_proper hw) (hnot _ (mem_highKey.mpr ⟨v, hv, rfl⟩) _ (mem_lowKey.mpr ⟨w, hw, rfl⟩))

/-- The lower bound of `b` is not below the upper bound of `a`: the two have nothing in common. -/
theorem disjoint_of (hea : a.endsBeforeNull = false) {hk olk : Key} (hh : hk ∈ a.highKey)
    (ho : olk ∈ b.lowKey) (hnot : ¬ olk < hk) (x : Key) :
    ¬ (Below (a.highAt tag) x ∧ Above (b.lowAt tag) x) := by
  obtain ⟨v, hv, rfl⟩ := mem_highKey.mp hh
  obtain ⟨w, hw, rfl⟩ := mem_lowKey.mp ho
  have hcmp := not_boundKey_lt htag hb.type (hb.low w hw) (ha.high v hv) (hb.low_proper hw)
    (high_proper hea hv) hnot
  unfold highAt lowAt
  rw [Option.mem_def.mp hv, Option.mem_def.mp hw]
  rintro ⟨hbelow, habove⟩
  exact not_inside hcmp x ⟨habove, hbelow⟩

end Compare

/-! ## Picking bounds -/

section Pick

variable {tag : UInt8} (htag : tag ≠ kTagNull) {a b : KeyRange} (ha : Wf tag a) (hb : Wf tag b)

include htag ha hb

theorem low_spec :
    (a.smallerLow b = a ∧ a.largerLow b = b ∧ LowLe (a.lowAt tag) (b.lowAt tag)) ∨
      (a.smallerLow b = b ∧ a.largerLow b = a ∧ LowLe (b.lowAt tag) (a.lowAt tag)) := by
  have hle := lowLe_of htag ha hb
  have hge := lowLe_of htag hb ha
  unfold smallerLow largerLow
  cases hl : a.lowKey with
  | none => exact Or.inl ⟨rfl, rfl, hle (by simp [hl])⟩
  | some lk =>
    cases ho : b.lowKey with
    | none => exact Or.inr ⟨rfl, rfl, hge (by simp [ho])⟩
    | some olk =>
      by_cases hlt : lk < olk
      · exact Or.inl ⟨if_pos hlt, if_pos hlt, hle (by simpa [hl, ho] using List.lt_asymm hlt)⟩
      · exact Or.inr ⟨if_neg hlt, if_neg hlt, hge (by simpa [hl, ho] using hlt)⟩

variable (hea : a.endsBeforeNull = false) (heb : b.endsBeforeNull = false)

include hea heb

theorem smallerHigh_spec :
    (a.smallerHigh b = b ∧ HighLe (b.highAt tag) (a.highAt tag)) ∨
      (a.smallerHigh b = a ∧ HighLe (a.highAt tag) (b.highAt tag)) := by
  have hle := highLe_of htag ha hb hea heb
  have hge := highLe_of htag hb ha heb hea
  unfold smallerHigh
  cases hh : a.highKey with
  | none => exact Or.inl ⟨rfl, hge (by simp [hh])⟩
  | some hk =>
    cases ho : b.highKey with
    | none => exact Or.inr ⟨rfl, hle (by simp [ho])⟩
    | some ohk =>
      by_cases hlt : ohk < hk
      · exact Or.inl ⟨if_pos hlt, hge (by simpa [hh, ho] using List.lt_asymm hlt)⟩
      · exact Or.inr ⟨if_neg hlt, hle (by simpa [hh, ho] using hlt)⟩

theorem largerHigh_spec :
    (a.largerHigh b = a ∧ HighLe (b.highAt tag) (a.highAt tag)) ∨
      (a.largerHigh b = b ∧ HighLe (a.highAt tag) (b.highAt tag)) := by
  have hle := highLe_of htag ha hb hea heb
  have hge := highLe_of htag hb ha heb hea
  unfold largerHigh
  cases hh : a.highKey with
  | none => exact Or.inl ⟨rfl, hge (by simp [hh])⟩
  | some hk =>
    cases ho : b.highKey with
    | none => exact Or.inr ⟨rfl, hle (by simp [ho])⟩
    | some ohk =>
      by_cases hlt : hk < ohk
      · exact Or.inr ⟨if_pos hlt, hle (by simpa [hh, ho] using List.lt_asymm hlt)⟩
      · exact Or.inl ⟨if_neg hlt, hge (by simpa [hh, ho] using hlt)⟩

end Pick

/-! ## Well-formed results -/

theorem normalize_of_normal {r : KeyRange} (h : r.low = some .null → r.lowExclusive = true) :
    normalize r = r := by
  unfold normalize
  rw [if_neg]
  rintro ⟨hlow, hopen⟩
  rw [h hlow] at hopen
  simp at hopen

theorem mergeType_cases (s t : DataType) : mergeType s t = s ∨ mergeType s t = t := by
  unfold mergeType
  split
  · exact Or.inl rfl
  · exact Or.inr rfl

section WellFormed

variable {tag : UInt8} {a b c : KeyRange}

theorem Wf.mergeType (ha : Wf tag a) (hb : Wf tag b) :
    tagOf (mergeType a.type b.type) = tag ∨ tagOf (mergeType a.type b.type) = kTagNull := by
  rcases mergeType_cases a.type b.type with h | h
  · rw [h]
    exact ha.type
  · rw [h]
    exact hb.type

theorem Wf.between {type : DataType} (ha : Wf tag a) (hb : Wf tag b)
    (htype : tagOf type = tag ∨ tagOf type = kTagNull) : Wf tag (between type a b) :=
  ⟨ha.low, hb.high, htype, ha.normal⟩

theorem wf_all (t : DataType) (ht : tagOf t = tag ∨ tagOf t = kTagNull) : Wf tag (all t) :=
  ⟨by simp [all], by simp [all], ht, by simp [all]⟩

/-- The two parts a range cuts out of another; `hea` says that the upper bound of `a` is a proper
    one. -/
theorem wf_above (hea : a.endsBeforeNull = false) (ha : Wf tag a) (hb : Wf tag b) {type : DataType}
    (htype : tagOf type = tag ∨ tagOf type = kTagNull) :
    Wf tag
      { type := type, low := a.high, lowExclusive := a.highInclusive, high := b.high,
        highInclusive := b.highInclusive } :=
  ⟨ha.high, hb.high, htype, fun h => high_proper hea h rfl⟩

theorem wf_below (ha : Wf tag a) (hb : Wf tag b) {type : DataType}
    (htype : tagOf type = tag ∨ tagOf type = kTagNull) :
    Wf tag
      { type := type, low := a.low, lowExclusive := a.lowExclusive, high := b.low,
        highInclusive := b.lowExclusive } :=
  ⟨ha.low, hb.low, htype, ha.normal⟩

end WellFormed

section Results

variable {tag : UInt8} (htag : tag ≠ kTagNull) {a b : KeyRange} (ha : Wf tag a) (hb : Wf tag b)
  (hna : a.endsBeforeNull = false) (hnb : b.endsBeforeNull = false)

include htag ha hb hna hnb

/-- The larger lower bound and the smaller upper bound. -/
theorem wf_meet : Wf tag
    (between (mergeType a.type b.type) (a.largerLow b) (a.smallerHigh b)) := by
  have hlow : Wf tag (a.largerLow b) := by
    rcases low_spec htag ha hb with ⟨-, h, -⟩ | ⟨-, h, -⟩ <;> rw [h] <;> assumption
  have hhigh : Wf tag (a.smallerHigh b) := by
    rcases smallerHigh_spec htag ha hb hna hnb with ⟨h, -⟩ | ⟨h, -⟩ <;> rw [h] <;> assumption
  exact hlow.between hhigh (ha.mergeType hb)

/-- The smaller lower bound and the larger upper bound. -/
theorem wf_hull : Wf tag
    (between (mergeType a.type b.type) (a.smallerLow b) (a.largerHigh b)) := by
  have hlow : Wf tag (a.smallerLow b) := by
    rcases low_spec htag ha hb with ⟨h, -⟩ | ⟨h, -⟩ <;> rw [h] <;> assumption
  have hhigh : Wf tag (a.largerHigh b) := by
    rcases largerHigh_spec htag ha hb hna hnb with ⟨h, -⟩ | ⟨h, -⟩ <;> rw [h] <;> assumption
  exact hlow.between hhigh (ha.mergeType hb)

end Results

/-- The one or two sides of a range that has bounds. -/
theorem mem_sides {low high : Option Value} {left right m : KeyRange} :
    m ∈ (if low ≠ none then [left] else []) ++ (if high ≠ none then [right] else []) ↔
      (low ≠ none ∧ m = left) ∨ (high ≠ none ∧ m = right) := by
  by_cases h1 : low = none <;> by_cases h2 : high = none <;> simp [h1, h2]

theorem contains_of_isEmpty {r : KeyRange} (h : r.isEmpty = true) (v : Value) :
    r.contains v = false := by
  unfold contains
  rw [h]
  rfl

theorem contains_empty (t : DataType) (v : Value) : (empty t).contains v = false :=
  contains_of_isEmpty rfl v

/-- Leaving out parts that contain nothing changes nothing. -/
theorem exists_contains_filter {parts : List KeyRange} {keep : KeyRange → Bool} {v : Value}
    (h : ∀ m ∈ parts, m.isEmpty = false → keep m = true) :
    (∃ m ∈ parts.filter keep, m.contains v = true) ↔ ∃ m ∈ parts, m.contains v = true := by
  constructor
  · rintro ⟨m, hm, hc⟩
    exact ⟨m, (mem_filter.mp hm).1, hc⟩
  · rintro ⟨m, hm, hc⟩
    refine ⟨m, mem_filter.mpr ⟨hm, h m hm ?_⟩, hc⟩
    cases he : m.isEmpty with
    | true => simp [contains_of_isEmpty he] at hc
    | false => rfl

/-- No part, or one that contains nothing. -/
theorem exists_contains_or_empty (parts : List KeyRange) (v : Value) :
    (∃ m ∈ (if parts = [] then [empty .unknownType] else parts), m.contains v = true) ↔
      ∃ m ∈ parts, m.contains v = true := by
  split_ifs with hnil
  · simp [hnil, contains_empty]
  · exact Iff.rfl

theorem exists_contains_sides {low high : Option Value} {left right : KeyRange} {v : Value} :
    (∃ m ∈ (if low ≠ none then [left] else []) ++ (if high ≠ none then [right] else []),
        m.contains v = true) ↔
      (low ≠ none ∧ left.contains v = true) ∨ (high ≠ none ∧ right.contains v = true) := by
  simp only [mem_sides, or_and_right, exists_or, and_assoc, exists_and_left, exists_eq_left]

/-! ## The operations, point by point -/

section Pointwise

variable {tag : UInt8} (htag : tag ≠ kTagNull) {a b : KeyRange} (ha : Wf tag a) (hb : Wf tag b)
  {v : Value} (hv : InFamily tag v)

include htag ha hb hv

theorem contains_intersect :
    (a.intersect b).contains v = true ↔ a.contains v = true ∧ b.contains v = true := by
  unfold intersect
  cases hea : a.isEmpty with
  | true => simp [contains_empty, contains_of_isEmpty hea]
  | false =>
    cases heb : b.isEmpty with
    | true => simp [contains_empty, contains_of_isEmpty heb]
    | false =>
      obtain ⟨hna, -⟩ := isEmpty_eq_false.mp hea
      obtain ⟨hnb, -⟩ := isEmpty_eq_false.mp heb
      have hwf := wf_meet htag ha hb hna hnb
      simp only [Bool.or_self, Bool.false_eq_true, if_false]
      rw [normalize_of_normal hwf.normal, contains_iff htag hwf hv, contains_iff htag ha hv,
        contains_iff htag hb hv]
      generalize boundKey tag v false = x
      have habove : Above ((a.largerLow b).lowAt tag) x ↔
          Above (a.lowAt tag) x ∧ Above (b.lowAt tag) x := by
        rcases low_spec htag ha hb with ⟨-, h, hle⟩ | ⟨-, h, hle⟩ <;> rw [h]
        · exact (and_iff_right_of_imp (Above.of_le hle)).symm
        · exact (and_iff_left_of_imp (Above.of_le hle)).symm
      have hbelow : Below ((a.smallerHigh b).highAt tag) x ↔
          Below (a.highAt tag) x ∧ Below (b.highAt tag) x := by
        rcases smallerHigh_spec htag ha hb hna hnb with ⟨h, hle⟩ | ⟨h, hle⟩ <;> rw [h]
        · exact (and_iff_right_of_imp (Below.of_le hle)).symm
        · exact (and_iff_left_of_imp (Below.of_le hle)).symm
      show Above ((a.largerLow b).lowAt tag) x ∧ Below ((a.smallerHigh b).highAt tag) x ↔ _
      rw [habove, hbelow]
      exact and_and_and_comm

/-- `overlaps` is false for two ranges only if they have nothing in common. -/
theorem not_contains_of_not_overlaps (hno : a.overlaps b = false) :
    ¬ (a.contains v = true ∧ b.contains v = true) := by
  rintro ⟨hca, hcb⟩
  cases hea : a.isEmpty with
  | true => simp [contains_of_isEmpty hea] at hca
  | false =>
    cases heb : b.isEmpty with
    | true => simp [contains_of_isEmpty heb] at hcb
    | false =>
      obtain ⟨hna, -⟩ := isEmpty_eq_false.mp hea
      obtain ⟨hnb, -⟩ := isEmpty_eq_false.mp heb
      have hia := (contains_iff htag ha hv).mp hca
      have hib := (contains_iff htag hb hv).mp hcb
      unfold overlaps at hno
      rw [hea, heb] at hno
      simp only [Bool.or_self, Bool.false_eq_true, if_false, Bool.and_eq_false_iff] at hno
      rcases hno with hno | hno
      · split at hno
        · rename_i lk ohk hl ho
          exact disjoint_of htag hb ha hnb ho hl (by simpa using hno) _ ⟨hib.2, hia.1⟩
        · simp at hno
      · split at hno
        · rename_i olk hk ho hh
          exact disjoint_of htag ha hb hna hh ho (by simpa using hno) _ ⟨hia.2, hib.1⟩
        · simp at hno

omit htag ha hb hv in
theorem overlaps_comm : a.overlaps b = b.overlaps a := by
  unfold overlaps
  rw [Bool.or_comm, Bool.and_comm]

omit htag ha hb hv in
theorem isAdjacent_comm : a.isAdjacent b = b.isAdjacent a := by
  unfold isAdjacent
  rw [Bool.or_comm]
  congr 1
  rw [Bool.or_comm]
  congr 1
  · cases a.lowKey <;> cases b.highKey <;> simp [eq_comm]
  · cases a.highKey <;> cases b.lowKey <;> simp [eq_comm]

omit htag ha hb hv in
/-- Ranges that overlap or are adjacent are not empty, and one does not end before the other begins. -/
theorem not_lt_of_touch (h : a.overlaps b = true ∨ a.isAdjacent b = true) :
    a.isEmpty = false ∧ b.isEmpty = false ∧ ∀ hk ∈ a.highKey, ∀ olk ∈ b.lowKey, ¬ hk < olk := by
  have hne : a.isEmpty = false ∧ b.isEmpty = false := by
    unfold overlaps isAdjacent at h
    cases hea : a.isEmpty <;> cases heb : b.isEmpty <;> simp [hea, heb] at h ⊢
  refine ⟨hne.1, hne.2, fun hk hhk olk holk => ?_⟩
  obtain ⟨-, hlta⟩ := isEmpty_eq_false.mp hne.1
  obtain ⟨-, hltb⟩ := isEmpty_eq_false.mp hne.2
  rcases h with h | h
  · unfold overlaps at h
    rw [hne.1, hne.2, Option.mem_def.mp hhk, Option.mem_def.mp holk] at h
    simp only [Bool.or_self, Bool.false_eq_true, if_false, Bool.and_eq_true, decide_eq_true_eq] at h
    exact List.lt_asymm h.2
  · unfold isAdjacent at h
    rw [hne.1, hne.2, Option.mem_def.mp hhk, Option.mem_def.mp holk] at h
    simp only [Bool.or_self, Bool.false_eq_true, if_false, Bool.or_eq_true, decide_eq_true_eq] at h
    rcases h with rfl | h
    · exact List.lt_irrefl _
    · split at h
      · -- `b` ends where `a` begins
        rename_i lk ohk hlk hohk
        obtain rfl : lk = ohk := by simpa using h
        exact List.lt_asymm (List.lt_trans (hltb olk holk lk hohk) (hlta lk hlk hk hhk))
      · simp at h

omit hv in
/-- Ranges that overlap or are adjacent leave no gap. -/
theorem reaches_of_overlaps_or_adjacent (h : a.overlaps b = true ∨ a.isAdjacent b = true) :
    Reaches (a.highAt tag) (b.lowAt tag) ∧ Reaches (b.highAt tag) (a.lowAt tag) := by
  obtain ⟨hea, heb, hab⟩ := not_lt_of_touch h
  rw [overlaps_comm, isAdjacent_comm] at h
  exact ⟨reaches_of htag ha hb (isEmpty_eq_false.mp hea).1 hab,
    reaches_of htag hb ha (isEmpty_eq_false.mp heb).1 (not_lt_of_touch h).2.2⟩

theorem contains_unite :
    (∃ m ∈ a.unite b, m.contains v = true) ↔ a.contains v = true ∨ b.contains v = true := by
  unfold unite
  cases hea : a.isEmpty with
  | true => simp [contains_of_isEmpty hea]
  | false =>
    cases heb : b.isEmpty with
    | true => simp [contains_of_isEmpty heb]
    | false =>
      simp only [Bool.false_eq_true, if_false]
      by_cases hapart : (!a.overlaps b && !a.isAdjacent b) = true
      · rw [if_pos hapart]
        simp
      · rw [if_neg hapart]
        have htouch : a.overlaps b = true ∨ a.isAdjacent b = true := by
          by_contra hno
          simp only [not_or, Bool.not_eq_true] at hno
          exact hapart (by simp [hno])
        obtain ⟨hab, hba⟩ := reaches_of_overlaps_or_adjacent htag ha hb htouch
        obtain ⟨hna, -⟩ := isEmpty_eq_false.mp hea
        obtain ⟨hnb, -⟩ := isEmpty_eq_false.mp heb
        have hwf := wf_hull htag ha hb hna hnb
        simp only [mem_singleton, exists_eq_left]
        rw [normalize_of_normal hwf.normal, contains_iff htag hwf hv, contains_iff htag ha hv,
          contains_iff htag hb hv]
        generalize boundKey tag v false = x
        have habove : Above ((a.smallerLow b).lowAt tag) x ↔
            Above (a.lowAt tag) x ∨ Above (b.lowAt tag) x := by
          rcases low_spec htag ha hb with ⟨h, -, hle⟩ | ⟨h, -, hle⟩ <;> rw [h]
          · exact (or_iff_left_of_imp (Above.of_le hle)).symm
          · exact (or_iff_right_of_imp (Above.of_le hle)).symm
        have hbelow : Below ((a.largerHigh b).highAt tag) x ↔
            Below (a.highAt tag) x ∨ Below (b.highAt tag) x := by
          rcases largerHigh_spec htag ha hb hna hnb with ⟨h, hle⟩ | ⟨h, hle⟩ <;> rw [h]
          · exact (or_iff_left_of_imp (Below.of_le hle)).symm
          · exact (or_iff_right_of_imp (Below.of_le hle)).symm
        show Above ((a.smallerLow b).lowAt tag) x ∧ Below ((a.largerHigh b).highAt tag) x ↔ _
        rw [habove, hbelow]
        constructor
        · rintro ⟨hx, hx'⟩
          exact inside_or_inside hab hba hx hx'
        · rintro (⟨hx, hx'⟩ | ⟨hx, hx'⟩)
          · exact ⟨Or.inl hx, Or.inl hx'⟩
          · exact ⟨Or.inr hx, Or.inr hx'⟩

theorem contains_of_covers (hc : a.covers b = true) (hcb : b.contains v = true) :
    a.contains v = true := by
  cases heb : b.isEmpty with
  | true => simp [contains_of_isEmpty heb] at hcb
  | false =>
    unfold covers at hc
    cases hea : a.isEmpty with
    | true => simp [hea, heb] at hc
    | false =>
      obtain ⟨hna, -⟩ := isEmpty_eq_false.mp hea
      obtain ⟨hnb, -⟩ := isEmpty_eq_false.mp heb
      rw [hea, heb] at hc
      simp only [Bool.false_eq_true, if_false, Bool.and_eq_true] at hc
      obtain ⟨hlow, hhigh⟩ := hc
      rw [contains_iff htag hb hv] at hcb
      rw [contains_iff htag ha hv]
      constructor
      · split at hlow
        · simp at hlow
        · rename_i lk olk hl ho
          exact hcb.1.of_le (lowLe_of htag ha hb (by simpa [hl, ho] using hlow))
        · rename_i hl
          exact hcb.1.of_le (lowLe_of htag ha hb (by simp [hl]))
      · split at hhigh
        · simp at hhigh
        · rename_i hk ohk hh ho
          exact hcb.2.of_le (highLe_of htag hb ha hnb hna (by simpa [hh, ho] using hhigh))
        · rename_i hh
          exact hcb.2.of_le (highLe_of htag hb ha hnb hna (by simp [hh]))

theorem contains_subtract :
    (∃ m ∈ a.subtract b, m.contains v = true) ↔ a.contains v = true ∧ b.contains v = false := by
  unfold subtract
  cases hea : a.isEmpty with
  | true => simp [contains_empty, contains_of_isEmpty hea]
  | false =>
    simp only [Bool.false_eq_true, if_false]
    by_cases hdis : (b.isEmpty || !a.overlaps b) = true
    · rw [if_pos hdis]
      have hnot : ¬ (a.contains v = true ∧ b.contains v = true) := by
        rcases Bool.or_eq_true_iff.mp hdis with heb | hno
        · simp [contains_of_isEmpty heb]
        · exact not_contains_of_not_overlaps htag ha hb hv (by simpa using hno)
      cases hcb : b.contains v <;> simp_all
    · rw [if_neg hdis]
      by_cases hcov : b.covers a = true
      · rw [if_pos hcov]
        have himp := contains_of_covers htag hb ha hv hcov
        cases hca : a.contains v <;> simp_all [contains_empty]
      · rw [if_neg hcov]
        have hover : a.overlaps b = true := by
          cases h : a.overlaps b <;> simp_all
        have heb : b.isEmpty = false := by
          cases h : b.isEmpty <;> simp_all
        obtain ⟨hab, hba⟩ := reaches_of_overlaps_or_adjacent htag ha hb (Or.inl hover)
        obtain ⟨hnb, -⟩ := isEmpty_eq_false.mp heb
        have hleft := wf_below ha hb (ha.mergeType hb)
        have hright := wf_above hnb hb ha (ha.mergeType hb)
        have hleftEq : a.leftPart b = _ := normalize_of_normal hleft.normal
        have hrightEq : a.rightPart b = _ := normalize_of_normal hright.normal
        rw [exists_contains_or_empty, exists_contains_filter]
        swap
        · intro p hp he
          suffices hall : p.isAll = false by simp [he, hall]
          rcases mem_sides.mp hp with ⟨hlow, rfl⟩ | ⟨hhigh, rfl⟩
          · rw [hleftEq]
            simp [isAll, hlow]
          · rw [hrightEq]
            simp [isAll, hhigh]
        have hcl : (a.leftPart b).contains v = true ↔
            Above (a.lowAt tag) (boundKey tag v false) ∧
              Below (b.lowAt tag) (boundKey tag v false) := by
          rw [hleftEq]
          exact contains_iff htag hleft hv
        have hcr : (a.rightPart b).contains v = true ↔
            Above (b.highAt tag) (boundKey tag v false) ∧
              Below (a.highAt tag) (boundKey tag v false) := by
          rw [hrightEq]
          exact contains_iff htag hright hv
        have hlow : b.low ≠ none ↔ b.lowAt tag ≠ none := by simp [lowAt]
        have hhigh : b.high ≠ none ↔ b.highAt tag ≠ none := by simp [highAt]
        rw [parts, exists_contains_sides, hcl, hcr, hlow, hhigh, ← Bool.not_eq_true, contains_iff htag ha hv,
          contains_iff htag hb hv]
        generalize boundKey tag v false = x
        constructor
        · rintro (⟨hne, hx, hx'⟩ | ⟨hne, hx, hx'⟩)
          · exact ⟨⟨hx, below_of_reaches hab hne hx'⟩,
              fun h => not_above_iff.mpr ⟨hne, hx'⟩ h.1⟩
          · exact ⟨⟨above_of_reaches hba hne hx, hx'⟩,
              fun h => not_below_iff.mpr ⟨hne, hx⟩ h.2⟩
        · rintro ⟨⟨hx, hx'⟩, hnot⟩
          by_cases hal : Above (b.lowAt tag) x
          · obtain ⟨hne, hab⟩ := not_below_iff.mp fun h => hnot ⟨hal, h⟩
            exact Or.inr ⟨hne, hab, hx'⟩
          · obtain ⟨hne, hbe⟩ := not_above_iff.mp hal
            exact Or.inl ⟨hne, hx, hbe⟩

omit hb in
theorem contains_complement :
    (∃ m ∈ a.complement, m.contains v = true) ↔ a.contains v = false := by
  unfold complement
  cases hea : a.isEmpty with
  | true =>
    have hall : (all a.type).contains v = true :=
      (contains_iff htag (wf_all a.type ha.type) hv).mpr ⟨above_none _, below_none _⟩
    simp [contains_of_isEmpty hea, hall]
  | false =>
    simp only [Bool.false_eq_true, if_false]
    obtain ⟨hna, -⟩ := isEmpty_eq_false.mp hea
    cases hall : a.isAll with
    | true =>
      simp only [isAll, Bool.and_eq_true, decide_eq_true_eq] at hall
      have hca : a.contains v = true := by
        rw [contains_iff htag ha hv]
        unfold lowAt highAt
        rw [hall.1, hall.2]
        exact ⟨above_none _, below_none _⟩
      simp [contains_empty, hca]
    | false =>
      simp only [Bool.false_eq_true, if_false]
      have hleft : Wf tag { type := a.type, high := a.low, highInclusive := a.lowExclusive } :=
        wf_below (wf_all a.type ha.type) ha ha.type
      have hright : Wf tag { type := a.type, low := a.high, lowExclusive := a.highInclusive } :=
        wf_above hna ha (wf_all a.type ha.type) ha.type
      have hcl : a.leftSide.contains v = true ↔
          Below (a.lowAt tag) (boundKey tag v false) := by
        rw [leftSide, normalize_of_normal hleft.normal]
        exact (contains_iff htag hleft hv).trans (and_iff_right (above_none _))
      have hcr : a.rightSide.contains v = true ↔
          Above (a.highAt tag) (boundKey tag v false) := by
        rw [rightSide, normalize_of_normal hright.normal]
        exact (contains_iff htag hright hv).trans (and_iff_left (below_none _))
      have hlow : a.low ≠ none ↔ a.lowAt tag ≠ none := by simp [lowAt]
      have hhigh : a.high ≠ none ↔ a.highAt tag ≠ none := by simp [highAt]
      rw [exists_contains_filter (by simp), exists_contains_sides, hcl, hcr, hlow, hhigh,
        ← not_above_iff, ← not_below_iff, ← Bool.not_eq_true,
        contains_iff htag ha hv]
      exact not_and_or.symm

end Pointwise

/-! ## The ranges of a family -/

/-- What the factories and the operations make from the values in `fits`; `allowed` are the types
    that may stand on a range. -/
inductive Built (fits : Value → Prop) (allowed : DataType → Prop) : KeyRange → Prop
  | all {t : DataType} (ht : allowed t) : Built fits allowed (all t)
  | nonNull {t : DataType} (ht : allowed t) : Built fits allowed (nonNull t)
  | nullOnly {t : DataType} (ht : allowed t) : Built fits allowed (nullOnly t)
  | empty {t : DataType} (ht : allowed t) : Built fits allowed (empty t)
  | gt {v : Value} (hv : fits v) : Built fits allowed (gt v)
  | ge {v : Value} (hv : fits v) : Built fits allowed (ge v)
  | lt {v : Value} (hv : fits v) : Built fits allowed (lt v)
  | le {v : Value} (hv : fits v) : Built fits allowed (le v)
  | eq {v : Value} {t : DataType} (hv : fits v) (ht : allowed t) : Built fits allowed (eq v t)
  | fromValue {v : Value} (hv : fits v) : Built fits allowed (fromValue v)
  | toValue {v : Value} (hv : fits v) : Built fits allowed (toValue v)
  | point {v : Value} (hv : fits v) : Built fits allowed (point v)
  | closed {v w : Value} (hv : fits v) (hw : fits w) : Built fits allowed (closed v w)
  | range {v w : Value} (hv : fits v) (hw : fits w) (ht : allowed (range v w).type) :
      Built fits allowed (range v w)
  | intersect {a b : KeyRange} (ha : Built fits allowed a) (hb : Built fits allowed b) :
      Built fits allowed (a.intersect b)
  | unite {a b m : KeyRange} (ha : Built fits allowed a) (hb : Built fits allowed b)
      (hm : m ∈ a.unite b) : Built fits allowed m
  | subtract {a b m : KeyRange} (ha : Built fits allowed a) (hb : Built fits allowed b)
      (hm : m ∈ a.subtract b) : Built fits allowed m
  | complement {a m : KeyRange} (ha : Built fits allowed a) (hm : m ∈ a.complement) :
      Built fits allowed m

/-- A type of the family, or of none. -/
def OfFamilyOrNone (tag : UInt8) (t : DataType) : Prop := tagOf t = tag ∨ tagOf t = kTagNull

/-! ### Where results come from -/

/-- Both bounds satisfy it. -/
def Bounded (P : Value → Prop) (r : KeyRange) : Prop := (∀ v ∈ r.low, P v) ∧ ∀ v ∈ r.high, P v

/-- What the operations return, as far as types, bounds and NULL as a lower bound are concerned. -/
inductive ResultOf (a b : KeyRange) : KeyRange → Prop
  | none : ResultOf a b (empty .unknownType)
  | left : ResultOf a b a
  | right : ResultOf a b b
  | all : ResultOf a b (all a.type)
  | made {m : KeyRange} (ha : a.isEmpty = false) (hb : b.isEmpty = false)
      (htype : m.type = mergeType a.type b.type ∨ m.type = a.type ∧ a = b)
      (hbounds : ∀ P, Bounded P a → Bounded P b → Bounded P m) : ResultOf a b (normalize m)

section Results

variable {a b m : KeyRange}

theorem bounded_between {P : Value → Prop} {t : DataType} {c d : KeyRange} (hc : c = a ∨ c = b)
    (hd : d = a ∨ d = b) (ha : Bounded P a) (hb : Bounded P b) : Bounded P (between t c d) := by
  constructor
  · rcases hc with rfl | rfl
    exacts [ha.1, hb.1]
  · rcases hd with rfl | rfl
    exacts [ha.2, hb.2]

theorem resultOf_intersect (a b : KeyRange) : ResultOf a b (a.intersect b) := by
  unfold intersect
  split_ifs with hne
  · exact .none
  · simp only [Bool.or_eq_true, not_or, Bool.not_eq_true] at hne
    refine .made hne.1 hne.2 (Or.inl rfl) fun P => bounded_between ?_ ?_
    · unfold largerLow
      split <;> (try split) <;> simp
    · unfold smallerHigh
      split <;> (try split) <;> simp

theorem resultOf_unite (hm : m ∈ a.unite b) : ResultOf a b m := by
  unfold unite at hm
  split_ifs at hm with hea heb
  · rw [mem_singleton.mp hm]
    exact .right
  · rw [mem_singleton.mp hm]
    exact .left
  · rcases mem_pair.mp hm with rfl | rfl
    · exact .left
    · exact .right
  · rw [mem_singleton.mp hm]
    refine .made (by simpa using hea) (by simpa using heb) (Or.inl rfl) fun P => bounded_between ?_ ?_
    · unfold smallerLow
      split <;> (try split) <;> simp
    · unfold largerHigh
      split <;> (try split) <;> simp

theorem resultOf_subtract (hm : m ∈ a.subtract b) : ResultOf a b m := by
  unfold subtract at hm
  split at hm
  · rw [mem_singleton.mp hm]
    exact .none
  · rename_i hea
    split at hm
    · rw [mem_singleton.mp hm]
      exact .left
    · rename_i heb
      simp only [Bool.or_eq_true, not_or, Bool.not_eq_true] at hea heb
      split at hm
      · rw [mem_singleton.mp hm]
        exact .none
      · dsimp only at hm
        split at hm
        · rw [mem_singleton.mp hm]
          exact .none
        · rcases mem_sides.mp (mem_filter.mp hm).1 with ⟨-, rfl⟩ | ⟨-, rfl⟩
          · exact .made hea heb.1 (Or.inl rfl) fun P ha hb => ⟨ha.1, hb.1⟩
          · exact .made hea heb.1 (Or.inl rfl) fun P ha hb => ⟨hb.2, ha.2⟩

theorem resultOf_complement (hm : m ∈ a.complement) : ResultOf a a m := by
  unfold complement at hm
  split at hm
  · rw [mem_singleton.mp hm]
    exact .all
  · rename_i hea
    rw [Bool.not_eq_true] at hea
    split at hm
    · rw [mem_singleton.mp hm]
      exact .none
    · rcases mem_sides.mp (mem_filter.mp hm).1 with ⟨-, rfl⟩ | ⟨-, rfl⟩
      · exact .made hea hea (Or.inr ⟨rfl, rfl⟩) fun P ha _ => ⟨by simp, ha.1⟩
      · exact .made hea hea (Or.inr ⟨rfl, rfl⟩) fun P ha _ => ⟨ha.2, by simp⟩

end Results

/-- There is no bound. -/
def Unbounded (r : KeyRange) : Prop := Bounded (fun _ => False) r

/-- The bounds are NULL or fit, NULL is an open lower bound or none, and the type is an allowed one; or
    else it is not known, and no bound is written with it. -/
structure Plain (fits : Value → Prop) (allowed : DataType → Prop) (r : KeyRange) : Prop where
  bounds : Bounded (fun v => v = .null ∨ fits v) r
  normal : r.low = some .null → r.lowExclusive = true
  type : allowed r.type ∨ r.type = .unknownType ∧ (r.isEmpty = true ∨ r.Unbounded)

section Plain

variable {fits : Value → Prop} {allowed : DataType → Prop} {a b m : KeyRange}

theorem type_normalize (r : KeyRange) : r.normalize.type = r.type := by
  unfold normalize
  split <;> rfl

theorem plain_normalize (hbounds : Bounded (fun v => v = .null ∨ fits v) m)
    (h : allowed m.type ∨ m.type = .unknownType ∧ m.Unbounded) : Plain fits allowed m.normalize := by
  unfold normalize
  split_ifs with hnot
  · exact ⟨⟨by simp, hbounds.2⟩, nofun,
      h.imp_right fun ⟨htype, hun⟩ => ⟨htype, Or.inr ⟨by simp, hun.2⟩⟩⟩
  · exact ⟨hbounds, fun hlow => Bool.not_eq_false _ ▸ fun hex => hnot ⟨hlow, hex⟩,
      h.imp_right (And.imp_right Or.inr)⟩

theorem plain_empty : Plain fits allowed (empty .unknownType) :=
  ⟨⟨by simp [empty], by simp [empty]⟩, fun _ => rfl, Or.inr ⟨rfl, Or.inl rfl⟩⟩

theorem plain_orEmpty {v : Value} (h : v.isNull = false → Plain fits allowed m) :
    Plain fits allowed (if v.isNull then empty .unknownType else m) := by
  split
  · exact plain_empty
  · exact h (by simp_all)

/-- The type of a range that is not empty is allowed, or the range has no bound. -/
theorem Plain.unbounded (h : Plain fits allowed a) (hne : a.isEmpty = false) :
    allowed a.type ∨ a.type = .unknownType ∧ a.Unbounded :=
  h.type.imp_right (And.imp_right fun h => h.resolve_left (by simp [hne]))

theorem ResultOf.plain (ha : Plain fits allowed a) (hb : Plain fits allowed b)
    (h : ResultOf a b m) : Plain fits allowed m := by
  cases h with
  | none => exact plain_empty
  | left => exact ha
  | right => exact hb
  | all =>
    have hun : (KeyRange.all a.type).Unbounded := ⟨by simp [KeyRange.all], by simp [KeyRange.all]⟩
    exact ⟨⟨by simp [KeyRange.all], by simp [KeyRange.all]⟩, nofun,
      ha.type.imp_right fun h => ⟨h.1, Or.inr hun⟩⟩
  | @made m hea heb htype hbounds =>
    refine plain_normalize (hbounds _ ha.bounds hb.bounds) ?_
    have hta := ha.unbounded hea
    have htb := hb.unbounded heb
    rcases htype with htype | ⟨htype, rfl⟩
    · rw [htype]
      unfold mergeType
      split_ifs with hunknown
      · exact Or.inl (hta.resolve_right fun h => by simp_all)
      · rw [not_not.mp hunknown] at hta
        rcases hta with hta | hta
        · exact Or.inl (htb.elim id fun h => h.1 ▸ hta)
        · exact htb.imp_right fun h => ⟨h.1, hbounds _ hta.2 h.2⟩
    · rw [htype]
      exact hta.imp_right fun h => ⟨h.1, hbounds _ h.2 h.2⟩

theorem plain_closed {v w : Value} (hv : fits v) (hw : fits w)
    (htype : v.isNull = false → allowed v.type) : Plain fits allowed (closed v w) := by
  unfold closed
  split_ifs with hnull
  · exact plain_empty
  · simp only [Bool.or_eq_true, not_or, Bool.not_eq_true] at hnull
    exact ⟨⟨by simp [hv], by simp [hw]⟩, fun h => by simp_all [Value.isNull], Or.inl (htype hnull.1)⟩

/-- Every range that is built is plain, if a value that fits is NULL or has an allowed type. -/
theorem Built.plain {given : DataType → Prop} (hgiven : ∀ t, given t → allowed t)
    (hfits : ∀ v, fits v → v.isNull = false → allowed v.type) (h : Built fits given m) :
    Plain fits allowed m := by
  have hfrom : ∀ {v}, fits v → Plain fits allowed (KeyRange.fromValue v) := by
    intro v hv
    unfold KeyRange.fromValue
    split_ifs with hnull
    · exact ⟨⟨by simp, by simp⟩, by simp, Or.inr ⟨rfl, Or.inr ⟨by simp, by simp⟩⟩⟩
    · exact ⟨⟨by simp [hv], by simp⟩, fun h => by simp_all [Value.isNull],
        Or.inl (hfits v hv (by simpa using hnull))⟩
  have hnull : Bounded (fun v => v = .null ∨ fits v)
      { low := some .null, high := some .null } := ⟨by simp, by simp⟩
  induction h with
  | all ht =>
    exact ⟨⟨by simp [KeyRange.all], by simp [KeyRange.all]⟩, by simp [KeyRange.all],
      Or.inl (hgiven _ ht)⟩
  | nonNull ht =>
    exact ⟨⟨hnull.1, by simp [KeyRange.nonNull]⟩, fun _ => rfl, Or.inl (hgiven _ ht)⟩
  | nullOnly ht => exact plain_normalize ⟨by simp, hnull.2⟩ (Or.inl (hgiven _ ht))
  | empty ht => exact ⟨hnull, fun _ => rfl, Or.inl (hgiven _ ht)⟩
  | gt hv =>
    exact plain_orEmpty fun h => ⟨(hfrom hv).bounds, fun _ => rfl,
      Or.inl (by simpa [KeyRange.fromValue, h] using hfits _ hv h)⟩
  | ge hv => exact plain_orEmpty fun _ => hfrom hv
  | lt hv | le hv =>
    exact plain_orEmpty fun h => ⟨⟨hnull.1, by simp [hv]⟩, fun _ => rfl, Or.inl (hfits _ hv h)⟩
  | eq hv ht =>
    unfold KeyRange.eq
    split
    · exact plain_normalize ⟨by simp, hnull.2⟩ (Or.inl (hgiven _ ht))
    · exact plain_orEmpty fun _ => plain_closed hv hv (hfits _ hv)
  | fromValue hv => exact hfrom hv
  | toValue hv =>
    exact plain_orEmpty fun h => ⟨⟨by simp, by simp [hv]⟩, by simp, Or.inl (hfits _ hv h)⟩
  | point hv => exact plain_orEmpty fun _ => plain_closed hv hv (hfits _ hv)
  | closed hv hw => exact plain_closed hv hw (hfits _ hv)
  | range hv hw ht =>
    refine plain_normalize ⟨by simp [hv], by simp [hw]⟩ (Or.inl (hgiven _ ?_))
    rwa [KeyRange.range, type_normalize] at ht
  | intersect ha hb iha ihb => exact (resultOf_intersect _ _).plain iha ihb
  | unite ha hb hm iha ihb => exact (resultOf_unite hm).plain iha ihb
  | subtract ha hb hm iha ihb => exact (resultOf_subtract hm).plain iha ihb
  | complement ha hm iha => exact (resultOf_complement hm).plain iha iha

end Plain

theorem InFamily.allowed {tag : UInt8} {v : Value} (hv : InFamily tag v) (h : v.isNull = false) :
    tagOf v.type = tag := by
  rcases hv with rfl | hv
  · exact absurd h (by decide)
  · exact hv.2

/-- Every range that is built from a family is well-formed in it. -/
theorem Built.wf {tag : UInt8} {given : DataType → Prop} (hgiven : ∀ t, given t → OfFamilyOrNone tag t)
    {r : KeyRange} (h : Built (InFamily tag) given r) : Wf tag r := by
  obtain ⟨⟨hlow, hhigh⟩, hnormal, htype⟩ := h.plain hgiven fun v hv hnull => Or.inl (hv.allowed hnull)
  exact ⟨fun v hv => (hlow v hv).elim Or.inl id, fun v hv => (hhigh v hv).elim Or.inl id,
    htype.elim id fun h => h.1 ▸ Or.inr rfl, hnormal⟩

/-- **Set operations are pointwise.**  For all ranges that the factories and the operations make from
    the values of the family of `t`, and every value of that family or NULL. -/
theorem range_ops_pointwise (t : DataType) (ht : tagOf t ≠ kTagNull) (a b : KeyRange)
    (ha : Built (InFamily (tagOf t)) (OfFamilyOrNone (tagOf t)) a)
    (hb : Built (InFamily (tagOf t)) (OfFamilyOrNone (tagOf t)) b) (v : Value)
    (hv : InFamily (tagOf t) v) :
    ((a.intersect b).contains v = true ↔ a.contains v = true ∧ b.contains v = true) ∧
    ((∃ m ∈ a.unite b, m.contains v = true) ↔ a.contains v = true ∨ b.contains v = true) ∧
    ((∃ m ∈ a.subtract b, m.contains v = true) ↔ a.contains v = true ∧ b.contains v = false) ∧
    ((∃ m ∈ a.complement, m.contains v = true) ↔ a.contains v = false) ∧
    (a.covers b = true → b.contains v = true → a.contains v = true) := by
  have hwa := ha.wf fun _ => id
  have hwb := hb.wf fun _ => id
  exact ⟨contains_intersect ht hwa hwb hv, contains_unite ht hwa hwb hv,
    contains_subtract ht hwa hwb hv, contains_complement ht hwa hv, contains_of_covers ht hwa hwb hv⟩

theorem range_ops_pointwise_null :
    ((all .int).intersect (lt (.ofInt 5))).contains .null = false := by
  have h := (range_ops_pointwise .int (by decide) (all .int) (lt (.ofInt 5))
    (.all (Or.inl rfl)) (.lt (Or.inr ⟨rfl, rfl⟩)) .null (Or.inl rfl)).1
  rw [← Bool.not_eq_true, h]
  decide

end SqlDb.Sql.KeyRange
