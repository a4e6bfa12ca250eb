/-
  LISTS OF RANGES IN ORDER  (`normalize_ranges`, `intersect_ranges`, `unite_ranges`,
  `coalesce_adjacent_points`, planner/optimizer.cpp).

  The ranges of a list are APART if each one ends before the next one begins: a scan of one after the
  other then meets every key once, and in order.  Sorting by the lower bounds and uniting neighbours
  makes them so (`merged_normalizeRanges`), because a range that neither overlaps nor touches the last
  one, and does not begin before it, begins behind its end (`endsBefore_of_not_overlaps`).

  The comparisons of the code are made on keys that spell NULL with each range's own type.  As for the
  single operations, all arguments are made with the tag of the column's family instead.
-/
import SqlDb.Planner.Optimizer

namespace SqlDb.Plan

open Sql KeyCodecs KeyRange HalfOpen List

/-- A range that contains something is not empty. -/
theorem isEmpty_of_contains {r : KeyRange} {v : Value} (h : r.contains v = true) :
    r.isEmpty = false := by
  rw [← Bool.not_eq_true]
  intro hempty
  rw [contains_of_isEmpty hempty] at h
  simp at h

/-! ## The order of ranges -/

section Order

variable {x y z : Option Key}

theorem lowLess_eq_false : lowLess x y = false ↔ ∀ k ∈ y, ∃ k' ∈ x, ¬ k' < k := by
  cases x <;> cases y <;> simp [lowLess]

theorem highLess_eq_false : highLess x y = false ↔ ∀ k' ∈ x, ∃ k ∈ y, ¬ k' < k := by
  cases x <;> cases y <;> simp [highLess]

theorem lowLess_antisymm (h : lowLess x y = false) (h' : lowLess y x = false) : x = y := by
  rw [lowLess_eq_false] at h h'
  cases x with
  | none =>
    cases y with
    | none => rfl
    | some k => exact absurd (h k rfl) (by simp)
  | some k =>
    cases y with
    | none => exact absurd (h' k rfl) (by simp)
    | some k' =>
      obtain ⟨_, ⟨⟩, hlt⟩ := h k' rfl
      obtain ⟨_, ⟨⟩, hlt'⟩ := h' k rfl
      exact congrArg some (key_eq_iff.mpr ⟨hlt, hlt'⟩)

theorem lowLess_trans (h : lowLess y x = false) (h' : lowLess z y = false) : lowLess z x = false := by
  rw [lowLess_eq_false] at h h' ⊢
  intro k hk
  obtain ⟨k', hk', hlt⟩ := h k hk
  obtain ⟨k'', hk'', hlt'⟩ := h' k' hk'
  exact ⟨k'', hk'', fun hlt'' => hlt' (lt_of_lt_of_not_lt hlt'' hlt)⟩

theorem highLess_trans (h : highLess y x = false) (h' : highLess z y = false) :
    highLess z x = false := by
  rw [highLess_eq_false] at h h' ⊢
  intro k hk
  obtain ⟨k', hk', hlt⟩ := h' k hk
  obtain ⟨k'', hk'', hlt'⟩ := h k' hk'
  exact ⟨k'', hk'', fun hlt'' => hlt (lt_of_lt_of_not_lt hlt'' hlt')⟩

theorem lowLess_total (x y : Option Key) : lowLess y x = false ∨ lowLess x y = false := by
  cases x <;> cases y <;> simp [lowLess, List.le_total]

theorem highLess_total (x y : Option Key) : highLess y x = false ∨ highLess x y = false := by
  cases x <;> cases y <;> simp [highLess, List.le_total]

theorem rangeLess_total (a b : KeyRange) : rangeLess b a = false ∨ rangeLess a b = false := by
  unfold rangeLess
  by_cases h : a.lowKey = b.lowKey
  · rw [if_neg (by simp [h]), if_neg (by simp [h])]
    exact highLess_total _ _
  · rw [if_pos (Ne.symm h), if_pos h]
    exact lowLess_total _ _

theorem rangeLess_trans (a b c : KeyRange) (hab : rangeLess b a = false)
    (hbc : rangeLess c b = false) : rangeLess c a = false := by
  unfold rangeLess at *
  by_cases hlow : a.lowKey = b.lowKey
  · rw [if_neg (by simp [hlow])] at hab
    rw [← hlow] at hbc
    split_ifs at hbc with heq
    · rw [if_pos heq]
      exact hbc
    · rw [if_neg heq]
      exact highLess_trans hab hbc
  · rw [if_pos (Ne.symm hlow)] at hab
    split at hbc
    · rename_i hne
      have hca := lowLess_trans hab hbc
      split_ifs with heq
      · exact hca
      · -- then `a` and `b` would have the same lower bound
        rw [not_not.mp heq] at hbc
        exact absurd (lowLess_antisymm hbc hab) hlow
    · rename_i heq
      rw [not_not.mp heq, if_pos (Ne.symm hlow)]
      exact hab

end Order

/-- The ranges come in the order of their lower bounds. -/
theorem pairwise_sort_ranges (ranges : List KeyRange) :
    (Sorting.sort rangeLess ranges).Pairwise fun a b => rangeLess b a = false :=
  Sorting.pairwise_insertionSort (P := fun _ => True)
    (fun a b c _ _ _ => rangeLess_trans a b c) (fun a b _ _ => rangeLess_total a b)
    fun _ _ => trivial

/-! ## Bounds in the family -/

/-- `p` ends where `q` begins, or before. -/
def EndsBefore (tag : UInt8) (p q : KeyRange) : Prop :=
  ∃ hk ∈ p.highAt tag, ∃ lk ∈ q.lowAt tag, ¬ lk < hk

/-- The ranges come one after the other. -/
def Apart (tag : UInt8) (ranges : List KeyRange) : Prop := ranges.Pairwise (EndsBefore tag)

/-- Comparing the bounds of one range in its own type, or in the family, is the same. -/
theorem boundKey_lt_iff {tag τ : UInt8} (htag : tag ≠ kTagNull) (hτ : τ = tag ∨ τ = kTagNull)
    {v w : Value} {after after' : Bool} (hv : InFamily tag v) (hw : InFamily tag w)
    (hpv : Proper v after) (hpw : Proper w after') :
    boundKey τ v after < boundKey τ w after' ↔ boundKey tag v after < boundKey tag w after' := by
  rcases hv with rfl | hv
  · rcases hw with rfl | hw
    · rw [hpv rfl, hpw rfl]
      exact iff_of_false (List.lt_irrefl _) (List.lt_irrefl _)
    · exact iff_of_true (null_lt_value hw hτ htag _ _) (null_lt_value hw (Or.inl rfl) htag _ _)
  · rcases hw with rfl | hw
    · exact iff_of_false (List.lt_asymm (null_lt_value hv hτ htag _ _))
        (List.lt_asymm (null_lt_value hv (Or.inl rfl) htag _ _))
    · rw [boundKey_value hv τ tag, boundKey_value hw τ tag]

section Bounds

variable {tag : UInt8} (htag : tag ≠ kTagNull) {a b : KeyRange} (ha : Wf tag a) (hb : Wf tag b)

include htag ha

/-- What is in a range comes before what is in a later one. -/
theorem EndsBefore.keyIn_lt (hb : Wf tag b) (h : EndsBefore tag a b) {v w : Value}
    (hv : InFamily tag v) (hw : InFamily tag w) (hav : a.contains v = true)
    (hbw : b.contains w = true) : keyIn tag v < keyIn tag w := by
  obtain ⟨hk, hhk, lk, hlk, hlt⟩ := h
  have hbelow := ((contains_iff htag ha hv).mp hav).2 hk hhk
  have habove := ((contains_iff htag hb hw).mp hbw).1 lk hlk
  exact lt_of_lt_of_not_lt (lt_of_lt_of_not_lt hbelow hlt) habove

/-- The bounds of a range that is not empty, in the family. -/
theorem isEmpty_eq_false_iff : a.isEmpty = false ↔
    a.endsBeforeNull = false ∧ ∀ lk ∈ a.lowAt tag, ∀ hk ∈ a.highAt tag, lk < hk := by
  rw [isEmpty_eq_false]
  refine and_congr_right fun hends => ?_
  constructor
  · intro h lk hlk hk hhk
    obtain ⟨v, hv, rfl⟩ := Option.map_eq_some_iff.mp hlk
    obtain ⟨w, hw, rfl⟩ := Option.map_eq_some_iff.mp hhk
    exact (boundKey_lt_iff htag ha.type (ha.low v hv) (ha.high w hw) (ha.low_proper hv)
      (high_proper hends hw)).mp
      (h _ (mem_lowKey.mpr ⟨v, hv, rfl⟩) _ (mem_highKey.mpr ⟨w, hw, rfl⟩))
  · intro h lk hlk hk hhk
    obtain ⟨v, hv, rfl⟩ := mem_lowKey.mp hlk
    obtain ⟨w, hw, rfl⟩ := mem_highKey.mp hhk
    exact (boundKey_lt_iff htag ha.type (ha.low v hv) (ha.high w hw) (ha.low_proper hv)
      (high_proper hends hw)).mpr
      (h _ (Option.map_eq_some_iff.mpr ⟨v, hv, rfl⟩) _ (Option.map_eq_some_iff.mpr ⟨w, hw, rfl⟩))

include hb

/-- The order of the code puts lower bounds in order. -/
theorem lowLe_of_rangeLess (h : rangeLess b a = false) : LowLe (a.lowAt tag) (b.lowAt tag) := by
  have hlow : lowLess b.lowKey a.lowKey = false := by
    unfold rangeLess at h
    split_ifs at h with heq
    · exact h
    · rw [not_not.mp heq, lowLess_eq_false]
      exact fun k hk => ⟨k, hk, List.lt_irrefl k⟩
  rw [lowLess_eq_false] at hlow
  exact lowLe_of htag ha hb hlow

/-- A range that does not overlap, and does not begin before, begins behind the end. -/
theorem endsBefore_of_not_overlaps (hea : a.isEmpty = false) (heb : b.isEmpty = false)
    (hle : LowLe (a.lowAt tag) (b.lowAt tag)) (hno : a.overlaps b = false) : EndsBefore tag a b := by
  obtain ⟨hna, -⟩ := (isEmpty_eq_false_iff htag ha).mp hea
  obtain ⟨hnb, hltb⟩ := (isEmpty_eq_false_iff htag hb).mp heb
  unfold overlaps at hno
  rw [hea, heb] at hno
  simp only [Bool.or_self, Bool.false_eq_true, if_false, Bool.and_eq_false_iff] at hno
  rcases hno with hno | hno
  · split at hno
    · -- `b` would end before it begins
      rename_i lk ohk hl ho
      obtain ⟨v, hv, rfl⟩ := mem_lowKey.mp hl
      obtain ⟨w, hw, rfl⟩ := mem_highKey.mp ho
      have hcmp := not_boundKey_lt htag ha.type (ha.low v hv) (hb.high w hw) (ha.low_proper hv)
        (high_proper hnb hw) (by simpa using hno)
      obtain ⟨lk, hlk, hlt⟩ := hle _ (Option.map_eq_some_iff.mpr ⟨v, hv, rfl⟩)
      have hbounds := hltb lk hlk _ (Option.map_eq_some_iff.mpr ⟨w, hw, rfl⟩)
      exact absurd (lt_of_not_lt_of_lt hlt hbounds) hcmp
    · simp at hno
  · split at hno
    · rename_i olk hk ho hh
      obtain ⟨v, hv, rfl⟩ := mem_lowKey.mp ho
      obtain ⟨w, hw, rfl⟩ := mem_highKey.mp hh
      have hcmp := not_boundKey_lt htag hb.type (hb.low v hv) (ha.high w hw) (hb.low_proper hv)
        (high_proper hna hw) (by simpa using hno)
      exact ⟨_, Option.map_eq_some_iff.mpr ⟨w, hw, rfl⟩, _, Option.map_eq_some_iff.mpr ⟨v, hv, rfl⟩,
        hcmp⟩
    · simp at hno

/-- Two ranges that overlap or are adjacent make one range, which is not empty and begins where one of
    the two does. -/
theorem unite_spec (h : a.overlaps b = true ∨ a.isAdjacent b = true) :
    ∃ m, a.unite b = [m] ∧ m.isEmpty = false ∧
      (m.lowAt tag = a.lowAt tag ∨ m.lowAt tag = b.lowAt tag) := by
  have hne : a.isEmpty = false ∧ b.isEmpty = false := by
    unfold overlaps isAdjacent at h
    cases hea : a.isEmpty <;> cases heb : b.isEmpty <;> simp [hea, heb] at h ⊢
  obtain ⟨hna, hlta⟩ := (isEmpty_eq_false_iff htag ha).mp hne.1
  obtain ⟨hnb, hltb⟩ := (isEmpty_eq_false_iff htag hb).mp hne.2
  have hnot : ¬ (!a.overlaps b && !a.isAdjacent b) = true := by
    rcases h with h | h <;> simp [h]
  have hwf := wf_hull htag ha hb hna hnb
  have hlow := low_spec htag ha hb
  have hhigh := largerHigh_spec htag ha hb hna hnb
  refine ⟨between (mergeType a.type b.type) (a.smallerLow b) (a.largerHigh b), ?_, ?_, ?_⟩
  · unfold unite
    rw [if_neg (by simp [hne.1]), if_neg (by simp [hne.2]), if_neg hnot,
      normalize_of_normal hwf.normal]
  · rw [isEmpty_eq_false_iff htag hwf]
    show (a.largerHigh b).endsBeforeNull = false ∧
      ∀ lk ∈ (a.smallerLow b).lowAt tag, ∀ hk ∈ (a.largerHigh b).highAt tag, lk < hk
    rcases hhigh with ⟨hh, -⟩ | ⟨hh, -⟩ <;> rw [hh]
    · refine ⟨hna, fun lk hlk hk hhk => ?_⟩
      rcases hlow with ⟨hl, -, -⟩ | ⟨hl, -, hle⟩ <;> rw [hl] at hlk
      · exact hlta lk hlk hk hhk
      · obtain ⟨lk', hlk', hlt⟩ := hle lk hlk
        exact lt_of_not_lt_of_lt hlt (hlta lk' hlk' hk hhk)
    · refine ⟨hnb, fun lk hlk hk hhk => ?_⟩
      rcases hlow with ⟨hl, -, hle⟩ | ⟨hl, -, -⟩ <;> rw [hl] at hlk
      · obtain ⟨lk', hlk', hlt⟩ := hle lk hlk
        exact lt_of_not_lt_of_lt hlt (hltb lk' hlk' hk hhk)
      · exact hltb lk hlk hk hhk
  · show (a.smallerLow b).lowAt tag = a.lowAt tag ∨ (a.smallerLow b).lowAt tag = b.lowAt tag
    rcases hlow with ⟨hl, -⟩ | ⟨hl, -⟩ <;> rw [hl]
    · exact Or.inl rfl
    · exact Or.inr rfl

end Bounds

/-! ## Merging -/

/-- A later lower bound is still behind the end. -/
theorem EndsBefore.of_lowLe {tag : UInt8} {p q r : KeyRange} (h : EndsBefore tag p q)
    (hle : LowLe (q.lowAt tag) (r.lowAt tag)) : EndsBefore tag p r := by
  obtain ⟨hk, hhk, lk, hlk, hlt⟩ := h
  obtain ⟨lk', hlk', hlt'⟩ := hle lk hlk
  exact ⟨hk, hhk, lk', hlk', fun h => hlt' (lt_of_lt_of_not_lt h hlt)⟩

section Merge

variable {t : DataType} (ht : tagOf t ≠ kTagNull) {given : DataType → Prop}
  {before : KeyRange → KeyRange → Prop} {ranges merged : List KeyRange}

/-- What a loop over `ranges` puts out: ranges with the same contents, one `before` the other. -/
structure MergedBy (t : DataType) (given : DataType → Prop) (before : KeyRange → KeyRange → Prop)
    (ranges merged : List KeyRange) : Prop where
  built : ∀ m ∈ merged, Built (InFamily (tagOf t)) given m
  apart : merged.Pairwise before
  contains : ∀ v, InFamily (tagOf t) v →
    ((∃ m ∈ merged, m.contains v = true) ↔ ∃ r ∈ ranges, r.contains v = true)
  /-- What is before everything that goes in is before everything that comes out. -/
  behind : ∀ p, (∀ r ∈ ranges, before p r) → ∀ m ∈ merged, before p m
  nonempty : (∀ r ∈ ranges, r.isEmpty = false) → ∀ m ∈ merged, m.isEmpty = false

/-- The ranges of a column, each of which ends before the next one. -/
abbrev Merged (t : DataType) : List KeyRange → List KeyRange → Prop :=
  MergedBy t (fun s => tagOf s = tagOf t ∨ s = .unknownType) (EndsBefore (tagOf t))

/-- A range for the first ranges `run`, and then what comes of the others. -/
theorem MergedBy.cons {run : List KeyRange} {head : KeyRange} (hm : MergedBy t given before ranges merged)
    (hhead : Built (InFamily (tagOf t)) given head)
    (hcontains : ∀ v, InFamily (tagOf t) v →
      (head.contains v = true ↔ ∃ x ∈ run, x.contains v = true))
    (hfront : ∀ p, (∀ x ∈ run, before p x) → before p head) (hback : ∀ q ∈ ranges, before head q)
    (hne : (∀ x ∈ run, x.isEmpty = false) → head.isEmpty = false) :
    MergedBy t given before (run ++ ranges) (head :: merged) where
  built := forall_mem_cons.mpr ⟨hhead, hm.built⟩
  apart := pairwise_cons.mpr ⟨hm.behind head hback, hm.apart⟩
  contains := fun v hv => by
    rw [exists_mem_cons_iff, hm.contains v hv, hcontains v hv]
    simp only [mem_append, or_and_right, exists_or]
  behind := fun p hp => by
    obtain ⟨hrun, hrest⟩ := forall_mem_append.mp hp
    exact forall_mem_cons.mpr ⟨hfront p hrun, hm.behind p hrest⟩
  nonempty := fun hall => by
    obtain ⟨hrun, hrest⟩ := forall_mem_append.mp hall
    exact forall_mem_cons.mpr ⟨hne hrun, hm.nonempty hrest⟩

/-- What the merging loop keeps apart is one `before` the other, and stays so if the second one begins
    later. -/
structure Separates (t : DataType) (given : DataType → Prop) (before : KeyRange → KeyRange → Prop) :
    Prop where
  family : ∀ s, given s → OfFamilyOrNone (tagOf t) s
  of_lowLe : ∀ {p q r}, before p q → LowLe (q.lowAt (tagOf t)) (r.lowAt (tagOf t)) → before p r
  of_apart : ∀ {a b}, Built (InFamily (tagOf t)) given a → Built (InFamily (tagOf t)) given b →
    a.isEmpty = false → b.isEmpty = false → LowLe (a.lowAt (tagOf t)) (b.lowAt (tagOf t)) →
    a.overlaps b = false → a.isAdjacent b = false → before a b

include ht

theorem separates_endsBefore :
    Separates t (fun s => tagOf s = tagOf t ∨ s = .unknownType) (EndsBefore (tagOf t)) where
  family := by
    rintro s (hs | rfl)
    exacts [Or.inl hs, Or.inr rfl]
  of_lowLe := EndsBefore.of_lowLe
  of_apart := fun ha hb hea heb hle hno _ =>
    endsBefore_of_not_overlaps ht (OfColumn.wf ha) (OfColumn.wf hb) hea heb hle hno

theorem merged_mergeFrom (hsep : Separates t given before) {back : KeyRange} {rest : List KeyRange}
    (hbuilt : ∀ r ∈ back :: rest, Built (InFamily (tagOf t)) given r)
    (hempty : ∀ r ∈ back :: rest, r.isEmpty = false)
    (hsorted : (back :: rest).Pairwise fun a b => LowLe (a.lowAt (tagOf t)) (b.lowAt (tagOf t))) :
    MergedBy t given before (back :: rest) (mergeFrom back rest) := by
  induction rest generalizing back with
  | nil => exact ⟨hbuilt, pairwise_singleton _ _, fun v _ => Iff.rfl, fun p h => h, fun h => h⟩
  | cons r rest ih =>
    obtain ⟨hback, htail⟩ := forall_mem_cons.mp hbuilt
    obtain ⟨hr, hrest⟩ := forall_mem_cons.mp htail
    obtain ⟨heback, hetail⟩ := forall_mem_cons.mp hempty
    obtain ⟨her, herest⟩ := forall_mem_cons.mp hetail
    obtain ⟨hfirst, hsortedTail⟩ := pairwise_cons.mp hsorted
    obtain ⟨hsecond, hsortedRest⟩ := pairwise_cons.mp hsortedTail
    obtain ⟨hle, hfirst⟩ := forall_mem_cons.mp hfirst
    have hwb := hback.wf hsep.family
    have hwr := hr.wf hsep.family
    unfold mergeFrom
    split_ifs with htouch
    · obtain ⟨m, hunite, hne, hlow⟩ := unite_spec ht hwb hwr (by simpa using htouch)
      have hmcontains : ∀ v, InFamily (tagOf t) v →
          (m.contains v = true ↔ back.contains v = true ∨ r.contains v = true) := by
        intro v hv
        have h := contains_unite ht hwb hwr hv
        rw [hunite] at h
        simpa using h
      have hlater : ∀ x ∈ rest, LowLe (m.lowAt (tagOf t)) (x.lowAt (tagOf t)) := by
        rcases hlow with hlow | hlow <;> rw [hlow]
        exacts [hfirst, hsecond]
      have hmempty : ∀ x ∈ m :: rest, x.isEmpty = false :=
        forall_mem_cons.mpr ⟨hne, herest⟩
      have hm := ih (forall_mem_cons.mpr
        ⟨.unite hback hr (hunite ▸ mem_singleton_self m), hrest⟩) hmempty
        (pairwise_cons.mpr ⟨hlater, hsortedRest⟩)
      rw [hunite]
      refine ⟨hm.built, hm.apart, fun v hv => ?_, fun p hp => ?_, fun _ => hm.nonempty hmempty⟩
      · rw [hm.contains v hv, exists_mem_cons_iff, hmcontains v hv, or_assoc,
          exists_mem_cons_iff, exists_mem_cons_iff]
      · obtain ⟨hpb, hp⟩ := forall_mem_cons.mp hp
        obtain ⟨hpr, hp⟩ := forall_mem_cons.mp hp
        refine hm.behind p (forall_mem_cons.mpr ⟨?_, hp⟩)
        have hrefl : ∀ x : Option Key, LowLe x x := fun x k hk => ⟨k, hk, List.lt_irrefl k⟩
        rcases hlow with hlow | hlow
        · exact hsep.of_lowLe hpb (hlow ▸ hrefl _)
        · exact hsep.of_lowLe hpr (hlow ▸ hrefl _)
    · -- the last range stays as it is
      rename_i htouch
      simp only [Bool.or_eq_true, not_or, Bool.not_eq_true] at htouch
      have hends := hsep.of_apart hback hr heback her hle htouch.1 htouch.2
      show MergedBy t given before ([back] ++ (r :: rest)) _
      refine (ih htail hetail hsortedTail).cons hback (fun v _ => by simp)
        (fun p hp => hp back (by simp)) (forall_mem_cons.mpr ⟨hends, fun x hx => ?_⟩)
        fun _ => heback
      exact hsep.of_lowLe hends (hsecond x hx)

/-- **`normalize_ranges`**: the ranges come out apart, with the same contents. -/
theorem merged_normalizeRanges (hsep : Separates t given before)
    (hbuilt : ∀ r ∈ ranges, Built (InFamily (tagOf t)) given r) :
    MergedBy t given before ranges (normalizeRanges ranges) ∧
      ∀ m ∈ normalizeRanges ranges, m.isEmpty = false := by
  have hperm := Sorting.sort_perm rangeLess (ranges.filter fun r => !r.isEmpty)
  have hsorted := pairwise_sort_ranges (ranges.filter fun r => !r.isEmpty)
  unfold normalizeRanges
  generalize Sorting.sort rangeLess (ranges.filter fun r => !r.isEmpty) = sorted at hperm hsorted
  have hmem : ∀ r, r ∈ sorted ↔ r ∈ ranges ∧ r.isEmpty = false := by
    intro r
    rw [hperm.mem_iff, mem_filter, Bool.not_eq_true']
  have hcontains : ∀ v, (∃ r ∈ sorted, r.contains v = true) ↔ ∃ r ∈ ranges, r.contains v = true := by
    intro v
    constructor
    · rintro ⟨r, hr, hv⟩
      exact ⟨r, ((hmem r).mp hr).1, hv⟩
    · rintro ⟨r, hr, hv⟩
      exact ⟨r, (hmem r).mpr ⟨hr, isEmpty_of_contains hv⟩, hv⟩
  cases sorted with
  | nil => exact ⟨⟨by simp, List.Pairwise.nil, fun v _ => hcontains v, by simp, by simp⟩, by simp⟩
  | cons back rest =>
    have hall : ∀ r ∈ back :: rest, Built (InFamily (tagOf t)) given r := fun r hr =>
      hbuilt r ((hmem r).mp hr).1
    have hempty : ∀ r ∈ back :: rest, r.isEmpty = false := fun r hr => ((hmem r).mp hr).2
    have hm := merged_mergeFrom ht hsep hall hempty (hsorted.imp_of_mem fun {a b} ha hb h =>
      lowLe_of_rangeLess ht ((hall a ha).wf hsep.family) ((hall b hb).wf hsep.family) h)
    refine ⟨⟨hm.built, hm.apart, fun v hv => (hm.contains v hv).trans (hcontains v), fun p hp => ?_,
      fun _ => hm.nonempty hempty⟩, hm.nonempty hempty⟩
    exact hm.behind p fun r hr => hp r ((hmem r).mp hr).1

theorem merged_intersectRanges (hsep : Separates t given before) {a b : List KeyRange}
    (ha : ∀ r ∈ a, Built (InFamily (tagOf t)) given r)
    (hb : ∀ r ∈ b, Built (InFamily (tagOf t)) given r) :
    (∀ m ∈ intersectRanges a b, Built (InFamily (tagOf t)) given m) ∧
    (intersectRanges a b).Pairwise before ∧ (∀ m ∈ intersectRanges a b, m.isEmpty = false) ∧
    ∀ v, InFamily (tagOf t) v →
      ((∃ m ∈ intersectRanges a b, m.contains v = true) ↔
        (∃ r ∈ a, r.contains v = true) ∧ ∃ r ∈ b, r.contains v = true) := by
  have hmem : ∀ m, m ∈ (a.flatMap fun lhs => (b.map lhs.intersect).filter fun r => !r.isEmpty) ↔
      (∃ l ∈ a, ∃ r ∈ b, l.intersect r = m) ∧ m.isEmpty = false := by
    intro m
    simp only [mem_flatMap, mem_filter, mem_map, Bool.not_eq_true']
    constructor
    · rintro ⟨l, hl, ⟨r, hr, rfl⟩, hempty⟩
      exact ⟨⟨l, hl, r, hr, rfl⟩, hempty⟩
    · rintro ⟨⟨l, hl, r, hr, rfl⟩, hempty⟩
      exact ⟨l, hl, ⟨r, hr, rfl⟩, hempty⟩
  obtain ⟨hm, hne⟩ := merged_normalizeRanges ht hsep fun m hm => by
    obtain ⟨⟨l, hl, r, hr, rfl⟩, -⟩ := (hmem m).mp hm
    exact Built.intersect (ha l hl) (hb r hr)
  refine ⟨hm.built, hm.apart, hne, fun v hv => (hm.contains v hv).trans ?_⟩
  have hpair : ∀ l ∈ a, ∀ r ∈ b,
      ((l.intersect r).contains v = true ↔ l.contains v = true ∧ r.contains v = true) :=
    fun l hl r hr => contains_intersect ht ((ha l hl).wf hsep.family) ((hb r hr).wf hsep.family) hv
  constructor
  · rintro ⟨m, hmem', hmv⟩
    obtain ⟨⟨l, hl, r, hr, rfl⟩, -⟩ := (hmem m).mp hmem'
    obtain ⟨hlv, hrv⟩ := (hpair l hl r hr).mp hmv
    exact ⟨⟨l, hl, hlv⟩, r, hr, hrv⟩
  · rintro ⟨⟨l, hl, hlv⟩, r, hr, hrv⟩
    have hmv := (hpair l hl r hr).mpr ⟨hlv, hrv⟩
    exact ⟨l.intersect r, (hmem _).mpr ⟨⟨l, hl, r, hr, rfl⟩, isEmpty_of_contains hmv⟩, hmv⟩

theorem merged_uniteRanges (hsep : Separates t given before) {a b : List KeyRange}
    (ha : ∀ r ∈ a, Built (InFamily (tagOf t)) given r)
    (hb : ∀ r ∈ b, Built (InFamily (tagOf t)) given r) :
    (∀ m ∈ uniteRanges a b, Built (InFamily (tagOf t)) given m) ∧
    (uniteRanges a b).Pairwise before ∧ (∀ m ∈ uniteRanges a b, m.isEmpty = false) ∧
    ∀ v, InFamily (tagOf t) v →
      ((∃ m ∈ uniteRanges a b, m.contains v = true) ↔
        (∃ r ∈ a, r.contains v = true) ∨ ∃ r ∈ b, r.contains v = true) := by
  obtain ⟨hm, hne⟩ := merged_normalizeRanges ht hsep (forall_mem_append.mpr ⟨ha, hb⟩)
  refine ⟨hm.built, hm.apart, hne, fun v hv => (hm.contains v hv).trans ?_⟩
  simp only [mem_append, or_and_right, exists_or]

/-! ## Runs of points -/

/-- The bounds of a point other than NULL: it begins with its key and ends behind it. -/
theorem point_bounds {r : KeyRange} (hwf : Wf (tagOf t) r) (hp : r.isPoint = true)
    (hnull : r.pointValue.isNull = false) :
    r.lowAt (tagOf t) = some (keyIn (tagOf t) r.pointValue) ∧
      ∃ hk ∈ r.highAt (tagOf t), keyIn (tagOf t) r.pointValue < hk := by
  obtain ⟨hempty, hcases⟩ := isPoint_cases hwf hp
  -- both shapes begin with the point
  have hlow : ∃ w, r.low = some r.pointValue ∧ r.lowExclusive = false ∧ r.high = some w := by
    unfold pointValue at hnull ⊢
    rw [hp] at hnull ⊢
    rcases hcases with ⟨a, s, ha, b, u, hb, hlow, hhigh, hle, -, -⟩ |
      ⟨v, w, hlow, hhigh, hle, -, -, -⟩ | ⟨hlow, hhigh, -⟩
    · rw [hlow, hhigh, hle]
      exact ⟨_, rfl, rfl, rfl⟩
    · rw [hlow, hhigh, hle]
      exact ⟨_, rfl, rfl, rfl⟩
    · rw [hlow, hhigh] at hnull
      simp [Value.isNull] at hnull
  obtain ⟨w, hlow, hle, hhigh⟩ := hlow
  have hlowAt : r.lowAt (tagOf t) = some (keyIn (tagOf t) r.pointValue) := by
    unfold lowAt
    rw [hlow, hle]
    rfl
  have hhighAt : boundKey (tagOf t) w r.highInclusive ∈ r.highAt (tagOf t) := by
    unfold highAt
    rw [hhigh]
    rfl
  exact ⟨hlowAt, _, hhighAt, ((isEmpty_eq_false_iff ht hwf).mp hempty).2 _ hlowAt _ hhighAt⟩

/-- A point that follows comes right behind. -/
theorem followsPoint_spec {stop : Value} (hstop : OfFamily (tagOf t) stop) {r : KeyRange}
    (hr : Wf (tagOf t) r) (h : followsPoint stop r = true) :
    r.isPoint = true ∧ OfFamily (tagOf t) r.pointValue ∧ ∀ v, InFamily (tagOf t) v →
      (keyIn (tagOf t) v < keyIn (tagOf t) r.pointValue ↔
        ¬ keyIn (tagOf t) stop < keyIn (tagOf t) v) := by
  unfold followsPoint at h
  simp only [Bool.and_eq_true] at h
  obtain ⟨⟨hp, -⟩, hnext⟩ := h
  split at hnext
  · rename_i n m hn hm
    have hfamily := (contains_iff_of_isPoint ht hr hp).1
    simp only [Bool.and_eq_true, decide_eq_true_eq, ne_eq] at hnext
    obtain ⟨hmax, rfl⟩ := hnext
    generalize r.pointValue = point at hm hfamily
    cases stop with
    | int n' s hs =>
      cases point with
      | int m' u hu =>
        obtain rfl : n' = n := Option.some.inj hn
        obtain rfl : m' = n' + 1 := Option.some.inj hm
        have hpoint : OfFamily (tagOf t) (.int (n' + 1) u hu) := hfamily.resolve_left (by simp)
        refine ⟨hp, hpoint, fun v hv => ?_⟩
        refine keyIn_lt_iff_of_sub_eq_one ht hstop hpoint ?_ ?_ hv
        · rw [Int64.lt_iff_toInt_lt, Int64.toInt_add, show (1 : Int64).toInt = 1 from rfl]
          have hlt := n'.toInt_lt
          have hge := n'.le_toInt
          have hne : n'.toInt ≠ 2 ^ 63 - 1 := by
            intro heq
            exact hmax (Int64.toInt_inj.mp heq)
          rw [Int.bmod_eq_of_le (by omega) (by omega)]
          omega
        · rw [Int64.add_comm, Int64.add_sub_cancel]
      | null | bool | str => simp [Value.asInt] at hm
    | null | bool | str => simp [Value.asInt] at hn
  · simp at hnext

/-- The ranges of a run are what lies behind `stop` up to its end. -/
theorem pointRun_spec {stop : Value} (hstop : OfFamily (tagOf t) stop) {ranges : List KeyRange}
    (hwf : ∀ r ∈ ranges, Wf (tagOf t) r) :
    ∃ run, ranges = run ++ (pointRun stop ranges).2 ∧
      OfFamily (tagOf t) (pointRun stop ranges).1 ∧
      ¬ keyIn (tagOf t) (pointRun stop ranges).1 < keyIn (tagOf t) stop ∧
      (∀ v, InFamily (tagOf t) v → ((∃ r ∈ run, r.contains v = true) ↔
        keyIn (tagOf t) stop < keyIn (tagOf t) v ∧
          ¬ keyIn (tagOf t) (pointRun stop ranges).1 < keyIn (tagOf t) v)) ∧
      ((run = [] ∧ (pointRun stop ranges).1 = stop) ∨
        ∃ r ∈ run, r.isPoint = true ∧ r.pointValue = (pointRun stop ranges).1) := by
  induction ranges generalizing stop with
  | nil =>
    refine ⟨[], rfl, hstop, List.lt_irrefl _, fun v _ => ?_, Or.inl ⟨rfl, rfl⟩⟩
    exact iff_of_false (by simp) fun h => h.2 h.1
  | cons r rest ih =>
    unfold pointRun
    split_ifs with hfollows
    · obtain ⟨hr, hrest⟩ := forall_mem_cons.mp hwf
      obtain ⟨hp, hpoint, hnext⟩ := followsPoint_spec ht hstop hr hfollows
      obtain ⟨run, hrest, hfamily, hle, hcontains, hlast⟩ := ih hpoint hrest
      have hstep : keyIn (tagOf t) stop < keyIn (tagOf t) r.pointValue :=
        not_not.mp ((not_congr (hnext _ (Or.inr hpoint))).mp (List.lt_irrefl _))
      refine ⟨r :: run, congrArg (r :: ·) hrest, hfamily, ?_, ?_, ?_⟩
      · exact fun h => hle (List.lt_trans h hstep)
      · intro v hv
        rw [exists_mem_cons_iff, hcontains v hv,
          (contains_iff_of_isPoint ht hr hp).2 v hv]
        constructor
        · rintro (heq | ⟨hlt, hnot⟩)
          · rw [heq]
            exact ⟨hstep, hle⟩
          · exact ⟨List.lt_trans hstep hlt, hnot⟩
        · rintro ⟨hlt, hnot⟩
          by_cases hpv : keyIn (tagOf t) r.pointValue < keyIn (tagOf t) v
          · exact Or.inr ⟨hpv, hnot⟩
          · exact Or.inl (key_eq_iff.mpr ⟨fun h => (hnext v hv).mp h hlt, hpv⟩)
      · rcases hlast with ⟨-, hstop'⟩ | ⟨x, hx, hxp, hxv⟩
        · exact Or.inr ⟨r, mem_cons_self .., hp, hstop'.symm⟩
        · exact Or.inr ⟨x, mem_cons_of_mem r hx, hxp, hxv⟩
    · refine ⟨[], rfl, hstop, List.lt_irrefl _, fun v _ => ?_, Or.inl ⟨rfl, rfl⟩⟩
      exact iff_of_false (by simp) fun h => h.2 h.1

/-- A run of points as one range: it has the run's contents, begins with the run and ends before
    whatever the run ends before. -/
theorem closed_run {r : KeyRange} (hr : Wf (tagOf t) r) (hp : r.isPoint = true)
    (hnull : r.pointValue.isNull = false) {run : List KeyRange} {stop : Value}
    (hrun : ∀ x ∈ run, Wf (tagOf t) x) (hstop : OfFamily (tagOf t) stop)
    (hle : ¬ keyIn (tagOf t) stop < keyIn (tagOf t) r.pointValue)
    (hcontains : ∀ v, InFamily (tagOf t) v → ((∃ x ∈ run, x.contains v = true) ↔
      keyIn (tagOf t) r.pointValue < keyIn (tagOf t) v ∧ ¬ keyIn (tagOf t) stop < keyIn (tagOf t) v))
    (hlast : ∃ x ∈ r :: run, x.isPoint = true ∧ x.pointValue = stop) :
    Built (InFamily (tagOf t)) given (closed r.pointValue stop) ∧
    (∀ v, InFamily (tagOf t) v → ((closed r.pointValue stop).contains v = true ↔
      ∃ x ∈ r :: run, x.contains v = true)) ∧
    (∀ p, EndsBefore (tagOf t) p r → EndsBefore (tagOf t) p (closed r.pointValue stop)) ∧
    (∀ q, (∀ x ∈ r :: run, EndsBefore (tagOf t) x q) →
      EndsBefore (tagOf t) (closed r.pointValue stop) q) := by
  obtain ⟨hfamily, hpoint⟩ := contains_iff_of_isPoint ht hr hp
  have hvalue : OfFamily (tagOf t) r.pointValue := hfamily.resolve_left fun h => by
    rw [h] at hnull
    simp [Value.isNull] at hnull
  have hbounds : (closed r.pointValue stop).lowAt (tagOf t) = some (keyIn (tagOf t) r.pointValue) ∧
      (closed r.pointValue stop).highAt (tagOf t) = some (keyIn (tagOf t) stop ++ [0x00]) := by
    have hshape : closed r.pointValue stop =
        { type := r.pointValue.type, low := some r.pointValue, high := some stop
          highInclusive := true } := by
      simp [closed, hvalue.1, hstop.1]
    rw [hshape]
    exact ⟨rfl, rfl⟩
  refine ⟨Built.closed (Or.inr hvalue) (Or.inr hstop), ?_, ?_, ?_⟩
  · intro v hv
    have hwf : Wf (tagOf t) (closed r.pointValue stop) :=
      (Built.closed (Or.inr hvalue) (Or.inr hstop)).wf fun _ => id
    rw [contains_iff ht hwf hv, hbounds.1, hbounds.2, Inside, above_some, below_some, lt_succ,
      exists_mem_cons_iff, hcontains v hv, hpoint v hv]
    constructor
    · rintro ⟨hlow, hhigh⟩
      by_cases hlt : keyIn (tagOf t) r.pointValue < keyIn (tagOf t) v
      · exact Or.inr ⟨hlt, hhigh⟩
      · exact Or.inl (key_eq_iff.mpr ⟨hlow, hlt⟩)
    · rintro (heq | ⟨hlt, hhigh⟩)
      · show ¬ keyIn (tagOf t) v < _ ∧ ¬ _ < keyIn (tagOf t) v
        rw [heq]
        exact ⟨List.lt_irrefl _, hle⟩
      · exact ⟨List.lt_asymm hlt, hhigh⟩
  · rintro p ⟨hk, hhk, lk, hlk, hlt⟩
    refine ⟨hk, hhk, lk, ?_, hlt⟩
    rw [hbounds.1, ← (point_bounds ht hr hp hnull).1]
    exact hlk
  · intro q hq
    obtain ⟨x, hx, hxp, hxv⟩ := hlast
    have hxwf := forall_mem_cons.mpr ⟨hr, hrun⟩ x hx
    obtain ⟨hk, hhk, lk, hlk, hlt⟩ := hq x hx
    obtain ⟨-, hk', hhk', hlt'⟩ := point_bounds ht hxwf hxp (hxv ▸ hstop.1)
    obtain rfl : hk = hk' := Option.mem_unique hhk hhk'
    refine ⟨_, hbounds.2, lk, hlk, ?_⟩
    rw [not_lt_succ, ← hxv]
    exact lt_of_lt_of_not_lt hlt' hlt

/-- **`coalesce_adjacent_points`**: the contents stay the same, and ranges that are apart stay apart. -/
theorem merged_coalesceRuns (hgiven : ∀ s, given s → OfFamilyOrNone (tagOf t) s)
    (hbuilt : ∀ r ∈ ranges, Built (InFamily (tagOf t)) given r)
    (hbefore : before = EndsBefore (tagOf t) ∨ ∀ p q, before p q) (hapart : ranges.Pairwise before) :
    MergedBy t given before ranges (coalesceRuns ranges) := by
  induction hn : ranges.length using Nat.strongRecOn generalizing ranges with
  | ind n ih =>
    cases ranges with
    | nil =>
      rw [coalesceRuns]
      exact ⟨by simp, List.Pairwise.nil, fun v _ => Iff.rfl, by simp, by simp⟩
    | cons r rest =>
      obtain ⟨hr, hrest⟩ := forall_mem_cons.mp hbuilt
      have hwf := hr.wf hgiven
      -- the first range out, and then what comes of the ranges `rest'` behind the run
      have hstep : ∀ (run rest' : List KeyRange) (head : KeyRange), rest = run ++ rest' →
          Built (InFamily (tagOf t)) given head →
          (∀ v, InFamily (tagOf t) v → (head.contains v = true ↔ ∃ x ∈ r :: run, x.contains v = true)) →
          (∀ p, before p r → before p head) → (∀ q, (∀ x ∈ r :: run, before x q) → before head q) →
          (r.isEmpty = false → head.isEmpty = false) →
          MergedBy t given before (r :: rest) (head :: coalesceRuns rest') := by
        rintro run rest' head rfl hhead hcontains hfront hback hne
        have hsplit := hapart
        rw [← cons_append, pairwise_append] at hsplit
        have hm := ih rest'.length (by rw [← hn, length_cons, length_append]; omega)
          (forall_mem_append.mp hrest).2 hsplit.2.1 rfl
        exact hm.cons hhead hcontains (fun p hp => hfront p (hp r (by simp)))
          (fun q hq => hback q fun x hx => hsplit.2.2 x hx q hq) fun hall => hne (hall r (by simp))
      -- a range that stays as it is
      have hkeep : MergedBy t given before (r :: rest) (r :: coalesceRuns rest) :=
        hstep [] rest r rfl hr (fun v _ => by simp) (fun p h => h) (fun q h => h r (by simp)) id
      rw [coalesceRuns]
      split
      · rename_i hpoint
        simp only [Bool.and_eq_true, Bool.not_eq_true'] at hpoint
        obtain ⟨hfamilyPoint, hpointContains⟩ := contains_iff_of_isPoint ht hwf hpoint.1
        have hvalue : OfFamily (tagOf t) r.pointValue := hfamilyPoint.resolve_left fun h => by
          rw [h] at hpoint
          exact absurd hpoint.2 (by simp [Value.isNull])
        have hrestWf : ∀ x ∈ rest, Wf (tagOf t) x := fun x hx => (hrest x hx).wf hgiven
        obtain ⟨run, hsplit, hfamily, hle, hcontains, hlast⟩ := pointRun_spec ht hvalue hrestWf
        split_ifs with hlen
        · have hend : ∃ x ∈ r :: run,
              x.isPoint = true ∧ x.pointValue = (pointRun r.pointValue rest).1 := by
            rcases hlast with ⟨-, hstop⟩ | ⟨x, hx, hxp⟩
            · exact ⟨r, mem_cons_self .., hpoint.1, hstop.symm⟩
            · exact ⟨x, mem_cons_of_mem r hx, hxp⟩
          obtain ⟨hhead, hcont, hfront, hback⟩ := closed_run ht hwf hpoint.1 hpoint.2
            (fun x hx => hrestWf x (hsplit ▸ mem_append_left _ hx)) hfamily hle hcontains hend
          have hne := isEmpty_of_contains ((hcont r.pointValue hfamilyPoint).mpr
            ⟨r, mem_cons_self .., (hpointContains _ hfamilyPoint).mpr rfl⟩)
          rcases hbefore with rfl | hall
          · exact hstep run _ _ hsplit hhead hcont hfront hback fun _ => hne
          · exact hstep run _ _ hsplit hhead hcont (fun _ _ => hall _ _) (fun _ _ => hall _ _) fun _ => hne
        · obtain rfl : run = [] := by
            refine eq_nil_of_length_eq_zero ?_
            have hlength := congrArg List.length hsplit
            rw [length_append] at hlength
            omega
          rw [nil_append] at hsplit
          rw [← hsplit]
          exact hkeep
      · exact hkeep

end Merge

/-! ## Ranges with the keys of one family -/

/-- Built from the values and the types of the family of `t`. -/
def OfTypeFamily (t : DataType) (r : KeyRange) : Prop :=
  Built (InFamily (tagOf t)) (fun s => tagOf s = tagOf t) r

/-- No range is empty, they come in the order of their lower bounds, and no two overlap. -/
structure Ascending (ranges : List KeyRange) : Prop where
  nonempty : ∀ r ∈ ranges, r.isEmpty = false
  ascending : ranges.Pairwise fun p q => lowLess p.lowKey q.lowKey = true
  disjoint : ranges.Pairwise fun p q => p.overlaps q = false

/-- Nor are any two adjacent. -/
structure Normal (ranges : List KeyRange) : Prop extends Ascending ranges where
  gaps : ranges.Pairwise fun p q => p.isAdjacent q = false

/-- `p` ends before `q` begins, with something between them. -/
def EndsBelow (tag : UInt8) (p q : KeyRange) : Prop :=
  ∃ hk ∈ p.highAt tag, ∃ lk ∈ q.lowAt tag, hk < lk

section Family

variable {t : DataType} (ht : tagOf t ≠ kTagNull) {a b : KeyRange} {ranges : List KeyRange}

theorem OfTypeFamily.wf (h : OfTypeFamily t a) : Wf (tagOf t) a := Built.wf (fun _ => Or.inl) h

/-- The bounds of a range that is not empty have the keys of the family. -/
theorem OfTypeFamily.keys (h : OfTypeFamily t a) (hne : a.isEmpty = false) :
    a.lowKey = a.lowAt (tagOf t) ∧ a.highKey = a.highAt (tagOf t) := by
  have hplain := Built.plain (fun _ => id) (fun v hv hnull => hv.allowed hnull) h
  rw [lowKey_eq, highKey_eq]
  rcases hplain.unbounded hne with htype | ⟨-, hlow, hhigh⟩
  · rw [htype]
    exact ⟨rfl, rfl⟩
  · unfold lowAt highAt
    rw [Option.eq_none_iff_forall_not_mem.mpr hlow, Option.eq_none_iff_forall_not_mem.mpr hhigh]
    exact ⟨rfl, rfl⟩

section Pair

variable (ha : OfTypeFamily t a) (hb : OfTypeFamily t b) (hea : a.isEmpty = false)
  (heb : b.isEmpty = false)

include ha hb hea heb

theorem order_of_endsBefore (h : EndsBefore (tagOf t) a b) :
    lowLess a.lowKey b.lowKey = true ∧ a.overlaps b = false := by
  obtain ⟨hk, hhk, lk, hlk, hnot⟩ := h
  rw [← (ha.keys hea).2] at hhk
  rw [← (hb.keys heb).1] at hlk
  constructor
  · rw [Option.mem_def.mp hlk]
    cases hl : a.lowKey with
    | none => rfl
    | some k =>
      exact decide_eq_true (lt_of_lt_of_not_lt ((isEmpty_eq_false.mp hea).2 k hl hk hhk) hnot)
  · unfold overlaps
    rw [hea, heb, Option.mem_def.mp hhk, Option.mem_def.mp hlk]
    simp [hnot]

theorem not_adjacent_of_endsBelow (h : EndsBelow (tagOf t) a b) : a.isAdjacent b = false := by
  obtain ⟨hk, hhk, lk, hlk, hlt⟩ := h
  rw [← (ha.keys hea).2] at hhk
  rw [← (hb.keys heb).1] at hlk
  unfold isAdjacent
  rw [hea, heb, Option.mem_def.mp hhk, Option.mem_def.mp hlk]
  have hne : hk ≠ lk := fun h => List.lt_irrefl lk (h ▸ hlt)
  -- `b` does not end where `a` begins either
  cases hl : a.lowKey with
  | none => simp [hne]
  | some k =>
    cases hh : b.highKey with
    | none => simp [hne]
    | some k' =>
      have hlow := (isEmpty_eq_false.mp hea).2 k hl hk hhk
      have hhigh := (isEmpty_eq_false.mp heb).2 lk hlk k' hh
      have hne' : k ≠ k' := by
        rintro rfl
        exact List.lt_irrefl k (List.lt_trans hlow (List.lt_trans hlt hhigh))
      simp [hne, hne']

include ht

theorem endsBefore_of_order (hless : lowLess a.lowKey b.lowKey = true) (hno : a.overlaps b = false) :
    EndsBefore (tagOf t) a b := by
  refine endsBefore_of_not_overlaps ht ha.wf hb.wf hea heb (lowLe_of ht ha.wf hb.wf ?_) hno
  rw [← lowLess_eq_false]
  revert hless
  cases a.lowKey <;> cases b.lowKey <;> simp [lowLess]
  exact List.le_of_lt

end Pair

include ht

theorem separates_endsBelow :
    Separates t (fun s => tagOf s = tagOf t) (EndsBelow (tagOf t)) where
  family := fun _ => Or.inl
  of_lowLe := by
    rintro p q r ⟨hk, hhk, lk, hlk, hlt⟩ hle
    obtain ⟨lk', hlk', hnot⟩ := hle lk hlk
    exact ⟨hk, hhk, lk', hlk', lt_of_lt_of_not_lt hlt hnot⟩
  of_apart := by
    intro a b (ha : OfTypeFamily t a) (hb : OfTypeFamily t b) hea heb hle hno hadjacent
    obtain ⟨hk, hhk, lk, hlk, hnot⟩ := endsBefore_of_not_overlaps ht ha.wf hb.wf hea heb hle hno
    refine ⟨hk, hhk, lk, hlk, not_not.mp fun hlt => ?_⟩
    obtain rfl := key_eq_iff.mpr ⟨hlt, hnot⟩
    rw [← (ha.keys hea).2] at hhk
    rw [← (hb.keys heb).1] at hlk
    simp [isAdjacent, hea, heb, Option.mem_def.mp hhk, Option.mem_def.mp hlk] at hadjacent

omit ht in
theorem ascending_of_apart (hfamily : ∀ r ∈ ranges, OfTypeFamily t r)
    (hne : ∀ r ∈ ranges, r.isEmpty = false) (hapart : Apart (tagOf t) ranges) : Ascending ranges := by
  have hall := hapart.imp_of_mem fun {p q} hp hq =>
    order_of_endsBefore (hfamily p hp) (hfamily q hq) (hne p hp) (hne q hq)
  exact ⟨hne, hall.imp And.left, hall.imp And.right⟩

omit ht in
theorem normal_of_endsBelow (hfamily : ∀ r ∈ ranges, OfTypeFamily t r)
    (hbelow : ranges.Pairwise (EndsBelow (tagOf t))) (hne : ∀ r ∈ ranges, r.isEmpty = false) :
    Normal ranges where
  toAscending := ascending_of_apart hfamily hne <| hbelow.imp fun ⟨hk, hhk, lk, hlk, hlt⟩ =>
    ⟨hk, hhk, lk, hlk, List.lt_asymm hlt⟩
  gaps := hbelow.imp_of_mem fun {p q} hp hq =>
    not_adjacent_of_endsBelow (hfamily p hp) (hfamily q hq) (hne p hp) (hne q hq)

theorem apart_of_ascending (hfamily : ∀ r ∈ ranges, OfTypeFamily t r) (h : Ascending ranges) :
    Apart (tagOf t) ranges :=
  (h.ascending.and h.disjoint).imp_of_mem fun {p q} hp hq hpq =>
    endsBefore_of_order ht (hfamily p hp) (hfamily q hq) (h.nonempty p hp) (h.nonempty q hq) hpq.1 hpq.2

end Family

/-- **Lists of ranges are exact.**  For all lists of ranges of one family: normalizing, intersecting and
    uniting give ranges in normal form with exactly the values, NULL included, of the list, of both
    lists or of one of them; and coalescing points keeps the values, and order and disjointness if the
    list has them. -/
theorem range_lists_exact (t : DataType) (ht : tagOf t ≠ kTagNull) (a b : List KeyRange)
    (ha : ∀ r ∈ a, OfTypeFamily t r) (hb : ∀ r ∈ b, OfTypeFamily t r) :
    (Normal (normalizeRanges a) ∧ Normal (intersectRanges a b) ∧ Normal (uniteRanges a b)) ∧
    (∀ v, InFamily (tagOf t) v →
      ((∃ m ∈ normalizeRanges a, m.contains v = true) ↔ ∃ r ∈ a, r.contains v = true) ∧
      ((∃ m ∈ intersectRanges a b, m.contains v = true) ↔
        (∃ r ∈ a, r.contains v = true) ∧ ∃ r ∈ b, r.contains v = true) ∧
      ((∃ m ∈ uniteRanges a b, m.contains v = true) ↔
        (∃ r ∈ a, r.contains v = true) ∨ ∃ r ∈ b, r.contains v = true)) ∧
    (∀ pkType, (Ascending a → Ascending (coalesceAdjacentPoints a pkType)) ∧
      ∀ v, InFamily (tagOf t) v → ((∃ m ∈ coalesceAdjacentPoints a pkType, m.contains v = true) ↔
        ∃ r ∈ a, r.contains v = true)) := by
  have hsep := separates_endsBelow ht
  obtain ⟨hn, hne⟩ := merged_normalizeRanges ht hsep ha
  obtain ⟨hibuilt, hibelow, hine, hi⟩ := merged_intersectRanges ht hsep ha hb
  obtain ⟨hubuilt, hubelow, hune, hu⟩ := merged_uniteRanges ht hsep ha hb
  refine ⟨⟨normal_of_endsBelow hn.built hn.apart hne, normal_of_endsBelow hibuilt hibelow hine,
    normal_of_endsBelow hubuilt hubelow hune⟩, fun v hv => ⟨hn.contains v hv, hi v hv, hu v hv⟩,
    fun pkType => ?_⟩
  unfold coalesceAdjacentPoints
  split
  · exact ⟨id, fun v _ => Iff.rfl⟩
  · refine ⟨fun hasc => ?_, (merged_coalesceRuns ht hsep.family ha (Or.inr fun _ _ => trivial)
      (pairwise_of_forall fun _ _ => trivial)).contains⟩
    have hm := merged_coalesceRuns ht hsep.family ha (Or.inl rfl) (apart_of_ascending ht ha hasc)
    exact ascending_of_apart hm.built (hm.nonempty hasc.nonempty) hm.apart

/-- Two points and a ray behind them: all become one range. -/
theorem range_lists_exact_numbers :
    Normal (normalizeRanges [.gt (.ofInt 2), .point (.ofInt 2), .nullOnly .int]) :=
  (range_lists_exact .int (by decide) _ []
    (by
      intro r hr
      simp only [mem_cons, not_mem_nil, or_false] at hr
      rcases hr with rfl | rfl | rfl
      exacts [.gt (Or.inr ⟨rfl, rfl⟩), .point (Or.inr ⟨rfl, rfl⟩), .nullOnly rfl])
    (by simp)).1.1

end SqlDb.Plan
