/-
  MERGING AN OVERLAY INTO A STREAM.

  Two streams run in the same order: the rows of a base, and the keys an overlay has an opinion on.
  The merge visits every key once; where the overlay has an opinion it decides (a new value, or
  nothing at all), elsewhere the base's row passes through.

  The order is any strict total order, so one development serves both scan directions.
-/
import Mathlib.Data.List.Basic
import Mathlib.Order.RelClasses

namespace OverlayMerge

open List

variable {K V : Type} (r : K → K → Prop) [DecidableRel r] (answer : K → Option V)

/-- What the overlay contributes at key `k`: its value, or nothing for a deleted key. -/
def emit (k : K) : List (K × V) := (answer k).toList.map fun v => (k, v)

/-- The merge of base rows and overlay keys. -/
def merge : List (K × V) → List K → List (K × V)
  | [], [] => []
  | d :: ds, [] => d :: merge ds []
  | [], o :: os => emit answer o ++ merge [] os
  | d :: ds, o :: os =>
    if r o d.1 then emit answer o ++ merge (d :: ds) os
    else if r d.1 o then d :: merge ds (o :: os)
    else emit answer o ++ merge ds os
termination_by ds os => ds.length + os.length

variable {r answer}

theorem mem_emit {k : K} {p : K × V} : p ∈ emit answer k ↔ p.1 = k ∧ answer k = some p.2 := by
  unfold emit
  rw [mem_map]
  constructor
  · rintro ⟨v, hv, rfl⟩
    exact ⟨rfl, Option.mem_toList.mp hv⟩
  · rintro ⟨rfl, hv⟩
    exact ⟨p.2, Option.mem_toList.mpr hv, rfl⟩

variable [IsStrictTotalOrder K r]

omit [DecidableRel r] in
theorem not_rel_self (k : K) : ¬ r k k := Std.Irrefl.irrefl (r := r) k

/-- Every row of the merge comes from the overlay, or from the base where the overlay is silent. -/
theorem mem_merge {ds : List (K × V)} {os : List K} (hd : ds.Pairwise fun p q => r p.1 q.1)
    (ho : os.Pairwise r) {p : K × V} :
    p ∈ merge r answer ds os ↔
      (p.1 ∈ os ∧ answer p.1 = some p.2) ∨ (p ∈ ds ∧ p.1 ∉ os) := by
  fun_induction merge r answer ds os with
  | case1 => simp
  | case2 d ds ih =>
    rw [mem_cons, ih hd.of_cons List.Pairwise.nil]
    simp
  | case3 o os ih =>
    rw [mem_append, mem_emit, ih List.Pairwise.nil ho.of_cons]
    constructor
    · rintro (⟨rfl, h⟩ | ⟨hmem, h⟩ | ⟨h, -⟩)
      · exact Or.inl ⟨mem_cons_self .., h⟩
      · exact Or.inl ⟨mem_cons_of_mem o hmem, h⟩
      · simp at h
    · rintro (⟨hmem, h⟩ | ⟨h, -⟩)
      · rcases mem_cons.mp hmem with heq | hmem
        · exact Or.inl ⟨heq, heq ▸ h⟩
        · exact Or.inr (Or.inl ⟨hmem, h⟩)
      · simp at h
  | case4 d ds o os hlt ih =>
    -- the overlay's key comes first: no base row has it
    have hnot : ∀ q ∈ d :: ds, q.1 ≠ o := by
      intro q hq heq
      rcases mem_cons.mp hq with rfl | hq
      · rw [heq] at hlt
        exact not_rel_self o hlt
      · have := IsTrans.trans _ _ _ hlt (rel_of_pairwise_cons hd hq)
        rw [heq] at this
        exact not_rel_self o this
    rw [mem_append, mem_emit, ih hd ho.of_cons]
    constructor
    · rintro (⟨rfl, h⟩ | ⟨hmem, h⟩ | ⟨hmem, hno⟩)
      · exact Or.inl ⟨mem_cons_self .., h⟩
      · exact Or.inl ⟨mem_cons_of_mem o hmem, h⟩
      · exact Or.inr ⟨hmem, fun h => (mem_cons.mp h).elim (hnot p hmem) hno⟩
    · rintro (⟨hmem, h⟩ | ⟨hmem, hno⟩)
      · rcases mem_cons.mp hmem with heq | hmem
        · exact Or.inl ⟨heq, heq ▸ h⟩
        · exact Or.inr (Or.inl ⟨hmem, h⟩)
      · exact Or.inr (Or.inr ⟨hmem, fun h => hno (mem_cons_of_mem o h)⟩)
  | case5 d ds o os hlt hgt ih =>
    -- the base's key comes first: the overlay is silent about it
    have hnot : d.1 ∉ o :: os := by
      intro h
      rcases mem_cons.mp h with heq | h
      · rw [heq] at hgt
        exact not_rel_self o hgt
      · exact not_rel_self _ (IsTrans.trans _ _ _ hgt (rel_of_pairwise_cons ho h))
    rw [mem_cons, ih hd.of_cons ho]
    constructor
    · rintro (rfl | h | ⟨hmem, hno⟩)
      · exact Or.inr ⟨mem_cons_self .., hnot⟩
      · exact Or.inl h
      · exact Or.inr ⟨mem_cons_of_mem d hmem, hno⟩
    · rintro (h | ⟨hmem, hno⟩)
      · exact Or.inr (Or.inl h)
      · rcases mem_cons.mp hmem with rfl | hmem
        · exact Or.inl rfl
        · exact Or.inr (Or.inr ⟨hmem, hno⟩)
  | case6 d ds o os hlt hgt ih =>
    have heq : d.1 = o := Std.Trichotomous.trichotomous (r := r) _ _ hgt hlt
    -- the base's row of this key is replaced, and there is no other
    have hrest : ∀ q ∈ ds, q.1 ≠ o := by
      intro q hq h
      have := rel_of_pairwise_cons hd hq
      rw [h, heq] at this
      exact not_rel_self o this
    rw [mem_append, mem_emit, ih hd.of_cons ho.of_cons]
    constructor
    · rintro (⟨rfl, h⟩ | ⟨hmem, h⟩ | ⟨hmem, hno⟩)
      · exact Or.inl ⟨mem_cons_self .., h⟩
      · exact Or.inl ⟨mem_cons_of_mem o hmem, h⟩
      · exact Or.inr ⟨mem_cons_of_mem d hmem,
          fun h => (mem_cons.mp h).elim (hrest p hmem) hno⟩
    · rintro (⟨hmem, h⟩ | ⟨hmem, hno⟩)
      · rcases mem_cons.mp hmem with hp | hmem
        · exact Or.inl ⟨hp, hp ▸ h⟩
        · exact Or.inr (Or.inl ⟨hmem, h⟩)
      · rcases mem_cons.mp hmem with rfl | hmem
        · exact absurd (heq ▸ mem_cons_self ..) hno
        · exact Or.inr (Or.inr ⟨hmem, fun h => hno (mem_cons_of_mem o h)⟩)

omit [DecidableRel r] [IsStrictTotalOrder K r] in
theorem emit_append_sorted {k : K} {l : List (K × V)} (hl : l.Pairwise fun p q => r p.1 q.1)
    (h : ∀ q ∈ l, r k q.1) : (emit answer k ++ l).Pairwise fun p q => r p.1 q.1 := by
  unfold emit
  cases answer k with
  | none => exact hl
  | some v => exact pairwise_cons.mpr ⟨h, hl⟩

/-- The merge runs in the same order, without repeating a key. -/
theorem merge_sorted {ds : List (K × V)} {os : List K} (hd : ds.Pairwise fun p q => r p.1 q.1)
    (ho : os.Pairwise r) : (merge r answer ds os).Pairwise fun p q => r p.1 q.1 := by
  -- a key that comes before everything on both sides comes before the merge
  have hfirst : ∀ {k : K} {ds : List (K × V)} {os : List K}, ds.Pairwise (fun p q => r p.1 q.1) →
      os.Pairwise r → (∀ q ∈ ds, r k q.1) → (∀ o ∈ os, r k o) →
      ∀ q ∈ merge r answer ds os, r k q.1 := by
    intro k ds os hd ho h1 h2 q hq
    rcases (mem_merge hd ho).mp hq with ⟨hmem, -⟩ | ⟨hmem, -⟩
    · exact h2 _ hmem
    · exact h1 q hmem
  fun_induction merge r answer ds os with
  | case1 => exact List.Pairwise.nil
  | case2 d ds ih =>
    exact pairwise_cons.mpr ⟨hfirst hd.of_cons List.Pairwise.nil
      (fun q hq => rel_of_pairwise_cons hd hq) (by simp), ih hd.of_cons ho⟩
  | case3 o os ih =>
    exact emit_append_sorted (ih List.Pairwise.nil ho.of_cons)
      (hfirst List.Pairwise.nil ho.of_cons (by simp) fun q hq => rel_of_pairwise_cons ho hq)
  | case4 d ds o os hlt ih =>
    refine emit_append_sorted (ih hd ho.of_cons) (hfirst hd ho.of_cons (fun q hq => ?_)
      fun q hq => rel_of_pairwise_cons ho hq)
    rcases mem_cons.mp hq with rfl | hq
    · exact hlt
    · exact IsTrans.trans _ _ _ hlt (rel_of_pairwise_cons hd hq)
  | case5 d ds o os hlt hgt ih =>
    refine pairwise_cons.mpr ⟨hfirst hd.of_cons ho
      (fun q hq => rel_of_pairwise_cons hd hq) (fun q hq => ?_), ih hd.of_cons ho⟩
    rcases mem_cons.mp hq with rfl | hq
    · exact hgt
    · exact IsTrans.trans _ _ _ hgt (rel_of_pairwise_cons ho hq)
  | case6 d ds o os hlt hgt ih =>
    have heq : d.1 = o := Std.Trichotomous.trichotomous (r := r) _ _ hgt hlt
    refine emit_append_sorted (ih hd.of_cons ho.of_cons) (hfirst hd.of_cons ho.of_cons (fun q hq => ?_)
      fun q hq => rel_of_pairwise_cons ho hq)
    rw [← heq]
    exact rel_of_pairwise_cons hd hq

end OverlayMerge
