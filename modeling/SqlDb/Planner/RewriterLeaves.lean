/-
  THE LEAVES OF A REWRITTEN CONDITION.

  No pass of the rewriter invents a column or a value: what holds of every column of a WHERE, and of
  every value that a column is compared with, holds after rewriting (`LeafRule`).  What is used of
  such a property is that it is decided at the leaves of a tree, and survives what the passes do to a
  leaf (`LeafClosed`).  One place needs care.  Under an OR, equalities of one column are merged into an
  IN, and columns are the same there if their names are equal up to case: a rule about values has to
  respect that.
-/
import SqlDb.Planner.Absorption
import SqlDb.SqlTypes.Schema

namespace SqlDb.Plan

open Sql Condition

/-! ## Properties of leaves -/

/-- The property of a tree is that of the trees below it. -/
structure Treewise (P : Condition → Prop) : Prop where
  junction : Junctionwise P
  not : ∀ {c : Condition}, P (.not c) ↔ P c

/-- It holds of a leaf that a pass has changed. -/
structure LeafClosed (P : Condition → Prop) : Prop extends Treewise P where
  flip : ∀ {column op value}, P (.compare column op value) → P (.compare column op.flip value)
  invert : ∀ {column isNotIn values}, P (.inList column isNotIn values) →
    P (.inList column (!isNotIn) values)
  fold : ∀ {column isNotIn values}, P (.inList column isNotIn values) →
    P (foldConstants (.inList column isNotIn values))
  merge : ∀ {column value values}, P (.compare column .eq value) →
    (∀ v ∈ values, ∃ other : Identifier, other.eq column = true ∧ P (.compare other .eq v)) →
    P (.inList column false (value :: values))

section Passes

variable {P : Condition → Prop} {c d : Condition}

theorem LeafClosed.pushdownNot (hP : LeafClosed P) (h : P c) (negated : Bool) :
    P (pushdownNot c negated) := by
  induction c generalizing negated with
  | compare column op value =>
    unfold Plan.pushdownNot
    split_ifs
    · exact h
    · exact hP.not.mpr h
    · exact hP.flip h
  | inList column isNotIn values =>
    unfold Plan.pushdownNot
    split
    · exact h
    · exact hP.invert h
  | junction op left right ihl ihr =>
    obtain ⟨hl, hr⟩ := (hP.junction op left right).mp h
    exact (hP.junction _ _ _).mpr ⟨ihl hl negated, ihr hr negated⟩
  | not child ih => exact ih (hP.not.mp h) (!negated)

theorem Treewise.flatten (hP : Treewise P) (h : P c) (hd : flatten c = some d) : P d := by
  induction c using terms_induction generalizing d with
  | compare | inList =>
    rw [Plan.flatten] at hd
    exact Option.some.inj hd ▸ h
  | not child ih =>
    rw [Plan.flatten] at hd
    obtain ⟨e, he, rfl⟩ := Option.map_eq_some_iff.mp hd
    exact hP.not.mpr (ih (hP.not.mp h) he)
  | junction op left right ih =>
    obtain ⟨ds, hds, -⟩ := exists_results fun c (_ : c ∈ collectSameOp op (.junction op left right)) =>
      flatten_spec c
    rw [flatten_junction, hds] at hd
    refine hP.junction.rebuild hd fun e he => ?_
    obtain ⟨c, hc, hce⟩ := mem_results hds he
    exact ih c hc (hP.junction.collect h c hc) hce

theorem LeafClosed.foldConstants (hP : LeafClosed P) (h : P c) : P (foldConstants c) := by
  induction c with
  | compare column op value => exact h
  | inList column isNotIn values => exact hP.fold h
  | junction op left right ihl ihr =>
    obtain ⟨hl, hr⟩ := (hP.junction op left right).mp h
    exact (hP.junction _ _ _).mpr ⟨ihl hl, ihr hr⟩
  | not child ih => exact hP.not.mpr (ih (hP.not.mp h))

theorem Treewise.deduplicate (hP : Treewise P) (h : P c) (hd : deduplicate c = .ok (some d)) :
    P d := by
  induction c using terms_induction generalizing d with
  | compare | inList =>
    rw [Plan.deduplicate] at hd
    exact Option.some.inj (Except.ok.inj hd) ▸ h
  | not child ih =>
    obtain ⟨e, he⟩ := deduplicate_spec child
    rw [Plan.deduplicate, he] at hd
    obtain rfl := Option.some.inj (Except.ok.inj hd)
    exact hP.not.mpr (ih (hP.not.mp h) he)
  | junction op left right ih =>
    obtain ⟨ds, hds, -⟩ := exists_results (P := fun _ _ => True)
      fun c (_ : c ∈ collectSameOp op (.junction op left right)) =>
        (deduplicate_spec c).imp fun d hd => ⟨hd, trivial⟩
    rw [deduplicate_of_terms hds] at hd
    refine hP.junction.rebuild (Except.ok.inj hd) fun e he => ?_
    obtain ⟨c, hc, hce⟩ := mem_results hds (mem_distinctTerms he)
    exact ih c hc (hP.junction.collect h c hc) hce

theorem LeafClosed.simplify (hP : LeafClosed P) (h : P c) (hd : simplify c = .ok (some d)) : P d := by
  induction c using terms_induction generalizing d with
  | compare | inList =>
    rw [Plan.simplify] at hd
    exact Option.some.inj (Except.ok.inj hd) ▸ h
  | not child ih =>
    rw [Plan.simplify] at hd
    obtain ⟨p, hs, hp⟩ := Fallible.bind_eq_ok.mp hd
    obtain ⟨e, rfl, rfl⟩ := Option.map_eq_some_iff.mp (Fallible.pure_eq_ok.mp hp)
    have he := ih (hP.not.mp h) hs
    unfold simplifyNot
    split
    · exact hP.not.mp he
    · exact hP.invert he
    · exact hP.not.mpr he
  | junction op left right ih =>
    obtain ⟨cs, hcs⟩ := simplified_of_ok hd
    rw [simplify_of_terms hcs] at hd
    have hterms : ∀ e ∈ notAbsorbed op cs, P e := by
      intro e he
      obtain ⟨c, hc, hce⟩ := mem_results hcs (mem_of_mem_notAbsorbed he)
      exact ih c hc (hP.junction.collect h c hc) hce
    refine hP.junction.rebuild (Except.ok.inj hd) ?_
    cases op with
    | and => exact hterms
    | or => exact forall_mergeEqs (fun _ _ _ => hP.merge) hterms

end Passes

/-! ## Rules about columns and values -/

/-- What is asked of the leaves of a tree. -/
structure LeafRule where
  column : Identifier → Prop
  literal : Identifier → Value → Prop
  congr : ∀ {a b : Identifier} {v : Value}, a.eq b = true → literal a v → literal b v

namespace LeafRule

variable (rule : LeafRule)

/-- IS NULL and IS NOT NULL do not look at their value. -/
def Holds : Condition → Prop
  | .compare column op value => rule.column column ∧ (op.isNullOp = false → rule.literal column value)
  | .inList column _ values => rule.column column ∧ ∀ v ∈ values, rule.literal column v
  | .junction _ left right => Holds left ∧ Holds right
  | .not child => Holds child

def HoldsPtr (p : ConditionPtr) : Prop := ∀ c ∈ p, rule.Holds c

variable {rule} {c : Condition}

theorem holdsPtr_some : rule.HoldsPtr (some c) ↔ rule.Holds c := by simp [HoldsPtr]

theorem holdsPtr_none : rule.HoldsPtr none := by simp [HoldsPtr]

theorem isNullOp_flip (op : CompareOp) : op.flip.isNullOp = op.isNullOp := by
  cases op <;> rfl

theorem closed (rule : LeafRule) : LeafClosed rule.Holds where
  junction := fun _ _ _ => Iff.rfl
  not := Iff.rfl
  flip := fun h => ⟨h.1, fun hop => h.2 (by rwa [isNullOp_flip] at hop)⟩
  invert := id
  fold := fun {column isNotIn values} h => by
    have hvalues : ∀ v ∈ distinctValues values, rule.literal column v :=
      fun v hv => h.2 v ((firsts_sublist _ [] values).subset hv)
    unfold foldConstants
    split
    · rename_i v hv
      rw [hv] at hvalues
      split
      · exact ⟨h.1, hvalues⟩
      · exact ⟨h.1, fun _ => hvalues v (by simp)⟩
    · exact ⟨h.1, hvalues⟩
  merge := fun {column value values} h hothers => by
    -- values go from an equality to an IN of the same column
    refine ⟨h.1, List.forall_mem_cons.mpr ⟨h.2 rfl, fun v hv => ?_⟩⟩
    obtain ⟨other, heq, hother⟩ := hothers v hv
    exact rule.congr heq (hother.2 rfl)

/-- **A rewritten tree has the columns and the values of the tree.** -/
theorem holds_rewrite {p q : ConditionPtr} (h : rule.HoldsPtr p)
    (hq : rewriteConditionTree p = .ok q) : rule.HoldsPtr q := by
  intro d hd
  obtain rfl := Option.mem_def.mp hd
  cases p with
  | none => exact absurd (Except.ok.inj hq) (by simp)
  | some root =>
    obtain ⟨flat, distinct, hflat, hdistinct, -, hrewrite⟩ := passes_spec root
    rw [hrewrite] at hq
    have hpushed := rule.closed.pushdownNot (h root rfl) false
    have hfolded := rule.closed.foldConstants (rule.closed.flatten hpushed hflat)
    exact rule.closed.simplify (rule.closed.deduplicate hfolded hdistinct) hq

end LeafRule

end SqlDb.Plan
