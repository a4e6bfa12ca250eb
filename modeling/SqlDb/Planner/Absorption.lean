/-
  ABSORPTION  (`simplify_and`, `simplify_or`, planner/rewriter.cpp).

  `A AND (A OR B)` is `A`: an OR among the terms of an AND may go if one of its own terms is a term
  of the AND that stays (`keepsOf_of_direct`).  The source decides by text, looks at EVERY node inside
  the OR, and judges all terms before it leaves any out; if they absorb one another, none is left, and
  the junction is a null pointer.

  Here is what the last pass does at one junction, whatever its terms are: which terms it is rebuilt
  from, when there are any, and that equalities of one column mean what the IN made of them means.
-/
import SqlDb.Planner.RewriterTruth

namespace SqlDb.Plan

open Sql Condition List

/-! ## The terms that stay -/

/-- The terms of a junction, simplified one by one. -/
def Simplified (terms results : List Condition) : Prop :=
  terms.map simplify = results.map fun c => .ok (some c)

section Junction

variable {op : Junction} {cs : List Condition} {c : Condition}

theorem mem_notAbsorbed :
    c ∈ notAbsorbed op cs ↔ ∃ i, cs[i]? = some c ∧ absorbed op cs i c = false := by
  unfold notAbsorbed
  simp only [mem_map, mem_filter, Bool.not_eq_true', Prod.exists]
  constructor
  · rintro ⟨d, i, ⟨hmem, habs⟩, rfl⟩
    exact ⟨i, mem_zipIdx_iff_getElem?.mp hmem, habs⟩
  · rintro ⟨i, hi, habs⟩
    exact ⟨c, i, ⟨mem_zipIdx_iff_getElem?.mpr hi, habs⟩, rfl⟩

theorem mem_of_mem_notAbsorbed (h : c ∈ notAbsorbed op cs) : c ∈ cs := by
  obtain ⟨i, hi, -⟩ := mem_notAbsorbed.mp h
  exact mem_of_getElem? hi

theorem equalTo_eq_some {column : Identifier} {c : Condition} {v : Value}
    (h : equalTo column c = some v) :
    ∃ other, c = .compare other .eq v ∧ other.eq column = true := by
  unfold equalTo at h
  split at h
  · rename_i other value
    split at h
    · rename_i heq
      cases h
      exact ⟨other, rfl, heq⟩
    · simp at h
  · simp at h

/-- What holds of the terms, and of an IN that is made of their equalities, holds of the merged
    terms. -/
theorem forall_mergeEqs {P : Condition → Prop}
    (hmerge : ∀ column value values, P (.compare column .eq value) →
      (∀ v ∈ values, ∃ other : Identifier, other.eq column = true ∧ P (.compare other .eq v)) →
      P (.inList column false (value :: values)))
    (h : ∀ c ∈ cs, P c) : ∀ c ∈ (mergeEqs cs).1 ++ (mergeEqs cs).2, P c := by
  induction hn : cs.length using Nat.strongRecOn generalizing cs with
  | ind n ih =>
    cases cs with
    | nil =>
      rw [mergeEqs]
      exact h
    | cons c rest =>
      obtain ⟨hc, hrest⟩ := forall_mem_cons.mp h
      have hlt : rest.length < n := hn ▸ Nat.lt_succ_self _
      have hkeep : ∀ d ∈ (mergeEqs rest).1 ++ c :: (mergeEqs rest).2, P d := by
        have htail := forall_mem_append.mp (ih _ hlt hrest rfl)
        exact forall_mem_append.mpr ⟨htail.1, forall_mem_cons.mpr ⟨hc, htail.2⟩⟩
      rw [mergeEqs_cons]
      split
      · exact hkeep
      · rename_i column value hhead
        obtain rfl := headEq_eq_some hhead
        split
        · exact hkeep
        · have hothers := ih _ ((length_filter_le
              (fun d => (equalTo column d).isNone) rest).trans_lt hlt)
            (fun d hd => hrest d (mem_of_mem_filter hd)) rfl
          refine forall_mem_cons.mpr ⟨hmerge column value _ hc fun v hv => ?_, hothers⟩
          obtain ⟨d, hd, hequal⟩ := mem_filterMap.mp hv
          obtain ⟨other, rfl, heq⟩ := equalTo_eq_some hequal
          exact ⟨other, heq, hrest _ hd⟩

variable {left right : Condition}

/-- A junction of terms that are simplified. -/
theorem simplify_of_terms (h : Simplified (collectSameOp op (.junction op left right)) cs) :
    simplify (.junction op left right) = .ok (rebuild op ((simplifyTerms op cs).map some)) := by
  have hterms := mapM_results.mpr (h.trans (map_map (l := cs) (f := some)).symm)
  rw [simplify_junction, hterms]
  show ((cs.map some).mapM deref >>= fun children =>
    pure (rebuild op ((simplifyTerms op children).map some))) = _
  rw [mapM_deref.mpr rfl]
  rfl

/-- If a junction can be simplified, all of its terms can. -/
theorem simplified_of_ok {p : ConditionPtr} (h : simplify (.junction op left right) = .ok p) :
    ∃ cs, Simplified (collectSameOp op (.junction op left right)) cs := by
  rw [simplify_junction] at h
  obtain ⟨ps, hterms, h⟩ := Fallible.bind_eq_ok.mp h
  obtain ⟨cs, hcs, -⟩ := Fallible.bind_eq_ok.mp h
  refine ⟨cs, (mapM_results.mp hterms).trans ?_⟩
  rw [mapM_deref.mp hcs, map_map]
  rfl

end Junction

/-! ## Which rows they keep -/

/-- A lookup does not tell identifiers apart that are equal. -/
def RespectsNames (lookup : Lookup) : Prop := ∀ a b : Identifier, a.eq b = true → lookup a = lookup b

section Rows

variable {lookup : Lookup} {op : Junction}

theorem keeps_inList (lookup : Lookup) (column : Identifier) (values : List Value) :
    (inList column false values).keeps lookup
      = values.any fun v => (Condition.compare column .eq v).keeps lookup := by
  unfold keeps evaluate
  cases lookup column with
  | none => simp [whereKeeps]
  | some lhs =>
    have h := Junction.keeps_truthOf .or (values.map (sqlCompareOp .eq lhs))
    rw [← evaluateIn_eq, map_map] at h
    rw [Junction.keepsOf, any_map] at h
    exact h

end Rows

/-! ## The passes before -/

/-- The first four passes return a tree, which the last one gets. -/
theorem passes_spec (root : Condition) : ∃ flat distinct,
    flatten (pushdownNot root false) = some flat ∧
    deduplicate (foldConstants flat) = .ok (some distinct) ∧
    (∀ lookup, (foldConstants flat).evaluate lookup = root.evaluate lookup) ∧
    rewriteConditionTree (some root) = simplify distinct := by
  obtain ⟨flat, hflat, heval⟩ := flatten_spec (pushdownNot root false)
  obtain ⟨distinct, hdistinct⟩ := deduplicate_spec (foldConstants flat)
  refine ⟨flat, distinct, hflat, hdistinct, fun lookup => ?_, ?_⟩
  · rw [evaluate_foldConstants, heval, evaluate_pushdownNot]
    rfl
  · unfold rewriteConditionTree
    dsimp only
    rw [hflat]
    show (deduplicate (foldConstants flat) >>= _) = _
    rw [hdistinct]
    rfl

end SqlDb.Plan
