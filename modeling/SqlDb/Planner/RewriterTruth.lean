/-
  WHAT THE FIRST FOUR PASSES KEEP.

  `pushdownNot`, `flatten` and `foldConstants` keep the truth of a tree on every row, UNKNOWN
  included.  After the first pass NOT stands only above a comparison whose operator cannot be flipped
  (`Pushed`), and no later pass changes that: from there on a tree is built from its leaves by AND and
  OR alone, and which rows it keeps is decided by which rows its terms keep.

  `deduplicate` neither crashes nor returns a null pointer: of the terms of a junction the first one
  always stays.
-/
import SqlDb.Lib.Fallible
import SqlDb.Planner.Rewriter

namespace SqlDb.Plan

open Sql Condition List

/-! ## Terms and junctions -/

section Terms

variable {op : Junction} {c : Condition} {cs : List Condition} {lookup : Lookup}

theorem collectSameOp_ne_nil (op : Junction) (c : Condition) : collectSameOp op c ≠ [] := by
  induction c with
  | compare | inList | not => simp [collectSameOp]
  | junction o left right ihl ihr =>
    unfold collectSameOp
    split
    · simp [ihl]
    · simp

/-- A tree has the truth of its terms. -/
theorem evaluate_collect (lookup : Lookup) (op : Junction) (c : Condition) :
    op.truthOf ((collectSameOp op c).map (evaluate lookup)) = c.evaluate lookup := by
  induction c with
  | compare | inList | not => exact Junction.truth_unit op _
  | junction o left right ihl ihr =>
    unfold collectSameOp
    split_ifs with heq
    · subst heq
      rw [map_append, Junction.truthOf_append, ihl, ihr, evaluate_junction]
    · exact Junction.truth_unit op _

/-- What is rebuilt from a list of terms. -/
theorem rebuild_cons (op : Junction) (c : Condition) (cs : List Condition) :
    rebuild op ((c :: cs).map some) = some (cs.foldl (.junction op) c) := by
  have hfold : ∀ r : Condition, (cs.map some).foldl
      (fun result child =>
        match result, child with
        | result, none => result
        | none, some c => some c
        | some r, some c => some (.junction op r c))
      (some r) = some (cs.foldl (.junction op) r) := by
    induction cs with
    | nil => intro r; rfl
    | cons d ds ih => intro r; exact ih _
  exact hfold c

theorem rebuild_eq_none_iff : rebuild op (cs.map some) = none ↔ cs = [] := by
  cases cs with
  | nil => exact iff_of_true rfl rfl
  | cons c cs =>
    rw [rebuild_cons]
    simp

theorem evaluate_foldl (lookup : Lookup) (op : Junction) (c : Condition) (cs : List Condition) :
    (cs.foldl (.junction op) c).evaluate lookup = op.truthOf ((c :: cs).map (evaluate lookup)) := by
  induction cs generalizing c with
  | nil => exact (Junction.truth_unit op _).symm
  | cons d ds ih =>
    rw [foldl_cons, ih]
    simp [Junction.truth_assoc]

/-- A rebuilt junction has the truth of its terms. -/
theorem evaluate_rebuild (h : rebuild op (cs.map some) = some c) :
    c.evaluate lookup = op.truthOf (cs.map (evaluate lookup)) := by
  cases cs with
  | nil => simp [rebuild] at h
  | cons d ds =>
    rw [rebuild_cons] at h
    cases h
    exact evaluate_foldl lookup op d ds

theorem keeps_rebuild (h : rebuild op (cs.map some) = some c) :
    c.keeps lookup = op.keepsOf (cs.map (keeps lookup)) := by
  unfold keeps
  rw [evaluate_rebuild h, Junction.keeps_truthOf, map_map]
  rfl

/-- A junction satisfies it if both of its sides do. -/
def Junctionwise (P : Condition → Prop) : Prop :=
  ∀ op left right, P (.junction op left right) ↔ P left ∧ P right

theorem Junctionwise.collect {P : Condition → Prop} (hP : Junctionwise P) (h : P c) :
    ∀ d ∈ collectSameOp op c, P d := by
  induction c with
  | compare | inList | not => exact forall_mem_singleton.mpr h
  | junction o left right ihl ihr =>
    unfold collectSameOp
    split
    · obtain ⟨hl, hr⟩ := (hP o left right).mp h
      exact forall_mem_append.mpr ⟨ihl hl, ihr hr⟩
    · exact forall_mem_singleton.mpr h

theorem Junctionwise.rebuild {P : Condition → Prop} (hP : Junctionwise P)
    (h : rebuild op (cs.map some) = some c) (hcs : ∀ d ∈ cs, P d) : P c := by
  cases cs with
  | nil => simp [Plan.rebuild] at h
  | cons d ds =>
    rw [rebuild_cons] at h
    obtain rfl := Option.some.inj h
    obtain ⟨hd, hds⟩ := forall_mem_cons.mp hcs
    clear h hcs
    induction ds generalizing d with
    | nil => exact hd
    | cons e es ih =>
      obtain ⟨he, hes⟩ := forall_mem_cons.mp hds
      exact ih _ ((hP op d e).mpr ⟨hd, he⟩) hes

end Terms

/-! ## Leaving out repetitions -/

section Repetitions

variable {A : Type} {same : A → A → Bool} {kept l : List A}

/-- What stays of `l` beside `kept`: of members that are the same the first one. -/
def firsts (same : A → A → Bool) (kept l : List A) : List A :=
  l.foldl (fun kept a => if kept.any (fun k => same k a) then kept else kept ++ [a]) kept

theorem firsts_cons (same : A → A → Bool) (kept : List A) (a : A) (l : List A) :
    firsts same kept (a :: l)
      = firsts same (if kept.any (fun k => same k a) then kept else kept ++ [a]) l := rfl

theorem firsts_sublist (same : A → A → Bool) (kept l : List A) : firsts same kept l <+ kept ++ l := by
  induction l generalizing kept with
  | nil => simp [firsts]
  | cons a l ih =>
    rw [firsts_cons]
    refine (ih _).trans ?_
    split_ifs
    · exact (sublist_cons_self a l).append_left kept
    · simp

theorem prefix_firsts (same : A → A → Bool) (kept l : List A) : kept <+: firsts same kept l := by
  induction l generalizing kept with
  | nil => exact prefix_rfl
  | cons a l ih =>
    rw [firsts_cons]
    refine IsPrefix.trans ?_ (ih _)
    split_ifs
    · exact prefix_rfl
    · exact prefix_append _ _

/-- Members that are the same, and have one truth, tell nothing new. -/
theorem truthOf_firsts (op : Junction) {f : A → Truth}
    (hsame : ∀ a ∈ kept ++ l, ∀ b ∈ kept ++ l, same a b = true → f a = f b) :
    op.truthOf ((firsts same kept l).map f)
      = op.truth (op.truthOf (kept.map f)) (op.truthOf (l.map f)) := by
  induction l generalizing kept with
  | nil => exact (Junction.truth_unit op _).symm
  | cons b l ih =>
    rw [firsts_cons, map_cons, Junction.truthOf_cons, ← Junction.truth_assoc]
    split_ifs with hany
    · obtain ⟨k, hk, heq⟩ := any_eq_true.mp hany
      have hmore : ∀ a ∈ kept ++ l, a ∈ kept ++ b :: l := fun a ha =>
        (sublist_cons_self b l).append_left kept |>.subset ha
      rw [ih fun a ha c hc => hsame a (hmore a ha) c (hmore c hc),
        ← hsame k (by simp [hk]) b (by simp) heq, Junction.truthOf_of_mem (mem_map_of_mem hk)]
    · rw [ih fun a ha c hc => hsame a (by simpa using ha) c (by simpa using hc), map_append,
        Junction.truthOf_append]
      simp

end Repetitions

/-! ## Lists of results -/

/-- If every member has a result, there is the list of all results. -/
theorem exists_results {A B C : Type} {f : A → B} {g : C → B} {P : A → C → Prop} {l : List A}
    (h : ∀ a ∈ l, ∃ c, f a = g c ∧ P a c) :
    ∃ cs, l.map f = cs.map g ∧ List.Forall₂ P l cs := by
  induction l with
  | nil => exact ⟨[], rfl, .nil⟩
  | cons a l ih =>
    obtain ⟨c, hc, hp⟩ := h a (mem_cons_self ..)
    obtain ⟨cs, hcs, hps⟩ := ih fun b hb => h b (mem_cons_of_mem a hb)
    exact ⟨c :: cs, by simp [hc, hcs], .cons hp hps⟩

theorem map_eq_of_forall₂ {A B C : Type} {R : A → B → Prop} {f : A → C} {g : B → C} {l : List A}
    {m : List B} (h : List.Forall₂ R l m) (hstep : ∀ a b, R a b → f a = g b) : l.map f = m.map g := by
  induction h with
  | nil => rfl
  | cons hab _ ih => rw [map_cons, map_cons, hstep _ _ hab, ih]

/-- Results that stand for the terms of a junction come from them. -/
theorem mem_results {A B C : Type} {f : A → B} {g : C → B} {l : List A} {cs : List C}
    (h : l.map f = cs.map g) {x : C} (hx : x ∈ cs) : ∃ a ∈ l, f a = g x := by
  have hmem : g x ∈ l.map f := by
    rw [h]
    exact mem_map_of_mem hx
  exact mem_map.mp hmem

/-- Results that are all there come as a list of pointers. -/
theorem mapM_results {terms : List (Except Crash ConditionPtr)} {ps : List ConditionPtr} :
    terms.mapM id = .ok ps ↔ terms = ps.map .ok :=
  Fallible.mapM_eq_ok_map fun _ _ => Iff.rfl

theorem mapM_deref {ps : List ConditionPtr} {cs : List Condition} :
    ps.mapM deref = .ok cs ↔ ps = cs.map some :=
  Fallible.mapM_eq_ok_map fun p c => by cases p <;> simp [deref]

/-! ## Passing down NOT -/

theorem evaluate_pushdownNot (lookup : Lookup) (c : Condition) (negated : Bool) :
    (pushdownNot c negated).evaluate lookup
      = if negated then truthNot (c.evaluate lookup) else c.evaluate lookup := by
  induction c generalizing negated with
  | compare column op value =>
    unfold pushdownNot
    cases negated with
    | false => rfl
    | true =>
      by_cases hflip : op.flip = .unknown
      · simp [hflip, evaluate]
      · simp only [Bool.not_true, Bool.false_eq_true, if_false, hflip, if_true, evaluate]
        cases lookup column with
        | none => rfl
        | some lhs => exact sqlCompareOp_flip op lhs value
  | inList column isNotIn values =>
    unfold pushdownNot
    cases negated with
    | false => rfl
    | true =>
      simp only [Bool.not_true, Bool.false_eq_true, if_false, if_true, evaluate]
      cases lookup column with
      | none => rfl
      | some lhs => cases isNotIn <;> simp
  | junction op left right ihl ihr =>
    unfold pushdownNot
    rw [evaluate_junction, ihl, ihr, evaluate_junction]
    cases negated with
    | false => rfl
    | true => exact (Junction.truthNot_truth op _ _).symm
  | not child ih =>
    unfold pushdownNot
    rw [ih]
    cases negated <;> simp [evaluate]

/-- NOT stands only above a comparison that cannot be flipped. -/
def Pushed : Condition → Prop
  | .junction _ left right => Pushed left ∧ Pushed right
  | .not child => ∃ column value, child = .compare column .unknown value
  | _ => True

theorem pushed_pushdownNot (c : Condition) (negated : Bool) : Pushed (pushdownNot c negated) := by
  induction c generalizing negated with
  | compare column op value =>
    unfold pushdownNot
    split_ifs with _ hflip
    · trivial
    · have hop : op = .unknown := by cases op <;> first | rfl | exact absurd hflip (by decide)
      exact ⟨column, value, by rw [hop]⟩
    · trivial
  | inList column isNotIn values =>
    unfold pushdownNot
    split <;> trivial
  | junction op left right ihl ihr => exact ⟨ihl negated, ihr negated⟩
  | not child ih => exact ih (!negated)

/-! ## Flattening -/

/-- Flattening returns a tree with the same truth. -/
theorem flatten_spec (c : Condition) :
    ∃ d, flatten c = some d ∧ ∀ lookup, d.evaluate lookup = c.evaluate lookup := by
  induction c using terms_induction with
  | compare | inList => exact ⟨_, by rw [flatten], fun _ => rfl⟩
  | not child ih =>
    obtain ⟨d, hd, heval⟩ := ih
    exact ⟨.not d, by rw [flatten, hd]; rfl, fun lookup => congrArg truthNot (heval lookup)⟩
  | junction op left right ih =>
    obtain ⟨ds, hds, hspec⟩ := exists_results ih
    rw [flatten_junction, hds]
    obtain ⟨d, hd⟩ : ∃ d, rebuild op (ds.map some) = some d := by
      refine Option.ne_none_iff_exists'.mp fun hnone => ?_
      have hnil := rebuild_eq_none_iff.mp hnone
      subst hnil
      exact collectSameOp_ne_nil op _ (map_eq_nil_iff.mp hds)
    refine ⟨d, hd, fun lookup => ?_⟩
    rw [evaluate_rebuild hd, ← evaluate_collect lookup op]
    exact congrArg op.truthOf (map_eq_of_forall₂ hspec fun c d h => (h lookup).symm).symm

/-! ## Folding constants -/

theorem evaluateIn_distinctValues (lhs : Value) (values : List Value) :
    evaluateIn lhs (distinctValues values) = evaluateIn lhs values := by
  have halike : ∀ v ∈ [] ++ values, ∀ w ∈ [] ++ values, v.eq w = true →
      sqlCompareOp .eq lhs v = sqlCompareOp .eq lhs w :=
    fun v _ w _ h => sqlCompareOp_of_eq h .eq lhs
  rw [evaluateIn_eq, evaluateIn_eq]
  exact (truthOf_firsts .or halike).trans (Junction.unit_truth .or _)

theorem evaluate_foldConstants (lookup : Lookup) (c : Condition) :
    (foldConstants c).evaluate lookup = c.evaluate lookup := by
  induction c with
  | compare column op value => rfl
  | junction op left right ihl ihr =>
    rw [foldConstants, evaluate_junction, evaluate_junction, ihl, ihr]
  | not child ih => exact congrArg truthNot ih
  | inList column isNotIn values =>
    have hlist : (inList column isNotIn (distinctValues values)).evaluate lookup
        = (inList column isNotIn values).evaluate lookup := by
      simp only [evaluate, evaluateIn_distinctValues]
    unfold foldConstants
    split
    · rename_i v hvalues
      rw [hvalues] at hlist
      rw [← hlist]
      split
      · rfl
      · -- an IN with one value is a comparison
        have hone : ∀ lhs, evaluateIn lhs [v] = sqlCompareOp .eq lhs v := fun lhs =>
          Junction.unit_truth .or _
        simp only [evaluate, hone]
        cases lookup column with
        | none => rfl
        | some lhs =>
          cases isNotIn with
          | false => rfl
          | true => exact sqlCompareOp_flip .eq lhs v
    · exact hlist

/-! ## Deduplication -/

/-- The terms that stay beside `kept`. -/
def distinctTerms (kept : List Condition) : List Condition → List Condition
  | [] => kept
  | c :: rest => distinctTerms (if kept.any (fun k => sameNode k c) then kept else kept ++ [c]) rest

theorem isDuplicate_eq (c : Condition) (kept : List Condition) :
    isDuplicate (some c) (kept.map some) = .ok (kept.any fun k => sameNode k c) := by
  induction kept with
  | nil => rfl
  | cons k kept ih =>
    show (if sameNode k c = true then Except.ok true else isDuplicate (some c) (kept.map some)) = _
    rw [ih, any_cons]
    cases sameNode k c <;> rfl

theorem keepFirst_eq (kept terms : List Condition) :
    keepFirst (kept.map some) (terms.map some) = .ok ((distinctTerms kept terms).map some) := by
  induction terms generalizing kept with
  | nil => rfl
  | cons c rest ih =>
    rw [map_cons, keepFirst, isDuplicate_eq, distinctTerms]
    show keepFirst (if (kept.any fun k => sameNode k c) = true then kept.map some
      else kept.map some ++ [some c]) (rest.map some) = _
    split
    · exact ih kept
    · have h := ih (kept ++ [c])
      rwa [map_append] at h

theorem distinctTerms_eq (kept terms : List Condition) :
    distinctTerms kept terms = firsts sameNode kept terms := by
  induction terms generalizing kept with
  | nil => rfl
  | cons c rest ih => exact ih _

theorem mem_distinctTerms {terms : List Condition} {c : Condition} (h : c ∈ distinctTerms [] terms) :
    c ∈ terms := by
  rw [distinctTerms_eq] at h
  exact (firsts_sublist sameNode [] terms).subset h

theorem distinctTerms_ne_nil {terms : List Condition} (h : terms ≠ []) :
    distinctTerms [] terms ≠ [] := by
  cases terms with
  | nil => exact absurd rfl h
  | cons c rest =>
    have hc : c ∈ firsts sameNode [c] rest :=
      (prefix_firsts sameNode [c] rest).subset (mem_singleton_self c)
    rw [distinctTerms_eq]
    exact ne_nil_of_mem hc

/-- The terms of a junction, deduplicated one by one. -/
def Deduplicated (terms results : List Condition) : Prop :=
  terms.map deduplicate = results.map fun c => .ok (some c)

/-- A junction of terms that are deduplicated. -/
theorem deduplicate_of_terms {op : Junction} {left right : Condition} {results : List Condition}
    (h : Deduplicated (collectSameOp op (.junction op left right)) results) :
    deduplicate (.junction op left right)
      = .ok (rebuild op ((distinctTerms [] results).map some)) := by
  have hterms := mapM_results.mpr (h.trans (map_map (l := results) (f := some)).symm)
  rw [deduplicate_junction, hterms]
  have hkeep := keepFirst_eq [] results
  show (keepFirst [] (results.map some) >>= fun kept => pure (rebuild op kept)) = _
  rw [show keepFirst [] (results.map some) = _ from hkeep]
  rfl

/-- Deduplication returns a tree. -/
theorem deduplicate_spec (c : Condition) : ∃ d, deduplicate c = .ok (some d) := by
  induction c using terms_induction with
  | compare | inList => exact ⟨_, by rw [deduplicate]; rfl⟩
  | not child ih =>
    obtain ⟨d, hd⟩ := ih
    exact ⟨.not d, by rw [deduplicate, hd]; rfl⟩
  | junction op left right ih =>
    obtain ⟨ds, hds, -⟩ := exists_results (P := fun _ _ => True) fun c hc =>
      (ih c hc).imp fun d hd => ⟨hd, trivial⟩
    rw [deduplicate_of_terms hds]
    have hne : ds ≠ [] := by
      rintro rfl
      exact collectSameOp_ne_nil op _ (map_eq_nil_iff.mp hds)
    obtain ⟨d, hd⟩ : ∃ d, rebuild op ((distinctTerms [] ds).map some) = some d :=
      Option.ne_none_iff_exists'.mp fun hnone =>
        distinctTerms_ne_nil hne (rebuild_eq_none_iff.mp hnone)
    exact ⟨d, congrArg _ hd⟩

/-! ## The truth of the first three passes -/

/-- **The first three passes keep the truth** of every tree, on every row and with every lookup, UNKNOWN
    included; and the first one leaves NOT only above an operator that cannot be flipped. -/
theorem passes_keep_truth (c : Condition) (lookup : Lookup) :
    (pushdownNot c false).evaluate lookup = c.evaluate lookup ∧
    (∃ d, flatten c = some d ∧ d.evaluate lookup = c.evaluate lookup) ∧
    (foldConstants c).evaluate lookup = c.evaluate lookup ∧ Pushed (pushdownNot c false) := by
  obtain ⟨d, hd, heval⟩ := flatten_spec c
  exact ⟨evaluate_pushdownNot lookup c false, ⟨d, hd, heval lookup⟩, evaluate_foldConstants lookup c,
    pushed_pushdownNot c false⟩

end SqlDb.Plan
