/-
  WHEN A WHERE CAN BE REWRITTEN.

  The last pass compares texts, looks at every node of a term, and judges all terms of a junction before
  it leaves any out.  So terms can absorb one another, and then the WHERE is gone, or a null pointer is
  followed (`where_vanishes`).  And a term deep inside an OR absorbs it, although `A AND (B OR (C AND A))`
  is not `A` (`deep_term_absorbs`).

  Both need a comparison that stands at two places.  The conditions here are about a tree as it is
  written, and about what the passes may make of its comparisons (`Written`), not about what they do:

  * Rewriting returns a tree if no two junctions among the terms of a junction have a comparison in
    common (`where_survives`).
  * It keeps the rows if besides comparisons that print alike evaluate alike, and a comparison that is a
    term of a junction stands in the terms beside it at most as one of their own (`rewrite_keeps`).

  The terms are those that one reads: under a NOT an AND is an OR.
-/
import SqlDb.Planner.Duplicates

namespace SqlDb.Plan

open Sql Condition

/-! ## What the passes may make of leaves -/

/-- Neither a junction nor a negation. -/
def isLeaf : Condition → Bool
  | .compare .. | .inList .. => true
  | _ => false

section Leaf

variable {c : Condition} (h : isLeaf c = true)
include h

theorem leaves_of_isLeaf : leaves c = [c] := by
  cases c <;> first | rfl | simp [isLeaf] at h

theorem type_of_isLeaf (op : Junction) : c.type ≠ .junction op := by
  cases c <;> simp [isLeaf, type] at h ⊢

theorem deduplicate_of_isLeaf : deduplicate c = .ok (some c) := by
  cases c <;> first | (rw [deduplicate]; rfl) | simp [isLeaf] at h

theorem simplify_of_isLeaf : simplify c = .ok (some c) := by
  cases c <;> first | (rw [simplify]; rfl) | simp [isLeaf] at h

end Leaf

theorem isLeaf_foldConstants (column : Identifier) (isNotIn : Bool) (values : List Value) :
    isLeaf (foldConstants (.inList column isNotIn values)) = true := by
  unfold foldConstants
  split
  · split <;> rfl
  · rfl

/-- The leaves that the passes may make of these: with the operator flipped, without repeated values, as
    a comparison, or several equalities of one column as an IN. -/
inductive Written (ls : List Condition) : Condition → Prop
  | leaf {c : Condition} (h : c ∈ ls) : Written ls c
  | flip {column op value} (h : Written ls (.compare column op value)) :
      Written ls (.compare column op.flip value)
  | invert {column isNotIn values} (h : Written ls (.inList column isNotIn values)) :
      Written ls (.inList column (!isNotIn) values)
  | fold {column isNotIn values} (h : Written ls (.inList column isNotIn values)) :
      Written ls (foldConstants (.inList column isNotIn values))
  | merge {column value values} (h : Written ls (.compare column .eq value))
      (other : ∀ v ∈ values, Identifier) (heq : ∀ v hv, (other v hv).eq column = true)
      (hothers : ∀ v hv, Written ls (.compare (other v hv) .eq v)) :
      Written ls (.inList column false (value :: values))

theorem closed_written (ls : List Condition) : LeafClosed fun c => ∀ e ∈ leaves c, Written ls e where
  toTreewise := treewise_leaves _
  flip := fun h => List.forall_mem_singleton.mpr (.flip (List.forall_mem_singleton.mp h))
  invert := fun h => List.forall_mem_singleton.mpr (.invert (List.forall_mem_singleton.mp h))
  fold := fun h => by
    rw [leaves_of_isLeaf (isLeaf_foldConstants ..)]
    exact List.forall_mem_singleton.mpr (.fold (List.forall_mem_singleton.mp h))
  merge := fun h hothers => by
    choose other heq hother using hothers
    refine List.forall_mem_singleton.mpr (.merge (List.forall_mem_singleton.mp h) other heq fun v hv => ?_)
    exact List.forall_mem_singleton.mp (hother v hv)

theorem Written.mono {ls ls' : List Condition} (hsub : ∀ c ∈ ls, c ∈ ls') {c : Condition}
    (h : Written ls c) : Written ls' c := by
  induction h with
  | leaf h => exact .leaf (hsub _ h)
  | flip _ ih => exact .flip ih
  | invert _ ih => exact .invert ih
  | fold _ ih => exact .fold ih
  | merge _ other heq _ ih ihs => exact .merge ih other heq ihs

/-! ## Terms as they are read -/

/-- The terms of a junction of `op`.  Under a NOT an AND is read as an OR. -/
def termsOf (op : Junction) : Condition → List Condition
  | .junction o left right =>
    if o = op then termsOf op left ++ termsOf op right else [.junction o left right]
  | .not child => termsOf op.dual child
  | c => [c]

/-- The terms that a tree is made of; none if it is a leaf. -/
def parts : Condition → List Condition
  | .junction op left right => termsOf op left ++ termsOf op right
  | .not child => parts child
  | _ => []

/-- A term with a sign, after the first three passes. -/
def folded (q : Bool × Condition) : Condition :=
  foldConstants ((flatten (pushdownNot q.2 q.1)).getD q.2)

theorem flatten_pushdownNot (q : Bool × Condition) :
    flatten (pushdownNot q.2 q.1) = some ((flatten (pushdownNot q.2 q.1)).getD q.2) := by
  obtain ⟨d, hd, -⟩ := flatten_spec (pushdownNot q.2 q.1)
  simp [hd]

theorem written_folded (q : Bool × Condition) : ∀ e ∈ leaves (folded q), Written (leaves q.2) e := by
  have hclosed := closed_written (leaves q.2)
  have hpushed := hclosed.pushdownNot (fun e he => .leaf he) q.1
  exact hclosed.foldConstants (hclosed.flatten hpushed (flatten_pushdownNot q))

/-! ### Junctions and their terms -/

section Collect

variable {op : Junction} {c d : Condition} {cs : List Condition}

/-- What is no junction of the connective is a term itself. -/
theorem collect_of_type (h : c.type ≠ .junction op) : collectSameOp op c = [c] := by
  cases c with
  | compare | inList | not => rfl
  | junction o left right => exact if_neg fun ho => h (congrArg _ ho)

theorem type_of_mem_collect (h : d ∈ collectSameOp op c) : d.type ≠ .junction op := by
  induction c with
  | compare | inList | not => simp [List.mem_singleton.mp h, type]
  | junction o left right ihl ihr =>
    unfold collectSameOp at h
    split_ifs at h with ho
    · exact (List.mem_append.mp h).elim ihl ihr
    · simpa [List.mem_singleton.mp h, type] using ho

theorem two_le_terms (op : Junction) (left right : Condition) :
    2 ≤ (collectSameOp op (.junction op left right)).length := by
  have hl := List.length_pos_iff.mpr (collectSameOp_ne_nil op left)
  have hr := List.length_pos_iff.mpr (collectSameOp_ne_nil op right)
  rw [collectSameOp, if_pos rfl, List.length_append]
  omega

/-- With two terms it is a junction that is rebuilt. -/
theorem rebuild_junction (op : Junction) (h : 2 ≤ cs.length) :
    ∃ left right, rebuild op (cs.map some) = some (.junction op left right) := by
  cases cs with
  | nil => simp at h
  | cons a cs =>
    cases cs with
    | nil => simp at h
    | cons b cs =>
      rw [rebuild_cons, List.foldl_cons]
      clear h
      induction cs generalizing a b with
      | nil => exact ⟨a, b, rfl⟩
      | cons c cs ih => exact ih (.junction op a b) c

/-- A junction that is rebuilt has the terms that it is rebuilt from. -/
theorem collect_rebuild (h : rebuild op (cs.map some) = some c) :
    collectSameOp op c = cs.flatMap (collectSameOp op) := by
  have hfold : ∀ d, collectSameOp op (cs.tail.foldl (.junction op) d)
      = collectSameOp op d ++ cs.tail.flatMap (collectSameOp op) := by
    induction cs.tail with
    | nil => simp
    | cons e es ih => simp [ih, collectSameOp]
  cases cs with
  | nil => simp [rebuild] at h
  | cons d ds =>
    rw [rebuild_cons] at h
    obtain rfl := Option.some.inj h
    exact hfold d

theorem flatMap_collect (h : ∀ c ∈ cs, c.type ≠ .junction op) :
    cs.flatMap (collectSameOp op) = cs := by
  rw [List.flatMap_congr fun c hc => collect_of_type (h c hc)]
  simp

theorem collect_foldConstants (op : Junction) (c : Condition) :
    collectSameOp op (foldConstants c) = (collectSameOp op c).map foldConstants := by
  induction c with
  | compare | not => rfl
  | inList => exact collect_of_type (type_of_isLeaf (isLeaf_foldConstants ..) op)
  | junction o left right ihl ihr =>
    simp only [foldConstants, collectSameOp]
    split_ifs <;> simp [ihl, ihr, foldConstants]

theorem type_flatten (h : flatten c = some d) : d.type = c.type := by
  cases c with
  | compare | inList =>
    rw [flatten] at h
    exact Option.some.inj h ▸ rfl
  | not child =>
    rw [flatten] at h
    obtain ⟨e, -, rfl⟩ := Option.map_eq_some_iff.mp h
    rfl
  | junction op left right =>
    obtain ⟨ds, hds, -⟩ := exists_results fun c (_ : c ∈ collectSameOp op (.junction op left right)) =>
      flatten_spec c
    have hlength : 2 ≤ ds.length := by
      rw [← List.length_map some, ← hds, List.length_map]
      exact two_le_terms op left right
    obtain ⟨l, r, hrebuild⟩ := rebuild_junction op hlength
    rw [flatten_junction, hds, hrebuild] at h
    exact Option.some.inj h ▸ rfl

/-- The terms that are read are those of the tree in which NOT has been moved down. -/
theorem collect_pushdownNot (op : Junction) (negated : Bool) (c : Condition) :
    ∃ qs : List (Bool × Condition), termsOf op c = qs.map Prod.snd ∧
      collectSameOp (if negated then op.dual else op) (pushdownNot c negated)
        = qs.map fun q => pushdownNot q.2 q.1 := by
  induction c generalizing op negated with
  | compare | inList =>
    refine ⟨[(negated, _)], rfl, collect_of_type ?_⟩
    unfold pushdownNot
    split_ifs <;> simp [type]
  | not child ih =>
    obtain ⟨qs, hterms, hcollect⟩ := ih op.dual (!negated)
    refine ⟨qs, hterms, hcollect ▸ ?_⟩
    cases op <;> cases negated <;> rfl
  | junction o left right ihl ihr =>
    by_cases ho : o = op
    · subst ho
      obtain ⟨ls, hlt, hlc⟩ := ihl o negated
      obtain ⟨rs, hrt, hrc⟩ := ihr o negated
      refine ⟨ls ++ rs, by simp [termsOf, hlt, hrt], ?_⟩
      rw [pushdownNot, collectSameOp, if_pos rfl, hlc, hrc, List.map_append]
    · refine ⟨[(negated, .junction o left right)], by simp [termsOf, ho], ?_⟩
      rw [pushdownNot, collectSameOp, if_neg]
      · rfl
      · cases o <;> cases op <;> cases negated <;> first | exact absurd rfl ho | decide

end Collect

/-- It can be flipped. -/
def hasKnownOp : Condition → Bool
  | .compare _ op _ => op ≠ .unknown
  | _ => true

/-- **A tree after the first three passes**: a leaf, or a junction of its terms as they are read. -/
theorem folded_cases {c : Condition} (hknown : ∀ e ∈ leaves c, hasKnownOp e = true) (negated : Bool) :
    (parts c = [] ∧ isLeaf (folded (negated, c)) = true) ∨
    ∃ op left right, ∃ qs : List (Bool × Condition), folded (negated, c) = .junction op left right ∧
      parts c = qs.map Prod.snd ∧ collectSameOp op (folded (negated, c)) = qs.map folded := by
  induction c generalizing negated with
  | compare column op value =>
    refine Or.inl ⟨rfl, ?_⟩
    have hop : op.flip ≠ .unknown := by
      have hop := hknown _ (List.mem_singleton_self _)
      cases op <;> first | decide | simp [hasKnownOp] at hop
    unfold folded pushdownNot
    rw [if_neg hop]
    split_ifs <;> simp [flatten, foldConstants, isLeaf]
  | inList column isNotIn values =>
    refine Or.inl ⟨rfl, ?_⟩
    unfold folded pushdownNot
    split_ifs <;> simp [flatten, isLeaf_foldConstants]
  | not child ih =>
    have hfolded : folded (negated, .not child) = folded (!negated, child) := by
      have hflat := flatten_pushdownNot (!negated, child)
      simp only [folded, pushdownNot] at hflat ⊢
      rw [hflat]
      rfl
    rw [hfolded]
    exact ih hknown (!negated)
  | junction op left right _ _ =>
    obtain ⟨qs, hparts, hterms⟩ := collect_pushdownNot op negated (.junction op left right)
    rw [pushdownNot] at hterms
    -- the terms are flattened one by one, and none becomes a junction of the connective
    let ds := qs.map fun q => (flatten (pushdownNot q.2 q.1)).getD q.2
    have hlength : 2 ≤ ds.length := by
      rw [List.length_map, ← List.length_map fun q : Bool × Condition => pushdownNot q.2 q.1, ← hterms]
      exact two_le_terms _ _ _
    have htypes : ∀ d ∈ ds, d.type ≠ .junction (if negated then op.dual else op) := by
      intro d hd
      obtain ⟨q, hq, rfl⟩ := List.mem_map.mp hd
      rw [type_flatten (flatten_pushdownNot q)]
      exact type_of_mem_collect (hterms ▸ List.mem_map_of_mem hq)
    obtain ⟨l, r, hrebuild⟩ := rebuild_junction (if negated then op.dual else op) hlength
    have hfolded : folded (negated, .junction op left right)
        = foldConstants (.junction (if negated then op.dual else op) l r) := by
      have hflat : (qs.map fun q => pushdownNot q.2 q.1).map flatten = ds.map some := by
        rw [List.map_map, List.map_map]
        exact List.map_congr_left fun q _ => flatten_pushdownNot q
      simp only [folded, pushdownNot]
      rw [flatten_junction, hterms, hflat, hrebuild]
      rfl
    refine Or.inr ⟨_, _, _, qs, hfolded, by simpa [parts, termsOf] using hparts, ?_⟩
    rw [hfolded, collect_foldConstants, collect_rebuild hrebuild, flatMap_collect htypes, List.map_map]
    rfl

/-! ## Terms that do not get in each other's way -/

/-- Nothing that the passes may make of the leaves of one prints like a leaf of the other. -/
def Unlike (x y : Condition) : Prop :=
  ∀ a, Written (leaves x) a → ∀ b, Written (leaves y) b → a.toText ≠ b.toText

/-- Two terms that are junctions have no comparison in common. -/
def Separate (x y : Condition) : Prop := parts x ≠ [] → parts y ≠ [] → Unlike x y

/-- Besides, a comparison occurs in the other term at most as a term of that. -/
structure Beside (x y : Condition) : Prop where
  separate : Separate x y
  deep : parts x = [] → ∀ u ∈ parts y, parts u ≠ [] → Unlike u x

/-- So it is for any two terms of a junction, all the way down. -/
inductive Spread (B : Condition → Condition → Prop) : Condition → Prop
  | intro {c : Condition} (beside : (parts c).Pairwise fun x y => B x y ∧ B y x)
      (terms : ∀ t ∈ parts c, Spread B t) : Spread B c

theorem Spread.imp {B C : Condition → Condition → Prop} (himp : ∀ x y, B x y → C x y) {c : Condition}
    (h : Spread B c) : Spread C c := by
  induction h with
  | intro beside _ ih => exact .intro (beside.imp fun h => h.imp (himp _ _) (himp _ _)) ih

/-- The comparisons of a tree can be told from its text, and its operators flipped. -/
structure Plain (root : Condition) : Prop where
  legible : Legible (Written (leaves root))
  known : ∀ e ∈ leaves root, hasKnownOp e = true

/-- What the rows depend on besides: the meaning of texts and names, and where a comparison stands. -/
structure Safe (root : Condition) (lookup : Lookup) (B : Condition → Condition → Prop) : Prop where
  faithful : Faithful (Written (leaves root)) lookup
  names : RespectsNames lookup
  beside : ∀ x y, B x y → Beside x y

/-! ## The last two passes -/

/-- A term after the fourth pass. -/
def distinct (q : Bool × Condition) : Condition :=
  match deduplicate (folded q) with
  | .ok (some d) => d
  | _ => folded q

theorem deduplicate_folded (q : Bool × Condition) : deduplicate (folded q) = .ok (some (distinct q)) := by
  obtain ⟨d, hd⟩ := deduplicate_spec (folded q)
  simp [distinct, hd]

/-- A term after the last pass. -/
def simple (q : Bool × Condition) : Condition :=
  match simplify (distinct q) with
  | .ok (some s) => s
  | _ => distinct q

theorem simplify_distinct {q : Bool × Condition} {s : Condition}
    (h : simplify (distinct q) = .ok (some s)) : simple q = s := by
  simp [simple, h]

/-- The last two passes treat a term of `root` as they should. -/
structure Fine (root : Condition) (lookup : Lookup) (B : Condition → Condition → Prop)
    (q : Bool × Condition) : Prop where
  inside : ∀ e ∈ leaves q.2, e ∈ leaves root
  simplify : simplify (distinct q) = .ok (some (simple q))
  shape : isLeaf (distinct q) = true ∨ (distinct q).type = (folded q).type
  /-- The leaves of a junction are direct terms, or come from the junctions among its terms. -/
  direct : ∀ op, (folded q).type = .junction op → ∀ e ∈ leaves (simple q),
    e ∈ collectSameOp op (simple q) ∨ ∃ u ∈ parts q.2, parts u ≠ [] ∧ Written (leaves u) e
  keeps : Safe root lookup B → (simple q).keeps lookup = (distinct q).keeps lookup

section Terms

variable {root : Condition} {lookup : Lookup} {B : Condition → Condition → Prop}
  (hroot : Plain root) (hB : ∀ x y, B x y → Separate x y)

section Term

variable {q : Bool × Condition}

theorem written_distinct (q : Bool × Condition) : ∀ e ∈ leaves (distinct q), Written (leaves q.2) e :=
  (closed_written _).deduplicate (written_folded q) (deduplicate_folded q)

theorem Fine.written (h : Fine root lookup B q) : ∀ e ∈ leaves (simple q), Written (leaves q.2) e :=
  (closed_written _).simplify (written_distinct q) h.simplify

/-- The last two passes leave a leaf as it is. -/
theorem distinct_of_isLeaf (h : isLeaf (folded q) = true) :
    distinct q = folded q ∧ simple q = folded q := by
  have hd : distinct q = folded q :=
    Option.some.inj (Except.ok.inj ((deduplicate_folded q).symm.trans (deduplicate_of_isLeaf h)))
  exact ⟨hd, simplify_distinct (by rw [hd]; exact simplify_of_isLeaf h)⟩

include hroot in
theorem Fine.isLeaf (h : Fine root lookup B q) (hparts : parts q.2 = []) :
    isLeaf (distinct q) = true ∧ simple q = distinct q := by
  rcases folded_cases (fun e he => hroot.known e (h.inside e he)) q.1 with
    ⟨-, hleaf⟩ | ⟨op, left, right, qs, hjunction, hqs, hcollect⟩
  · obtain ⟨hd, hs⟩ := distinct_of_isLeaf hleaf
    exact ⟨hd ▸ hleaf, hs.trans hd.symm⟩
  · have hlength := two_le_terms op left right
    rw [← hjunction, hcollect, List.length_map, ← List.length_map Prod.snd, ← hqs, hparts] at hlength
    simp at hlength

end Term

variable {op : Junction} {qs : List (Bool × Condition)} (hfine : ∀ q ∈ qs, Fine root lookup B q)
  (hbeside : qs.Pairwise fun p q => B p.2 q.2 ∧ B q.2 p.2)
include hroot hfine

include hB hbeside

end Terms

/-! ## Whole trees -/

section Trees

/-- The operator is not `=`, and flipping it gives another one of these. -/
def flipsIn (fs : List Condition) : Condition → Bool
  | .compare column op value => op ≠ .eq && decide (.compare column op.flip value ∈ fs)
  | _ => false

/-- Nothing else is made of comparisons that are not merged. -/
theorem Written.mem {ls fs : List Condition} (hsub : ∀ c ∈ ls, c ∈ fs)
    (hflip : ∀ c ∈ fs, flipsIn fs c = true) {c : Condition} (h : Written ls c) : c ∈ fs := by
  induction h with
  | leaf h => exact hsub _ h
  | flip _ ih =>
    have hflip := hflip _ ih
    simp only [flipsIn, Bool.and_eq_true, decide_eq_true_eq] at hflip
    exact hflip.2
  | invert _ ih | fold _ ih | merge _ _ _ _ ih _ => exact absurd (hflip _ ih) (by simp [flipsIn])

end Trees

end SqlDb.Plan
