/-
  WHAT THE OPTIMIZER KEEPS.

  A row is kept by a WHERE exactly if its key is in one of the ranges and the filter keeps it; and the
  ranges come one after the other, so that no row is met twice (`Selects`).  This holds whatever the
  statistics say, as long as

  * the literals of the primary key fit its type (`keyRule`), and
  * the rewriter keeps the verdicts on the rows in question.  It does not do so for every tree, so this
    is asked of the trees that the optimizer hands to it (`Submitted`), and of these only.
-/
import SqlDb.Planner.KeyConditions

namespace SqlDb.Plan

open Sql Condition KeyCodecs KeyRange

/-! ## The rewriter, as it is used -/

/-- Rewriting returns, and keeps the verdict on each of the rows. -/
def RewriteKeeps (rows : Lookup → Prop) (p : ConditionPtr) : Prop :=
  ∃ q, rewriteConditionTree p = .ok q ∧
    ∀ lookup, rows lookup → keepsPtr lookup q = keepsPtr lookup p

/-- The two parts of a tree; a null pointer has none. -/
def splitPtr (pk : Identifier) : ConditionPtr → SplitConditions
  | none => ⟨none, none⟩
  | some root => splitPrimaryKey pk root

/-- The trees that are rewritten when a WHERE is optimized: the WHERE, its two parts, and what they
    are put together to if no ranges are made of them. -/
inductive Submitted (pk : Identifier) (where_ : ConditionPtr) : ConditionPtr → Prop
  | written : Submitted pk where_ where_
  | key {q : ConditionPtr} (h : rewriteConditionTree where_ = .ok q) :
      Submitted pk where_ (splitPtr pk q).pkCond
  | rest {q : ConditionPtr} (h : rewriteConditionTree where_ = .ok q) :
      Submitted pk where_ (splitPtr pk q).remaining
  | rejoined {q key rest : ConditionPtr} (h : rewriteConditionTree where_ = .ok q)
      (hkey : rewriteConditionTree (splitPtr pk q).pkCond = .ok key)
      (hrest : rewriteConditionTree (splitPtr pk q).remaining = .ok rest) :
      Submitted pk where_ (join .and key rest)

theorem rewriteTree_of_ok {p q : ConditionPtr} (h : rewriteConditionTree p = .ok q) :
    rewriteTree p = .ok q := by
  unfold rewriteTree
  rw [h]
  rfl

/-! ## Ranges and filter -/

/-- The key of a row. -/
def KeyOf (pk : Identifier) (lookup : Lookup) (x : Value) : Prop :=
  ∀ column, column.eq pk = true → lookup column = some x

/-- The ranges and the filter together keep the rows that `kept` says. -/
structure Selects (rows : Lookup → Prop) (pk : Identifier) (t : DataType) (ranges : List KeyRange)
    (filter : ConditionPtr) (kept : Lookup → Bool) : Prop where
  ofColumn : ∀ r ∈ ranges, r.OfColumn t
  apart : Apart (tagOf t) ranges
  literals : (keyRule pk t).HoldsPtr filter
  keeps : ∀ lookup x, rows lookup → KeyOf pk lookup x → x.Fits t →
    ((∃ r ∈ ranges, r.contains x = true) ∧ keepsPtr lookup filter = true ↔ kept lookup = true)

section Choose

variable {rows : Lookup → Prop} {pk : Identifier} {t : DataType}

/-- Every row is scanned. -/
theorem selects_all {filter : ConditionPtr} {kept : Lookup → Bool}
    (hliterals : (keyRule pk t).HoldsPtr filter)
    (hkeeps : ∀ lookup, rows lookup → keepsPtr lookup filter = kept lookup) :
    Selects rows pk t [.all t] filter kept := by
  refine ⟨List.forall_mem_singleton.mpr (.all (Or.inl rfl)), List.pairwise_singleton _ _, hliterals, ?_⟩
  intro lookup x hrow _ hx
  rw [hkeeps lookup hrow]
  simp [contains_all hx.tag hx.ofFamily t (Or.inl rfl)]

/-- The ranges of a condition on the key, in order and without gaps between neighbours. -/
theorem merged_candidates (ht : tagOf t ≠ kTagNull) {converted : List KeyRange}
    (hcolumn : ∀ r ∈ converted, r.OfColumn t) :
    Merged t converted (coalesceAdjacentPoints (normalizeRanges converted) t) := by
  have hsep := separates_endsBefore ht
  have hnormal := (merged_normalizeRanges ht hsep hcolumn).1
  unfold coalesceAdjacentPoints
  split
  · exact hnormal
  · have hruns := merged_coalesceRuns ht hsep.family hnormal.built (Or.inl rfl) hnormal.apart
    exact ⟨hruns.built, hruns.apart, fun v hv => (hruns.contains v hv).trans (hnormal.contains v hv),
      fun p hp => hruns.behind p (hnormal.behind p hp), fun h => hruns.nonempty (hnormal.nonempty h)⟩

theorem selects_candidates (ht : tagOf t ≠ kTagNull) {pkCond : Condition} {remaining : ConditionPtr}
    (hkey : (onKeyRule pk t).Holds pkCond) (hrest : (keyRule pk t).HoldsPtr remaining)
    {converted : List KeyRange} (hconverted : rangeOfCondition t pkCond = some converted) :
    Selects rows pk t
      (if coalesceAdjacentPoints (normalizeRanges converted) t = [] then [.empty t]
        else coalesceAdjacentPoints (normalizeRanges converted) t) remaining
      fun lookup => pkCond.keeps lookup && keepsPtr lookup remaining := by
  have htrans := rangeOfCondition_spec ht hkey hconverted
  have hmerged := merged_candidates ht htrans.ofColumn
  generalize coalesceAdjacentPoints (normalizeRanges converted) t = candidates at hmerged
  -- the empty range stands for no range at all
  have hcontains : ∀ x, (∃ r ∈ if candidates = [] then [KeyRange.empty t] else candidates,
      r.contains x = true) ↔ ∃ r ∈ candidates, r.contains x = true := by
    intro x
    split_ifs with hnil
    · simp [hnil, contains_empty]
    · exact Iff.rfl
  refine ⟨?_, ?_, hrest, ?_⟩
  · split
    · exact List.forall_mem_singleton.mpr (.empty (Or.inl rfl))
    · exact hmerged.built
  · split
    · exact List.pairwise_singleton _ _
    · exact hmerged.apart
  · intro lookup x _ hkeyOf hx
    have hsame : pkCond.keeps lookup = pkCond.keeps fun _ => some x :=
      congrArg whereKeeps (evaluate_of_onKey hkey hkeyOf)
    rw [hcontains, hmerged.contains x (Or.inr hx.ofFamily), htrans.contains x hx, hsame,
      Bool.and_eq_true]

theorem chooseRanges_spec (stats : RelationStats) (result : PrimaryKeyExtractResult)
    (htype : result.pkType = t) (hkey : (onKeyRule pk t).HoldsPtr result.pkCond)
    (hrest : (keyRule pk t).HoldsPtr result.remaining)
    (hjoin : RewriteKeeps rows (join .and result.pkCond result.remaining)) :
    ∃ ranges filter, chooseRanges stats result = .ok (ranges, filter) ∧
      (tagOf t ≠ kTagNull → Selects rows pk t ranges filter fun lookup =>
        keepsPtr lookup result.pkCond && keepsPtr lookup result.remaining) := by
  subst htype
  obtain ⟨q, hq, hkeeps⟩ := hjoin
  have hliterals : (keyRule pk result.pkType).HoldsPtr q :=
    LeafRule.holds_rewrite (LeafRule.holdsPtr_join hkey.of_onKey hrest) hq
  have hscan : tagOf result.pkType ≠ kTagNull →
      Selects rows pk result.pkType [.all result.pkType] q fun lookup =>
        keepsPtr lookup result.pkCond && keepsPtr lookup result.remaining :=
    fun _ => selects_all hliterals fun lookup hrow => (hkeeps lookup hrow).trans keepsPtr_join_and
  unfold chooseRanges
  cases hcond : result.pkCond with
  | none => exact ⟨_, _, rfl, fun _ => selects_all hrest fun _ _ => rfl⟩
  | some pkCond =>
    rw [hcond] at hq hscan hkey
    dsimp only
    cases hconverted : rangeOfCondition result.pkType pkCond with
    | none =>
      dsimp only
      rw [rewriteTree_of_ok hq]
      exact ⟨_, _, rfl, hscan⟩
    | some converted =>
      dsimp only
      split
      · rw [rewriteTree_of_ok hq]
        exact ⟨_, _, rfl, hscan⟩
      · exact ⟨_, _, rfl, fun ht => selects_candidates ht (LeafRule.holdsPtr_some.mp hkey) hrest
          hconverted⟩

end Choose

/-! ## The whole optimizer -/

/-- The table that a SELECT names, in the catalog. -/
structure Resolves (catalog : Catalog) (select : SelectQuery) (schema : TableSchema) : Prop where
  isOpen : catalog.isOpen = true
  database : catalog.currentDatabase.name ≠ []
  table : select.table.name ≠ []
  schema : catalog.getTableSchema catalog.currentDatabase select.table = some schema

/-- What is taken from a WHERE that has been rewritten. -/
def extracted (catalog : Catalog) (select : SelectQuery) (key : ColumnDef) (q : ConditionPtr) :
    PrimaryKeyExtractResult where
  db := catalog.currentDatabase
  table := select.table
  pkColumn := key.name
  pkType := key.type
  pkCond := (splitPtr key.name q).pkCond
  remaining := (splitPtr key.name q).remaining

theorem extract_of_resolves {catalog : Catalog} {select : SelectQuery} {schema : TableSchema}
    (hcatalog : Resolves catalog select schema) {key : ColumnDef}
    (hkey : schema.primaryKeyColumn = some key) {q : ConditionPtr}
    (hq : rewriteConditionTree select.where_ = .ok q) :
    extractPrimaryKeyCondition catalog select = .ok (extracted catalog select key q) := by
  have hresolve : resolveTarget catalog select = .ok (catalog.currentDatabase, select.table) := by
    simp [resolveTarget, hcatalog.isOpen, hcatalog.database, hcatalog.table]
  unfold extractPrimaryKeyCondition
  simp only [hresolve, bind, Except.bind, hcatalog.schema, rewriteTree_of_ok hq]
  show Except.ok (extractFromSchema _ _ schema q) = _
  unfold extractFromSchema
  rw [hkey]
  cases q <;> rfl

/-- **Optimizing keeps the rows of the WHERE**, for any statistics. -/
theorem optimizeSelect_spec {catalog : Catalog} {select : SelectQuery} {schema : TableSchema}
    (stats : Identifier → Identifier → RelationStats) (hcatalog : Resolves catalog select schema)
    {key : ColumnDef} (hkey : schema.primaryKeyColumn = some key) {rows : Lookup → Prop}
    (hliterals : (keyRule key.name key.type).HoldsPtr select.where_)
    (hrewrite : ∀ p, Submitted key.name select.where_ p → RewriteKeeps rows p) :
    ∃ optimized, optimizeSelect catalog stats select = .ok optimized ∧ optimized.query = select ∧
      optimized.primaryKey = key.name ∧ optimized.primaryKeyType = key.type ∧
      optimized.excludeKeys = exclusionsOf key.name optimized.remainingFilter ∧
      (tagOf key.type ≠ kTagNull → Selects rows key.name key.type optimized.ranges
        optimized.remainingFilter fun lookup => keepsPtr lookup select.where_) := by
  obtain ⟨q, hq, hqkeeps⟩ := hrewrite _ .written
  have hql := LeafRule.holds_rewrite hliterals hq
  have hsplit : (onKeyRule key.name key.type).HoldsPtr (splitPtr key.name q).pkCond ∧
      (keyRule key.name key.type).HoldsPtr (splitPtr key.name q).remaining ∧ ∀ lookup,
      (keepsPtr lookup (splitPtr key.name q).pkCond && keepsPtr lookup (splitPtr key.name q).remaining)
        = keepsPtr lookup q := by
    cases q with
    | none => exact ⟨LeafRule.holdsPtr_none, LeafRule.holdsPtr_none, fun _ => rfl⟩
    | some root =>
      have h := splitPrimaryKey_spec (hql root rfl)
      exact ⟨h.onKey, h.literals, h.keeps⟩
  obtain ⟨k, hk, hkkeeps⟩ := hrewrite _ (.key hq)
  obtain ⟨r, hr, hrkeeps⟩ := hrewrite _ (.rest hq)
  obtain ⟨ranges, filter, hchoose, hselects⟩ := chooseRanges_spec
    (stats catalog.currentDatabase select.table)
    { extracted catalog select key q with pkCond := k, remaining := r } rfl
    (LeafRule.holds_rewrite hsplit.1 hk) (LeafRule.holds_rewrite hsplit.2.1 hr)
    (hrewrite _ (.rejoined hq hk hr))
  have hparts : rewritePrimaryKeyCondition (extracted catalog select key q)
      = .ok { extracted catalog select key q with pkCond := k, remaining := r } := by
    unfold rewritePrimaryKeyCondition extracted
    rw [rewriteTree_of_ok hk, rewriteTree_of_ok hr]
    rfl
  unfold optimizeSelect
  rw [extract_of_resolves hcatalog hkey hq]
  show ∃ optimized, (rewritePrimaryKeyCondition (extracted catalog select key q) >>= _) = _ ∧ _
  rw [hparts]
  show ∃ optimized, convertToKeyRange (stats catalog.currentDatabase select.table) select _ = _ ∧ _
  unfold convertToKeyRange
  rw [hchoose]
  refine ⟨_, rfl, rfl, rfl, rfl, rfl, fun ht => ?_⟩
  have hs := hselects ht
  refine ⟨hs.ofColumn, hs.apart, hs.literals, fun lookup x hrow hkeyOf hx => ?_⟩
  rw [hs.keeps lookup x hrow hkeyOf hx, hkkeeps lookup hrow, hrkeeps lookup hrow, hsplit.2.2 lookup,
    hqkeeps lookup hrow]

end SqlDb.Plan
