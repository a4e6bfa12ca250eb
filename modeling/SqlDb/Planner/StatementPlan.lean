/-
  PLANS OF STATEMENTS  (`Session::build_plan`, session/session.cpp; `Optimizer::optimize`,
  planner/optimizer.cpp; `Planner::plan`, planner/planner.cpp).

  The rewriter, the optimizer and the planner are functions of the statement and of what the catalog
  says about its table; here they get their answers from the store.  Rows to be changed are found the
  way a SELECT with the same WHERE finds them, in ascending order.  An INSERT finds no rows, so that its
  plan is the statement itself.

  Planning only looks up keys, and on plain content it is `optimizeSelect` with the catalog of that
  content (`run_optimize`).
-/
import SqlDb.Planner.Planner
import SqlDb.Relation.KvCatalog

namespace SqlDb.Plan

open Sql Interaction
open Kv (Access Data)

abbrev Planning := ExceptT PlanFailure Access

/-- What the operator at the top does with the rows. -/
inductive PlanRoot
  | rows (node : PlanNode)
  | insert (query : InsertQuery)
  | update (child : PlanNode) (assignments : List Assignment)
  | delete (child : PlanNode)

/-- `plan_db` and `plan_table` are those of the optimizer. -/
structure StatementPlan where
  db : Identifier
  table : Identifier
  root : PlanRoot

/-- `stats_provider`: without a number of rows nothing is known. -/
def relationStats (db table : Identifier) : Access RelationStats := do
  match ← KVCatalog.tableStats db table with
  | .ok record =>
    pure (if record.rowCount ≥ 0 then { rows := record.rowCount.toInt, rowsKnown := true } else {})
  | .error _ => pure {}

section

-- the database in use
variable (current : Identifier)

/-- The catalog, once the schema of the one table has been read. -/
def catalogWith (opened : Bool) (schema : Option TableSchema) : Catalog where
  isOpen := opened
  currentDatabase := current
  getTableSchema := fun _ _ => schema

/-- `optimize_select`, `optimize_update`, `optimize_delete`. -/
def optimize (select : SelectQuery) : Planning OptimizedQuery := do
  let opened ← KVCatalog.isOpen
  let (db, table) ← Interaction.ofExcept (resolveTarget (catalogWith current opened none) select)
  let schema ← KVCatalog.getTableSchema db table
  let extracted ← Interaction.ofExcept
    (extractPrimaryKeyCondition (catalogWith current opened schema) select)
  let rewritten ← Interaction.ofExcept (rewritePrimaryKeyCondition extracted)
  let stats ← relationStats rewritten.db rewritten.table
  Interaction.ofExcept (convertToKeyRange stats select rewritten)

/-- Only that the table is there. -/
def optimizeInsert (query : InsertQuery) : Planning (Identifier × Identifier) := do
  let opened ← KVCatalog.isOpen
  let (db, table) ← Interaction.ofExcept
    (resolveTarget (catalogWith current opened none) { table := query.table })
  match ← KVCatalog.getTableSchema db table with
  | none => throw (.error ⟨.tableNotFound, ascii "table not found: " ++ table.name⟩)
  | some _ => pure (db, table)

/-- The rewriter and the optimizer, for the rows that a WHERE finds. -/
def optimizeWhere (where_ : ConditionPtr) (select : ConditionPtr → SelectQuery) :
    Planning OptimizedQuery := do
  let rewritten ← Interaction.ofExcept (rewriteTree where_)
  optimize current (select rewritten)

def buildPlan : DmlQuery → Planning StatementPlan
  | .select select => do
    let query ← optimizeWhere current select.where_ fun w => { select with where_ := w }
    pure ⟨query.db, query.table, .rows (planSelect query)⟩
  | .insert insert => do
    let (db, table) ← optimizeInsert current insert
    pure ⟨db, table, .insert insert⟩
  | .update update => do
    let query ← optimizeWhere current update.where_ fun w => { table := update.table, where_ := w }
    pure ⟨query.db, query.table, .update (buildScanChain query true) update.assignments⟩
  | .delete delete => do
    let query ← optimizeWhere current delete.where_ fun w => { table := delete.table, where_ := w }
    pure ⟨query.db, query.table, .delete (buildScanChain query true)⟩

end

/-! ## On plain content -/

section Content

variable (data : Data) (current : Identifier)

def catalogOf : Catalog where
  isOpen := true
  currentDatabase := current
  getTableSchema := KVCatalog.schemaOf data

def statsOf (db table : Identifier) : RelationStats :=
  if KVCatalog.hasTable data db table ∧ (KVCatalog.statsOf data db table).rowCount ≥ 0 then
    { rows := (KVCatalog.statsOf data db table).rowCount.toInt, rowsKnown := true }
  else {}

@[simp] theorem run_relationStats (db table : Identifier) :
    (relationStats db table).run Data.serve data = (statsOf data db table, data) := by
  unfold relationStats statsOf
  rw [run_bind, KVCatalog.run_tableStats]
  cases KVCatalog.hasTable data db table <;> simp

/-- The optimizer asks for one schema only. -/
theorem extract_catalogWith {select : SelectQuery} {db table : Identifier}
    (h : resolveTarget (catalogOf data current) select = .ok (db, table)) :
    extractPrimaryKeyCondition (catalogWith current true (KVCatalog.schemaOf data db table)) select
      = extractPrimaryKeyCondition (catalogOf data current) select := by
  have h' : resolveTarget (catalogWith current true (KVCatalog.schemaOf data db table)) select
      = .ok (db, table) := h
  unfold extractPrimaryKeyCondition
  rw [h, h']
  rfl

/-- **The optimizer on plain content.** -/
theorem run_optimize (select : SelectQuery) : (optimize current select).run.run Data.serve data
    = (optimizeSelect (catalogOf data current) (statsOf data) select, data) := by
  unfold optimize optimizeSelect
  rw [run_bind_except, run_lift, KVCatalog.run_isOpen]
  dsimp only
  rw [run_bind_except, run_ofExcept]
  have htarget : resolveTarget (catalogWith current true none) select
      = resolveTarget (catalogOf data current) select := rfl
  rw [htarget]
  cases hresolve : resolveTarget (catalogOf data current) select with
  | error e =>
    have hextract : extractPrimaryKeyCondition (catalogOf data current) select = .error e := by
      unfold extractPrimaryKeyCondition
      rw [hresolve]
      rfl
    rw [hextract]
    rfl
  | ok target =>
    obtain ⟨db, table⟩ := target
    dsimp only
    rw [run_bind_except, run_lift, KVCatalog.run_getTableSchema]
    dsimp only
    rw [run_bind_except, run_ofExcept, extract_catalogWith data current hresolve]
    cases extractPrimaryKeyCondition (catalogOf data current) select with
    | error e => rfl
    | ok extracted =>
      dsimp only
      rw [run_bind_except, run_ofExcept]
      cases hrewrite : rewritePrimaryKeyCondition extracted with
      | error e =>
        show _ = ((rewritePrimaryKeyCondition extracted >>= _), data)
        rw [hrewrite]
        rfl
      | ok rewritten =>
        dsimp only
        rw [run_bind_except, run_lift, run_relationStats]
        show _ = ((rewritePrimaryKeyCondition extracted >>= _), data)
        rw [hrewrite]
        rfl

end Content

/-! ## How planning ends

Once the table has been found, the rewriter's crash is the only thing that can go wrong. -/

/-- The planning goes well, or the process is gone. -/
def WellOrCrash {A : Type} (result : Except PlanFailure A) (well : A → Prop) : Prop :=
  (∃ a, result = .ok a ∧ well a) ∨ ∃ c, result = .error (.crash c)

theorem WellOrCrash.bind {A B : Type} {result : Except PlanFailure A} {well : A → Prop}
    {f : A → Except PlanFailure B} {well' : B → Prop} (h : WellOrCrash result well)
    (hf : ∀ a, well a → WellOrCrash (f a) well') : WellOrCrash (result >>= f) well' := by
  rcases h with ⟨a, rfl, ha⟩ | ⟨c, rfl⟩
  · exact hf a ha
  · exact Or.inr ⟨c, rfl⟩

theorem wellOrCrash_ok {A : Type} {a : A} {well : A → Prop} (h : well a) :
    WellOrCrash (.ok a) well := Or.inl ⟨a, rfl, h⟩

theorem wellOrCrash_rewriteTree (c : ConditionPtr) : WellOrCrash (rewriteTree c) fun _ => True := by
  unfold rewriteTree
  cases rewriteConditionTree c with
  | ok q => exact wellOrCrash_ok trivial
  | error x => exact Or.inr ⟨x, rfl⟩

theorem wellOrCrash_chooseRanges (stats : RelationStats) (result : PrimaryKeyExtractResult) :
    WellOrCrash (chooseRanges stats result) fun _ => True := by
  have hscan : ∀ c, WellOrCrash (do
      let filter ← rewriteTree (join .and (some c) result.remaining)
      return ([KeyRange.all result.pkType], filter)) fun _ => True := fun c =>
    (wellOrCrash_rewriteTree _).bind fun _ _ => wellOrCrash_ok trivial
  unfold chooseRanges
  split
  · exact wellOrCrash_ok trivial
  · split
    · exact hscan _
    · dsimp only
      split
      · exact hscan _
      · exact wellOrCrash_ok trivial

section Ends

variable {data : Data} {current : Identifier}

/-- The database in use and the table of the statement are there. -/
structure TableFound (data : Data) (current table : Identifier) : Prop where
  dbName : current.name ≠ []
  tableName : table.name ≠ []
  found : (KVCatalog.schemaOf data current table).isSome = true

theorem TableFound.resolveTarget {select : SelectQuery} (h : TableFound data current select.table) :
    resolveTarget (catalogOf data current) select = .ok (current, select.table) := by
  unfold Plan.resolveTarget
  rw [if_neg (by simp [catalogOf])]
  exact (if_neg h.dbName).trans (if_neg h.tableName)

theorem wellOrCrash_optimizeSelect {select : SelectQuery}
    (h : TableFound data current select.table) :
    WellOrCrash (optimizeSelect (catalogOf data current) (statsOf data) select) fun query =>
      query.db = current ∧ query.table = select.table := by
  obtain ⟨schema, hschema⟩ := Option.isSome_iff_exists.mp h.found
  have hextract : WellOrCrash (extractPrimaryKeyCondition (catalogOf data current) select)
      fun result => result.db = current ∧ result.table = select.table := by
    unfold extractPrimaryKeyCondition
    rw [h.resolveTarget]
    show WellOrCrash (match KVCatalog.schemaOf data current select.table with
      | none => .error (.error ⟨.tableNotFound, ascii "table not found: " ++ select.table.name⟩)
      | some schema => do
        return extractFromSchema current select.table schema (← rewriteTree select.where_)) _
    rw [hschema]
    refine (wellOrCrash_rewriteTree _).bind fun where_ _ => wellOrCrash_ok ?_
    unfold extractFromSchema
    split
    · exact ⟨rfl, rfl⟩
    · dsimp only
      split <;> exact ⟨rfl, rfl⟩
  refine hextract.bind fun extracted hextracted => ?_
  have hrewrite : WellOrCrash (rewritePrimaryKeyCondition extracted)
      fun result => result.db = current ∧ result.table = select.table :=
    (wellOrCrash_rewriteTree _).bind fun _ _ =>
      (wellOrCrash_rewriteTree _).bind fun _ _ => wellOrCrash_ok hextracted
  refine hrewrite.bind fun rewritten hrewritten => ?_
  exact (wellOrCrash_chooseRanges _ _).bind fun _ _ => wellOrCrash_ok hrewritten

/-- What the plan of a statement has at the top. -/
def PlansFor (query : DmlQuery) (root : PlanRoot) : Prop :=
  match query with
  | .insert insert => root = .insert insert
  | .select _ => ∃ optimized : OptimizedQuery, optimized.table = query.table ∧
      root = .rows (planSelect optimized)
  | .update update => ∃ optimized : OptimizedQuery, optimized.table = query.table ∧
      root = .update (buildScanChain optimized true) update.assignments
  | .delete _ => ∃ optimized : OptimizedQuery, optimized.table = query.table ∧
      root = .delete (buildScanChain optimized true)

theorem run_optimizeWhere_cases (where_ : ConditionPtr) (select : ConditionPtr → SelectQuery)
    {table : Identifier} (htable : ∀ w, (select w).table = table)
    (h : TableFound data current table) :
    ∃ result, (optimizeWhere current where_ select).run.run Data.serve data = (result, data) ∧
      WellOrCrash result fun query => query.db = current ∧ query.table = table := by
  unfold optimizeWhere
  rw [run_bind_except, run_ofExcept]
  rcases wellOrCrash_rewriteTree where_ with ⟨w, hw, -⟩ | ⟨c, hc⟩
  · have hfound : TableFound data current (select w).table := by rwa [htable]
    refine ⟨_, ?_, htable w ▸ wellOrCrash_optimizeSelect hfound⟩
    rw [hw]
    exact run_optimize data current (select w)
  · refine ⟨_, ?_, Or.inr ⟨c, rfl⟩⟩
    rw [hc]

theorem run_optimizeInsert {insert : InsertQuery} (h : TableFound data current insert.table) :
    (optimizeInsert current insert).run.run Data.serve data = (.ok (current, insert.table), data) := by
  obtain ⟨schema, hschema⟩ := Option.isSome_iff_exists.mp h.found
  have htarget : resolveTarget (catalogWith current true none) { table := insert.table }
      = .ok (current, insert.table) :=
    @TableFound.resolveTarget data current { table := insert.table } h
  unfold optimizeInsert
  rw [run_bind_except, run_lift, KVCatalog.run_isOpen]
  dsimp only
  rw [run_bind_except, run_ofExcept, htarget]
  dsimp only
  rw [run_bind_except, run_lift, KVCatalog.run_getTableSchema, hschema]
  rfl

/-- **How planning ends**, if the table is there: with a plan for it, or with the crash of the
    rewriter. -/
theorem run_buildPlan_cases (query : DmlQuery) (h : TableFound data current query.table) :
    ∃ result, (buildPlan current query).run.run Data.serve data = (result, data) ∧
      WellOrCrash result fun plan => plan.db = current ∧ plan.table = query.table ∧
        PlansFor query plan.root := by
  -- what is made of an optimized query is all that differs
  have hrows : ∀ (where_ : ConditionPtr) (select : ConditionPtr → SelectQuery)
      (make : OptimizedQuery → StatementPlan) (well : StatementPlan → Prop),
      (∀ w, (select w).table = query.table) →
      (∀ q, q.db = current ∧ q.table = query.table → well (make q)) →
      ∃ result, (optimizeWhere current where_ select >>= fun q => pure (make q)).run.run Data.serve
          data = (result, data) ∧ WellOrCrash result well := by
    intro where_ select make well htable hmake
    obtain ⟨result, hrun, hresult⟩ := run_optimizeWhere_cases where_ select htable h
    rw [run_bind_except, hrun]
    rcases hresult with ⟨q, rfl, hq⟩ | ⟨c, rfl⟩
    · exact ⟨_, rfl, wellOrCrash_ok (hmake q hq)⟩
    · exact ⟨_, rfl, Or.inr ⟨c, rfl⟩⟩
  cases query with
  | select select =>
    exact hrows select.where_ (fun w => { select with where_ := w }) _ _ (fun _ => rfl)
      fun q hq => ⟨hq.1, hq.2, q, hq.2, rfl⟩
  | insert insert =>
    refine ⟨.ok ⟨current, insert.table, .insert insert⟩, ?_, wellOrCrash_ok ⟨rfl, rfl, rfl⟩⟩
    show ((optimizeInsert current insert >>= fun target => pure _).run).run Data.serve data = _
    rw [run_bind_except, run_optimizeInsert h]
    rfl
  | update update =>
    exact hrows update.where_ (fun w => { table := update.table, where_ := w }) _ _ (fun _ => rfl)
      fun q hq => ⟨hq.1, hq.2, q, hq.2, rfl⟩
  | delete delete =>
    exact hrows delete.where_ (fun w => { table := delete.table, where_ := w }) _ _ (fun _ => rfl)
      fun q hq => ⟨hq.1, hq.2, q, hq.2, rfl⟩

end Ends

end SqlDb.Plan
