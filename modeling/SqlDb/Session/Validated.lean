/-
  WHAT THE VALIDATOR ACCEPTS IS EXECUTED, nearly.

  The validator and the executor have code of their own for the same rules.  A statement that was accepted
  does not fail when it is executed on the same content, but for two things (in a transaction, what
  others have committed since its BEGIN is first seen by the executor):

  * the validator looks for conflicts of primary keys at the FIRST position of the primary key in the
    column list of an INSERT; the executor writes the value at the LAST one;
  * the rewriter of conditions may crash.

  `validated_executes` says that there is nothing else, for every table of the kind that the store holds,
  on every connection whose scans show its content.
-/
import SqlDb.Executor.WriteRows
import SqlDb.Session.Footprint

namespace SqlDb

open Sql Plan Exec Interaction
open Kv (Access Data Conn ConnId TxBuffer)

/-! ## Plans that fit their table -/

namespace Exec

theorem create_buildScanChain {view : TableView} {query : OptimizedQuery} (ascending : Bool)
    (h : query.table.eq view.schema.name = true) :
    create view (buildScanChain query ascending) = .ok () := by
  have hscan : create view (buildScan query ascending) = .ok () := by
    unfold buildScan
    dsimp only
    split
    · split
      · simp [create, makeTableRef, h]
      · split <;> simp [create, makeTableRef, h]
    · simp [create, makeTableRef, h]
  unfold buildScanChain
  split
  · exact hscan
  · exact hscan

theorem create_planSelect {view : TableView} {query : OptimizedQuery}
    (h : query.table.eq view.schema.name = true) : create view (planSelect query) = .ok () := by
  have hnode : ∀ order ascending, create view (planLimit query.query.limit
      (planSort query.query order (buildScanChain query ascending))) = .ok () := by
    intro order ascending
    have hsort : create view (planSort query.query order (buildScanChain query ascending))
        = .ok () := by
      unfold planSort
      split <;> exact create_buildScanChain ascending h
    unfold planLimit
    split <;> exact hsort
  unfold planSelect
  dsimp only
  split <;> exact hnode _ _

end Exec

namespace Session

/-! ## On plain content -/

/-- If there is such a table, it is one that a table can be stored with, and it holds its rows. -/
def TableSound (data : Data) (db table : Identifier) : Prop :=
  ∀ schema, KVCatalog.schemaOf data db table = some schema →
    schema.name.lower = table.lower ∧ TableView.Held ⟨db, schema⟩ data

/-- In a catalog that was not broken all tables are sound. -/
theorem tableSound_of_inv {data : Data} (h : KVCatalog.Inv data) (db table : Identifier) :
    TableSound data db table := fun _ hschema =>
  ⟨(h.opened hschema).2.2.name, h.held hschema⟩

/-- The keys of an INSERT are fresh as they are written; the plan of another statement can be made. -/
def Executable (data : Data) (current : Identifier) (query : DmlQuery) : Prop :=
  match query with
  | .insert insert => ∀ schema ∈ KVCatalog.schemaOf data current insert.table,
      FreshKeys data ⟨current, schema⟩ insert.columns insert.values
  | _ => ∀ c, ((buildPlan current query).run.run Data.serve data).1 ≠ .error (.crash c)

section Content

variable {data : Data} {current : Identifier} {query : DmlQuery}

/-- The statistics do not make a write fail. -/
theorem isOk_executeWrite (now : Int64) (query : DmlQuery) (plan : StatementPlan) (view : TableView) :
    ((executeWrite now query plan view).run.run Data.serve data).1.isOk
      = ((runWrite view plan.root).run.run Data.serve data).1.isOk := by
  unfold executeWrite
  rw [run_bind_except, run_adapt]
  rcases (runWrite view plan.root).run.run Data.serve data with ⟨error | affected, data'⟩
  · rfl
  · dsimp only [Except.mapError]
    split
    · rw [run_bind_except, run_lift]
      rfl
    · rfl

/-- A plan is executed on its table. -/
theorem isOk_executePlan (now : Int64) {schema : TableSchema} {plan : StatementPlan}
    (hname : schema.name.lower = query.table.lower)
    (hheld : TableView.Held ⟨current, schema⟩ data)
    (hchecked : Stmt.Checked data current schema query) (hplan : PlansFor query plan.root) :
    ((executePlan now query plan ⟨current, schema⟩).run.run Data.serve data).1.isOk = true ↔
      ∀ insert, query = .insert insert →
        FreshKeys data ⟨current, schema⟩ insert.columns insert.values := by
  have hcreate : ∀ optimized : OptimizedQuery, optimized.table = query.table →
      optimized.table.eq schema.name = true := fun optimized h => by
    rw [h]
    exact decide_eq_true hname.symm
  unfold executePlan
  cases query with
  | select select =>
    obtain ⟨optimized, htable, hroot⟩ := hplan
    have hnode : create ⟨current, schema⟩ (planSelect optimized) = .ok () :=
      create_planSelect (hcreate optimized htable)
    rw [hroot]
    refine iff_of_true ?_ fun insert h => absurd h (by simp)
    rw [run_bind_except, run_ofExcept, hnode]
    rfl
  | insert insert =>
    have hroot : plan.root = .insert insert := hplan
    obtain ⟨targets, hinsert, -⟩ := hchecked
    obtain ⟨htargets, hrows⟩ := Stmt.checkInsert_eq_ok hinsert
    have hfresh := run_insertAll_isOk hheld htargets hrows
    have honly : (∀ i, DmlQuery.insert insert = .insert i →
        FreshKeys data ⟨current, schema⟩ i.columns i.values) ↔
        FreshKeys data ⟨current, schema⟩ insert.columns insert.values :=
      ⟨fun h => h insert rfl, fun h i hi => by cases hi; exact h⟩
    rw [honly, hroot]
    dsimp only
    rw [isOk_executeWrite, hroot, runWrite, run_bind_except]
    rcases hrun : (insertAll ⟨current, schema⟩ insert.columns insert.values).run.run Data.serve data
      with ⟨error | done, data'⟩
    · rw [hrun] at hfresh
      exact hfresh
    · rw [hrun] at hfresh
      exact hfresh
  | update update =>
    obtain ⟨optimized, htable, hroot⟩ := hplan
    have hnode : create ⟨current, schema⟩ (buildScanChain optimized true) = .ok () :=
      create_buildScanChain true (hcreate optimized htable)
    obtain ⟨affected, data', hrun, -⟩ := succeeds_runUpdate hheld
      (isScanChain_buildScanChain optimized true) (Stmt.checkUpdate_eq_ok hchecked)
    rw [hroot]
    dsimp only
    refine iff_of_true ?_ fun insert h => absurd h (by simp)
    rw [isOk_executeWrite, hroot, runWrite, run_bind_except, run_ofExcept, hnode]
    dsimp only
    rw [hrun]
    rfl
  | delete delete =>
    obtain ⟨optimized, htable, hroot⟩ := hplan
    have hnode : create ⟨current, schema⟩ (buildScanChain optimized true) = .ok () :=
      create_buildScanChain true (hcreate optimized htable)
    obtain ⟨affected, data', hrun, -⟩ := succeeds_runDelete hheld
      (isScanChain_buildScanChain optimized true)
    rw [hroot]
    dsimp only
    refine iff_of_true ?_ fun insert h => absurd h (by simp)
    rw [isOk_executeWrite, hroot, runWrite, run_bind_except, run_ofExcept, hnode]
    dsimp only
    rw [hrun]
    rfl

/-- **An accepted statement on the same content** is executed if its keys are fresh and its plan can be
    made, and only then. -/
theorem run_executeDml_isOk (now : Int64) (hsound : TableSound data current query.table)
    (haccepted : ((Stmt.validate current (.dml query)).run.run Data.serve data).1 = .ok ()) :
    ((executeDml now current query).run.run Data.serve data).1.isOk = true ↔
      Executable data current query := by
  obtain ⟨hfound, schema, hschema, hchecked⟩ := Stmt.validate_eq_ok haccepted
  obtain ⟨hname, hheld⟩ := hsound schema hschema
  obtain ⟨result, hrun, hresult⟩ := run_buildPlan_cases query hfound
  unfold executeDml
  rw [run_bind_except, run_adapt, hrun]
  rcases hresult with ⟨plan, rfl, hdb, htable, hplan⟩ | ⟨c, rfl⟩
  · -- the table is the one that the validator has seen
    dsimp only [Except.mapError]
    rw [run_bind_except, run_lift, KVCatalog.run_openTable, hdb, htable, hschema]
    dsimp only
    rw [isOk_executePlan now hname hheld hchecked hplan]
    cases query with
    | insert insert =>
      have hinsert : KVCatalog.schemaOf data current insert.table = some schema := hschema
      simp [Executable, hinsert]
    | _ => exact iff_of_true (fun _ h => absurd h (by simp)) fun c => by rw [hrun]; simp
  · -- an INSERT has no condition to be rewritten
    refine iff_of_false (by simp [Except.mapError, Except.isOk, Except.toBool]) fun hexec => ?_
    cases query with
    | insert insert =>
      have hplan : (buildPlan current (.insert insert)).run.run Data.serve data
          = (.ok ⟨current, insert.table, .insert insert⟩, data) := by
        rw [buildPlan, run_bind_except, run_optimizeInsert hfound]
        rfl
      rw [hrun] at hplan
      simp at hplan
    | _ => exact hexec c (by rw [hrun])

/-- With one place for the primary key an accepted INSERT is executable. -/
theorem executable_of_namesKeyOnce {insert : InsertQuery}
    (hsound : TableSound data current insert.table)
    (haccepted : ((Stmt.validate current (.dml (.insert insert))).run.run Data.serve data).1 = .ok ())
    (honce : ∀ schema ∈ KVCatalog.schemaOf data current insert.table,
      NamesKeyOnce schema insert.columns) : Executable data current (.insert insert) := by
  obtain ⟨hfound, schema, hschema, targets, hinsert, hkeys⟩ := Stmt.validate_eq_ok haccepted
  have hinsertSchema : KVCatalog.schemaOf data current insert.table = some schema := hschema
  obtain ⟨htargets, hrows⟩ := Stmt.checkInsert_eq_ok hinsert
  intro schema' hschema'
  obtain rfl := Option.some.inj (hinsertSchema.symm.trans hschema')
  exact freshKeys_of_accepted hfound hschema (hsound schema hschema).2 rfl htargets hrows
    (by rw [hkeys]) (honce schema hschema')

end Content

/-! ## On a connection -/

/-- **What the validator accepts is executed**, on a connection whose scans show its content, if the keys
    of an INSERT are fresh as they are written and the plan of another statement can be made; and only
    then.  For an INSERT it is enough that the primary key is not listed twice.  The validator comes
    before the write slot is taken and the snapshot dropped, and must have seen the same content. -/
theorem validated_executes (self : ConnId) (before : Conn) {c : Conn} {tx : TxBuffer}
    (hopen : before.store.isOpen = true) (hbefore : before.Wf) (hwriting : c.Writing tx) (hwf : c.Wf)
    (hcontent : before.content = c.content) (now : Int64) (current : Identifier) (query : DmlQuery)
    (hsound : TableSound c.content current query.table)
    (haccepted : ((Stmt.validate current (.dml query)).run.run (Conn.serve self) before).1 = .ok ())
    (hscans : Interaction.Meets (Conn.serve self) Conn.HonestScan (executeDml now current query).run
      c) :
    (((executeDml now current query).run.run (Conn.serve self) c).1.isOk = true ↔
      Executable c.content current query) ∧
    ∀ insert, query = .insert insert →
      (∀ schema ∈ KVCatalog.schemaOf c.content current insert.table,
        NamesKeyOnce schema insert.columns) → Executable c.content current query := by
  rw [(Conn.run_lookups hopen hbefore (Stmt.looks_validate current (.dml query))).1, hcontent]
    at haccepted
  have hbody := Conn.run_body hwriting hwf
    ((points_executeDml now current query).works.meets hscans)
  refine ⟨?_, ?_⟩
  · rw [hbody.1]
    exact run_executeDml_isOk now hsound haccepted
  · rintro insert rfl honce
    exact executable_of_namesKeyOnce hsound haccepted honce

/-! ## The primary key, listed twice -/

section Example

open KVCatalog (shop orders)

def idColumn : Identifier := ⟨ascii "id", false⟩

/-- A transaction that has written nothing yet. -/
def connOver (data : Data) : Conn where
  store := { data := data, writeOwner := some 0 }
  engine := { tx := some {}, writeSlot := true }

/-- A table with the one row 2 is made. -/
def oneOrder : List (Int64 × KVCatalog.Action) :=
  [(1, .createDatabase shop), (2, .createTable shop orders [⟨idColumn, .int, 0, false, true⟩]),
    (3, .writeRow shop orders (.insert [.ofInt 2]))]

def oneOrderConn : Conn := connOver (KVCatalog.contentAfter oneOrder)

/-- The same before the slot is taken. -/
def oneOrderBefore : Conn where
  store := { data := KVCatalog.contentAfter oneOrder }
  engine := { tx := some {}, snapshot := some (KVCatalog.contentAfter oneOrder) }

theorem tableSound_oneOrder : TableSound oneOrderConn.content shop orders := by
  have hregular : ∀ step ∈ oneOrder, step.2.Regular := by decide
  have hsound := tableSound_of_inv (KVCatalog.inv_contentAfter hregular) shop orders
  have hcontent : ∀ data, (connOver data).content = data := fun _ => rfl
  unfold oneOrderConn
  rwa [hcontent]

/-- INSERT INTO orders (columns) VALUES (values). -/
def insertOrder (columns : List Identifier) (values : List Value) : DmlQuery :=
  .insert ⟨orders, columns, [values]⟩

/-- INSERT INTO orders (id) VALUES (3). -/
theorem validated_executes_once :
    ((executeDml 4 shop (insertOrder [idColumn] [.ofInt 3])).run.run (Conn.serve 0)
      oneOrderConn).1.isOk = true := by
  have hwriting : oneOrderConn.Writing {} := ⟨rfl, rfl, rfl⟩
  have hwf : ∀ c : Conn, c.engine.tx = some {} → c.Wf := fun c hc tx htx =>
    (Option.some.inj (hc.symm.trans htx)) ▸ rfl
  obtain ⟨hiff, honce⟩ := validated_executes 0 oneOrderBefore rfl (hwf _ rfl) hwriting
    (hwf _ rfl) rfl 4 shop (insertOrder [idColumn] [.ofInt 3]) tableSound_oneOrder (by decide +kernel)
    (Conn.meets_honestScan hwriting rfl rfl (points_executeDml ..))
  refine hiff.mpr (honce _ rfl fun schema _ targets place htargets _ => ?_)
  have hlength := (Fallible.mapM_eq_ok.mp htargets).length_eq
  exact List.count_le_length.trans_eq hlength.symm

/-- The text of the error, if there is one. -/
def failure : Except Abort Reply → Option SessionError
  | .error (.failed error) => some error
  | _ => none

/-- INSERT INTO orders (id, id) VALUES (1, 2): the validator looks for 1, and 2 is written. -/
theorem key_listed_twice :
    ((Stmt.validate shop (.dml (insertOrder [idColumn, idColumn] [.ofInt 1, .ofInt 2]))).run.run
      (Conn.serve 0) oneOrderConn).1 = .ok () ∧
    failure ((executeDml 4 shop (insertOrder [idColumn, idColumn] [.ofInt 1, .ofInt 2])).run.run
      (Conn.serve 0) oneOrderConn).1
      = some ⟨.constraintViolation, ascii "duplicate primary key in orders: 2"⟩ := by
  decide +kernel

end Example

end Session

end SqlDb
