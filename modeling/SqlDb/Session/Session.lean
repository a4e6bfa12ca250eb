/-
  A SESSION  (`Session`, session/session.cpp, session/session.h).

  A session has three things of its own: the database in use, whether it is in an explicit transaction,
  and whether that transaction has failed.  The rest it asks of the engine.  One statement is parsed,
  validated, and then

  * a BEGIN, COMMIT or ROLLBACK is a request of the engine;
  * in a transaction that has failed nothing else is done;
  * a statement that writes first takes the write slot, and if there is no explicit transaction it runs
    in one of its own (`AutoCommit`): COMMIT at the end, or ROLLBACK on any other way out;
  * an error of the catalog, of the table or of the executor marks an explicit transaction as failed;
    an error of the validator or of the planner does not.

  The database in use is plain memory: USE and DROP DATABASE change it at once, whatever becomes of the
  transaction.

  A text has become a `Statement` before it comes here.  What a SELECT returns is a cursor, which is read
  later.  There is one group of nodes, so that nothing is routed.
-/
import SqlDb.Executor.StoreExecutor
import SqlDb.Statement.Validator

namespace SqlDb

open Sql Plan Exec
open Kv (Access Request)

structure Session where
  currentDb : Identifier := ⟨[], false⟩
  inTransaction : Bool := false
  txFailed : Bool := false
deriving DecidableEq

namespace Session

/-! ## Errors and results -/

inductive SessionErrorCode
  | emptySql | parseError | buildError | validateError | optimizeError | executeError
  | constraintViolation | notSupported | transactionError
deriving DecidableEq

structure SessionError where
  code : SessionErrorCode
  message : Bytes
deriving DecidableEq

/-- A duplicate key is the same error, whoever finds it. -/
def fromStmtError (error : Stmt.StmtError) : SessionError :=
  ⟨if error.code = .duplicatePrimaryKey then .constraintViolation else .validateError, error.message⟩

def fromExecError (error : ExecError) : SessionError :=
  ⟨if error.code = .constraintViolation then .constraintViolation else .executeError, error.message⟩

/-- What stands in place of the result of a statement that has ended well. -/
inductive Reply
  /-- No rows (`empty_result`). -/
  | done
  /-- A statement that writes, with its number of rows. -/
  | affected (rows : Nat)
  /-- A cursor over the rows of a plan. -/
  | rows (plan : StatementPlan)
  /-- The text of a plan. -/
  | explained

inductive Outcome
  /-- The process is gone. -/
  | crashed (crash : Crash)
  | failed (error : SessionError)
  | replied (reply : Reply)

/-- A text, as far as the parser and the builder get with it. -/
inductive Statement
  | empty
  | unparsable (error : SessionError)
  | unbuildable (error : SessionError)
  | parsed (query : Query) (explain analyze : Bool)

/-- Why a statement stops. -/
inductive Abort
  | crash (crash : Crash)
  /-- The planner has found no plan: this does not go through `finish`. -/
  | unplanned (error : SessionError)
  | failed (error : SessionError)

abbrev Body := ExceptT Abort Access

def aborted : SessionError :=
  ⟨.transactionError, ascii "current transaction is aborted; issue ROLLBACK"⟩

def notOpen : SessionError := ⟨.executeError, ascii "storage engine is not open"⟩

/-! ## Plans -/

def planAbort : PlanFailure → Abort
  | .crash c => .crash c
  | .error error => .unplanned ⟨.optimizeError, error.message⟩

/-- How the number of rows of a table changes. -/
def rowDelta (query : DmlQuery) (affected : Nat) : Int64 :=
  match query with
  | .insert _ => Int64.ofNat affected
  | .delete _ => -Int64.ofNat affected
  | _ => 0

/-- A statement that writes is executed at once, and then the statistics of the table are updated.
    Whether they could be is not asked. -/
def executeWrite (now : Int64) (query : DmlQuery) (plan : StatementPlan) (view : TableView) :
    Body Reply := do
  let affected ← (runWrite view plan.root).adapt fun error => .failed (fromExecError error)
  if affected > 0 then
    let _ ← KVCatalog.touchTable now plan.db plan.table (rowDelta query affected)
  pure (.affected affected)

/-- A SELECT gets its operators, and no row is read yet. -/
def executePlan (now : Int64) (query : DmlQuery) (plan : StatementPlan) (view : TableView) :
    Body Reply :=
  match plan.root with
  | .rows node => do
    Interaction.ofExcept ((create view node).mapError fun error => .failed (fromExecError error))
    pure (.rows plan)
  | _ => executeWrite now query plan view

/-- The plan is made and executed. -/
def executeDml (now : Int64) (current : Identifier) (query : DmlQuery) : Body Reply := do
  let plan ← (buildPlan current query).adapt planAbort
  match ← KVCatalog.openTable plan.db plan.table with
  | .error error => throw (.failed ⟨.executeError, error.message⟩)
  | .ok view => executePlan now query plan view

/-- DDL and USE: what went wrong, and the database in use. -/
def executeCatalogStatement (now : Int64) (current : Identifier) :
    CatalogQuery → Access (Except Abort Reply × Identifier)
  | .useDatabase db => do
    let result ← KVCatalog.useDatabase current db
    pure (answer result.1 "cannot use database: " db, result.2)
  | .createDatabase db => do
    let created ← KVCatalog.createDatabase now db
    pure (answer created "cannot create database: " db, current)
  | .dropDatabase db => do
    let result ← KVCatalog.dropDatabase current db
    pure (answer result.1 "cannot drop database: " db, result.2)
  | .createTable query => do
    let created ← KVCatalog.createTable now (Stmt.resolveDatabase current query.database)
      (.ofColumns query.table query.columns)
    pure (answer created "cannot create table: " query.table, current)
  | .dropTable query => do
    let dropped ← KVCatalog.dropTable (Stmt.resolveDatabase current query.database) query.table
    pure (answer dropped "cannot drop table: " query.table, current)
where
  answer (success : Bool) (what : String) (name : Identifier) : Except Abort Reply :=
    if success then .ok .done else .error (.failed ⟨.executeError, ascii what ++ name.name⟩)

/-- A statement that is neither explained nor about transactions. -/
inductive Work
  | dml (query : DmlQuery)
  | catalog (query : CatalogQuery)
deriving DecidableEq

def Work.isWrite : Work → Bool
  | .dml query => !query.isSelect
  | .catalog _ => true

/-- What became of it, and the database in use. -/
def executeWork (now : Int64) (current : Identifier) :
    Work → Access (Except Abort Reply × Identifier)
  | .dml query => do
    let result ← (executeDml now current query).run
    pure (result, current)
  | .catalog query => executeCatalogStatement now current query

/-! ## Transactions -/

def statusError (what : String) (status : Kv.Status) : Bytes :=
  ascii what ++ ascii (Kv.statusToString status)

variable (self : Session)

def fail (code : SessionErrorCode) (message : String) : Outcome × Session :=
  (.failed ⟨code, ascii message⟩, self)

def beginTransaction : Access (Outcome × Session) := do
  if self.inTransaction then pure (self.fail .transactionError "already in a transaction")
  else do
    let status ← Interaction.query Request.beginTransaction
    if status ≠ .ok then
      pure (.failed ⟨.transactionError, statusError "cannot begin transaction: " status⟩, self)
    else pure (.replied .done, { self with inTransaction := true, txFailed := false })

/-- COMMIT of a transaction that has failed is a ROLLBACK.  After a COMMIT that cannot be done the
    transaction is still there. -/
def commitTransaction : Access (Outcome × Session) := do
  if !self.inTransaction then pure (self.fail .transactionError "no transaction to commit")
  else if self.txFailed then do
    let _ ← Interaction.query Request.rollbackTransaction
    pure ({ self with inTransaction := false, txFailed := false }.fail .transactionError
      "transaction was aborted; rolled back instead of committing")
  else do
    let status ← Interaction.query Request.commitTransaction
    if status ≠ .ok then
      pure (.failed ⟨.transactionError, statusError "commit failed: " status⟩, self)
    else pure (.replied .done, { self with inTransaction := false })

def rollbackTransaction : Access (Outcome × Session) := do
  if !self.inTransaction then pure (self.fail .transactionError "no transaction to roll back")
  else do
    let status ← Interaction.query Request.rollbackTransaction
    let after := { self with inTransaction := false, txFailed := false }
    if status ≠ .ok then
      pure (.failed ⟨.transactionError, statusError "rollback failed: " status⟩, after)
    else pure (.replied .done, after)

def transaction : TransactionKind → Access (Outcome × Session)
  | .begin => self.beginTransaction
  | .commit => self.commitTransaction
  | .rollback => self.rollbackTransaction

/-! ## Statements -/

/-- `finish` without a transaction of the statement's own: an error marks the explicit transaction, if
    there is one. -/
def settle : Except Abort Reply → Outcome × Session
  | .ok reply => (.replied reply, self)
  | .error (.crash c) => (.crashed c, self)
  | .error (.unplanned error) => (.failed error, self)
  | .error (.failed error) =>
    (.failed error, { self with txFailed := self.txFailed || self.inTransaction })

/-- The constructor of `AutoCommit`: whether there is a transaction now. -/
def autoBegin : Access Bool := do
  if ← Interaction.query Request.inTransaction then pure false
  else do
    let status ← Interaction.query Request.beginTransaction
    pure (status = .ok)

/-- The statement in a transaction of its own, which has begun: `finish`, and the destructor of
    `AutoCommit`. -/
def executeAutoCommit (now : Int64) (work : Work) : Access (Outcome × Session) := do
  let result ← executeWork now self.currentDb work
  let after := { self with currentDb := result.2 }
  match result.1 with
  -- a process that is gone has lost its transaction, too
  | .error abort => do
    let _ ← Interaction.query Request.rollbackTransaction
    pure (after.settle (.error abort))
  | .ok reply => do
    let status ← Interaction.query Request.commitTransaction
    if status ≠ .ok then do
      let _ ← Interaction.query Request.rollbackTransaction
      pure (.failed ⟨.executeError, statusError "commit failed: " status⟩, after)
    else pure (.replied reply, after)

/-- The statement in the explicit transaction, or without one if it does not write. -/
def executeJoined (now : Int64) (work : Work) : Access (Outcome × Session) := do
  let result ← executeWork now self.currentDb work
  pure ({ self with currentDb := result.2 }.settle result.1)

def executeQuery (now : Int64) (work : Work) : Access (Outcome × Session) := do
  if !work.isWrite then self.executeJoined now work
  else do
    let slot ← Interaction.query Request.acquireWriteSlot
    if slot ≠ .ok then
      pure (self.fail .transactionError
        "another transaction is writing (busy); retry after it commits")
    else if self.inTransaction then self.executeJoined now work
    else if !(← autoBegin) then do
      Interaction.query Request.releaseWriteSlot
      pure (self.fail .executeError "cannot begin transaction")
    else self.executeAutoCommit now work

/-- EXPLAIN ANALYZE reads the whole result. -/
def analyzeRows (plan : StatementPlan) (node : PlanNode) : Body Reply := do
  match ← KVCatalog.openTable plan.db plan.table with
  | .error error => throw (.failed ⟨.executeError, error.message⟩)
  | .ok view => do
    Interaction.ofExcept ((create view node).mapError fun error => .failed (fromExecError error))
    let _ ← (visitPlan view kSortRowLimit node (fun rows _ => pure (.more (rows + 1))) (.more 0)).adapt
      fun error => .failed (fromExecError error)
    pure .explained

def explainDml (current : Identifier) (query : DmlQuery) (analyze : Bool) : Body Reply := do
  let plan ← (buildPlan current query).adapt planAbort
  if !analyze then pure .explained
  else
    match plan.root with
    | .rows node => analyzeRows plan node
    | _ => throw (.failed ⟨.notSupported,
        ascii "EXPLAIN ANALYZE only supports SELECT (it would really modify data)"⟩)

/-- An error here marks nothing. -/
def executeExplain (query : Query) (analyze : Bool) : Access Outcome := do
  match query with
  | .transaction kind =>
    pure (.failed ⟨.notSupported,
      ascii "EXPLAIN does not apply to transaction statements: " ++ kind.toText⟩)
  | .catalog _ =>
    pure (.failed ⟨.notSupported, ascii "EXPLAIN only supports SELECT/INSERT/UPDATE/DELETE"⟩)
  | .dml query => do
    match ← (explainDml self.currentDb query analyze).run with
    | .ok reply => pure (.replied reply)
    | .error (.crash c) => pure (.crashed c)
    | .error (.unplanned error) => pure (.failed error)
    | .error (.failed error) => pure (.failed error)

/-- A statement that has been validated, in a transaction that has not failed. -/
def executePrepared (now : Int64) (query : Query) (explain analyze : Bool) :
    Access (Outcome × Session) := do
  if explain then do
    let outcome ← self.executeExplain query analyze
    pure (outcome, self)
  else
    match query with
    | .transaction kind => self.transaction kind
    | .dml query => self.executeQuery now (.dml query)
    | .catalog query => self.executeQuery now (.catalog query)

/-- `prepare`, after the builder. -/
def prepare (query : Query) : Access (Except SessionError Unit) :=
  ((Stmt.validate self.currentDb query).adapt fromStmtError).run

/-- Whether the statement is executed even in a transaction that has failed. -/
def isControl (query : Query) (explain : Bool) : Bool :=
  match query with
  | .transaction _ => !explain
  | _ => false

/-- `execute_parsed`. -/
def executeParsed (now : Int64) (query : Query) (explain analyze : Bool) :
    Access (Outcome × Session) := do
  if !(← KVCatalog.isOpen) then pure (.failed notOpen, self)
  else do
    let prepared ← self.prepare query
    match prepared with
    | .error error => pure (.failed (if self.txFailed then aborted else error), self)
    | .ok _ =>
      if self.txFailed && !isControl query explain then pure (.failed aborted, self)
      else self.executePrepared now query explain analyze

/-- `execute`. -/
def execute (now : Int64) (statement : Statement) : Access (Outcome × Session) := do
  match statement with
  | .empty => pure (self.fail .emptySql "empty statement")
  | .unparsable error | .unbuildable error =>
    if !(← KVCatalog.isOpen) then pure (.failed notOpen, self)
    else pure (.failed (if self.txFailed then aborted else error), self)
  | .parsed query explain analyze =>
    if !(← KVCatalog.isOpen) then pure (.failed notOpen, self)
    else self.executeParsed now query explain analyze

end Session

end SqlDb
