/-
  EXECUTION AGAINST THE STORE  (executor/executor.cpp).

  An operator hands its rows on one by one, and whoever takes them may WRITE before it asks for the next
  one: an UPDATE writes a row while the scan is under way, and the cursor of the next range is opened
  only after the rows of this one have been written.  So the loop of the consumer is a parameter here, a
  VISITOR with a state, and each operator wraps the visitor of the one above it; a LIMIT stops it.

  * a DELETE collects the primary keys first, and then removes them;
  * an INSERT builds each row with NULL in every column, then fills in its values from left to right,
    so that of a column which is listed twice the LAST value stays.
-/
import SqlDb.Executor.Executor
import SqlDb.Planner.StatementPlan
import SqlDb.Relation.KvTable

namespace SqlDb.Exec

open Sql Plan
open Kv (Access)

abbrev Task := ExceptT ExecError Access

/-- Whether another row is asked for. -/
inductive Flow (S : Type)
  | more (state : S)
  | stop (state : S)

def Flow.state {S : Type} : Flow S → S
  | .more s => s
  | .stop s => s

abbrev Visitor (S : Type) := S → Row → Task (Flow S)

/-! ## Scans -/

variable (view : TableView)

section Visit

variable {S : Type}

def visitRows (visit : Visitor S) : Flow S → List Row → Task (Flow S)
  | .more s, row :: rest => do visitRows visit (← visit s row) rest
  | flow, _ => pure flow

/-- The ranges in the order in which they are read. -/
def visitRanges (view : TableView) (excludeKeys : KeySet) (ascending : Bool) (visit : Visitor S) :
    Flow S → List KeyRange → Task (Flow S)
  | .more s, range :: rest =>
    if range.isEmpty then visitRanges view excludeKeys ascending visit (.more s) rest
    else do
      let stream ← view.scan range ascending
      let kept := stream.rows.filter fun row =>
        !isExcluded excludeKeys (view.schema.primaryKeyOf row)
      match ← visitRows visit (.more s) kept with
      | .stop s' => pure (.stop s')
      | .more s' =>
        match stream.failure with
        | some error => throw (toExecError error)
        | none => visitRanges view excludeKeys ascending visit (.more s') rest
  | flow, _ => pure flow

/-- A lookup is made when the scan is opened, even if no row is asked for. -/
def visitScan (ranges : List KeyRange) (excludeKeys : KeySet) (ascending : Bool)
    (visit : Visitor S) (flow : Flow S) : Task (Flow S) :=
  match pointKey ranges excludeKeys with
  | some key => do
    match ← view.find key with
    | .ok row => visitRows visit flow [row]
    | .error error => if error.code = .notFound then pure flow else throw (toExecError error)
  | none =>
    visitRanges view excludeKeys ascending visit flow (if ascending then ranges else ranges.reverse)

end Visit

/-! ## Plans -/

/-- `ExecutorFactory::create`. -/
def create (view : TableView) : PlanNode → Except ExecError Unit
  | .fullScan target _ | .indexScan target _ _ | .rangeUnion target _ _ _ =>
    if target.table.eq view.schema.name = false then
      .error ⟨.invalidArgument, ascii "plan targets table '" ++ target.table.name
        ++ ascii "' but got '" ++ view.schema.name.name ++ ascii "'"⟩
    else .ok ()
  | .filter child _ | .sort child _ _ _ | .limit child _ | .project child _ => create view child

/-- A row into the buffer of a sort; `collect` does this for all rows. -/
def collectRow (rowLimit : Nat) : Visitor (List Row) := fun rows row =>
  if rows.length ≥ rowLimit then
    throw ⟨.memoryLimit, ascii "sort buffer exceeded " ++ ascii (toString rowLimit)
      ++ ascii " rows (external sort not implemented yet)"⟩
  else pure (.more (rows ++ [row]))

/-- What a limit knows: the flow above it, and what it has skipped and produced.  It is done as soon as
    it has produced enough, without asking for another row. -/
def limitFlow {S : Type} (offset want : Nat) (flow : Flow S) (skipped produced : Nat) :
    Flow (Flow S × Nat × Nat) :=
  match flow with
  | .stop _ => .stop (flow, skipped, produced)
  | .more _ =>
    if offset ≤ skipped ∧ want ≤ produced then .stop (flow, skipped, produced)
    else .more (flow, skipped, produced)

def limitRow {S : Type} (offset want : Nat) (visit : Visitor S) : Visitor (Flow S × Nat × Nat) :=
  fun (flow, skipped, produced) row => do
    if skipped < offset then pure (limitFlow offset want flow (skipped + 1) produced)
    else pure (limitFlow offset want (← visitRows visit flow [row]) skipped (produced + 1))

/-- The rows of a plan go through the visitor. -/
def visitPlan (view : TableView) (rowLimit : Nat) :
    PlanNode → {S : Type} → Visitor S → Flow S → Task (Flow S)
  | .fullScan target ascending, _, visit, flow =>
    visitScan view [.all target.primaryKeyType] [] ascending visit flow
  | .indexScan _ range ascending, _, visit, flow => visitScan view [range] [] ascending visit flow
  | .rangeUnion _ ranges ascending excludeKeys, _, visit, flow =>
    visitScan view ranges excludeKeys ascending visit flow
  | .filter child condition, _, visit, flow =>
    visitPlan view rowLimit child
      (fun s row =>
        if condition.keeps (view.schema.lookup row) then visit s row else pure (.more s)) flow
  | .sort child orderBy isTopN topN, _, visit, flow => do
    -- the columns have been validated: which of two errors comes first does not matter
    let keys ← Interaction.ofExcept (orderKeys view.schema orderBy)
    let less := rowLess (withPrimaryKey view.schema keys)
    -- a heap holds no more than `topN` rows, so that the limit is only for the other sort
    let collected ← visitPlan view rowLimit child
      (if isTopN then fun rows row => pure (.more (rows ++ [row])) else collectRow rowLimit) (.more [])
    let kept := if isTopN then Sorting.keepBest less topN collected.state else collected.state
    visitRows visit flow (Sorting.sort less kept)
  | .limit child limit, _, visit, flow => do
    let offset := limit.offset.getD 0
    let want := limit.rowCount.getD kSizeMax
    let result ← visitPlan view rowLimit child (limitRow offset want visit)
      (limitFlow offset want flow 0 0)
    pure result.state.1
  | .project child columns, _, visit, flow => do
    let indexes ← Interaction.ofExcept
      (if isWildcardList columns then .ok [] else columnIndexes view.schema columns)
    visitPlan view rowLimit child (fun s row => visit s (projectRow indexes row)) flow

/-- `row_limit` of `SortExecutor`. -/
def kSortRowLimit : Nat := 1000000

/-! ## Writes -/

def columnNotFound (column : Identifier) : ExecError :=
  ⟨.invalidArgument, ascii "column not found: " ++ column.name⟩

/-- The values of the SET list, from left to right. -/
def assign (schema : TableSchema) : List Assignment → Row → Except ExecError Row
  | [], row => .ok row
  | assignment :: rest, row =>
    match schema.columnIndex assignment.column with
    | none => .error (columnNotFound assignment.column)
    | some index => assign schema rest (row.set index assignment.value)

def nullPrimaryKey : ExecError := ⟨.invalidArgument, ascii "row has NULL primary key"⟩

/-- `UpdateExecutor`: the rows are counted. -/
def updateRow (assignments : List Assignment) : Visitor Nat := fun affected row => do
  let primaryKey := view.schema.primaryKeyOf row
  if primaryKey.isNull then throw nullPrimaryKey
  else do
    let updated ← Interaction.ofExcept (assign view.schema assignments row)
    match ← view.update primaryKey updated with
    | .error error => throw (toExecError error)
    | .ok _ => pure (.more (affected + 1))

def runUpdate (child : PlanNode) (assignments : List Assignment) : Task Nat := do
  let result ← visitPlan view kSortRowLimit child (updateRow view assignments) (.more 0)
  pure result.state

/-- A primary key that is to be removed. -/
def doomRow : Visitor (List Value) := fun doomed row =>
  let primaryKey := view.schema.primaryKeyOf row
  if primaryKey.isNull then throw nullPrimaryKey else pure (.more (doomed ++ [primaryKey]))

def removeAll (view : TableView) : List Value → Task Unit
  | [] => pure ()
  | primaryKey :: rest => do
    match ← view.remove primaryKey with
    | .error error => throw (toExecError error)
    | .ok _ => removeAll view rest

/-- `DeleteExecutor`. -/
def runDelete (child : PlanNode) : Task Nat := do
  let doomed ← visitPlan view kSortRowLimit child (doomRow view) (.more [])
  removeAll view doomed.state
  pure doomed.state.length

/-- The values of a column list, from left to right. -/
def fill (schema : TableSchema) : List Identifier → List Value → Row → Except ExecError Row
  | column :: columns, value :: values, row =>
    match schema.columnIndex column with
    | none => .error (columnNotFound column)
    | some index => fill schema columns values (row.set index value)
  | _, _, row => .ok row

def buildRow (schema : TableSchema) (columns : List Identifier) (values : List Value) :
    Except ExecError Row :=
  if columns = [] then
    if values.length ≠ schema.columns.length then
      .error ⟨.invalidArgument, ascii "column count mismatch: expected "
        ++ ascii (toString schema.columns.length) ++ ascii ", got " ++ ascii (toString values.length)⟩
    else .ok values
  else if values.length ≠ columns.length then
    .error ⟨.invalidArgument, ascii "value count mismatch: expected "
      ++ ascii (toString columns.length) ++ ascii ", got " ++ ascii (toString values.length)⟩
  else fill schema columns values (List.replicate schema.columns.length .null)

/-- `InsertExecutor`. -/
def insertAll (view : TableView) (columns : List Identifier) : List (List Value) → Task Unit
  | [] => pure ()
  | values :: rest => do
    let row ← Interaction.ofExcept (buildRow view.schema columns values)
    match ← view.insert row with
    | .error error => throw (toExecError error)
    | .ok _ => insertAll view columns rest

/-- `execute`, for a statement that writes: how many rows it was for. -/
def runWrite : PlanRoot → Task Nat
  | .rows _ => pure 0
  | .insert query => do
    insertAll view query.columns query.values
    pure query.values.length
  | .update child assignments => do
    Interaction.ofExcept (create view child)
    runUpdate view child assignments
  | .delete child => do
    Interaction.ofExcept (create view child)
    runDelete view child

end SqlDb.Exec
