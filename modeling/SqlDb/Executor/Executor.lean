/-
  THE EXECUTOR  (executor/executor.cpp; the errors of executor/exec_defs.h).

  Operators pull rows from the operator below them until it has no more.  Nothing but the rows goes
  from one to the next, so an operator is the list of rows that it returns, computed from the list of
  its child by the loop of its `open` or `next`:

  * a scan reads its ranges one after the other, backwards if it is descending, and skips the keys that
    are to be left out; a single range that is a point is a lookup instead;
  * a sort collects all rows, or keeps the best in a heap, and then sorts by the ORDER BY columns and
    the primary key;
  * a limit counts what it skips and what it returns.
-/
import SqlDb.Planner.Planner
import SqlDb.Relation.Table

namespace SqlDb.Exec

open Sql Plan KeyCodecs

inductive ExecErrorCode
  | columnNotFound | memoryLimit | tableNotFound | invalidArgument | ioError | schemaError
  | constraintViolation
deriving DecidableEq

structure ExecError where
  code : ExecErrorCode
  message : Bytes
deriving DecidableEq

/-- `to_exec_error` of `to_cursor_error`. -/
def toExecError (error : RelError) : ExecError :=
  match error.code with
  | .notFound => ⟨.tableNotFound, error.message⟩
  | .schemaError => ⟨.schemaError, error.message⟩
  | .duplicatePrimaryKey => ⟨.constraintViolation, error.message⟩
  | .notOpen | .kvError => ⟨.ioError, error.message⟩
  | .columnNotFound | .primaryKeyNull | .primaryKeyMismatch | .tableNotFound =>
    ⟨.invalidArgument, error.message⟩

/-! ## Scans -/

def isExcluded (excludeKeys : KeySet) (primaryKey : Value) : Bool :=
  excludeKeys ≠ [] && excludeKeys.contains primaryKey

/-- The key of a lookup. -/
def pointKey (ranges : List KeyRange) (excludeKeys : KeySet) : Option Value :=
  match ranges with
  | [range] =>
    if range.isPoint && !range.pointValue.isNull && !isExcluded excludeKeys range.pointValue then
      some range.pointValue
    else none
  | _ => none

/-- The ranges in the order in which they are read; empty ones are passed over. -/
def scanRanges (table : Table) (excludeKeys : KeySet) (ascending : Bool) : List KeyRange → List Row
  | [] => []
  | range :: rest =>
    if range.isEmpty then scanRanges table excludeKeys ascending rest
    else
      ((table.scan range ascending).filter fun row =>
          !isExcluded excludeKeys (table.schema.primaryKeyOf row))
        ++ scanRanges table excludeKeys ascending rest

def scan (table : Table) (ranges : List KeyRange) (excludeKeys : KeySet) (ascending : Bool) :
    Except ExecError (List Row) :=
  match pointKey ranges excludeKeys with
  | some key =>
    match table.find key with
    | .ok row => .ok [row]
    | .error error => if error.code = .notFound then .ok [] else .error (toExecError error)
  | none =>
    .ok (scanRanges table excludeKeys ascending (if ascending then ranges else ranges.reverse))

/-! ## Sorts -/

/-- NULL comes first; what SQL cannot compare is compared by its keys. -/
def compareForSort (a b : Value) : Ordering :=
  if a.isNull || b.isNull then
    if a.isNull && b.isNull then .eq else if a.isNull then .lt else .gt
  else
    match sqlOrder a b with
    | some order => order
    | none => cmpBytes (toKeyUntyped a) (toKeyUntyped b)

structure SortKey where
  index : Nat
  ascending : Bool

/-- The ORDER BY columns by their places. -/
def orderKeys (schema : TableSchema) : List OrderByItem → Except ExecError (List SortKey)
  | [] => .ok []
  | item :: rest =>
    match schema.columnIndex item.column with
    | none => .error ⟨.columnNotFound, ascii "order by column not found: " ++ item.column.name⟩
    | some index => do return ⟨index, item.direction = .asc⟩ :: (← orderKeys schema rest)

/-- The primary key decides last, unless it does so already. -/
def withPrimaryKey (schema : TableSchema) (keys : List SortKey) : List SortKey :=
  match schema.primaryKeyIndex with
  | none => keys
  | some pk => if keys.getLast?.map SortKey.index = some pk then keys else keys ++ [⟨pk, true⟩]

/-- `RowComparator::less`. -/
def rowLess : List SortKey → Row → Row → Bool
  | [], _, _ => false
  | key :: keys, a, b =>
    match a[key.index]?, b[key.index]? with
    | some x, some y =>
      let cmp := compareForSort x y
      if cmp = .eq then rowLess keys a b
      else if key.ascending then cmp = .lt else cmp = .gt
    | _, _ => rowLess keys a b

/-- All rows, unless there are too many. -/
def collect (rowLimit : Nat) (rows : List Row) : List Row → Except ExecError (List Row)
  | [] => .ok rows
  | row :: rest =>
    if rows.length ≥ rowLimit then
      .error ⟨.memoryLimit, ascii "sort buffer exceeded " ++ ascii (toString rowLimit)
        ++ ascii " rows (external sort not implemented yet)"⟩
    else collect rowLimit (rows ++ [row]) rest

def sortRows (schema : TableSchema) (rowLimit : Nat) (orderBy : List OrderByItem) (isTopN : Bool)
    (topN : Nat) (rows : List Row) : Except ExecError (List Row) := do
  let keys := withPrimaryKey schema (← orderKeys schema orderBy)
  if isTopN then return Sorting.sort (rowLess keys) (Sorting.keepBest (rowLess keys) topN rows)
  else return Sorting.sort (rowLess keys) (← collect rowLimit [] rows)

/-! ## Limits and projections -/

/-- `skipped` and `produced` count what has been read. -/
def limitRows (offset want skipped produced : Nat) : List Row → List Row
  | [] => []
  | row :: rest =>
    if skipped < offset then limitRows offset want (skipped + 1) produced rest
    else if produced ≥ want then []
    else row :: limitRows offset want skipped (produced + 1) rest

/-- The places of the columns. -/
def columnIndexes (schema : TableSchema) : List ColumnRef → Except ExecError (List Nat)
  | [] => .ok []
  | ref :: rest =>
    match schema.columnIndex ref.column with
    | none => .error ⟨.columnNotFound, ascii "column not found: " ++ ref.column.name⟩
    | some index => do return index :: (← columnIndexes schema rest)

/-- No places stand for all columns. -/
def projectRow (indexes : List Nat) (row : Row) : Row :=
  if indexes = [] then row else indexes.filterMap fun i => row[i]?

/-- `columns` is empty or the one wildcard. -/
def isWildcardList : List ColumnRef → Bool
  | [] => true
  | [ref] => ref.isWildcard
  | _ => false

/-! ## Plans -/

/-- All rows that a plan returns. -/
def run (table : Table) (rowLimit : Nat) : PlanNode → Except ExecError (List Row)
  | .fullScan target ascending => scan table [.all target.primaryKeyType] [] ascending
  | .indexScan _ range ascending => scan table [range] [] ascending
  | .rangeUnion _ ranges ascending excludeKeys => scan table ranges excludeKeys ascending
  | .filter child condition => do
    return (← run table rowLimit child).filter fun row => condition.keeps (table.schema.lookup row)
  | .sort child orderBy isTopN topN => do
    sortRows table.schema rowLimit orderBy isTopN topN (← run table rowLimit child)
  | .limit child limit => do
    return limitRows (limit.offset.getD 0) (limit.rowCount.getD kSizeMax) 0 0
      (← run table rowLimit child)
  | .project child columns => do
    let indexes ← if isWildcardList columns then .ok [] else columnIndexes table.schema columns
    return (← run table rowLimit child).map (projectRow indexes)

end SqlDb.Exec
