/-
  THE OPTIMIZER  (planner/optimizer.cpp; `CostModel`, planner/cost.h; `KeySet`, sql_types/key_set.h).

  The WHERE of a SELECT becomes three things: a list of key ranges to scan, a set of keys to skip, and
  a filter for the rows that are scanned.

  * `splitPrimaryKey` takes the comparisons of the primary key that ranges can express out of the
    tree, as far as this can be done along ANDs and under ORs of nothing else;
  * `rangeOfCondition` makes ranges of them, by intersecting and uniting LISTS of ranges that are kept
    in order and apart (`normalizeRanges`); neighbouring integers become one range
    (`coalesceAdjacentPoints`);
  * many points against few rows are not worth their seeks: then the whole table is scanned, and the
    comparisons go back into the filter (`convertToKeyRange`).  The costs are whole numbers, which a
    `double` holds exactly.

  Every tree goes through the rewriter, before it is split and after.
-/
import SqlDb.Lib.Sorting
import SqlDb.Planner.Rewriter
import SqlDb.SqlTypes.KeyRangePoint
import SqlDb.SqlTypes.Query

namespace SqlDb

/-- EQ, GT, GE, LT and LE. -/
def Sql.CompareOp.isIndexable : Sql.CompareOp → Bool
  | .eq | .gt | .ge | .lt | .le => true
  | _ => false

/-! ## Sets of keys -/

/-- Points without repetition; two points are the same if their keys are. -/
abbrev Sql.KeySet := List Sql.Value

namespace Sql.KeySet

/-- `ValueKeyEqual`. -/
def sameKey (v w : Value) : Bool := KeyCodecs.toKeyUntyped v = KeyCodecs.toKeyUntyped w

def add (s : KeySet) (v : Value) : KeySet := if s.any fun x => sameKey x v then s else s ++ [v]

/-- A binary search among the keys in order. -/
def contains (s : KeySet) (v : Value) : Bool := s.any fun x => sameKey x v

end Sql.KeySet

namespace Plan

open Sql

/-! ## Lists of ranges -/

/-- No lower bound comes first. -/
def lowLess : Option Key → Option Key → Bool
  | none, some _ => true
  | _, none => false
  | some k, some k' => k < k'

/-- No upper bound comes last. -/
def highLess : Option Key → Option Key → Bool
  | some _, none => true
  | none, _ => false
  | some k, some k' => k < k'

def rangeLess (a b : KeyRange) : Bool :=
  if a.lowKey ≠ b.lowKey then lowLess a.lowKey b.lowKey else highLess a.highKey b.highKey

/-- The loop over the ranges in order; `back` is the last one that has been put out so far. -/
def mergeFrom (back : KeyRange) : List KeyRange → List KeyRange
  | [] => [back]
  | r :: rest =>
    if back.overlaps r || back.isAdjacent r then
      match back.unite r with
      | [united] => mergeFrom united rest
      | _ => back :: mergeFrom r rest
    else back :: mergeFrom r rest

/-- Empty ranges are left out; the others are sorted, and united if they overlap or are adjacent. -/
def normalizeRanges (ranges : List KeyRange) : List KeyRange :=
  match Sorting.sort rangeLess (ranges.filter fun r => !r.isEmpty) with
  | [] => []
  | r :: rest => mergeFrom r rest

def intersectRanges (a b : List KeyRange) : List KeyRange :=
  normalizeRanges (a.flatMap fun lhs => (b.map lhs.intersect).filter fun r => !r.isEmpty)

def uniteRanges (a b : List KeyRange) : List KeyRange := normalizeRanges (a ++ b)

/-- The point of `r` is the integer right after `stop`.  `stop` is a number whenever the point of `r`
    is one: the numbers come first in the order of the keys. -/
def followsPoint (stop : Value) (r : KeyRange) : Bool :=
  r.isPoint && r.pointValue.type.isInteger &&
    match stop.asInt, r.pointValue.asInt with
    | some n, some m => n ≠ Int64.maxValue && m = n + 1
    | _, _ => false

/-- The last point of the run that has come to `stop`, and the ranges behind it. -/
def pointRun (stop : Value) : List KeyRange → Value × List KeyRange
  | [] => (stop, [])
  | r :: rest => if followsPoint stop r then pointRun r.pointValue rest else (stop, r :: rest)

theorem length_pointRun (stop : Value) (ranges : List KeyRange) :
    (pointRun stop ranges).2.length ≤ ranges.length := by
  induction ranges generalizing stop with
  | nil => exact le_rfl
  | cons r rest ih =>
    unfold pointRun
    split
    · exact Nat.le_succ_of_le (ih _)
    · exact le_rfl

def coalesceRuns : List KeyRange → List KeyRange
  | [] => []
  | r :: rest =>
    if r.isPoint && !r.pointValue.isNull then
      (if (pointRun r.pointValue rest).2.length < rest.length then
          KeyRange.closed r.pointValue (pointRun r.pointValue rest).1
        else r) :: coalesceRuns (pointRun r.pointValue rest).2
    else r :: coalesceRuns rest
termination_by ranges => ranges.length
decreasing_by
  · exact Nat.lt_succ_of_le (length_pointRun ..)
  · exact Nat.lt_succ_self _

/-- Only for types whose values are numbers. -/
def coalesceAdjacentPoints (ranges : List KeyRange) (pkType : DataType) : List KeyRange :=
  if !pkType.isInteger && !pkType.isTemporal then ranges else coalesceRuns ranges

def isSparsePointSet (ranges : List KeyRange) : Bool :=
  ranges.length ≥ 2 && ranges.all fun r => r.isPoint && !r.isEmpty

/-- The ranges of a condition on the primary key; nothing if it cannot be translated. -/
def rangeOfCondition (pkType : DataType) : Condition → Option (List KeyRange)
  | .compare _ op v =>
    if op = .isNull then some [.nullOnly pkType]
    else if op = .isNotNull then some [.nonNull pkType]
    else if !op.isIndexable then none
    else if v.isNull then some [.empty pkType]
    else
      match op with
      | .eq => some [.point v]
      | .gt => some [.gt v]
      | .ge => some [.ge v]
      | .lt => some [.lt v]
      | .le => some [.le v]
      | _ => none
  | .inList _ isNotIn values =>
    if isNotIn then none
    else
      let result := (values.filter fun v => !v.isNull).map KeyRange.point
      if result = [] then some [.empty pkType] else some result
  | .junction op left right =>
    match rangeOfCondition pkType left, rangeOfCondition pkType right with
    | some l, some r =>
      match op with
      | .and => some (intersectRanges l r)
      | .or => some (uniteRanges l r)
    | _, _ => none
  | .not _ => none

/-! ## Splitting the WHERE -/

/-- `join_and` and `join_or`. -/
def join (op : Junction) (left right : ConditionPtr) : ConditionPtr :=
  match left, right with
  | none, right => right
  | left, none => left
  | some l, some r => some (.junction op l r)

/-- The comparisons of the primary key, and the rest. -/
structure SplitConditions where
  pkCond : ConditionPtr
  remaining : ConditionPtr

/-- `pk_cond AND remaining`. -/
def rebuildSplit (split : SplitConditions) : ConditionPtr := join .and split.pkCond split.remaining

def splitPrimaryKey (pk : Identifier) : Condition → SplitConditions
  | .compare column op value =>
    if column.eq pk && (op.isIndexable || op.isNullOp) then ⟨some (.compare column op value), none⟩
    else ⟨none, some (.compare column op value)⟩
  | .inList column isNotIn values =>
    if column.eq pk && !isNotIn then ⟨some (.inList column isNotIn values), none⟩
    else ⟨none, some (.inList column isNotIn values)⟩
  | .junction .and left right =>
    let l := splitPrimaryKey pk left
    let r := splitPrimaryKey pk right
    ⟨join .and l.pkCond r.pkCond, join .and l.remaining r.remaining⟩
  | .junction .or left right =>
    let l := splitPrimaryKey pk left
    let r := splitPrimaryKey pk right
    if l.remaining = none ∧ r.remaining = none then ⟨join .or l.pkCond r.pkCond, none⟩
    -- neither side is null, so that `make_or` and `join_or` are the same here
    else ⟨none, join .or (rebuildSplit l) (rebuildSplit r)⟩
  | .not child => ⟨none, some (.not child)⟩

/-- The keys that `<>` and NOT IN leave out, along the ANDs. -/
def collectExclusions (pk : Identifier) (out : KeySet) : Condition → KeySet
  | .junction .and left right => collectExclusions pk (collectExclusions pk out left) right
  | .compare column op value =>
    if column.eq pk && op = .ne && !value.isNull then out.add value else out
  | .inList column isNotIn values =>
    if column.eq pk && isNotIn then (values.filter fun v => !v.isNull).foldl KeySet.add out else out
  | .junction .or _ _ => out
  | .not _ => out

/-! ## Costs -/

structure RelationStats where
  rows : Int := 0
  rowsKnown : Bool := false

namespace CostModel

def seek : Int := 10
def seqRow : Int := 1
def pointRow : Int := 1
def filterRow : Int := 1

/-- `point_lookups(points).total`. -/
def pointLookups (points : Nat) : Int := points * (seek + pointRow)

/-- `filter(full_scan(stats), rows).total`. -/
def filteredScan (stats : RelationStats) : Int := stats.rows * seqRow + stats.rows * filterRow

end CostModel

/-! ## The optimizer -/

inductive PlanErrorCode
  | catalogNotOpen | tableNotFound | emptyTableName
deriving DecidableEq

structure PlanError where
  code : PlanErrorCode
  message : Bytes
deriving DecidableEq

/-- Planning ends with an error, or does not end well. -/
inductive PlanFailure
  | crash (c : Crash)
  | error (e : PlanError)
deriving DecidableEq

/-- `rewrite_condition_tree`. -/
def rewriteTree (c : ConditionPtr) : Except PlanFailure ConditionPtr :=
  (rewriteConditionTree c).mapError .crash

structure PrimaryKeyExtractResult where
  pkCond : ConditionPtr := none
  remaining : ConditionPtr := none
  db : Identifier
  table : Identifier
  pkColumn : Identifier := ⟨[], false⟩
  pkType : DataType := .unknownType

structure OptimizedQuery where
  query : SelectQuery
  db : Identifier
  table : Identifier
  primaryKey : Identifier
  primaryKeyType : DataType
  ranges : List KeyRange
  excludeKeys : KeySet := []
  isPointQuery : Bool
  remainingFilter : ConditionPtr
  /-- −1 if the number is not known. -/
  estimatedTableRows : Int

def resolveTarget (catalog : Catalog) (select : SelectQuery) :
    Except PlanFailure (Identifier × Identifier) :=
  if !catalog.isOpen then .error (.error ⟨.catalogNotOpen, ascii "catalog is not open"⟩)
  else if catalog.currentDatabase.name = [] then
    .error (.error ⟨.catalogNotOpen, ascii "no database selected"⟩)
  else if select.table.name = [] then .error (.error ⟨.emptyTableName, ascii "empty table name"⟩)
  else .ok (catalog.currentDatabase, select.table)

/-- The WHERE of a table, split. -/
def extractFromSchema (db table : Identifier) (schema : TableSchema) (where_ : ConditionPtr) :
    PrimaryKeyExtractResult :=
  match schema.primaryKeyColumn with
  | none => { db := db, table := table, remaining := where_ }
  | some key =>
    let result : PrimaryKeyExtractResult :=
      { db := db, table := table, pkColumn := key.name, pkType := key.type }
    match where_ with
    | none => result
    | some root =>
      { result with
        pkCond := (splitPrimaryKey key.name root).pkCond
        remaining := (splitPrimaryKey key.name root).remaining }

def extractPrimaryKeyCondition (catalog : Catalog) (select : SelectQuery) :
    Except PlanFailure PrimaryKeyExtractResult := do
  let (db, table) ← resolveTarget catalog select
  match catalog.getTableSchema db table with
  | none => .error (.error ⟨.tableNotFound, ascii "table not found: " ++ table.name⟩)
  | some schema => return extractFromSchema db table schema (← rewriteTree select.where_)

def rewritePrimaryKeyCondition (result : PrimaryKeyExtractResult) :
    Except PlanFailure PrimaryKeyExtractResult := do
  let pkCond ← rewriteTree result.pkCond
  let remaining ← rewriteTree result.remaining
  return { result with pkCond := pkCond, remaining := remaining }

/-- The points are not worth their seeks. -/
def scanIsCheaper (stats : RelationStats) (candidates : List KeyRange) : Bool :=
  stats.rowsKnown && decide (CostModel.filteredScan stats < CostModel.pointLookups candidates.length)
    && candidates ≠ [] && isSparsePointSet candidates

/-- The ranges and the filter. -/
def chooseRanges (stats : RelationStats) (result : PrimaryKeyExtractResult) :
    Except PlanFailure (List KeyRange × ConditionPtr) :=
  match result.pkCond with
  | none => .ok ([.all result.pkType], result.remaining)
  | some pkCond =>
    match rangeOfCondition result.pkType pkCond with
    | none => do
      let filter ← rewriteTree (join .and (some pkCond) result.remaining)
      return ([.all result.pkType], filter)
    | some converted =>
      let candidates := coalesceAdjacentPoints (normalizeRanges converted) result.pkType
      if scanIsCheaper stats candidates then do
        let filter ← rewriteTree (join .and (some pkCond) result.remaining)
        return ([.all result.pkType], filter)
      else
        .ok (if candidates = [] then [.empty result.pkType] else candidates, result.remaining)

def exclusionsOf (pk : Identifier) : ConditionPtr → KeySet
  | none => []
  | some c => collectExclusions pk [] c

def convertToKeyRange (stats : RelationStats) (select : SelectQuery) (result : PrimaryKeyExtractResult) :
    Except PlanFailure OptimizedQuery := do
  let (ranges, filter) ← chooseRanges stats result
  return {
    query := select
    db := result.db
    table := result.table
    primaryKey := result.pkColumn
    primaryKeyType := result.pkType
    ranges := ranges
    excludeKeys := exclusionsOf result.pkColumn filter
    isPointQuery := match ranges with
      | [r] => r.isPoint
      | _ => false
    remainingFilter := filter
    estimatedTableRows := if stats.rowsKnown then stats.rows else -1 }

def optimizeSelect (catalog : Catalog) (stats : Identifier → Identifier → RelationStats)
    (select : SelectQuery) : Except PlanFailure OptimizedQuery := do
  let extracted ← extractPrimaryKeyCondition catalog select
  let rewritten ← rewritePrimaryKeyCondition extracted
  convertToKeyRange (stats rewritten.db rewritten.table) select rewritten

end Plan

end SqlDb
