/-
  THE PLANNER  (planner/plan.h, planner/planner.cpp).

  What the optimizer has found becomes a chain of operators: a scan of the ranges, a filter, a sort or
  top-N, a limit, a projection.  Each of them is left out if there is nothing for it to do.  An ORDER BY
  that begins with the primary key needs no sort: the scan has that order, or the opposite one, and no
  two rows are left for the other columns to tell apart.  Costs are for EXPLAIN, and are not modelled.
-/
import SqlDb.Planner.Optimizer

namespace SqlDb.Plan

open Sql

structure TableRef where
  db : Identifier
  table : Identifier
  primaryKey : Identifier
  primaryKeyType : DataType

inductive PlanNode
  | fullScan (target : TableRef) (ascending : Bool)
  | indexScan (target : TableRef) (range : KeyRange) (ascending : Bool)
  | rangeUnion (target : TableRef) (ranges : List KeyRange) (ascending : Bool) (excludeKeys : KeySet)
  | filter (child : PlanNode) (condition : Condition)
  | sort (child : PlanNode) (orderBy : List OrderByItem) (isTopN : Bool) (topN : Nat)
  | limit (child : PlanNode) (limit : LimitClause)
  | project (child : PlanNode) (columns : List ColumnRef)

/-- `std::numeric_limits<size_t>::max()`. -/
def kSizeMax : Nat := 2 ^ 64 - 1

/-- OFFSET + LIMIT, or the largest number. -/
def topNCount (limit : LimitClause) : Nat :=
  match limit.rowCount with
  | none => 0
  | some want =>
    let skip := limit.offset.getD 0
    if skip > kSizeMax - want then kSizeMax else want + skip

def makeTableRef (query : OptimizedQuery) : TableRef where
  db := query.db
  table := query.table
  primaryKey := query.primaryKey
  primaryKeyType := query.primaryKeyType

/-- The scan of the ranges; without ranges nothing is scanned. -/
def buildScan (query : OptimizedQuery) (ascending : Bool) : PlanNode :=
  let target := makeTableRef query
  match if query.ranges = [] then [.empty target.primaryKeyType] else query.ranges with
  | [range] =>
    if query.excludeKeys ≠ [] then .rangeUnion target [range] ascending query.excludeKeys
    else if range.isAll then .fullScan target ascending
    else .indexScan target range ascending
  | ranges => .rangeUnion target ranges ascending query.excludeKeys

def buildScanChain (query : OptimizedQuery) (ascending : Bool) : PlanNode :=
  match query.remainingFilter with
  | none => buildScan query ascending
  | some condition => .filter (buildScan query ascending) condition

structure ScanOrder where
  ascending : Bool := true
  satisfiedByScan : Bool := false

/-- Whether the order of the scan is enough. -/
def orderByScan (orderBy : List OrderByItem) (primaryKey : Identifier) : ScanOrder :=
  match orderBy with
  | [] => {}
  | item :: _ =>
    if primaryKey.name = [] then {}
    else if item.column.eq primaryKey then
      { ascending := item.direction = .asc, satisfiedByScan := true }
    else {}

/-- Sort, top-N or neither. -/
def planSort (select : SelectQuery) (order : ScanOrder) (node : PlanNode) : PlanNode :=
  if select.orderBy ≠ [] ∧ order.satisfiedByScan = false then
    let topN := select.limit.rowCount.isSome
    .sort node select.orderBy topN (if topN then topNCount select.limit else 0)
  else node

def planLimit (limit : LimitClause) (node : PlanNode) : PlanNode :=
  if limit.rowCount.isSome || limit.offset.isSome then .limit node limit else node

def planSelect (query : OptimizedQuery) : PlanNode :=
  let select := query.query
  let order := orderByScan select.orderBy query.primaryKey
  let node := planLimit select.limit (planSort select order (buildScanChain query order.ascending))
  if select.selectAll then node else .project node select.columns

end SqlDb.Plan
