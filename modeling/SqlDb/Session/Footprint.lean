/-
  WHAT A STATEMENT ASKS OF THE ENGINE.

  Planning only looks up keys; SELECT, INSERT, UPDATE and DELETE read and write single keys.
-/
import SqlDb.Relation.Footprint
import SqlDb.Session.Session

namespace SqlDb

open Sql Plan Exec
open Kv (Access Request)
open Interaction

/-! ## Planning -/

namespace Plan

theorem looks_relationStats (db table : Identifier) : Looks (relationStats db table) := by
  refine (KVCatalog.looks_tableStats db table).bind fun result => ?_
  split <;> exact asks_pure _

variable (current : Identifier)

theorem looks_optimize (select : SelectQuery) : Looks (optimize current select).run := by
  refine (asks_lift KVCatalog.looks_isOpen).bind_except fun opened => ?_
  refine (asks_ofExcept _).bind_except fun target => ?_
  refine (asks_lift (KVCatalog.looks_getTableSchema _ _)).bind_except fun schema => ?_
  refine (asks_ofExcept _).bind_except fun extracted => ?_
  refine (asks_ofExcept _).bind_except fun rewritten => ?_
  refine (asks_lift (looks_relationStats _ _)).bind_except fun stats => ?_
  exact asks_ofExcept _

theorem looks_optimizeWhere (where_ : ConditionPtr) (select : ConditionPtr → SelectQuery) :
    Looks (optimizeWhere current where_ select).run :=
  (asks_ofExcept _).bind_except fun _ => looks_optimize current _

theorem looks_optimizeInsert (query : InsertQuery) : Looks (optimizeInsert current query).run := by
  refine (asks_lift KVCatalog.looks_isOpen).bind_except fun opened => ?_
  refine (asks_ofExcept _).bind_except fun target => ?_
  refine (asks_lift (KVCatalog.looks_getTableSchema _ _)).bind_except fun schema => ?_
  split <;> exact asks_pure _

theorem looks_buildPlan (query : DmlQuery) : Looks (buildPlan current query).run := by
  cases query with
  | select | update | delete =>
    exact (looks_optimizeWhere ..).bind_except fun _ => asks_pure _
  | insert query => exact (looks_optimizeInsert ..).bind_except fun _ => asks_pure _

end Plan

/-! ## Execution -/

namespace Exec

section Visit

variable {S : Type} {P : Request → Prop} {view : TableView} {visit : Visitor S}

theorem asks_visitRows (hvisit : ∀ s row, (visit s row).run.Asks P) (flow : Flow S)
    (rows : List Row) : (visitRows visit flow rows).run.Asks P := by
  induction rows generalizing flow with
  | nil => cases flow <;> exact asks_pure _
  | cons row rows ih =>
    cases flow with
    | more s => exact (hvisit s row).bind_except fun flow => ih flow
    | stop s => exact asks_pure _

variable (hread : ∀ r : Request, r.isRead = true → P r)
include hread

theorem asks_scan (range : KeyRange) (ascending : Bool) : (view.scan range ascending).Asks P := by
  refine Asks.bind (asks_query (hread _ rfl)) ?_
  intro found
  exact Asks.ite (asks_pure _) (asks_pure _)

theorem asks_of_looks {A : Type} {m : Access A} (h : Looks m) : m.Asks P :=
  h.mono fun r hr => hread r (isRead_of_isLookup r hr)

theorem asks_visitRanges (hvisit : ∀ s row, (visit s row).run.Asks P) (excludeKeys : KeySet)
    (ascending : Bool) (flow : Flow S) (ranges : List KeyRange) :
    (visitRanges view excludeKeys ascending visit flow ranges).run.Asks P := by
  induction ranges generalizing flow with
  | nil => cases flow <;> exact asks_pure _
  | cons range ranges ih =>
    cases flow with
    | stop s => exact asks_pure _
    | more s =>
      refine Asks.ite (ih _) ?_
      refine (asks_lift (asks_scan hread range ascending)).bind_except fun stream => ?_
      refine (asks_visitRows hvisit _ _).bind_except fun flow => ?_
      split
      · exact asks_pure _
      · split
        · exact asks_pure _
        · exact ih _

theorem asks_visitScan (hvisit : ∀ s row, (visit s row).run.Asks P) (ranges : List KeyRange)
    (excludeKeys : KeySet) (ascending : Bool) (flow : Flow S) :
    (visitScan view ranges excludeKeys ascending visit flow).run.Asks P := by
  unfold visitScan
  split
  · refine Asks.bind_except
      (asks_lift (asks_of_looks hread (view.looks_find _))) fun found => ?_
    split
    · exact asks_visitRows hvisit _ _
    · exact Asks.ite (asks_pure _) (asks_pure _)
  · exact asks_visitRanges hread hvisit _ _ _ _

theorem asks_visitPlan (rowLimit : Nat) {node : PlanNode} {S : Type} {visit : Visitor S}
    (hvisit : ∀ s row, (visit s row).run.Asks P) (flow : Flow S) :
    (visitPlan view rowLimit node visit flow).run.Asks P := by
  induction node generalizing S visit flow with
  | fullScan | indexScan | rangeUnion => exact asks_visitScan hread hvisit _ _ _ _
  | filter child condition ih =>
    rw [visitPlan]
    exact ih (fun s row => Asks.ite (hvisit s row) (asks_pure _)) flow
  | sort child orderBy isTopN topN ih =>
    rw [visitPlan]
    refine (asks_ofExcept _).bind_except fun keys => ?_
    refine (ih ?_ _).bind_except fun collected => asks_visitRows hvisit _ _
    intro rows row
    split
    · exact asks_pure _
    · exact Asks.ite (asks_pure _) (asks_pure _)
  | limit child limit ih =>
    rw [visitPlan]
    refine (ih ?_ _).bind_except fun _ => asks_pure _
    rintro ⟨flow, skipped, produced⟩ row
    exact Asks.ite (asks_pure _)
      ((asks_visitRows hvisit _ _).bind_except fun _ => asks_pure _)
  | project child columns ih =>
    rw [visitPlan]
    exact (asks_ofExcept _).bind_except fun indexes =>
      ih (fun s row => hvisit s _) flow

end Visit

variable (view : TableView)

theorem points_updateRow (assignments : List Assignment) (affected : Nat) (row : Row) :
    Points (updateRow view assignments affected row).run := by
  refine Asks.ite (asks_pure _) ?_
  refine (asks_ofExcept _).bind_except fun updated => ?_
  refine (asks_lift (view.points_update _ _)).bind_except fun result => ?_
  split <;> exact asks_pure _

theorem points_removeAll (primaryKeys : List Value) : Points (removeAll view primaryKeys).run := by
  induction primaryKeys with
  | nil => exact asks_pure _
  | cons primaryKey rest ih =>
    refine (asks_lift (view.points_remove _)).bind_except fun result => ?_
    split
    · exact asks_pure _
    · exact ih

theorem points_insertAll (columns : List Identifier) (rows : List (List Value)) :
    Points (insertAll view columns rows).run := by
  induction rows with
  | nil => exact asks_pure _
  | cons values rest ih =>
    refine (asks_ofExcept _).bind_except fun row => ?_
    refine (asks_lift (view.points_insert _)).bind_except fun result => ?_
    split
    · exact asks_pure _
    · exact ih

theorem points_runWrite (root : PlanRoot) : Points (runWrite view root).run := by
  cases root with
  | rows node => exact asks_pure _
  | insert query => exact (points_insertAll view _ _).bind_except fun _ => asks_pure _
  | update child assignments =>
    refine (asks_ofExcept _).bind_except fun _ => ?_
    refine (asks_visitPlan isPoint_of_isRead _ ?_ _).bind_except fun _ => asks_pure _
    exact fun affected row => points_updateRow view assignments affected row
  | delete child =>
    refine (asks_ofExcept _).bind_except fun _ => ?_
    refine (asks_visitPlan isPoint_of_isRead _ ?_ _).bind_except fun doomed => ?_
    · exact fun doomed row => Asks.ite (asks_pure _) (asks_pure _)
    · exact (points_removeAll view _).bind_except fun _ => asks_pure _

end Exec

/-! ## Statements -/

namespace Session

theorem points_executeWrite (now : Int64) (query : DmlQuery) (plan : StatementPlan)
    (view : TableView) : Points (executeWrite now query plan view).run := by
  refine (points_runWrite _ _).adapt.bind_except fun affected => Asks.ite ?_ ?_
  · exact (asks_lift (KVCatalog.points_touchTable ..)).bind_except fun _ =>
      asks_pure _
  · exact asks_pure _

theorem points_executePlan (now : Int64) (query : DmlQuery) (plan : StatementPlan)
    (view : TableView) : Points (executePlan now query plan view).run := by
  unfold executePlan
  split
  · exact (asks_ofExcept _).bind_except fun _ => asks_pure _
  · exact points_executeWrite now query plan view

theorem points_executeDml (now : Int64) (current : Identifier) (query : DmlQuery) :
    Points (executeDml now current query).run := by
  refine (looks_buildPlan current query).points.adapt.bind_except fun plan => ?_
  refine (asks_lift (KVCatalog.looks_openTable _ _).points).bind_except fun opened => ?_
  split
  · exact asks_pure _
  · exact points_executePlan now query plan _

end Session

end SqlDb
