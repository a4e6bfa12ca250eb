/-
  SCANS OF A TABLE IN THE STORE.

  Whoever visits the rows of a scan may write as it goes.  What is true of the whole scan is an
  INVARIANT of the visitor's state and of the content: if every content with the invariant can be read,
  and a visit keeps the invariant and asks for more, then the scan succeeds and keeps it
  (`succeeds_visitPlan`).  This is for the chains that find the rows of an UPDATE or a DELETE.
-/
import SqlDb.Executor.ScanSpec
import SqlDb.Executor.StoreExecutor
import SqlDb.Relation.HeldTable

namespace SqlDb.Exec

open Sql Plan
open Kv (Access Data)
open Interaction (Succeeds)

variable {S : Type}

/-- Every row of a content with the invariant can be decoded, and is a row to be visited. -/
def Readable (view : TableView) (inv : S → Data → Prop) (visited : Row → Prop) : Prop :=
  ∀ s data k v, inv s data → view.keyPrefix <+: k → data.find k = some v →
    ∃ row, view.decodeRow v = .ok row ∧ visited row

/-- A visit keeps the invariant, and asks for more. -/
def Keeps (inv : S → Data → Prop) (visited : Row → Prop) (visit : Visitor S) : Prop :=
  ∀ s data row, inv s data → visited row →
    Succeeds Data.serve (visit s row) data fun flow data' => ∃ s', flow = .more s' ∧ inv s' data'

section

variable {view : TableView} {inv : S → Data → Prop} {visited : Row → Prop} {visit : Visitor S}

/-- What a whole visit comes to. -/
def Through (inv : S → Data → Prop) (flow : Flow S) (data : Data) : Prop :=
  ∃ s, flow = .more s ∧ inv s data

theorem succeeds_visitRows (hvisit : Keeps inv visited visit) {rows : List Row}
    (hrows : ∀ row ∈ rows, visited row) {s : S} {data : Data} (hinv : inv s data) :
    Succeeds Data.serve (visitRows visit (.more s) rows) data (Through inv) := by
  induction rows generalizing s data with
  | nil => exact Interaction.succeeds_pure ⟨s, rfl, hinv⟩
  | cons row rows ih =>
    rw [List.forall_mem_cons] at hrows
    refine (hvisit s data row hinv hrows.1).bind ?_
    rintro flow data' ⟨s', rfl, hinv'⟩
    exact ih hrows.2 hinv'

/-- Rows that can all be decoded. -/
theorem decodeRows_of_forall {entries : List (Bytes × Bytes)}
    (h : ∀ p ∈ entries, ∃ row, view.decodeRow p.2 = .ok row ∧ visited row) :
    (view.decodeRows entries).failure = none ∧ ∀ row ∈ (view.decodeRows entries).rows, visited row := by
  induction entries with
  | nil => exact ⟨rfl, fun row hrow => absurd hrow (by simp [TableView.decodeRows])⟩
  | cons p entries ih =>
    rw [List.forall_mem_cons] at h
    obtain ⟨⟨row, hdecode, hrow⟩, hrest⟩ := h
    obtain ⟨hfailure, hrows⟩ := ih hrest
    simp only [TableView.decodeRows, hdecode]
    exact ⟨hfailure, List.forall_mem_cons.mpr ⟨hrow, hrows⟩⟩

theorem Readable.decodeRows (hread : Readable view inv visited) {s : S} {data : Data}
    (hinv : inv s data) (range : KeyRange) (ascending : Bool) :
    (view.decodeRows (data.scan (view.physicalRange range ascending))).failure = none ∧
      ∀ row ∈ (view.decodeRows (data.scan (view.physicalRange range ascending))).rows,
        visited row := by
  refine decodeRows_of_forall fun p hp => ?_
  obtain ⟨hin, hfind⟩ := Data.mem_scan.mp hp
  exact hread s data p.1 p.2 hinv (TableView.keyPrefix_of_physicalRange hin) hfind

theorem succeeds_visitRanges (hread : Readable view inv visited) (hvisit : Keeps inv visited visit)
    (excludeKeys : KeySet) (ascending : Bool) (ranges : List KeyRange) {s : S} {data : Data}
    (hinv : inv s data) :
    Succeeds Data.serve (visitRanges view excludeKeys ascending visit (.more s) ranges) data
      (Through inv) := by
  induction ranges generalizing s data with
  | nil => exact Interaction.succeeds_pure ⟨s, rfl, hinv⟩
  | cons range ranges ih =>
    rw [visitRanges]
    split
    · exact ih hinv
    · obtain ⟨hfailure, hrows⟩ := hread.decodeRows hinv range ascending
      refine Interaction.succeeds_bind_lift ?_
      rw [TableView.run_scan]
      refine Succeeds.bind (succeeds_visitRows hvisit (fun row hrow => ?_) hinv) ?_
      · exact hrows row (List.mem_of_mem_filter hrow)
      · rintro flow data' ⟨s', rfl, hinv'⟩
        simp only [hfailure]
        exact ih hinv'

theorem succeeds_visitScan (hread : Readable view inv visited) (hvisit : Keeps inv visited visit)
    (ranges : List KeyRange) (excludeKeys : KeySet) (ascending : Bool) {s : S} {data : Data}
    (hinv : inv s data) :
    Succeeds Data.serve (visitScan view ranges excludeKeys ascending visit (.more s)) data
      (Through inv) := by
  unfold visitScan
  split
  · rename_i key hkey
    have hnull : key.isNull = false := notNull_of_pointKey hkey
    refine Interaction.succeeds_bind_lift ?_
    rw [TableView.run_find data view hnull]
    cases hfind : data.find (view.encodeKey key) with
    | none => exact Interaction.succeeds_pure ⟨s, rfl, hinv⟩
    | some v =>
      obtain ⟨row, hdecode, hrow⟩ := hread s data _ v hinv (view.keyPrefix_encodeKey key) hfind
      simp only [hdecode]
      exact succeeds_visitRows hvisit (List.forall_mem_singleton.mpr hrow) hinv
  · exact succeeds_visitRanges hread hvisit excludeKeys ascending _ hinv

/-- A scan, and filters over it. -/
def IsScanChain : PlanNode → Prop
  | .fullScan _ _ | .indexScan _ _ _ | .rangeUnion _ _ _ _ => True
  | .filter child _ => IsScanChain child
  | .sort _ _ _ _ | .limit _ _ | .project _ _ => False

theorem isScanChain_buildScan (query : OptimizedQuery) (ascending : Bool) :
    IsScanChain (buildScan query ascending) := by
  unfold buildScan
  dsimp only
  split
  · split
    · trivial
    · split <;> trivial
  · trivial

theorem isScanChain_buildScanChain (query : OptimizedQuery) (ascending : Bool) :
    IsScanChain (buildScanChain query ascending) := by
  unfold buildScanChain
  split
  · exact isScanChain_buildScan query ascending
  · exact isScanChain_buildScan query ascending

/-- **A scan under way.**  Its visitor may write, as long as what is left can be read. -/
theorem succeeds_visitPlan (rowLimit : Nat) {node : PlanNode} (hnode : IsScanChain node)
    (hread : Readable view inv visited) (hvisit : Keeps inv visited visit) {s : S} {data : Data}
    (hinv : inv s data) :
    Succeeds Data.serve (visitPlan view rowLimit node visit (.more s)) data (Through inv) := by
  induction node generalizing visit with
  | fullScan | indexScan | rangeUnion => exact succeeds_visitScan hread hvisit _ _ _ hinv
  | filter child condition ih =>
    rw [visitPlan]
    refine ih hnode fun s data row hinv hrow => ?_
    split
    · exact hvisit s data row hinv hrow
    · exact Interaction.succeeds_pure ⟨s, rfl, hinv⟩
  | sort | limit | project => simp [IsScanChain] at hnode

end

end SqlDb.Exec
