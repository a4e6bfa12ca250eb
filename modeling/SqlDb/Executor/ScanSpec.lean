/-
  WHAT A SCAN RETURNS.

  Ranges that come one after the other cut the rows of a table, which are in the order of their keys,
  into parts that do: reading the parts one after the other is reading all of them in order, and
  reading them backwards is reading all of them backwards.  A lookup is the scan of one point.
-/
import SqlDb.Executor.Executor
import SqlDb.Planner.OptimizerSpec

namespace SqlDb.Exec

open Sql Plan KeyCodecs KeyRange List

section Scan

variable {table : Table} {ranges : List KeyRange} {excludeKeys : KeySet}

/-- The key of a row is in one of the ranges, and is not to be left out. -/
def scans (table : Table) (ranges : List KeyRange) (excludeKeys : KeySet) (row : Row) : Bool :=
  (ranges.any fun range => range.contains (table.schema.primaryKeyOf row))
    && !isExcluded excludeKeys (table.schema.primaryKeyOf row)

/-- Rows as a scan in one of the two directions returns them. -/
def directed (ascending : Bool) (rows : List Row) : List Row := if ascending then rows else rows.reverse

/-- What is read from one range. -/
def rangeRows (table : Table) (excludeKeys : KeySet) (range : KeyRange) : List Row :=
  table.rows.filter fun row => scans table [range] excludeKeys row

theorem filter_scan {range : KeyRange} (hrange : range.ScanAgrees table.schema.primaryKeyType)
    (ascending : Bool) :
    ((table.scan range ascending).filter fun row =>
        !isExcluded excludeKeys (table.schema.primaryKeyOf row))
      = directed ascending (rangeRows table excludeKeys range) := by
  rw [Table.scan_eq hrange]
  unfold directed rangeRows scans
  cases ascending <;> simp [filter_filter, filter_reverse, Bool.and_comm]

theorem scanRanges_eq (hranges : ∀ r ∈ ranges, r.ScanAgrees table.schema.primaryKeyType)
    (ascending : Bool) :
    scanRanges table excludeKeys ascending ranges
      = ranges.flatMap fun range => directed ascending (rangeRows table excludeKeys range) := by
  induction ranges with
  | nil => rfl
  | cons range rest ih =>
    obtain ⟨hrange, hrest⟩ := forall_mem_cons.mp hranges
    rw [scanRanges, flatMap_cons, ih hrest, filter_scan hrange]
    split_ifs with hempty
    · -- nothing is in an empty range
      have hnil : rangeRows table excludeKeys range = [] := by
        simp [rangeRows, scans, contains_of_isEmpty hempty]
      rw [hnil]
      cases ascending <;> rfl
    · rfl

theorem isExcluded_congr {tag : UInt8} {v w : Value} (hv : v.isNull = false) (hw : w.isNull = false)
    (h : keyIn tag v = keyIn tag w) : isExcluded excludeKeys v = isExcluded excludeKeys w := by
  rw [Value.keyIn_of_notNull hv, Value.keyIn_of_notNull hw] at h
  simp only [isExcluded, KeySet.contains, KeySet.sameKey, toKeyUntyped, hv, hw, h]

theorem notNull_of_pointKey {key : Value} (h : pointKey ranges excludeKeys = some key) :
    key.isNull = false := by
  unfold pointKey at h
  split at h
  · split at h
    · rename_i hpoint
      cases h
      simp only [Bool.and_eq_true, Bool.not_eq_true'] at hpoint
      exact hpoint.1.2
    · simp at h
  · simp at h

section

variable (ht : tagOf table.schema.primaryKeyType ≠ kTagNull)
  (hranges : ∀ r ∈ ranges, r.OfColumn table.schema.primaryKeyType)
include ht hranges

/-- The parts of the rows, one after the other. -/
theorem flatMap_rangeRows (hapart : Apart (tagOf table.schema.primaryKeyType) ranges) :
    ranges.flatMap (rangeRows table excludeKeys)
      = table.rows.filter fun row => scans table ranges excludeKeys row := by
  have hparts : (ranges.map fun range row => scans table [range] excludeKeys row).Pairwise fun p q =>
      ∀ a ∈ table.rows, ∀ b ∈ table.rows, p a = true → q b = true →
        toKey (table.schema.primaryKeyOf a) table.schema.primaryKeyType
          < toKey (table.schema.primaryKeyOf b) table.schema.primaryKeyType := by
    refine pairwise_map.mpr (hapart.imp_of_mem fun {p q} hp hq hends a ha b hb hpa hqb => ?_)
    simp only [scans, any_cons, any_nil, Bool.or_false, Bool.and_eq_true] at hpa hqb
    rw [Value.toKey_eq_keyIn, Value.toKey_eq_keyIn]
    exact hends.keyIn_lt ht ((hranges p hp).wf) ((hranges q hq).wf)
      (Or.inr (Table.fits ha).ofFamily) (Or.inr (Table.fits hb).ofFamily) hpa.1 hqb.1
  have hall := Sorting.flatMap_filter (fun _ _ hab => List.lt_asymm hab) Table.pairwise_rows hparts
  rw [flatMap_map] at hall
  refine hall.trans (filter_congr fun row _ => ?_)
  unfold scans
  rw [any_map, Bool.eq_iff_iff]
  simp only [Function.comp_def, any_cons, any_nil, Bool.or_false, any_eq_true,
    Bool.and_eq_true]
  constructor
  · rintro ⟨range, hmem, hcontains, hkept⟩
    exact ⟨⟨range, hmem, hcontains⟩, hkept⟩
  · rintro ⟨⟨range, hmem, hcontains⟩, hkept⟩
    exact ⟨range, hmem, hcontains, hkept⟩

theorem scanRanges_spec (hapart : Apart (tagOf table.schema.primaryKeyType) ranges) (ascending : Bool) :
    scanRanges table excludeKeys ascending (if ascending then ranges else ranges.reverse)
      = directed ascending (table.rows.filter fun row => scans table ranges excludeKeys row) := by
  have hagree : ∀ r ∈ ranges, r.ScanAgrees table.schema.primaryKeyType :=
    fun r hr => (hranges r hr).scanAgrees ht
  rw [← flatMap_rangeRows ht hranges hapart]
  cases ascending with
  | true => exact scanRanges_eq hagree true
  | false =>
    rw [if_neg (by simp), scanRanges_eq (fun r hr => hagree r (mem_reverse.mp hr))]
    exact reverse_flatMap.symm

/-- The key of a lookup is the one key in the range. -/
theorem scans_of_pointKey {key : Value} (hkey : pointKey ranges excludeKeys = some key) :
    ∀ row ∈ table.rows, scans table ranges excludeKeys row
      = decide (toKey (table.schema.primaryKeyOf row) table.schema.primaryKeyType
          = toKey key table.schema.primaryKeyType) := by
  unfold pointKey at hkey
  split at hkey
  · rename_i range
    split at hkey
    · rename_i hpoint
      cases hkey
      simp only [Bool.and_eq_true, Bool.not_eq_true'] at hpoint
      obtain ⟨⟨hpoint, hnull⟩, hkept⟩ := hpoint
      obtain ⟨-, hcontains⟩ := contains_iff_of_isPoint ht ((hranges range (by simp)).wf) hpoint
      intro row hrow
      have hfits := Table.fits hrow
      rw [Bool.eq_iff_iff, decide_eq_true_eq, Value.toKey_eq_keyIn, Value.toKey_eq_keyIn,
        ← hcontains _ (Or.inr hfits.ofFamily)]
      simp only [scans, any_cons, any_nil, Bool.or_false, Bool.and_eq_true]
      refine and_iff_left_of_imp fun hmem => ?_
      -- the point is not left out, so what has its key is not
      rw [isExcluded_congr hfits.notNull hnull ((hcontains _ (Or.inr hfits.ofFamily)).mp hmem), hkept]
      rfl
    · simp at hkey
  · simp at hkey

/-- A scan whose ranges are in order. -/
theorem scan_of_apart (hapart : Apart (tagOf table.schema.primaryKeyType) ranges) (ascending : Bool) :
    scan table ranges excludeKeys ascending
      = .ok (directed ascending (table.rows.filter fun row => scans table ranges excludeKeys row)) := by
  unfold scan
  cases hkey : pointKey ranges excludeKeys with
  | none => exact congrArg Except.ok (scanRanges_spec ht hranges hapart ascending)
  | some key =>
    obtain ⟨found, hfound, hfind⟩ := Table.find_spec table (notNull_of_pointKey hkey)
    rw [filter_congr (scans_of_pointKey ht hranges hkey), hfound]
    dsimp only
    rw [hfind]
    cases found <;> cases ascending <;> rfl

end

/-- Nothing is found in an empty table, whatever the ranges are. -/
theorem scan_of_empty (h : table.data.entries = []) (ascending : Bool) :
    scan table ranges excludeKeys ascending = .ok [] := by
  unfold scan
  cases hkey : pointKey ranges excludeKeys with
  | some key =>
    have hfind : table.data.find (toKey key table.schema.primaryKeyType) = none := by
      simp [SortedMap.find, h]
    dsimp only
    rw [Table.find_of_notNull (notNull_of_pointKey hkey), hfind]
    rfl
  | none =>
    have hscan : ∀ l : List KeyRange, scanRanges table excludeKeys ascending l = [] := by
      intro l
      induction l with
      | nil => rfl
      | cons range rest ih => simp [scanRanges, ih, Table.scan, h]
    exact congrArg Except.ok (hscan _)

/-- **A scan returns the rows that it is to return, in its direction.**  The type of the primary key
    of an empty table need not have keys. -/
theorem scan_spec (hranges : tagOf table.schema.primaryKeyType ≠ kTagNull →
      (∀ r ∈ ranges, r.OfColumn table.schema.primaryKeyType) ∧
        Apart (tagOf table.schema.primaryKeyType) ranges) (ascending : Bool) :
    scan table ranges excludeKeys ascending
      = .ok (directed ascending (table.rows.filter fun row => scans table ranges excludeKeys row)) := by
  cases hrows : table.rows with
  | nil =>
    rw [scan_of_empty (map_eq_nil_iff.mp hrows)]
    cases ascending <;> rfl
  | cons row rest =>
    have hrow : row ∈ table.rows := by simp [hrows]
    have ht := (Table.fits hrow).tag
    rw [← hrows]
    exact scan_of_apart ht (hranges ht).1 (hranges ht).2 ascending

end Scan

end SqlDb.Exec
