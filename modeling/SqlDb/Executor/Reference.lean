/-
  WHAT A SELECT RETURNS.

  The meaning of a SELECT is short: take the rows that the WHERE keeps, sort them, drop the OFFSET, take
  the LIMIT, project (`reference`).  Nothing is said there of ranges, points, exclusions, costs, heaps
  or directions of scans.  What the optimizer, the planner and the executor do with the same SELECT
  comes to the same rows (`select_eq_reference`), for every table and for any statistics, if

  * the literals of the primary key FIT its type, and
  * the rewriter keeps the verdicts on the rows of the table.

  To be of the family of the primary key is not enough for a literal: `day_is_not_its_seconds` is a
  DATETIME key and a DATE.
-/
import SqlDb.Executor.RowOrder
import SqlDb.Executor.ScanSpec

namespace SqlDb.Exec

open Sql Plan KeyCodecs KeyRange List

/-! ## The reference -/

/-- The rows that the WHERE keeps. -/
def matching (table : Table) (where_ : ConditionPtr) : List Row :=
  table.rows.filter fun row => keepsPtr (table.schema.lookup row) where_

def sorted (table : Table) (select : SelectQuery) : List Row :=
  Sorting.sort (comesBefore table.schema select.orderBy) (matching table select.where_)

/-- OFFSET is dropped and LIMIT is taken. -/
def limited (limit : LimitClause) (rows : List Row) : List Row :=
  let rest := rows.drop (limit.offset.getD 0)
  match limit.rowCount with
  | none => rest
  | some count => rest.take count

/-- The columns of the SELECT list, all of which must exist. -/
def projected (schema : TableSchema) (select : SelectQuery) (rows : List Row) :
    Except ExecError (List Row) :=
  if select.selectAll then .ok rows
  else
    match select.columns.find? fun ref => (schema.columnIndex ref.column).isNone with
    | some ref => .error ⟨.columnNotFound, ascii "column not found: " ++ ref.column.name⟩
    | none =>
      .ok (rows.map fun row => select.columns.filterMap fun ref => schema.lookup row ref.column)

/-- **What a SELECT means.** -/
def reference (table : Table) (select : SelectQuery) : Except ExecError (List Row) :=
  projected table.schema select (limited select.limit (sorted table select))

/-! ## The chain of the scan -/

variable {where_ : ConditionPtr}

section Chain

variable {table : Table}

theorem directed_filter (ascending : Bool) (rows : List Row) (p : Row → Bool) :
    (directed ascending rows).filter p = directed ascending (rows.filter p) := by
  cases ascending
  · exact filter_reverse ..
  · rfl

theorem run_buildScan {query : OptimizedQuery} (rowLimit : Nat) (ascending : Bool)
    (htype : query.primaryKeyType = table.schema.primaryKeyType)
    (hranges : tagOf table.schema.primaryKeyType ≠ kTagNull →
      (∀ r ∈ query.ranges, r.OfColumn table.schema.primaryKeyType) ∧
        Apart (tagOf table.schema.primaryKeyType) query.ranges) :
    run table rowLimit (buildScan query ascending) = .ok (directed ascending
      (table.rows.filter fun row => scans table query.ranges query.excludeKeys row)) := by
  have hplain : ∀ ranges, (ranges = if query.ranges = [] then [.empty table.schema.primaryKeyType]
      else query.ranges) → scan table ranges query.excludeKeys ascending = .ok (directed ascending
      (table.rows.filter fun row => scans table query.ranges query.excludeKeys row)) := by
    rintro ranges rfl
    split_ifs with hnil
    · rw [scan_spec fun _ => ⟨forall_mem_singleton.mpr (.empty (Or.inl rfl)),
        pairwise_singleton _ _⟩]
      simp [scans, hnil, contains_empty]
    · exact scan_spec hranges ascending
  unfold buildScan
  simp only [makeTableRef, htype]
  split
  · rename_i range hone
    split
    · exact hplain _ hone.symm
    · rename_i hexclude
      have hexclude : query.excludeKeys = [] := not_not.mp hexclude
      split
      · -- a range without bounds is the whole table
        rename_i hall
        have hquery : query.ranges = [range] := by
          split at hone
          · obtain rfl := singleton_inj.mp hone
            simp [isAll, KeyRange.empty] at hall
          · exact hone
        show scan table [.all table.schema.primaryKeyType] [] ascending = _
        rw [scan_spec fun _ => ⟨forall_mem_singleton.mpr (.all (Or.inl rfl)),
          pairwise_singleton _ _⟩]
        refine congrArg (Except.ok ∘ directed ascending) (filter_congr fun row hrow => ?_)
        have hx := Table.fits hrow
        have hrange := ((hranges hx.tag).1 range (by simp [hquery])).wf
        simp [scans, hquery, hexclude, contains_all hx.tag hx.ofFamily _ (Or.inl rfl),
          contains_of_isAll hx.tag hx.ofFamily hrange hall]
      · have h := hplain _ hone.symm
        rw [hexclude] at h ⊢
        exact h
  · exact hplain _ rfl

/-- The rows of a table, as conditions see them. -/
def RowOf (table : Table) (lookup : Condition.Lookup) : Prop :=
  ∃ row ∈ table.rows, lookup = table.schema.lookup row

/-- What the scan and the filter leave is what the WHERE keeps. -/
theorem run_buildScanChain {query : OptimizedQuery} (rowLimit : Nat)
    (ascending : Bool) (htype : query.primaryKeyType = table.schema.primaryKeyType)
    (hexclude : query.excludeKeys = exclusionsOf table.schema.primaryKeyName query.remainingFilter)
    (hselects : tagOf table.schema.primaryKeyType ≠ kTagNull →
      Selects (RowOf table) table.schema.primaryKeyName table.schema.primaryKeyType query.ranges
        query.remainingFilter fun lookup => keepsPtr lookup where_) :
    run table rowLimit (buildScanChain query ascending)
      = .ok (directed ascending (matching table where_)) := by
  have hscan := run_buildScan rowLimit ascending htype fun ht =>
    ⟨(hselects ht).ofColumn, (hselects ht).apart⟩
  have hmatching : matching table where_ =
      (table.rows.filter fun row => scans table query.ranges query.excludeKeys row).filter fun row =>
        keepsPtr (table.schema.lookup row) query.remainingFilter := by
    rw [filter_filter]
    refine filter_congr fun row hrow => ?_
    have hx := Table.fits hrow
    have hkey : KeyOf table.schema.primaryKeyName (table.schema.lookup row)
        (table.schema.primaryKeyOf row) := fun _ hcolumn => Table.lookup_key hrow hcolumn
    rw [Bool.eq_iff_iff, ← (hselects hx.tag).keeps _ _ ⟨row, hrow, rfl⟩ hkey hx]
    simp only [scans, Bool.and_eq_true, any_eq_true, Bool.not_eq_true']
    constructor
    · rintro ⟨hcontains, hkeeps⟩
      refine ⟨hkeeps, hcontains, ?_⟩
      rw [← Bool.not_eq_true]
      intro hleft
      have hin : (exclusionsOf table.schema.primaryKeyName query.remainingFilter).contains
          (table.schema.primaryKeyOf row) = true := by
        rw [← hexclude]
        exact (Bool.and_eq_true _ _ ▸ hleft).2
      rw [exclusionsOf_spec hx hkey (hselects hx.tag).literals hin] at hkeeps
      simp at hkeeps
    · rintro ⟨hkeeps, hcontains, -⟩
      exact ⟨hcontains, hkeeps⟩
  unfold buildScanChain
  cases hfilter : query.remainingFilter with
  | none =>
    rw [hfilter] at hmatching
    rw [hmatching]
    simpa using hscan
  | some condition =>
    rw [hfilter] at hmatching
    dsimp only
    rw [run, hscan, hmatching]
    exact congrArg Except.ok (directed_filter ascending _ _)

end Chain

/-! ## Sorts -/

section Sorts

variable {table : Table} {select : SelectQuery}

theorem matching_subset {row : Row} (h : row ∈ matching table where_) :
    row ∈ table.rows := mem_of_mem_filter h

theorem pairwise_matching (table : Table) (where_ : ConditionPtr) :
    (matching table where_).Pairwise fun a b => keyOrder table.schema a b = .lt := by
  refine (Table.pairwise_rows.imp_of_mem fun {a b} ha hb hlt => ?_).filter _
  exact keyOrder_of_lt ha hb hlt

theorem nodup_matching (table : Table) (where_ : ConditionPtr) : (matching table where_).Nodup :=
  table.nodup_rows.filter _

/-- Rows that come in order are sorted. -/
theorem eq_sorted (ascending : Bool)
    (h : (directed ascending (matching table select.where_)).Pairwise fun a b =>
      comesBefore table.schema select.orderBy a b = true) :
    directed ascending (matching table select.where_) = sorted table select := by
  refine Sorting.eq_sort (totalOn_comesBefore table select.orderBy) (fun _ => matching_subset) ?_ h
  cases ascending
  · exact reverse_perm _
  · exact List.Perm.refl _

/-- Without ORDER BY the order of the scan is meant. -/
theorem scan_sorted_of_nil (h : select.orderBy = []) :
    matching table select.where_ = sorted table select := by
  refine eq_sorted true ((pairwise_matching table select.where_).imp fun hlt => ?_)
  simp [comesBefore, h, Sorting.lexLess, hlt]

theorem columnOrder_of_key {item : OrderByItem} {a b : Row} (ha : a ∈ table.rows)
    (hb : b ∈ table.rows) (h : item.column.eq table.schema.primaryKeyName = true) :
    columnOrder table.schema item a b
      = OrderDirection.apply item.direction (keyOrder table.schema a b) := by
  unfold columnOrder columnValue
  rw [Table.lookup_key ha h, Table.lookup_key hb h]
  rfl

/-- An ORDER BY that begins with the primary key is the order of the scan, or the opposite one. -/
theorem scan_sorted_of_key {item : OrderByItem} {rest : List OrderByItem}
    (h : select.orderBy = item :: rest) (hkey : item.column.eq table.schema.primaryKeyName = true) :
    directed (item.direction = .asc) (matching table select.where_) = sorted table select := by
  have hfirst : ∀ a b, a ∈ table.rows → b ∈ table.rows →
      OrderDirection.apply item.direction (keyOrder table.schema a b) = .lt →
      comesBefore table.schema select.orderBy a b = true := by
    intro a b ha hb hlt
    unfold comesBefore
    rw [h, map_cons, cons_append, Sorting.lexLess, columnOrder_of_key ha hb hkey, hlt]
  refine eq_sorted _ ?_
  have hpairs := pairwise_matching table select.where_
  cases hdir : item.direction with
  | asc =>
    refine hpairs.imp_of_mem fun ha hb hlt => hfirst _ _ (matching_subset ha) (matching_subset hb) ?_
    rw [hdir]
    exact hlt
  | desc =>
    refine pairwise_reverse.mpr (hpairs.imp_of_mem fun {a b} ha hb hlt => ?_)
    refine hfirst _ _ (matching_subset hb) (matching_subset ha) ?_
    rw [hdir]
    show (keyOrder table.schema b a).swap = .lt
    rw [(lawfulOn_keyOrder table).swap a b (matching_subset ha) (matching_subset hb), hlt]
    rfl

theorem collect_eq {rowLimit : Nat} {collected rows : List Row}
    (h : collected.length + rows.length ≤ rowLimit) :
    collect rowLimit collected rows = .ok (collected ++ rows) := by
  induction rows generalizing collected with
  | nil => simp [collect]
  | cons row rest ih =>
    rw [length_cons] at h
    rw [collect, if_neg (by omega), ih (by rw [length_append, length_singleton]; omega)]
    simp

/-- What a sort of the matching rows returns: all of them, if there are not too many, or the first. -/
theorem sortRows_spec (rowLimit : Nat) (horder : ∀ item ∈ select.orderBy,
      table.schema.columnIndex item.column ≠ none) :
    ((matching table select.where_).length ≤ rowLimit → ∀ topN,
      sortRows table.schema rowLimit select.orderBy false topN (matching table select.where_)
        = .ok (sorted table select)) ∧
    ∀ topN, sortRows table.schema rowLimit select.orderBy true topN (matching table select.where_)
      = .ok ((sorted table select).take topN) := by
  obtain ⟨keys, hkeys, hplaces⟩ := orderKeys_spec horder
  have htotal := totalOn_comesBefore table select.orderBy
  have hsame : ∀ a b, a ∈ table.rows → b ∈ table.rows →
      rowLess (withPrimaryKey table.schema keys) a b = comesBefore table.schema select.orderBy a b :=
    fun a b ha hb => rowLess_eq ha hb hplaces
  have hsort : Sorting.sort (rowLess (withPrimaryKey table.schema keys)) (matching table select.where_)
      = sorted table select :=
    Sorting.sort_congr htotal hsame (fun _ => matching_subset) (nodup_matching table select.where_)
  unfold sortRows
  rw [hkeys]
  constructor
  · intro hlimit topN
    show (collect rowLimit [] (matching table select.where_) >>= fun rows => pure _) = _
    rw [collect_eq (by simpa using hlimit), nil_append]
    exact congrArg Except.ok hsort
  · intro topN
    refine congrArg Except.ok ?_
    rw [Sorting.sort_keepBest (htotal.congr hsame) (fun _ => matching_subset)
      (nodup_matching table select.where_), hsort]

end Sorts

/-! ## Limits and projections -/

theorem limitRows_eq (offset want skipped produced : Nat) (rows : List Row) :
    limitRows offset want skipped produced rows
      = (rows.drop (offset - skipped)).take (want - produced) := by
  induction rows generalizing skipped produced with
  | nil => simp [limitRows]
  | cons row rest ih =>
    rw [limitRows]
    split
    · rename_i hskip
      rw [ih, show offset - skipped = offset - (skipped + 1) + 1 by omega, drop_succ_cons]
    · rename_i hskip
      rw [show offset - skipped = 0 by omega, drop_zero]
      split_ifs with hmore
      · rw [show want - produced = 0 by omega, take_zero]
      · rw [ih, show want - produced = want - (produced + 1) + 1 by omega, take_succ_cons,
          show offset - skipped = 0 by omega, drop_zero]

variable {rows : List Row}

/-- The rows that a limit returns, if all of them can be counted. -/
theorem limitRows_of_countable {limit : LimitClause} (h : rows.length < 2 ^ 64) :
    limitRows (limit.offset.getD 0) (limit.rowCount.getD kSizeMax) 0 0 rows = limited limit rows := by
  rw [limitRows_eq]
  unfold limited
  cases limit.rowCount with
  | none =>
    refine take_of_length_le ?_
    rw [length_drop, Option.getD_none, kSizeMax]
    omega
  | some count => rfl

/-- The rows that top-N does not keep are not asked for. -/
theorem limited_take {limit : LimitClause} {count : Nat} (hcount : limit.rowCount = some count)
    (h : rows.length < 2 ^ 64) :
    limited limit (rows.take (topNCount limit)) = limited limit rows := by
  unfold topNCount
  rw [hcount]
  dsimp only
  split
  · rw [take_of_length_le (by rw [kSizeMax]; omega)]
  · unfold limited
    rw [hcount]
    dsimp only
    rw [Nat.add_comm, drop_take, Nat.add_sub_cancel_left, take_take, Nat.min_self]

theorem columnIndexes_spec (schema : TableSchema) (columns : List ColumnRef) :
    match columns.find? fun ref => (schema.columnIndex ref.column).isNone with
    | some ref => columnIndexes schema columns
        = .error ⟨.columnNotFound, ascii "column not found: " ++ ref.column.name⟩
    | none => ∃ indexes, columnIndexes schema columns = .ok indexes ∧
        columns.map (fun ref => schema.columnIndex ref.column) = indexes.map some := by
  induction columns with
  | nil => exact ⟨[], rfl, rfl⟩
  | cons ref rest ih =>
    rw [columnIndexes]
    cases hindex : schema.columnIndex ref.column with
    | none =>
      rw [find?_cons_of_pos (by simp [hindex])]
    | some i =>
      rw [find?_cons_of_neg (by simp [hindex])]
      dsimp only
      split at ih
      · rename_i missing hmissing
        rw [ih]
        rfl
      · obtain ⟨indexes, hindexes, hmap⟩ := ih
        refine ⟨i :: indexes, by rw [hindexes]; rfl, ?_⟩
        rw [map_cons, map_cons, hmap, hindex]

theorem projectRow_eq {schema : TableSchema} {columns : List ColumnRef} {indexes : List Nat}
    (hne : columns ≠ []) (h : columns.map (fun ref => schema.columnIndex ref.column) = indexes.map some)
    (row : Row) :
    projectRow indexes row = columns.filterMap fun ref => schema.lookup row ref.column := by
  have hindexes : indexes ≠ [] := by
    rintro rfl
    exact hne (map_eq_nil_iff.mp h)
  have hlookup : (columns.filterMap fun ref => schema.lookup row ref.column)
      = (columns.map fun ref => schema.columnIndex ref.column).filterMap fun i => i.bind fun i => row[i]? := by
    rw [filterMap_map]
    rfl
  rw [projectRow, if_neg hindexes, hlookup, h, filterMap_map]
  rfl

theorem run_project {table : Table} {rowLimit : Nat} {child : PlanNode}
    {select : SelectQuery} (hall : select.selectAll = false)
    (hchild : run table rowLimit child = .ok rows) :
    run table rowLimit (.project child select.columns) = projected table.schema select rows := by
  obtain ⟨hne, hwildcard⟩ : select.columns ≠ [] ∧ isWildcardList select.columns = false := by
    unfold SelectQuery.selectAll at hall
    cases hcolumns : select.columns with
    | nil =>
      rw [hcolumns] at hall
      simp at hall
    | cons ref rest =>
      rw [hcolumns] at hall
      refine ⟨by simp, ?_⟩
      cases rest with
      | nil => exact hall
      | cons _ _ => rfl
  have hspec := columnIndexes_spec table.schema select.columns
  rw [run, hwildcard, hchild]
  unfold projected
  rw [hall]
  simp only [Bool.false_eq_true, if_false]
  split at hspec
  · rw [hspec]
    rfl
  · obtain ⟨indexes, hindexes, hmap⟩ := hspec
    rw [hindexes]
    refine congrArg Except.ok (map_congr_left fun row _ => ?_)
    exact projectRow_eq hne hmap row

/-! ## The whole SELECT -/

/-- All matching rows are collected to be sorted: there is an ORDER BY which the scan does not satisfy,
    and no LIMIT. -/
def sortsAll (schema : TableSchema) (select : SelectQuery) : Bool :=
  select.orderBy ≠ [] && !(orderByScan select.orderBy schema.primaryKeyName).satisfiedByScan
    && select.limit.rowCount.isNone

section Select

variable {table : Table} {select : SelectQuery} {rowLimit : Nat}

/-- The scan is in the order that is meant, unless it is read forwards and sorted. -/
theorem orderByScan_cases (orderBy : List OrderByItem) (pk : Identifier) :
    (∃ item rest, orderBy = item :: rest ∧ item.column.eq pk = true ∧
      orderByScan orderBy pk = ⟨item.direction = .asc, true⟩) ∨ orderByScan orderBy pk = {} := by
  unfold orderByScan
  split
  · exact Or.inr rfl
  · rename_i item rest
    split_ifs with _ hkey
    · exact Or.inr rfl
    · exact Or.inl ⟨item, rest, rfl, hkey, rfl⟩
    · exact Or.inr rfl

/-- What comes out of the scan, the filter and the sort: the sorted rows, or the first of them. -/
theorem run_planSort (horder : ∀ item ∈ select.orderBy, table.schema.columnIndex item.column ≠ none)
    (hsort : sortsAll table.schema select = true → (matching table select.where_).length ≤ rowLimit)
    {chain : Bool → PlanNode} (hchain : ∀ ascending, run table rowLimit (chain ascending)
      = .ok (directed ascending (matching table select.where_))) :
    let order := orderByScan select.orderBy table.schema.primaryKeyName
    ∃ rows, run table rowLimit (planSort select order (chain order.ascending)) = .ok rows ∧
      (rows = sorted table select ∨ ∃ count, select.limit.rowCount = some count ∧
        rows = (sorted table select).take (topNCount select.limit)) := by
  intro order
  unfold planSort
  rcases orderByScan_cases select.orderBy table.schema.primaryKeyName with
    ⟨item, rest, hitem, hkey, hscan⟩ | hscan
  · refine ⟨_, ?_, Or.inl (scan_sorted_of_key hitem hkey)⟩
    rw [if_neg (by simp [order, hscan]), hchain]
    simp only [order, hscan]
  · by_cases hnil : select.orderBy = []
    · refine ⟨_, ?_, Or.inl (scan_sorted_of_nil hnil)⟩
      rw [if_neg (by simp [hnil]), hchain]
      simp only [order, hscan]
      rfl
    · obtain ⟨hfull, htop⟩ := sortRows_spec rowLimit horder
      have hforward : run table rowLimit (chain order.ascending)
          = .ok (matching table select.where_) := by
        rw [hchain]
        simp only [order, hscan]
        rfl
      rw [if_pos ⟨hnil, by simp [order, hscan]⟩]
      dsimp only
      rw [run, hforward]
      cases hcount : select.limit.rowCount with
      | none =>
        exact ⟨_, hfull (hsort (by simp [sortsAll, hnil, hscan, hcount])) _, Or.inl rfl⟩
      | some count => exact ⟨_, htop _, Or.inr ⟨count, rfl, rfl⟩⟩

theorem length_sorted (table : Table) (select : SelectQuery) :
    (sorted table select).length < 2 ^ 64 := by
  have hrows : table.rows.length = table.data.entries.length := length_map ..
  have hmatching : (matching table select.where_).length ≤ table.rows.length := length_filter_le ..
  have hcountable := table.countable
  rw [sorted, (Sorting.sort_perm _ _).length_eq]
  omega

/-- The limit returns the rows that are asked for, also from the first rows only. -/
theorem run_planLimit {node : PlanNode} (hrun : run table rowLimit node = .ok rows)
    (hrows : rows = sorted table select ∨ ∃ count, select.limit.rowCount = some count ∧
      rows = (sorted table select).take (topNCount select.limit)) :
    run table rowLimit (planLimit select.limit node)
      = .ok (limited select.limit (sorted table select)) := by
  have hlength := length_sorted table select
  have hlimited : limited select.limit rows = limited select.limit (sorted table select) ∧
      rows.length < 2 ^ 64 := by
    rcases hrows with rfl | ⟨count, hcount, rfl⟩
    · exact ⟨rfl, hlength⟩
    · refine ⟨limited_take hcount hlength, ?_⟩
      rw [length_take]
      omega
  unfold planLimit
  split_ifs with hnone
  · rw [run, hrun, ← hlimited.1, ← limitRows_of_countable hlimited.2]
    rfl
  · simp only [Bool.or_eq_true, not_or, Bool.not_eq_true, Option.isSome_eq_false_iff,
      Option.isNone_iff_eq_none] at hnone
    rw [hrun, ← hlimited.1]
    simp [limited, hnone.1, hnone.2]

/-- **Optimize, plan and execute: the rows are those of the reference.** -/
theorem select_eq_reference (catalog : Catalog) (stats : Identifier → Identifier → RelationStats)
    (hcatalog : Resolves catalog select table.schema)
    (hliterals : (keyRule table.schema.primaryKeyName table.schema.primaryKeyType).HoldsPtr
      select.where_)
    (hrewrite : ∀ p, Submitted table.schema.primaryKeyName select.where_ p →
      RewriteKeeps (RowOf table) p)
    (horder : ∀ item ∈ select.orderBy, table.schema.columnIndex item.column ≠ none)
    (hsort : sortsAll table.schema select = true → (matching table select.where_).length ≤ rowLimit) :
    ∃ optimized, optimizeSelect catalog stats select = .ok optimized ∧
      run table rowLimit (planSelect optimized) = reference table select := by
  obtain ⟨key, hcolumn, hname, htype, -⟩ := TableSchema.primaryKeyColumn_of_validate table.valid
  rw [hname, htype] at hliterals
  rw [hname] at hrewrite
  obtain ⟨optimized, hoptimized, hquery, hkey, hkeyType, hexclude, hselects⟩ :=
    optimizeSelect_spec stats hcatalog hcolumn hliterals hrewrite
  refine ⟨optimized, hoptimized, ?_⟩
  have hchain : ∀ ascending, run table rowLimit (buildScanChain optimized ascending)
      = .ok (directed ascending (matching table select.where_)) := fun ascending =>
    run_buildScanChain rowLimit ascending (hkeyType.trans htype.symm) (by rw [hname]; exact hexclude)
      (by rw [hname, htype]; exact hselects)
  obtain ⟨rows, hrows, hsorted⟩ := run_planSort horder hsort hchain
  rw [hname] at hrows
  have hlimit := run_planLimit hrows hsorted
  unfold planSelect reference
  rw [hquery, hkey]
  dsimp only
  cases hall : select.selectAll with
  | true =>
    unfold projected
    rw [hall]
    exact hlimit
  | false => exact run_project hall hlimit

end Select

/-! ## Two tables -/

/-- The rewriter keeps the verdicts on the rows, as a check. -/
def rewriteKeepsRows (table : Table) (p : ConditionPtr) : Bool :=
  match rewriteConditionTree p with
  | .ok q => table.rows.all fun row =>
    keepsPtr (table.schema.lookup row) q == keepsPtr (table.schema.lookup row) p
  | .error _ => false

theorem rewriteKeeps_of_check {table : Table} {p : ConditionPtr} (h : rewriteKeepsRows table p = true) :
    RewriteKeeps (RowOf table) p := by
  unfold rewriteKeepsRows at h
  split at h
  · rename_i q hq
    refine ⟨q, hq, ?_⟩
    rintro lookup ⟨row, hrow, rfl⟩
    simpa using all_eq_true.mp h row hrow
  · simp at h

/-- The same for all trees that optimizing a WHERE hands to the rewriter. -/
def submittedKeepRows (table : Table) (where_ : ConditionPtr) : Bool :=
  rewriteKeepsRows table where_ &&
    match rewriteConditionTree where_ with
    | .error _ => false
    | .ok q =>
      let split := splitPtr table.schema.primaryKeyName q
      rewriteKeepsRows table split.pkCond && rewriteKeepsRows table split.remaining &&
        match rewriteConditionTree split.pkCond, rewriteConditionTree split.remaining with
        | .ok key, .ok rest => rewriteKeepsRows table (join .and key rest)
        | _, _ => false

theorem submitted_of_check {table : Table} (h : submittedKeepRows table where_ = true) :
    ∀ p, Submitted table.schema.primaryKeyName where_ p → RewriteKeeps (RowOf table) p := by
  intro p hp
  unfold submittedKeepRows at h
  simp only [Bool.and_eq_true] at h
  cases hp with
  | written => exact rewriteKeeps_of_check h.1
  | key hq =>
    rw [hq] at h
    simp only [Bool.and_eq_true] at h
    exact rewriteKeeps_of_check h.2.1.1
  | rest hq =>
    rw [hq] at h
    simp only [Bool.and_eq_true] at h
    exact rewriteKeeps_of_check h.2.1.2
  | rejoined hq hkey hrest =>
    rw [hq] at h
    simp only [hkey, hrest, Bool.and_eq_true] at h
    exact rewriteKeeps_of_check h.2.2

section Example

def named (name : String) : Identifier := ⟨ascii name, false⟩

/-- A catalog with one table. -/
def catalogOf (schema : TableSchema) : Catalog where
  isOpen := true
  currentDatabase := named "db"
  getTableSchema := fun _ _ => some schema

/-- `id INT PRIMARY KEY, name VARCHAR`, with the rows (1, b), (2, NULL) and (3, a). -/
def people : Table where
  schema :=
    { name := named "people"
      columns := [⟨named "id", .int, 0, false, true⟩, ⟨named "name", .varchar, 0, true, false⟩]
      primaryKeyIndex := some 0 }
  data :=
    { entries :=
        [(toKey (.ofInt 1) .int, [.ofInt 1, .ofStr (ascii "b")]),
          (toKey (.ofInt 2) .int, [.ofInt 2, .null]),
          (toKey (.ofInt 3) .int, [.ofInt 3, .ofStr (ascii "a")])]
      sorted := by decide +kernel }
  valid := by decide +kernel
  rowsValid := by decide +kernel
  keyed := by decide +kernel
  countable := by decide

/-- `SELECT name FROM people WHERE id >= 1 AND id <> 2 ORDER BY name LIMIT 1 OFFSET 1`. -/
def secondName : SelectQuery where
  table := named "people"
  columns := [⟨named "name"⟩]
  where_ := some (.junction .and (.compare (named "id") .ge (.ofInt 1))
    (.compare (named "id") .ne (.ofInt 2)))
  orderBy := [⟨named "name", .asc⟩]
  limit := ⟨some 1, some 1⟩

/-- Statistics that are wrong. -/
def noRows : Identifier → Identifier → RelationStats := fun _ _ => ⟨0, true⟩

/-- Of the names a and b the second one. -/
theorem select_eq_reference_secondName :
    ∃ optimized, optimizeSelect (catalogOf people.schema) noRows secondName = .ok optimized ∧
      run people 1000000 (planSelect optimized) = .ok [[.ofStr (ascii "b")]] := by
  have hfits : ∀ n, KeyLiteral people.schema.primaryKeyType (.ofInt n) := fun n =>
    Or.inr ⟨rfl, rfl, fun h => absurd h (by decide +kernel)⟩
  have hreference : reference people secondName = .ok [[.ofStr (ascii "b")]] := by decide +kernel
  rw [← hreference]
  exact select_eq_reference (catalogOf people.schema) noRows
    ⟨rfl, by decide +kernel, by decide +kernel, rfl⟩
    (LeafRule.holdsPtr_some.mpr ⟨⟨trivial, fun _ _ => hfits 1⟩, ⟨trivial, fun _ _ => hfits 2⟩⟩)
    (submitted_of_check (by decide +kernel)) (by decide +kernel) fun h => absurd h (by decide +kernel)

/-- `at DATETIME PRIMARY KEY`, with the second day of 1970. -/
def moments : Table where
  schema :=
    { name := named "moments"
      columns := [⟨named "at", .datetime, 0, false, true⟩]
      primaryKeyIndex := some 0 }
  data :=
    { entries := [(toKey (.int 86400 .datetime rfl) .datetime, [.int 86400 .datetime rfl])]
      sorted := by decide +kernel }
  valid := by decide +kernel
  rowsValid := by decide +kernel
  keyed := by decide +kernel
  countable := by decide

/-- `SELECT * FROM moments WHERE at = DATE 1970-01-02`. -/
def secondDay : SelectQuery where
  table := named "moments"
  where_ := some (.compare (named "at") .eq (.int 1 .date rfl))

/-- The literals of the primary key are NULL or of its family. -/
def familyRule (pk : Identifier) (t : DataType) : LeafRule where
  column := fun _ => True
  literal := fun column v => column.eq pk = true → v = .null ∨ t.isSameFamily v.type = true
  congr := by
    intro a b v hab h hb
    refine h ?_
    simp only [Identifier.eq, decide_eq_true_eq] at hab hb ⊢
    exact hab.trans hb

/-- The filter takes the day for its seconds; the key of the day is that of the number 1. -/
theorem day_is_not_its_seconds :
    (familyRule moments.schema.primaryKeyName moments.schema.primaryKeyType).HoldsPtr
        secondDay.where_ ∧
      (∀ p, Submitted moments.schema.primaryKeyName secondDay.where_ p →
        RewriteKeeps (RowOf moments) p) ∧
      reference moments secondDay = .ok [[.int 86400 .datetime rfl]] ∧
      (optimizeSelect (catalogOf moments.schema) noRows secondDay).map
        (fun optimized => run moments 1000000 (planSelect optimized)) = .ok (.ok []) := by
  refine ⟨LeafRule.holdsPtr_some.mpr ⟨trivial, fun _ _ => Or.inr (by decide +kernel)⟩,
    submitted_of_check (by decide +kernel), by decide +kernel, by decide +kernel⟩

end Example

end SqlDb.Exec
