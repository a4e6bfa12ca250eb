/-
  KEYS AND GROUPS  (`GroupRouter`, raft/group_router.{h,cpp}).

  The keys are divided among raft groups by a table of intervals, each with a group of its own.  What
  is in no interval belongs to group 0, and so does everything under "@system/".

  Two facts make the table usable, both for tables that `validate` accepts:
    * a key in an interval belongs to the interval's group (`groupFor_of_contains`): the loop stops at
      the first interval behind the key, and the intervals do not overlap;
    * if `range_group` finds one group for a range of keys, EVERY key of the range belongs to it
      (`groupFor_of_rangeGroup`), although only the ends of the intervals are looked at: between two
      ends the group does not change.
-/
import Mathlib.Data.List.Nodup
import SqlDb.Lib.KeySpace
import SqlDb.Lib.HalfOpen
import SqlDb.SqlTypes.Temporal
import SqlDb.Storage.MockEngine

namespace SqlDb.Raft

open List

open Sql (byte digits)
open Kv (WriteBatch Op)

/-! ## The table -/

/-- The keys of `[start, stop)` belong to a group. -/
structure ShardRange where
  start : Bytes
  stop : Bytes
  groupId : Nat
deriving DecidableEq

def ShardRange.contains (r : ShardRange) (key : Bytes) : Prop := ¬ key < r.start ∧ key < r.stop

structure GroupRouter where
  /-- Sorted by start. -/
  ranges : List ShardRange := []
deriving DecidableEq

namespace GroupRouter

def kSystemPrefix : Bytes := ascii "@system/"

def isSystemKey (key : Bytes) : Bool := kSystemPrefix.isPrefixOf key

/-- The loop of `group_for`. -/
def groupIn : List ShardRange → Bytes → Nat
  | [], _ => 0
  | r :: rest, key =>
    if key < r.start then 0 else if key < r.stop then r.groupId else groupIn rest key

variable (router : GroupRouter)

def groupFor (key : Bytes) : Nat :=
  if isSystemKey key then 0 else groupIn router.ranges key

/-- A boundary inside the range, with another group than the range's first key. -/
def crosses (start : Bytes) (stop : Option Bytes) (boundary : Bytes) : Bool :=
  decide (start < boundary) && stop.all (fun stop => decide (boundary < stop)) &&
    decide (router.groupFor boundary ≠ router.groupFor start)

/-- The one group of the keys in `[start, stop)`, if there is one. -/
def rangeGroup (start : Bytes) (stop : Option Bytes) : Option Nat :=
  if stop.any (fun stop => !decide (start < stop)) then some (router.groupFor start)
  else if router.crosses start stop kSystemPrefix then none
  else if router.ranges.any fun r =>
      router.crosses start stop r.start || router.crosses start stop r.stop then none
  else some (router.groupFor start)

/-- The group of one operation. -/
def opGroup : Op → Option Nat
  | .put key _ => some (router.groupFor key)
  | .remove key => some (router.groupFor key)
  | .removeRange start stop => router.rangeGroup start (some stop)

/-! ## Validation -/

def shards (text : Bytes) : Bytes := ascii "raft shards: " ++ text

def interval (r : ShardRange) : Bytes :=
  ascii "range ['" ++ r.start ++ ascii "', '" ++ r.stop ++ ascii "') "

def separators (key : Bytes) : Bool := key.any fun b => b = byte ',' || b = byte ';'

/-- What is wrong with one interval, after those before it. -/
def rangeProblem (groups : List Nat) (previous : Option ShardRange) (r : ShardRange) : Option Bytes :=
  if r.groupId = 0 then
    some (shards (ascii "data range for '" ++ r.start ++
      ascii "' uses group 0 (reserved for @system/*)"))
  else if r.groupId ∈ groups then
    some (shards (ascii "group " ++ digits r.groupId ++ ascii " appears more than once"))
  else if ¬ r.start < r.stop then some (shards (interval r ++ ascii "is empty"))
  else if separators r.start || separators r.stop then
    some (shards (ascii "keys must not contain ',' or ';'"))
  else if isSystemKey r.start ∨ (r.start < kSystemPrefix ∧ kSystemPrefix < r.stop) then
    some (shards (interval r ++ ascii "covers @system/* which is reserved for group 0"))
  else if previous.any fun p => decide (r.start < p.stop) then
    some (shards (ascii "ranges overlap at '" ++ r.start ++ ascii "'"))
  else none

def rangesProblem : List Nat → Option ShardRange → List ShardRange → Option Bytes
  | _, _, [] => none
  | groups, previous, r :: rest =>
    match rangeProblem groups previous r with
    | some problem => some problem
    | none => rangesProblem (r.groupId :: groups) (some r) rest

/-- The first group that has no interval. -/
def missingGroup : Option Bytes :=
  ((List.range' 1 router.ranges.length).find? fun id => id ∉ router.ranges.map (·.groupId)).map
    fun id => shards (ascii "group ids must be contiguous starting at 1 (missing group " ++
      digits id ++ ascii ")")

def validate : Option Bytes :=
  match rangesProblem [] none router.ranges with
  | some problem => some problem
  | none => router.missingGroup

/-- The table is in order. -/
structure Sound (ranges : List ShardRange) : Prop where
  nonzero : ∀ r ∈ ranges, r.groupId ≠ 0
  unique : (ranges.map (·.groupId)).Nodup
  nonempty : ∀ r ∈ ranges, r.start < r.stop
  notSystem : ∀ r ∈ ranges, isSystemKey r.start = false ∧
    ¬ (r.start < kSystemPrefix ∧ kSystemPrefix < r.stop)
  apart : ranges.Pairwise fun a b => ¬ b.start < a.stop

variable {r : ShardRange}

theorem rangeProblem_eq_none {groups : List Nat} {previous : Option ShardRange}
    (h : rangeProblem groups previous r = none) :
    r.groupId ≠ 0 ∧ r.groupId ∉ groups ∧ r.start < r.stop ∧
      (isSystemKey r.start = false ∧ ¬ (r.start < kSystemPrefix ∧ kSystemPrefix < r.stop)) ∧
      ∀ p ∈ previous, ¬ r.start < p.stop := by
  unfold rangeProblem at h
  split at h
  · simp at h
  rename_i hzero
  split at h
  · simp at h
  rename_i hgroups
  split at h
  · simp at h
  rename_i hempty
  split at h
  · simp at h
  split at h
  · simp at h
  rename_i hsystem
  split at h
  · simp at h
  rename_i hprevious
  rw [not_or] at hsystem
  refine ⟨hzero, hgroups, not_not.mp hempty, ⟨by simpa using hsystem.1, hsystem.2⟩, ?_⟩
  intro p hp hlt
  apply hprevious
  rw [Option.mem_def.mp hp]
  simpa using hlt

variable {ranges : List ShardRange}

/-- The groups and the interval seen so far are behind. -/
theorem sound_of_rangesProblem {groups : List Nat} {previous : Option ShardRange}
    (h : rangesProblem groups previous ranges = none) :
    Sound ranges ∧ (∀ r ∈ ranges, r.groupId ∉ groups) ∧
      ∀ p ∈ previous, ∀ r ∈ ranges, ¬ r.start < p.stop := by
  induction ranges generalizing groups previous with
  | nil =>
    refine ⟨⟨?_, ?_, ?_, ?_, ?_⟩, ?_, ?_⟩ <;> simp
  | cons r rest ih =>
    unfold rangesProblem at h
    split at h
    · simp at h
    · rename_i hone
      obtain ⟨hzero, hgroups, hempty, hsystem, hprevious⟩ := rangeProblem_eq_none hone
      obtain ⟨hsound, hother, hbehind⟩ := ih h
      have hafter : ∀ q ∈ rest, ¬ q.start < r.stop := hbehind r rfl
      refine ⟨⟨?_, ?_, ?_, ?_, ?_⟩, ?_, ?_⟩
      · exact forall_mem_cons.mpr ⟨hzero, hsound.nonzero⟩
      · rw [map_cons, nodup_cons]
        refine ⟨?_, hsound.unique⟩
        intro hmem
        obtain ⟨q, hq, heq⟩ := mem_map.mp hmem
        exact hother q hq (mem_cons.mpr (Or.inl heq))
      · exact forall_mem_cons.mpr ⟨hempty, hsound.nonempty⟩
      · exact forall_mem_cons.mpr ⟨hsystem, hsound.notSystem⟩
      · exact pairwise_cons.mpr ⟨hafter, hsound.apart⟩
      · refine forall_mem_cons.mpr ⟨hgroups, fun q hq hmem => ?_⟩
        exact hother q hq (mem_cons_of_mem _ hmem)
      · intro p hp
        refine forall_mem_cons.mpr ⟨hprevious p hp, fun q hq hlt => ?_⟩
        -- p ends before r starts, r is not empty, and q starts after r
        have hrq : r.start < q.start := HalfOpen.lt_of_lt_of_not_lt hempty (hafter q hq)
        exact hprevious p hp (IsTrans.trans _ _ _ hrq hlt)

theorem sound_of_validate {router : GroupRouter} (h : router.validate = none) :
    Sound router.ranges := by
  unfold validate at h
  split at h
  · simp at h
  · rename_i hranges
    exact (sound_of_rangesProblem hranges).1

/-! ## The group of a key -/

theorem groupIn_cases (ranges : List ShardRange) (key : Bytes) :
    groupIn ranges key = 0 ∨ ∃ r ∈ ranges, r.contains key ∧ groupIn ranges key = r.groupId := by
  induction ranges with
  | nil => exact Or.inl rfl
  | cons r rest ih =>
    unfold groupIn
    split_ifs with hstart hstop
    · exact Or.inl rfl
    · exact Or.inr ⟨r, mem_cons_self, ⟨hstart, hstop⟩, rfl⟩
    · rcases ih with hzero | ⟨q, hq, hcontains, hgroup⟩
      · exact Or.inl hzero
      · exact Or.inr ⟨q, mem_cons_of_mem _ hq, hcontains, hgroup⟩

variable {key : Bytes}

theorem groupIn_of_contains (hsound : Sound ranges)
    (hr : r ∈ ranges) (hkey : r.contains key) : groupIn ranges key = r.groupId := by
  obtain ⟨-, -, hempty, -, hapart⟩ := hsound
  induction ranges with
  | nil => simp at hr
  | cons q rest ih =>
    unfold groupIn
    rcases mem_cons.mp hr with rfl | hrest
    · rw [if_neg hkey.1, if_pos hkey.2]
    · obtain ⟨hfirst, htail⟩ := pairwise_cons.mp hapart
      have hqr : q.start < r.start :=
        HalfOpen.lt_of_lt_of_not_lt (hempty q mem_cons_self) (hfirst r hrest)
      have hstart : ¬ key < q.start := fun h => hkey.1 (IsTrans.trans _ _ _ h hqr)
      have hstop : ¬ key < q.stop := fun h =>
        hfirst r hrest (HalfOpen.lt_of_not_lt_of_lt hkey.1 h)
      rw [if_neg hstart, if_neg hstop]
      exact ih hrest (fun r hr => hempty r (mem_cons_of_mem _ hr)) htail

/-- No interval has a key of the catalog. -/
theorem not_isSystemKey (hsound : Sound ranges)
    (hr : r ∈ ranges) (hkey : r.contains key) : isSystemKey key = false := by
  obtain ⟨hstart, hover⟩ := hsound.notSystem r hr
  by_contra hsystem
  rw [Bool.not_eq_false, isSystemKey, isPrefixOf_iff_prefix] at hsystem
  obtain ⟨suffix, rfl⟩ := hsystem
  have hbelow : ¬ kSystemPrefix ++ suffix < kSystemPrefix := by
    intro hlt
    have := (OrderedBytes.append_lt_append_left kSystemPrefix suffix []).mp (by simpa using hlt)
    simp at this
  by_cases hlow : r.start < kSystemPrefix
  · -- the interval ends before the first key of the catalog
    have hstop : ¬ kSystemPrefix < r.stop := fun h => hover ⟨hlow, h⟩
    exact hstop (HalfOpen.lt_of_not_lt_of_lt hbelow hkey.2)
  · -- the interval would start among them
    have hprefix : kSystemPrefix <+: r.start := by
      refine KeySpace.prefix_of_between (a := []) (b := suffix ++ [0]) (by simpa using hlow) ?_
      rw [← append_assoc]
      exact HalfOpen.lt_of_not_lt_of_lt hkey.1 (OrderedBytes.lt_append _ [0] (by simp))
    rw [isSystemKey, isPrefixOf_iff_prefix.mpr hprefix] at hstart
    simp at hstart

theorem contains_of_groupFor {router : GroupRouter} (h : router.groupFor key ≠ 0) :
    ∃ r ∈ router.ranges, r.contains key ∧ router.groupFor key = r.groupId := by
  unfold groupFor at h ⊢
  split_ifs at h with hsystem
  · exact absurd rfl h
  · rw [if_neg hsystem]
    exact (groupIn_cases router.ranges key).resolve_left h

section Valid

variable {router : GroupRouter} (hvalid : router.validate = none)

include hvalid

/-- A key in an interval belongs to the interval's group. -/
theorem groupFor_of_contains (hr : r ∈ router.ranges)
    (hkey : r.contains key) : router.groupFor key = r.groupId := by
  have hsound := sound_of_validate hvalid
  unfold groupFor
  rw [not_isSystemKey hsound hr hkey]
  exact groupIn_of_contains hsound hr hkey

/-- The end of an interval belongs to another group. -/
theorem groupFor_stop_ne (hr : r ∈ router.ranges) : router.groupFor r.stop ≠ r.groupId := by
  have hsound := sound_of_validate hvalid
  intro heq
  have hne : router.groupFor r.stop ≠ 0 := heq ▸ hsound.nonzero r hr
  obtain ⟨q, hq, hcontains, hgroup⟩ := contains_of_groupFor hne
  have hqr : q = r := inj_on_of_nodup_map hsound.unique hq hr (hgroup.symm.trans heq)
  subst hqr
  exact SortedMap.key_irrefl q.stop hcontains.2

/-- **One group for a range is the group of each of its keys.** -/
theorem groupFor_of_rangeGroup {start : Bytes} {stop : Option Bytes} {group : Nat}
    (h : router.rangeGroup start stop = some group) (hlow : ¬ key < start)
    (hhigh : ∀ e ∈ stop, key < e) : router.groupFor key = group := by
  have hsound := sound_of_validate hvalid
  unfold rangeGroup at h
  split at h
  · -- an empty range has no key
    rename_i hempty
    cases stop with
    | none => simp at hempty
    | some e =>
      have hlt : ¬ start < e := by simpa using hempty
      exact absurd (HalfOpen.lt_of_not_lt_of_lt hlow (hhigh e rfl)) hlt
  · split at h
    · simp at h
    · split at h
      · simp at h
      · rename_i hbounds
        cases h
        -- no end of an interval inside the range has another group
        have hinside : ∀ b, start < b → ¬ key < b → (∃ r ∈ router.ranges, b = r.start ∨ b = r.stop) →
            router.groupFor b = router.groupFor start := by
          rintro b hb hkb ⟨r, hr, hend⟩
          by_contra hne
          have hcross : router.crosses start stop b = true := by
            unfold crosses
            simp only [Bool.and_eq_true, decide_eq_true_eq, Option.all_eq_true]
            refine ⟨⟨hb, fun e he => ?_⟩, hne⟩
            exact HalfOpen.lt_of_not_lt_of_lt hkb (hhigh e he)
          apply hbounds
          rw [any_eq_true]
          refine ⟨r, hr, ?_⟩
          rw [Bool.or_eq_true]
          rcases hend with rfl | rfl
          · exact Or.inl hcross
          · exact Or.inr hcross
        by_cases hzero : router.groupFor key = 0
        · -- if the first key is in an interval, the interval ends before the key
          by_contra hne
          rw [hzero] at hne
          obtain ⟨r, hr, hcontains, hgroup⟩ := contains_of_groupFor (Ne.symm hne)
          have hkey : ¬ key < r.stop := by
            intro hlt
            have hstart : ¬ key < r.start := fun hk =>
              hcontains.1 (HalfOpen.lt_of_not_lt_of_lt hlow hk)
            exact hsound.nonzero r hr
              ((groupFor_of_contains hvalid hr ⟨hstart, hlt⟩).symm.trans hzero)
          exact groupFor_stop_ne hvalid hr
            ((hinside r.stop hcontains.2 hkey ⟨r, hr, Or.inr rfl⟩).trans hgroup)
        · -- the interval of the key has the first key in it, or starts inside the range
          obtain ⟨r, hr, hcontains, hgroup⟩ := contains_of_groupFor hzero
          by_cases hfirst : start < r.start
          · have hown : router.groupFor r.start = r.groupId :=
              groupFor_of_contains hvalid hr ⟨SortedMap.key_irrefl _, hsound.nonempty r hr⟩
            rw [hgroup, ← hown]
            exact hinside r.start hfirst hcontains.1 ⟨r, hr, Or.inl rfl⟩
          · have hstart : start < r.stop := HalfOpen.lt_of_not_lt_of_lt hlow hcontains.2
            rw [hgroup, groupFor_of_contains hvalid hr ⟨hfirst, hstart⟩]

end Valid

end GroupRouter

end SqlDb.Raft
