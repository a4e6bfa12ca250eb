/-
  ONE TRANSACTION, SEVERAL GROUPS  (`check_group` and its callers, raft/raft_kv_store.cpp).

  Two promises are looked at here, both over whole runs of calls on one connection:

  * what is handed to the executor of a group belongs to that group, and is handed over under the
    group's write slot;
  * a transaction that writes to a group reads no data of another one, a transaction that has read
    data of two groups writes no more, and without loose reads none reads data of two groups.

  The first one is kept by every write outside a transaction.  A transaction's buffer belongs to the
  group the transaction is BOUND to, but it goes to the group of the SLOT that is held; a slot taken
  earlier for another group is not noticed (`right_group_iff`).

  The second one is kept by every lookup.  A scan is judged by its first key: one that starts among the
  keys of the catalog and goes on behind them reads data that no rule sees (`cross_group_rules`).
-/
import Mathlib.Data.List.Induction
import SqlDb.Lib.History
import SqlDb.Raft.RaftKvEngine

namespace SqlDb.Raft

open Kv (Op WriteBatch KeyRange)
open History

namespace RaftKvEngine

/-- A new connection. -/
def fresh (clientId : Nat) (loose : Bool) : RaftKvEngine :=
  { clientId, looseCrossGroupReads := loose }

/-- Calls on a connection, each with what the node answers during it. -/
def runCalls (router : GroupRouter) (s : RaftKvEngine) (calls : List (NodeView × Call)) :
    RaftKvEngine :=
  calls.foldl (fun s c => (call { c.1 with router } c.2 s).2) s

variable {s : RaftKvEngine}

/-- What holds of a new connection and is kept by every step holds after every run. -/
theorem runCalls_induction {router : GroupRouter} {I : RaftKvEngine → Prop}
    (hstep : ∀ {s s'}, EngineStep router s s' → I s → I s') (hwf : s.Wf) (hs : I s)
    (calls : List (NodeView × Call)) : I (runCalls router s calls) := by
  induction calls generalizing s with
  | nil => exact hs
  | cons c rest ih =>
    have hpath : Path router s (call { c.1 with router } c.2 s).2 :=
      run_call { c.1 with router } c.2 hwf
    exact ih (wf_path hpath hwf) (path_induction hstep hpath hs)

/-! ## The write slot -/

/-- The group whose slot is held after a history. -/
def holder (history : List EngineEvent) : Option Nat :=
  history.foldl (fun held e => match e with
    | .acquired group => some group
    | .released _ => none
    | _ => held) none

theorem holder_snoc (history : List EngineEvent) (e : EngineEvent) :
    holder (history ++ [e]) = match e with
      | .acquired group => some group
      | .released _ => none
      | _ => holder history := by
  unfold holder
  rw [List.foldl_append]
  cases e <;> rfl

/-- A slot is taken by one who has none, and given back by the one who has it. -/
def SlotRule (before : List EngineEvent) : EngineEvent → Prop
  | .acquired _ => holder before = none
  | .released group => holder before = some group
  | _ => True

variable {s s' : RaftKvEngine}

theorem slot_step {router : GroupRouter} (h : EngineStep router s s')
    (hs : holder s.trace = s.writeGroup ∧ Always SlotRule s.trace) :
    holder s'.trace = s'.writeGroup ∧ Always SlotRule s'.trace := by
  obtain ⟨hholder, hrule⟩ := hs
  -- an event that is no slot event
  have hother : ∀ e : EngineEvent, (holder (s.trace ++ [e]) = holder s.trace) → SlotRule s.trace e →
      holder (s.trace ++ [e]) = s.writeGroup ∧ Always SlotRule (s.trace ++ [e]) :=
    fun e hsame he => ⟨hsame.trans hholder, always_snoc.mpr ⟨hrule, he⟩⟩
  cases h with
  | noted | bound | crossed => exact ⟨hholder, hrule⟩
  | unrouted | looked | scanned | buffered | proposed | began | ended =>
    exact hother _ (holder_snoc _ _) trivial
  | acquired group hfree =>
    refine ⟨holder_snoc _ _, always_snoc.mpr ⟨hrule, ?_⟩⟩
    exact hholder.trans hfree
  | released group hheld =>
    refine ⟨holder_snoc _ _, always_snoc.mpr ⟨hrule, ?_⟩⟩
    exact hholder.trans hheld

/-! ## The right group -/

/-- The operation touches keys of the group only. -/
def Lies (router : GroupRouter) (group : Nat) : Op → Prop
  | .put key _ => router.groupFor key = group
  | .remove key => router.groupFor key = group
  | .removeRange start stop => ∀ key, ¬ key < start → key < stop → router.groupFor key = group

/-- The operation touches some key, whatever the store holds. -/
def NamesKey : Op → Prop
  | .put _ _ => True
  | .remove _ => True
  | .removeRange start stop => start < stop

/-- What is proposed to a group is the group's, and the group's slot is held then. -/
def RightGroup (router : GroupRouter) (before : List EngineEvent) : EngineEvent → Prop
  | .proposed group _ payload =>
    (∀ op ∈ payload.batch, Lies router group op) ∧ holder before = some group
  | _ => True

/-- A transaction's buffer is proposed under the slot of the group the transaction is bound to. -/
def OwnSlot : EngineEvent → Prop
  | .proposed group (some bound) payload => group = bound ∨ ∀ op ∈ payload.batch, ¬ NamesKey op
  | _ => True

section RightGroup

variable {router : GroupRouter} (hvalid : router.validate = none)

include hvalid in
theorem lies_of_opGroup {op : Op} {group : Nat} (h : router.opGroup op = some group) :
    Lies router group op := by
  cases op with
  | put | remove => exact Option.some.inj h
  | removeRange start stop =>
    intro key hlow hhigh
    refine GroupRouter.groupFor_of_rangeGroup hvalid h hlow ?_
    intro e he
    rwa [← Option.some.inj he]

include hvalid in
/-- An operation that touches a key lies in one group. -/
theorem lies_unique {op : Op} {group other : Nat} (h : router.opGroup op = some group)
    (hlies : Lies router other op) (hkey : NamesKey op) : other = group := by
  have hown := lies_of_opGroup hvalid h
  cases op with
  | put | remove => exact hlies.symm.trans hown
  | removeRange start stop =>
    have hfirst := SortedMap.key_irrefl start
    exact (hlies start hfirst hkey).symm.trans (hown start hfirst hkey)

theorem lies_of_no_key {op : Op} (h : ¬ NamesKey op) (group : Nat) : Lies router group op := by
  cases op with
  | put | remove => exact absurd trivial h
  | removeRange start stop =>
    intro key hlow hhigh
    exact absurd (HalfOpen.lt_of_not_lt_of_lt hlow hhigh) h

/-- The groups of what has been proposed. -/
def Routed (router : GroupRouter) : EngineEvent → Prop
  | .proposed group none payload => ∀ op ∈ payload.batch, router.opGroup op = some group
  | .proposed _ (some bound) payload => ∀ op ∈ payload.batch, router.opGroup op = some bound
  | _ => True

/-- What is in the buffer belongs to the group that the transaction is bound to. -/
def Bound (router : GroupRouter) (s : RaftKvEngine) : Prop :=
  ∀ tx, s.tx = some tx → tx.log ≠ [] →
    ∃ bound, s.boundGroup = some bound ∧ ∀ op ∈ tx.log, router.opGroup op = some bound

theorem routed_step (h : EngineStep router s s')
    (hs : Bound router s ∧ Always (fun before e => Routed router e ∧
      ∀ group bound payload, e = .proposed group bound payload → holder before = some group) s.trace ∧
      holder s.trace = s.writeGroup ∧ Always SlotRule s.trace) :
    Bound router s' ∧ Always (fun before e => Routed router e ∧
      ∀ group bound payload, e = .proposed group bound payload → holder before = some group) s'.trace ∧
      holder s'.trace = s'.writeGroup ∧ Always SlotRule s'.trace := by
  obtain ⟨hbound, hrouted, hslot⟩ := hs
  have hslot' := slot_step h hslot
  cases h with
  | noted | crossed => exact ⟨hbound, hrouted, hslot'⟩
  | unrouted | looked | scanned =>
    exact ⟨hbound, always_snoc.mpr ⟨hrouted, trivial, by simp⟩, hslot'⟩
  | bound group hfree =>
    refine ⟨fun tx htx hlog => ?_, hrouted, hslot'⟩
    obtain ⟨bound, hsome, _⟩ := hbound tx htx hlog
    rw [hfree] at hsome
    simp at hsome
  | acquired | released =>
    exact ⟨hbound, always_snoc.mpr ⟨hrouted, trivial, by simp⟩, hslot'⟩
  | ended _ => exact ⟨fun _ htx => by simp [record] at htx,
      always_snoc.mpr ⟨hrouted, trivial, by simp⟩, hslot'⟩
  | began _ _ _ =>
    refine ⟨fun tx htx hlog => ?_, always_snoc.mpr ⟨hrouted, trivial, by simp⟩, hslot'⟩
    cases htx
    exact absurd rfl hlog
  | buffered batch group htx hgroup hcrossed hheld hops =>
    refine ⟨fun tx' htx' _ => ⟨group, hgroup, ?_⟩, always_snoc.mpr ⟨hrouted, trivial, by simp⟩, hslot'⟩
    obtain ⟨tx, hsome⟩ := Option.isSome_iff_exists.mp htx
    have heq : tx' = tx.writeAll batch := by
      have hmap : s.tx.map (fun tx => tx.writeAll batch) = some tx' := htx'
      rw [hsome] at hmap
      exact (Option.some.inj hmap).symm
    rw [heq, Kv.TxBuffer.log_writeAll]
    intro op hop
    rcases List.mem_append.mp hop with hold | hnew
    · -- the buffer was not empty, so the transaction was bound to the same group
      obtain ⟨bound, hbound, hall⟩ := hbound tx hsome (List.ne_nil_of_mem hold)
      rw [hgroup] at hbound
      rw [hall op hold, Option.some.inj hbound]
    · exact hops op hnew
  | proposed batch group hheld hbatch =>
    refine ⟨hbound, always_snoc.mpr ⟨hrouted, ?_, ?_⟩, hslot'⟩
    · rcases hbatch with ⟨hnone, hops⟩ | ⟨tx, hsome, rfl, hlog⟩
      · have hgroup : s.txGroup = none := by simp [txGroup, hnone]
        rw [hgroup]
        exact hops
      · obtain ⟨bound, hsomeBound, hops⟩ := hbound tx hsome hlog
        have hgroup : s.txGroup = some bound := by simp [txGroup, hsome, hsomeBound]
        rw [hgroup]
        exact hops
    · intro g b p heq
      cases heq
      exact hslot.1.trans hheld

theorem routed_run (clientId : Nat) (loose : Bool) (calls : List (NodeView × Call)) :
    Always (fun before e => Routed router e ∧
      ∀ group bound payload, e = .proposed group bound payload → holder before = some group)
      (runCalls router (fresh clientId loose) calls).trace :=
  (runCalls_induction routed_step (fun _ => rfl)
    ⟨fun _ htx => by simp [fresh] at htx, always_nil, rfl, always_nil⟩ calls).2.1

/-- **Right group**: in every run, what is proposed to a group belongs to it and is proposed under its
    slot, EXACTLY IF every transaction's buffer is proposed under the slot of the group that the
    transaction is bound to. -/
theorem right_group_iff (hvalid : router.validate = none) (clientId : Nat) (loose : Bool)
    (calls : List (NodeView × Call)) :
    Always (RightGroup router) (runCalls router (fresh clientId loose) calls).trace ↔
      Always (fun _ e => OwnSlot e) (runCalls router (fresh clientId loose) calls).trace := by
  have hrouted := @routed_run router clientId loose calls
  constructor
  · intro hright before e after heq
    obtain ⟨hops, _⟩ := hrouted before e after heq
    have he := hright before e after heq
    cases e with
    | proposed group bound payload =>
      cases bound with
      | none => trivial
      | some bound =>
        by_cases hkey : ∃ op ∈ payload.batch, NamesKey op
        · obtain ⟨op, hop, hnames⟩ := hkey
          exact Or.inl (lies_unique hvalid (hops op hop) (he.1 op hop) hnames)
        · exact Or.inr fun op hop hnames => hkey ⟨op, hop, hnames⟩
    | _ => trivial
  · intro hown before e after heq
    obtain ⟨hops, hheld⟩ := hrouted before e after heq
    have he := hown before e after heq
    cases e with
    | proposed group bound payload =>
      refine ⟨fun op hop => ?_, hheld group bound payload rfl⟩
      cases bound with
      | none => exact lies_of_opGroup hvalid (hops op hop)
      | some bound =>
        rcases he with rfl | hnokey
        · exact lies_of_opGroup hvalid (hops op hop)
        · exact lies_of_no_key (hnokey op hop) group
    | _ => trivial

end RightGroup

/-! ### A slot that was taken before -/

/-- The keys from "b" to "c" belong to group 1. -/
def twoGroups : GroupRouter := ⟨[⟨ascii "b", ascii "c", 1⟩]⟩

def twoNode : NodeView := { router := twoGroups, executors := [0, 1] }

/-- The slot is taken without a group, and then a transaction writes to group 1. -/
def slotFirst : List (NodeView × Call) :=
  [.acquireWriteSlot none, .beginTransaction, .put (ascii "b") [1], .commitTransaction].map
    fun c => (twoNode, c)

/-- The buffer with the key of group 1 is proposed to group 0. -/
theorem wrong_group_proposed : twoGroups.validate = none ∧
    ¬ Always (RightGroup twoGroups) (runCalls twoGroups (fresh 7 false) slotFirst).trace := by
  refine ⟨by decide, fun hright => ?_⟩
  have hbad := hright [.acquired 0, .began, .buffered [.put (ascii "b") [1]]]
    (.proposed 0 (some 1) ⟨7, 1, [.put (ascii "b") [1]]⟩) [.ended, .released 0] rfl
  have hlies : twoGroups.groupFor (ascii "b") = 0 := hbad.1 _ List.mem_cons_self
  exact absurd hlies (by decide)

/-- Without the call that takes the slot, the same transaction goes to its own group. -/
theorem right_group_without_slot : twoGroups.validate = none ∧
    Always (RightGroup twoGroups) (runCalls twoGroups (fresh 7 false) slotFirst.tail).trace := by
  refine ⟨by decide, (right_group_iff (by decide) 7 false slotFirst.tail).mpr ?_⟩
  have htrace : (runCalls twoGroups (fresh 7 false) slotFirst.tail).trace =
      [] ++ [.began] ++ [.acquired 1] ++ [.buffered [.put (ascii "b") [1]]] ++
        [.proposed 1 (some 1) ⟨7, 1, [.put (ascii "b") [1]]⟩] ++ [.ended] ++ [.released 1] := rfl
  rw [htrace]
  simp only [always_snoc]
  exact ⟨⟨⟨⟨⟨⟨always_nil, trivial⟩, trivial⟩, trivial⟩, Or.inl rfl⟩, trivial⟩, trivial⟩

/-! ## Transactions that touch several groups -/

/-- What has happened in the transaction that is open after a history. -/
def inTx (history : List EngineEvent) : Option (List EngineEvent) :=
  history.foldl (fun events e => match e with
    | .began => some []
    | .ended => none
    | e => events.map (· ++ [e])) none

theorem inTx_snoc (history : List EngineEvent) (e : EngineEvent) :
    inTx (history ++ [e]) = match e with
      | .began => some []
      | .ended => none
      | e => (inTx history).map (· ++ [e]) := by
  unfold inTx
  rw [List.foldl_append]
  cases e <;> rfl

/-- The event reads data of the group.  Keys of the catalog are no data. -/
def Reads (router : GroupRouter) (group : Nat) : EngineEvent → Prop
  | .looked keys => ∃ key ∈ keys, GroupRouter.isSystemKey key = false ∧ router.groupFor key = group
  | .scanned range => ∃ key, ¬ key < range.start.getD [] ∧ (∀ stop ∈ range.stop, key < stop) ∧
      GroupRouter.isSystemKey key = false ∧ router.groupFor key = group
  | _ => False

/-- The event is a write to the group. -/
def Writes (router : GroupRouter) (group : Nat) : EngineEvent → Prop
  | .buffered batch => ∃ op ∈ batch, router.opGroup op = some group
  | _ => False

/-- A scan that starts among the keys of the catalog stays there. -/
def ScanStays : EngineEvent → Prop
  | .scanned range => GroupRouter.isSystemKey (range.start.getD []) = true →
      ∀ key, ¬ key < range.start.getD [] → (∀ stop ∈ range.stop, key < stop) →
        GroupRouter.isSystemKey key = true
  | _ => True

/-- The rules, for the next event of a transaction in which `events` have happened. -/
structure GroupRules (router : GroupRouter) (loose : Bool) (events : List EngineEvent)
    (e : EngineEvent) : Prop where
  /-- A transaction that has written to a group reads no data of another one. -/
  readsOwn : ∀ w ∈ events, ∀ group other, Writes router group w → Reads router other e → other = group
  /-- A transaction that has read data of two groups writes no more. -/
  frozen : ∀ r ∈ events, ∀ r' ∈ events, ∀ group other, Reads router group r → Reads router other r' →
    group ≠ other → ∀ written, ¬ Writes router written e
  /-- Without loose reads no transaction reads data of two groups. -/
  strict : loose = false → ∀ r ∈ events ++ [e], ∀ group other, Reads router group r →
    Reads router other e → group = other

section Rules

variable {router : GroupRouter}

/-- What the flags of a transaction say about its events. -/
structure Flags (router : GroupRouter) (s : RaftKvEngine) (events : List EngineEvent) : Prop where
  reads : ∀ r ∈ events, ∀ group, Reads router group r →
    s.boundGroup = some group ∨ (s.crossedGroups = true ∧ s.looseCrossGroupReads = true)
  writes : ∀ w ∈ events, ∀ group, Writes router group w → s.boundGroup = some group ∧ s.wrote = true

/-- The invariant of a run: what is known of the transaction that is open. -/
structure TxInv (router : GroupRouter) (loose : Bool) (s : RaftKvEngine) : Prop where
  mode : s.looseCrossGroupReads = loose
  open_iff : (inTx s.trace).isSome = s.tx.isSome
  notBoth : s.wrote = true → s.crossedGroups = false
  flags : ∀ events, inTx s.trace = some events → Flags router s events

/-- The rules, for every event of a history that happens in a transaction. -/
def KeepsRules (router : GroupRouter) (loose : Bool) (before : List EngineEvent) (e : EngineEvent) :
    Prop :=
  ∀ events, inTx before = some events → GroupRules router loose events e

variable {loose : Bool} {events : List EngineEvent} {e : EngineEvent}

/-- An event that neither reads nor writes keeps the rules. -/
theorem groupRules_of_silent
    (hreads : ∀ group, ¬ Reads router group e) (hwrites : ∀ group, ¬ Writes router group e) :
    GroupRules router loose events e where
  readsOwn _ _ _ other _ hr := absurd hr (hreads other)
  frozen _ _ _ _ _ _ _ _ _ written := hwrites written
  strict _ _ _ _ other _ hr := absurd hr (hreads other)

/-- A read that the flags allow keeps the rules. -/
theorem groupRules_of_read (hmode : s.looseCrossGroupReads = loose) (hflags : Flags router s events)
    (htx : s.tx.isSome = true) (hmay : ∀ group, Reads router group e → s.MayRead group)
    (hwrites : ∀ group, ¬ Writes router group e) : GroupRules router loose events e where
  readsOwn w hw group other hwrite hread := by
    obtain ⟨hbound, hwrote⟩ := hflags.writes w hw group hwrite
    rcases hmay other hread htx with hown | ⟨_, hnot, _⟩
    · exact Option.some.inj (hown.symm.trans hbound)
    · rw [hwrote] at hnot
      simp at hnot
  frozen _ _ _ _ _ _ _ _ _ written := hwrites written
  strict hstrict r hr group other hgroup hother := by
    -- without loose reads, the transaction is bound to whatever it reads
    have hbound : ∀ {g}, s.MayRead g → s.boundGroup = some g := by
      intro g hg
      rcases hg htx with hown | ⟨_, _, hloose⟩
      · exact hown
      · rw [hmode, hstrict] at hloose
        simp at hloose
    have hnew := hbound (hmay other hother)
    rcases mem_snoc.mp hr with hold | rfl
    · rcases hflags.reads r hold group hgroup with hown | ⟨_, hloose⟩
      · exact Option.some.inj (hown.symm.trans hnew)
      · rw [hmode, hstrict] at hloose
        simp at hloose
    · exact Option.some.inj ((hbound (hmay group hgroup)).symm.trans hnew)

/-- A write that the flags allow keeps the rules. -/
theorem groupRules_of_write
    {batch : WriteBatch} (hflags : Flags router s events) (hcrossed : s.crossedGroups = false) :
    GroupRules router loose events (.buffered batch) where
  readsOwn _ _ _ _ _ hr := hr.elim
  frozen r hr r' hr' group other hgroup hother hne := by
    have hbound : ∀ {r g}, r ∈ events → Reads router g r → s.boundGroup = some g := by
      intro r g hr hg
      rcases hflags.reads r hr g hg with hown | ⟨hcross, _⟩
      · exact hown
      · rw [hcrossed] at hcross
        simp at hcross
    exact absurd (Option.some.inj ((hbound hr hgroup).symm.trans (hbound hr' hother))) hne
  strict _ _ _ _ _ _ hr := hr.elim

/-- What a scan reads is what its first key stands for, if it does not leave the catalog. -/
theorem mayRead_of_scan (hvalid : router.validate = none) {range : KeyRange}
    {group : Nat} (hgroup : router.rangeGroup (range.start.getD []) range.stop = some group)
    (hmay : GroupRouter.isSystemKey (range.start.getD []) = false → s.MayRead group)
    (hstays : ScanStays (.scanned range)) {g : Nat} (hread : Reads router g (.scanned range)) :
    s.MayRead g := by
  obtain ⟨key, hlow, hhigh, hdata, rfl⟩ := hread
  rw [GroupRouter.groupFor_of_rangeGroup hvalid hgroup hlow hhigh]
  apply hmay
  by_contra hsystem
  have := hstays (by simpa using hsystem) key hlow hhigh
  rw [hdata] at this
  simp at this

/-- The flags after an event of the transaction that leaves the connection as it is. -/
theorem Flags.snoc (h : Flags router s events) (htx : s.tx.isSome = true)
    (hmay : ∀ group, Reads router group e → s.MayRead group)
    (hwrites : ∀ group, ¬ Writes router group e) : Flags router s (events ++ [e]) where
  reads r hr group hgroup := by
    rcases mem_snoc.mp hr with hold | rfl
    · exact h.reads r hold group hgroup
    · exact (hmay group hgroup htx).imp id fun hloose => ⟨hloose.1, hloose.2.2⟩
  writes w hw group hwrite := by
    rcases mem_snoc.mp hw with hold | rfl
    · exact h.writes w hold group hwrite
    · exact absurd hwrite (hwrites group)

/-- Two states with the same transaction and the same flags. -/
structure SameFlags (s s' : RaftKvEngine) : Prop where
  tx : s'.tx.isSome = s.tx.isSome
  boundGroup : s'.boundGroup = s.boundGroup
  crossedGroups : s'.crossedGroups = s.crossedGroups
  wrote : s'.wrote = s.wrote
  loose : s'.looseCrossGroupReads = s.looseCrossGroupReads

theorem SameFlags.flags (h : SameFlags s s')
    (hflags : Flags router s events) : Flags router s' events where
  reads r hr group hgroup := by
    rw [h.boundGroup, h.crossedGroups, h.loose]
    exact hflags.reads r hr group hgroup
  writes w hw group hwrite := by
    rw [h.boundGroup, h.wrote]
    exact hflags.writes w hw group hwrite

/-- An event other than a write, of a transaction that keeps its flags. -/
theorem txInv_event
    (hs : TxInv router loose s) (hsame : SameFlags s s') (htrace : s'.trace = s.trace ++ [e])
    (hin : inTx (s.trace ++ [e]) = (inTx s.trace).map (· ++ [e]))
    (hmay : ∀ group, Reads router group e → s.MayRead group)
    (hwrites : ∀ group, ¬ Writes router group e) :
    TxInv router loose s' ∧ KeepsRules router loose s.trace e := by
  have hopen : ∀ {events}, inTx s.trace = some events → s.tx.isSome = true := by
    intro events hevents
    rw [← hs.open_iff, hevents]
    rfl
  refine ⟨⟨hsame.loose.trans hs.mode, ?_, ?_, ?_⟩, ?_⟩
  · rw [htrace, hin, Option.isSome_map, hs.open_iff, hsame.tx]
  · rw [hsame.wrote, hsame.crossedGroups]
    exact hs.notBoth
  · intro events hevents
    rw [htrace, hin] at hevents
    obtain ⟨old, hold, rfl⟩ := Option.map_eq_some_iff.mp hevents
    exact hsame.flags ((hs.flags old hold).snoc (hopen hold) hmay hwrites)
  · intro events hevents
    exact groupRules_of_read hs.mode (hs.flags events hevents) (hopen hevents) hmay hwrites

/-- Scans in transactions stay in the catalog if they start there. -/
def ScanCondition (before : List EngineEvent) (e : EngineEvent) : Prop :=
  (inTx before).isSome = true → ScanStays e

/-- The invariant of a run, as far as its scans meet the condition. -/
def RuleInv (router : GroupRouter) (loose : Bool) (s : RaftKvEngine) : Prop :=
  Always ScanCondition s.trace → TxInv router loose s ∧ Always (KeepsRules router loose) s.trace

theorem rule_step (hvalid : router.validate = none)
    (h : EngineStep router s s') (hs : RuleInv router loose s) : RuleInv router loose s' := by
  intro hscans
  -- an event that neither reads nor writes, and leaves the flags alone
  have hsilent : ∀ {t : RaftKvEngine} {e : EngineEvent}, t.trace = s.trace ++ [e] →
      Always ScanCondition (s.trace ++ [e]) → SameFlags s t →
      inTx (s.trace ++ [e]) = (inTx s.trace).map (· ++ [e]) →
      (∀ group, ¬ Reads router group e) → (∀ group, ¬ Writes router group e) →
      TxInv router loose t ∧ Always (KeepsRules router loose) t.trace := by
    intro t e htrace hcond hsame hin hreads hwrites
    obtain ⟨hinv, hrules⟩ := hs (always_snoc.mp hcond).1
    obtain ⟨hinv', hnew⟩ := txInv_event hinv hsame htrace hin
      (fun g hg => absurd hg (hreads g)) hwrites
    exact ⟨hinv', htrace ▸ always_snoc.mpr ⟨hrules, hnew⟩⟩
  cases h with
  | noted =>
    obtain ⟨hinv, hrules⟩ := hs hscans
    refine ⟨⟨hinv.mode, hinv.open_iff, hinv.notBoth, fun events hevents => ?_⟩, hrules⟩
    have hflags := hinv.flags events hevents
    exact ⟨hflags.reads, hflags.writes⟩
  | unrouted | acquired | released | proposed =>
    exact hsilent rfl hscans ⟨rfl, rfl, rfl, rfl, rfl⟩ (inTx_snoc _ _) (fun _ h => h) fun _ h => h
  | bound group hfree =>
    obtain ⟨hinv, hrules⟩ := hs hscans
    refine ⟨⟨hinv.mode, hinv.open_iff, hinv.notBoth, fun events hevents => ?_⟩, hrules⟩
    have hflags := hinv.flags events hevents
    refine ⟨fun r hr g hg => ?_, fun w hw g hg => ?_⟩
    · rcases hflags.reads r hr g hg with hown | hloose
      · rw [hfree] at hown
        simp at hown
      · exact Or.inr hloose
    · have hown := (hflags.writes w hw g hg).1
      rw [hfree] at hown
      simp at hown
  | crossed hbound hwrote =>
    obtain ⟨hinv, hrules⟩ := hs hscans
    refine ⟨⟨hinv.mode, hinv.open_iff, fun h => ?_, fun events hevents => ?_⟩, hrules⟩
    · have h' : s.wrote = true := h
      rw [hwrote] at h'
      simp at h'
    · have hflags := hinv.flags events hevents
      refine ⟨fun r hr g hg => ?_, hflags.writes⟩
      exact (hflags.reads r hr g hg).imp id fun hloose => ⟨rfl, hloose.2⟩
  | looked keys hmay =>
    obtain ⟨hinv, hrules⟩ := hs (always_snoc.mp hscans).1
    have hreads : ∀ group, Reads router group (.looked keys) → s.MayRead group := by
      rintro g ⟨key, hkey, hdata, rfl⟩
      exact hmay key hkey hdata
    have hnew : TxInv router loose (record (.looked keys) s) ∧
        KeepsRules router loose s.trace (.looked keys) :=
      txInv_event hinv ⟨rfl, rfl, rfl, rfl, rfl⟩ rfl (inTx_snoc _ _) hreads fun _ h => h
    exact ⟨hnew.1, always_snoc.mpr ⟨hrules, hnew.2⟩⟩
  | scanned range group hgroup hmay =>
    obtain ⟨hold, hcond⟩ := always_snoc.mp hscans
    obtain ⟨hinv, hrules⟩ := hs hold
    have hreads : ∀ group, Reads router group (.scanned range) → s.MayRead group := by
      intro g hread htx
      refine mayRead_of_scan hvalid hgroup hmay (hcond ?_) hread htx
      rw [hinv.open_iff, htx]
    have hnew : TxInv router loose (record (.scanned range) s) ∧
        KeepsRules router loose s.trace (.scanned range) :=
      txInv_event hinv ⟨rfl, rfl, rfl, rfl, rfl⟩ rfl (inTx_snoc _ _) hreads fun _ h => h
    exact ⟨hnew.1, always_snoc.mpr ⟨hrules, hnew.2⟩⟩
  | buffered batch group htx hbound hcrossed hheld hops =>
    obtain ⟨hinv, hrules⟩ := hs (always_snoc.mp hscans).1
    refine ⟨⟨hinv.mode, ?_, fun _ => hcrossed, fun events hevents => ?_⟩,
      always_snoc.mpr ⟨hrules, fun events hevents =>
        groupRules_of_write (hinv.flags events hevents) hcrossed⟩⟩
    · show (inTx (s.trace ++ [.buffered batch])).isSome = (s.tx.map _).isSome
      rw [inTx_snoc, Option.isSome_map, Option.isSome_map, hinv.open_iff]
    · have hin : inTx (s.trace ++ [.buffered batch]) = some events := hevents
      rw [inTx_snoc] at hin
      obtain ⟨old, hold, rfl⟩ := Option.map_eq_some_iff.mp hin
      have hflags := hinv.flags old hold
      refine ⟨fun r hr g hg => ?_, fun w hw g hg => ?_⟩
      · rcases mem_snoc.mp hr with hr | rfl
        · exact hflags.reads r hr g hg
        · exact hg.elim
      · rcases mem_snoc.mp hw with hw | rfl
        · exact ⟨(hflags.writes w hw g hg).1, rfl⟩
        · obtain ⟨op, hop, hgroup⟩ := hg
          rw [hops op hop] at hgroup
          exact ⟨hbound.trans hgroup, rfl⟩
  | began snapshot proven hfree =>
    obtain ⟨hinv, hrules⟩ := hs (always_snoc.mp hscans).1
    refine ⟨⟨hinv.mode, ?_, fun h => absurd h (by simp [record]), fun events hevents => ?_⟩,
      always_snoc.mpr ⟨hrules, fun _ _ => groupRules_of_silent (fun _ h => h) fun _ h => h⟩⟩
    · show (inTx (s.trace ++ [.began])).isSome = true
      rw [inTx_snoc]
      rfl
    · have hin : inTx (s.trace ++ [.began]) = some events := hevents
      rw [inTx_snoc] at hin
      cases hin
      exact ⟨by simp, by simp⟩
  | ended htx =>
    obtain ⟨hinv, hrules⟩ := hs (always_snoc.mp hscans).1
    refine ⟨⟨hinv.mode, ?_, hinv.notBoth, fun events hevents => ?_⟩,
      always_snoc.mpr ⟨hrules, fun _ _ => groupRules_of_silent (fun _ h => h) fun _ h => h⟩⟩
    · show (inTx (s.trace ++ [.ended])).isSome = false
      rw [inTx_snoc]
      rfl
    · have hin : inTx (s.trace ++ [.ended]) = some events := hevents
      rw [inTx_snoc] at hin
      simp at hin

/-- **Cross-group rules**: in every run in which the scans of transactions that start among the keys
    of the catalog stay there, every event of every transaction keeps the rules. -/
theorem cross_group_rules (hvalid : router.validate = none) (clientId : Nat) (loose : Bool)
    (calls : List (NodeView × Call))
    (hscans : Always ScanCondition (runCalls router (fresh clientId loose) calls).trace) :
    Always (KeepsRules router loose) (runCalls router (fresh clientId loose) calls).trace := by
  have hfresh : RuleInv router loose (fresh clientId loose) := fun _ =>
    ⟨⟨rfl, rfl, fun h => absurd h (by simp [fresh]), fun events hevents => by
      simp [fresh, inTx] at hevents⟩, always_nil⟩
  exact (runCalls_induction (rule_step hvalid) (fun _ => rfl) hfresh calls hscans).2

end Rules

/-! ### A scan that leaves the catalog -/

/-- The store has the key "A", which is no key of the catalog and belongs to group 0. -/
def scanNode : NodeView := { twoNode with data := (default : Kv.Data).insert (ascii "A") [9] }

def behindCatalog : KeyRange := { start := some (ascii "@system/"), stop := some (ascii "a") }

/-- A transaction writes to group 1 and then scans from the first key of the catalog up to "a". -/
def scanBehind : List (NodeView × Call) :=
  [.beginTransaction, .put (ascii "b") [1], .newIterator behindCatalog].map fun c => (scanNode, c)

/-- The key that the scan starts with. -/
def firstKey (s : RaftKvEngine) : Option Bytes :=
  match (newIterator scanNode behindCatalog s).1 with
  | .ok it => if Kv.Iterator.valid it then some (Kv.Iterator.key it) else none
  | .error _ => none

/-- The scan is handed out, and its first key is the one of group 0. -/
theorem scan_behind_catalog : twoGroups.validate = none ∧
    firstKey (runCalls twoGroups (fresh 7 false) (scanBehind.take 2)) = some (ascii "A") ∧
    ¬ Always (KeepsRules twoGroups false) (runCalls twoGroups (fresh 7 false) scanBehind).trace := by
  refine ⟨by decide, by decide +kernel, fun hrules => ?_⟩
  have hbad := hrules [.began, .acquired 1, .buffered [.put (ascii "b") [1]]]
    (.scanned behindCatalog) [] rfl [.acquired 1, .buffered [.put (ascii "b") [1]]] rfl
  have hwrite : Writes twoGroups 1 (.buffered [.put (ascii "b") [1]]) :=
    ⟨_, List.mem_cons_self, by decide⟩
  have hread : Reads twoGroups 0 (.scanned behindCatalog) := by
    refine ⟨ascii "A", by decide, ?_, by decide, by decide⟩
    intro stop hstop
    cases hstop
    decide
  have := hbad.readsOwn _ (List.mem_cons_of_mem _ List.mem_cons_self) 1 0 hwrite hread
  simp at this

/-- The same transaction with a read of its own group instead of the scan. -/
theorem cross_group_rules_lookup :
    Always (KeepsRules twoGroups false) (runCalls twoGroups (fresh 7 false)
      (scanBehind.take 2 ++ [(twoNode, .get (ascii "b"))])).trace := by
  refine cross_group_rules (by decide) 7 false _ ?_
  have htrace : (runCalls twoGroups (fresh 7 false)
      (scanBehind.take 2 ++ [(twoNode, .get (ascii "b"))])).trace =
      [] ++ [.began] ++ [.acquired 1] ++ [.buffered [.put (ascii "b") [1]]] ++
        [.looked [ascii "b"]] := rfl
  rw [htrace]
  simp only [always_snoc]
  exact ⟨⟨⟨⟨always_nil, fun _ => trivial⟩, fun _ => trivial⟩, fun _ => trivial⟩, fun _ => trivial⟩

end RaftKvEngine

end SqlDb.Raft
