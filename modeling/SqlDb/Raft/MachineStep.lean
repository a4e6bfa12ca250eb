/-
  WHAT A STEP MEANS FOR THE STATE MACHINE.

  Most of what a node does leaves its state machine alone.  `MachineStep` groups the steps of a node
  by what they do to the machine, to the applied index and to the snapshot being received, and keeps
  for each what the code has checked:

    * `applied` — the next entry was applied, and the events say so;
    * `chunk`, `install` — a snapshot arrives piece by piece and replaces the machine's content;
    * `failed` — the machine was asked to do something and refused;
    * `unrecorded` — the machine was replaced but the log store did not follow.
-/
import SqlDb.Raft.GroupRun
import SqlDb.Raft.Clients

namespace SqlDb.Raft

/-- The entry an event reports as applied. -/
def Event.entry : Event → Option LogEntry
  | .applied _ entry none => some entry
  | _ => none

/-- The entries a list of events reports as applied, in order. -/
def appliedIn (events : List Event) : List LogEntry := events.filterMap Event.entry

theorem appliedIn_append (events more : List Event) :
    appliedIn (events ++ more) = appliedIn events ++ appliedIn more := List.filterMap_append

namespace RaftNode

variable {σ : Type}

theorem appliedIn_finishes (ids : List CompletionId) (error : Option Error) (i : Nat) :
    appliedIn (finishes ids error i) = [] := by
  unfold appliedIn finishes
  rw [List.filterMap_map, List.filterMap_eq_nil_iff]
  intro id _
  rfl

theorem appliedIn_finish (ids : List CompletionId) (error : Option Error) (x : RaftNode σ) :
    appliedIn (finish ids error x).events = appliedIn x.events := by
  have hev : (finish ids error x).events = x.events ++ finishes ids error x.lastApplied := rfl
  rw [hev, appliedIn_append, appliedIn_finishes, List.append_nil]

/-- The events of a node only grow, and report at most the next entry as applied. -/
theorem ClientStep.events {x y : RaftNode σ} (h : ClientStep x y) :
    ∃ more, y.events = x.events ++ more ∧ (appliedIn more = [] ∨
      y.lastApplied = x.lastApplied + 1 ∧ ∃ entry fin, more = .applied x.hardState.term entry none :: fin ∧
        appliedIn fin = [] ∧ x.logStore.entryAt (x.lastApplied + 1) = .ok entry) := by
  cases h with
  | same happlied hev hpp hrd hid => exact ⟨[], by rw [hev, List.append_nil], Or.inl rfl⟩
  | unrecorded happlied hev hpp hrd hid | propose entry hindex hentry happlied hev hpp hrd hid
  | answerRead b hb hrole happlied hready hall hsettled hev hpp hrd hid =>
    exact ⟨_, hev, Or.inl rfl⟩
  | openRead b hb hrole happlied hev hpp hrd hid =>
    exact ⟨[], by rw [hev, List.append_nil], Or.inl rfl⟩
  | applied entry hlt hentry happlied hev hpp hrd hid =>
    exact ⟨_, hev, Or.inr ⟨happlied, entry, _, rfl, appliedIn_finishes _ _ _, hentry⟩⟩
  | applyFailed entry e keep happlied hlt hentry hev hpp hrd hid
  | finishReads happlied hready hev hpp hrd hid =>
    exact ⟨_, hev, Or.inl (appliedIn_finishes _ _ _)⟩
  | lost e e' hrole hev hpp hrd hid =>
    refine ⟨_, (hev.trans (List.append_assoc _ _ _)), Or.inl ?_⟩
    rw [appliedIn_append, appliedIn_finishes, appliedIn_finishes, List.append_nil]

variable [StateMachine σ]

/-- A step of a node as its state machine sees it. -/
inductive MachineStep (inp : Option (NodeId × Message)) (x y : RaftNode σ) : Prop
  | same (hm : y.stateMachine = x.stateMachine) (ha : y.lastApplied = x.lastApplied)
      (hp : ∀ p, y.pendingSnapshot = some p → x.pendingSnapshot = some p)
      (hout : y.outbox = x.outbox)
  | send (dst : NodeId) (message : Message) (hs : Sendable inp x dst message)
      (hy : y = x.send dst message)
  | applied (entry : LogEntry) (result : String)
      (hentry : x.logStore.entryAt (x.lastApplied + 1) = .ok entry)
      (happly : StateMachine.apply x.stateMachine entry = (.ok result, y.stateMachine))
      (ha : y.lastApplied = x.lastApplied + 1) (hp : y.pendingSnapshot = x.pendingSnapshot)
      (hout : y.outbox = x.outbox) (fin : List Event) (hfin : appliedIn fin = [])
      (hev : y.events = x.events ++ .applied x.hardState.term entry none :: fin)
  | failed (hm : (∃ entry e, StateMachine.apply x.stateMachine entry = (.error e, y.stateMachine)) ∨
        ∃ blob e, StateMachine.restore x.stateMachine x.snapshotRange blob
          = (.error e, y.stateMachine))
      (ha : y.lastApplied = x.lastApplied) (hp : y.pendingSnapshot = x.pendingSnapshot)
      (hout : y.outbox = x.outbox)
  | chunk (src : NodeId) (q : InstallSnapshotRequest) (p : PendingSnapshot) (before : Bytes)
      (hinp : inp = some (src, .installSnapshot q))
      (hindex : p.lastIncludedIndex = q.lastIncludedIndex) (hbuffer : p.buffer = before ++ q.data)
      (hoffset : q.offset = before.length)
      (hbefore : before = [] ∨ ∃ p, x.pendingSnapshot = some p ∧ p.buffer = before ∧
        p.lastIncludedIndex = q.lastIncludedIndex)
      (hm : y.stateMachine = x.stateMachine) (ha : y.lastApplied = x.lastApplied)
      (hp : y.pendingSnapshot = some p) (hout : y.outbox = x.outbox)
  | install (src : NodeId) (q : InstallSnapshotRequest) (p : PendingSnapshot)
      (hinp : inp = some (src, .installSnapshot q)) (happlied : x.lastApplied ≤ q.lastIncludedIndex)
      (hpending : x.pendingSnapshot = some p)
      (hindex : p.lastIncludedIndex = q.lastIncludedIndex) (hdone : q.done = true)
      (hlast : p.buffer.length = q.offset + q.data.length)
      (hsize : p.buffer.length ≤ kMaxPendingSnapshotBytes)
      (hm : StateMachine.restore x.stateMachine x.snapshotRange p.buffer = (.ok (), y.stateMachine))
      (ha : y.lastApplied = q.lastIncludedIndex) (hp : y.pendingSnapshot = none)
      (hout : y.outbox = x.outbox) (hev : appliedIn y.events = appliedIn x.events)
  | unrecorded (hev : .unrecorded ∈ y.events)

variable {J : Prop} {inp : Option (NodeId × Message)} {x y : RaftNode σ}

theorem MachineStep.relinquish (li : Option NodeId) {z : RaftNode σ}
    (hm : z.stateMachine = x.stateMachine) (ha : z.lastApplied = x.lastApplied)
    (hout : z.outbox = x.outbox) : MachineStep inp x (relinquish li z) := by
  obtain ⟨_, _, _, _, heq, -⟩ := relinquish_eq li z
  rw [heq]
  exact .same hm ha (fun p hp => absurd hp (by simp)) hout

/-- **Every step of a node is one of these for its state machine.** -/
theorem NodeStep.machine (hs : NodeStep J inp x y) : MachineStep inp x y := by
  cases hs with
  | quiet hc =>
    have hf {A : Type} (f : RaftNode σ → A) : f (core y) = f (core x) := (congrArg f hc).symm
    have hp : y.pendingSnapshot = x.pendingSnapshot := hf pendingSnapshot
    exact .same (hf stateMachine) (hf lastApplied) (fun p h => hp ▸ h) (hf outbox)
  | send dst message hm => exact .send dst message hm rfl
  | stepDown li | newTerm T li store hT hsave => exact .relinquish li rfl rfl rfl
  | abandon hr => exact .relinquish none rfl rfl rfl
  | applied m entry result hlt hentry happly =>
    obtain ⟨hev, -⟩ := completeAppliedProposal_client (x.lastApplied + 1)
      { emit (.applied x.hardState.term entry none)
          { x with stateMachine := m, applyCount := x.applyCount + 1 } with
        lastApplied := x.lastApplied + 1 }
    have hev : (x.applied m entry).events = x.events ++ .applied x.hardState.term entry none ::
        finishes (x.pendingProposals.find (x.lastApplied + 1)).toList none (x.lastApplied + 1) :=
      hev.trans (by simp [emit])
    obtain ⟨_, _, heq, -⟩ := applied_eq m entry x
    rw [heq] at hev ⊢
    exact .applied entry result hentry happly rfl rfl rfl _ (appliedIn_finishes _ _ _) hev
  | applyFailed m entry e hlt hentry happly =>
    exact .failed (Or.inl ⟨entry, e, happly⟩) rfl rfl rfl
  | dropSnapshot => exact .same rfl rfl (fun p hp => absurd hp (by simp)) rfl
  | chunk src q p hinp hterm hindex hsnapTerm hbuffer =>
    obtain ⟨before, hbuf, hoff, hbefore⟩ := hbuffer
    refine .chunk src q p before hinp hindex hbuf hoff (hbefore.imp id ?_) rfl rfl rfl rfl
    rintro ⟨p', hp', hb', hi', -⟩
    exact ⟨p', hp', hb', hi'⟩
  | restoreFailed m p e hrestore => exact .failed (Or.inr ⟨p.buffer, e, hrestore⟩) rfl rfl rfl
  | recordFailed m => exact .unrecorded (List.mem_append_right _ (List.mem_singleton_self _))
  | install src q p m store hinp hterm hrole happlied hpending hindex hsnapTerm hdone hlast hsize
      hrestore hinstall hjoin =>
    refine .install src q p hinp happlied hpending hindex hdone hlast hsize hrestore
      (Nat.max_eq_right happlied) rfl rfl ?_
    -- whoever is answered, no entry is reported as applied
    exact (appliedIn_finish _ _ _).trans (appliedIn_finish _ _ _)
  | _ => exact .same rfl rfl (fun p hp => hp) rfl

/-- A node keeps its configuration. -/
theorem NodeStep.config (hs : NodeStep J inp x y) : y.config = x.config := by
  cases hs with
  | quiet hc => exact (congrArg (fun x : RaftNode σ => x.config) hc).symm
  | stepDown li =>
    obtain ⟨_, _, _, _, heq, -⟩ := relinquish_eq li x
    rw [heq]
  | newTerm T li store hT hsave =>
    obtain ⟨_, _, _, _, heq, -⟩ := relinquish_eq li
      { x with logStore := store, hardState := ⟨T, none⟩ }
    rw [heq]
  | abandon hr =>
    obtain ⟨_, _, _, _, heq, -⟩ := relinquish_eq none
      (initializeLeaderProgress { x with role := .leader, leaderId := some x.config.nodeId })
    rw [heq]
    rfl
  | applied m entry result hlt hentry happly =>
    obtain ⟨_, _, heq, -⟩ := applied_eq m entry x
    rw [heq]
  | _ => rfl

end RaftNode

/-! ## The record of a group -/

/-- The entries node `n` has applied, in order. -/
def entriesOf (n : NodeId) (tr : List (NodeId × Event)) : List LogEntry :=
  tr.filterMap fun p => if p.1 = n then p.2.entry else none

theorem mem_entriesOf {n : NodeId} {tr : List (NodeId × Event)} {e : LogEntry} :
    e ∈ entriesOf n tr ↔ ∃ T, (n, .applied T e none) ∈ tr := by
  unfold entriesOf
  rw [List.mem_filterMap]
  constructor
  · rintro ⟨⟨m, ev⟩, hmem, he⟩
    split at he
    · rename_i hm
      obtain rfl : m = n := hm
      cases ev with
      | applied T f error =>
        cases error with
        | none =>
          obtain rfl : f = e := Option.some.inj he
          exact ⟨T, hmem⟩
        | some _ => simp [Event.entry] at he
      | _ => simp [Event.entry] at he
    · simp at he
  · rintro ⟨T, hmem⟩
    exact ⟨_, hmem, by simp [Event.entry]⟩

variable {σ : Type}

theorem entriesOf_absorb (w : World σ) (n m : NodeId) (x : RaftNode σ) :
    entriesOf m (w.absorb n x).trace
      = entriesOf m w.trace ++ if n = m then appliedIn x.events else [] := by
  unfold entriesOf World.absorb
  rw [List.filterMap_append, List.filterMap_map]
  congr 1
  split_ifs with h
  · subst h
    unfold appliedIn
    congr 1
    funext e
    simp
  · rw [List.filterMap_eq_nil_iff]
    intro e _
    simp [h]

/-- Each step adds to the record of events. -/
theorem WorldStep.trace_mono [StateMachine σ] {J : Prop} {g : Group} {a : History} {w w' : World σ}
    (hs : WorldStep J g w w') (h : Sim g a w) : w.trace <+: w'.trace := by
  cases hs with
  | node w n inp x y hn hinp hs =>
    obtain ⟨more, hmore, -⟩ := (hs.client (h.accounted hn).1.wf).events
    refine ⟨more.map fun e => (n, e), ?_⟩
    simp only [World.absorb, hmore, List.map_append, List.append_assoc]
  | enter | restart => exact List.prefix_append _ _

end SqlDb.Raft
