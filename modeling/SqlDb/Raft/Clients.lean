/-
  WHAT A STEP MEANS FOR THE CLIENTS.

  Of all a node does, the clients see its events: a proposal is stored, a read is requested, an
  entry is applied, a completion is finished.  `ClientStep` groups the steps of a node by what they
  do to the events and to the completions that wait; most do nothing (`same`).

  Completions are FINISHED from many places, but a well-formed node that does not lead has nobody
  waiting, so only four remain: an entry is applied, applying failed, leadership is lost, reads are
  answered.  In particular a truncation and a snapshot never finish anything.
-/
import SqlDb.Raft.NodeWf

namespace SqlDb.Raft.RaftNode

variable {σ : Type}

/-- The events that tell the owners of `ids` how it went. -/
def finishes (ids : List CompletionId) (error : Option Error) (lastApplied : Nat) : List Event :=
  ids.map fun id => .finished id error lastApplied

/-- A step of a node as the clients see it. -/
inductive ClientStep (x y : RaftNode σ) : Prop
  | same (happlied : x.role = .leader → y.lastApplied = x.lastApplied)
      (hev : y.events = x.events) (hpp : y.pendingProposals = x.pendingProposals)
      (hrd : y.pendingReadBarriers = x.pendingReadBarriers)
      (hid : y.nextCompletion = x.nextCompletion)
  | unrecorded (happlied : y.lastApplied = x.lastApplied)
      (hev : y.events = x.events ++ [.unrecorded])
      (hpp : y.pendingProposals = x.pendingProposals)
      (hrd : y.pendingReadBarriers = x.pendingReadBarriers)
      (hid : y.nextCompletion = x.nextCompletion)
  | propose (entry : LogEntry) (hindex : entry.index = x.lastLogIndex + 1)
      (hentry : y.logStore.entryAt entry.index = .ok entry)
      (happlied : y.lastApplied = x.lastApplied)
      (hev : y.events = x.events ++ [.proposed x.nextCompletion entry])
      (hpp : y.pendingProposals = x.pendingProposals.insert entry.index x.nextCompletion)
      (hrd : y.pendingReadBarriers = x.pendingReadBarriers)
      (hid : y.nextCompletion = x.nextCompletion + 1)
  | openRead (b : PendingReadBarrier) (hb : b.completion = x.nextCompletion)
      (hrole : x.role = .leader) (happlied : y.lastApplied = x.lastApplied)
      (hev : y.events = x.events) (hpp : y.pendingProposals = x.pendingProposals)
      (hrd : y.pendingReadBarriers = x.pendingReadBarriers ++ [b])
      (hid : y.nextCompletion = x.nextCompletion + 1)
  | answerRead (b : PendingReadBarrier) (hb : b.completion = x.nextCompletion)
      (hrole : x.role = .leader) (happlied : y.lastApplied = x.lastApplied)
      (hready : x.barrierReady b = true) (hall : x.commitIndex ≤ x.lastApplied)
      (hsettled : x.Settled)
      (hev : y.events = x.events ++ [.finished b.completion none x.lastApplied])
      (hpp : y.pendingProposals = x.pendingProposals)
      (hrd : y.pendingReadBarriers = x.pendingReadBarriers)
      (hid : y.nextCompletion = x.nextCompletion + 1)
  | applied (entry : LogEntry) (hlt : x.lastApplied < x.commitIndex)
      (hentry : x.logStore.entryAt (x.lastApplied + 1) = .ok entry)
      (happlied : y.lastApplied = x.lastApplied + 1)
      (hev : y.events = x.events ++ .applied x.hardState.term entry none ::
        finishes (x.pendingProposals.find (x.lastApplied + 1)).toList none (x.lastApplied + 1))
      (hpp : y.pendingProposals = x.pendingProposals.erase (x.lastApplied + 1))
      (hrd : y.pendingReadBarriers = x.pendingReadBarriers)
      (hid : y.nextCompletion = x.nextCompletion)
  | applyFailed (entry : LogEntry) (e : Error) (keep : Nat × CompletionId → Bool)
      (happlied : y.lastApplied = x.lastApplied) (hlt : x.lastApplied < x.commitIndex)
      (hentry : x.logStore.entryAt (x.lastApplied + 1) = .ok entry)
      (hev : y.events = x.events ++ .applied x.hardState.term entry (some e) ::
        finishes ((x.pendingProposals.filter fun p => !keep p).map Prod.snd ++
          x.pendingReadBarriers.map PendingReadBarrier.completion) (some e) x.lastApplied)
      (hpp : y.pendingProposals = x.pendingProposals.filter keep)
      (hrd : y.pendingReadBarriers = [])
      (hid : y.nextCompletion = x.nextCompletion)
  | lost (e e' : Error) (hrole : x.role = .leader)
      (hev : y.events = x.events ++ finishes (x.pendingProposals.map Prod.snd) (some e)
        x.lastApplied ++ finishes (x.pendingReadBarriers.map PendingReadBarrier.completion)
          (some e') x.lastApplied)
      (hpp : y.pendingProposals = []) (hrd : y.pendingReadBarriers = [])
      (hid : y.nextCompletion = x.nextCompletion)
  | finishReads (happlied : y.lastApplied = x.lastApplied)
      (hready : ∀ b ∈ x.pendingReadBarriers, x.barrierReady b = true →
        x.commitIndex ≤ x.lastApplied ∧ x.Settled)
      (hev : y.events = x.events ++ finishes ((x.pendingReadBarriers.filter x.barrierReady).map
        PendingReadBarrier.completion) none x.lastApplied)
      (hpp : y.pendingProposals = x.pendingProposals)
      (hrd : y.pendingReadBarriers = x.pendingReadBarriers.filter fun b => !x.barrierReady b)
      (hid : y.nextCompletion = x.nextCompletion)

/-- A step applies nothing but the next committed entry. -/
theorem ClientStep.applied_new {x y : RaftNode σ} (hs : ClientStep x y) {T : Nat} {e : LogEntry}
    {error : Option Error} (hev : .applied T e error ∈ y.events) :
    .applied T e error ∈ x.events ∨ (T = x.hardState.term ∧ x.lastApplied < x.commitIndex ∧
      x.logStore.entryAt (x.lastApplied + 1) = .ok e) := by
  cases hs with
  | applied entry hlt hentry happlied hev' hpp hrd hid
  | applyFailed entry err keep happlied hlt hentry hev' hpp hrd hid =>
    rw [hev', List.mem_append, List.mem_cons] at hev
    rcases hev with hev | hev | hev
    · exact Or.inl hev
    · obtain ⟨rfl, rfl, -⟩ := Event.applied.inj hev
      exact Or.inr ⟨rfl, hlt, hentry⟩
    · simp [finishes] at hev
  | _ => simp_all [finishes]

/-! ## Nothing happens to clients that are not there -/

theorem ClientStep.of_nil {x y : RaftNode σ} (hrole : x.role ≠ .leader)
    (hpp : x.pendingProposals = []) (hrd : x.pendingReadBarriers = []) (hev : y.events = x.events)
    (hpp' : y.pendingProposals = []) (hrd' : y.pendingReadBarriers = [])
    (hid : y.nextCompletion = x.nextCompletion) : ClientStep x y :=
  .same (fun h => absurd h hrole) hev (hpp'.trans hpp.symm) (hrd'.trans hrd.symm) hid

/-- Stepping down: a leader tells everyone who waits; nobody waits at another node.  The clients do
    not see that the term (and the store that keeps it) may have changed before. -/
theorem client_relinquish {x : RaftNode σ} (h : x.role ≠ .leader →
      x.pendingProposals = [] ∧ x.pendingReadBarriers = []) (li : Option NodeId)
    (store : LogStore) (hardState : HardState) :
    ClientStep x (relinquish li { x with logStore := store, hardState := hardState }) := by
  by_cases hr : x.role = .leader
  · refine .lost ⟨.notLeader, "leadership was lost before commit"⟩
      ⟨.notLeader, "leadership was lost before the read barrier completed"⟩ hr ?_ ?_ ?_ ?_ <;>
      simp [relinquish, hr, resetElectionDeadline, failReadBarriers, failPendingProposals, finish,
        finishes]
  · obtain ⟨h1, h2⟩ := h hr
    refine .of_nil hr h1 h2 ?_ ?_ ?_ ?_ <;> simp [relinquish, hr, resetElectionDeadline, h1, h2]

theorem completeAppliedProposal_client (i : Nat) (x : RaftNode σ) :
    (completeAppliedProposal i x).events
        = x.events ++ finishes (x.pendingProposals.find i).toList none x.lastApplied ∧
      (completeAppliedProposal i x).pendingProposals = x.pendingProposals.erase i ∧
      (completeAppliedProposal i x).pendingReadBarriers = x.pendingReadBarriers ∧
      (completeAppliedProposal i x).nextCompletion = x.nextCompletion ∧
      (completeAppliedProposal i x).lastApplied = x.lastApplied := by
  unfold completeAppliedProposal
  cases hf : x.pendingProposals.find i with
  | none =>
    refine ⟨by simp [finishes], ?_, rfl, rfl, rfl⟩
    exact (OrdMap.erase_of_find_none hf).symm
  | some id => exact ⟨rfl, rfl, rfl, rfl, rfl⟩

variable [StateMachine σ] {J : Prop} {inp : Option (NodeId × Message)} {x y : RaftNode σ}

/-- **Every step of a node is one of these for the clients.** -/
theorem NodeStep.client (hs : NodeStep J inp x y) (hw : Wf x) : ClientStep x y := by
  cases hs with
  | quiet hc =>
    have hf {A : Type} (f : RaftNode σ → A) : f (core y) = f (core x) := (congrArg f hc).symm
    exact .same (fun _ => hf lastApplied) (hf events) (hf pendingProposals) (hf pendingReadBarriers) (hf nextCompletion)
  | touchMatch | send | campaign | grant | countVote | takeOffice | appendEntry | compact
  | progress | optimistic | newRound | commitLeader | commitFollower | dropSnapshot | chunk
  | restoreFailed => exact .same (fun _ => rfl) rfl rfl rfl rfl
  | stepDown li => exact client_relinquish hw.idle li x.logStore x.hardState
  | newTerm T li store hT hsave => exact client_relinquish hw.idle li store ⟨T, none⟩
  | abandon hr =>
    have hne : x.role ≠ .leader := by rw [hr]; simp
    obtain ⟨h1, h2⟩ := hw.idle hne
    refine .of_nil hne h1 h2 ?_ ?_ ?_ ?_ <;>
      simp [relinquish, resetElectionDeadline, failReadBarriers, failPendingProposals, finish,
        initializeLeaderProgress, h1, h2]
  | appendOwn store data hr ha =>
    refine .propose ⟨x.lastLogIndex + 1, x.hardState.term, data⟩ rfl ?_ rfl rfl rfl rfl rfl
    show store.entryAt (x.lastLogIndex + 1) = _
    rw [hw.store.entryAt_append ha]
    exact if_pos rfl
  | truncate src q k ex en store er hinp ht hr hab he hex hne htr =>
    have hne : x.role ≠ .leader := by rw [hr]; simp
    obtain ⟨h1, h2⟩ := hw.idle hne
    refine .of_nil hne h1 h2 ?_ ?_ ?_ ?_ <;> simp [failPendingProposals, finish, h1, h2]
  | applied m en res hlt he ha =>
    obtain ⟨hev, hpp, hrd, hid, hla⟩ := completeAppliedProposal_client (x.lastApplied + 1)
      { emit (.applied x.hardState.term en none)
          { x with stateMachine := m, applyCount := x.applyCount + 1 } with
        lastApplied := x.lastApplied + 1 }
    refine .applied en hlt he hla (hev.trans ?_) hpp hrd hid
    simp [emit]
  | applyFailed m en e hlt he ha =>
    refine .applyFailed en e (fun p => !decide (x.lastApplied + 1 ≤ p.1)) rfl hlt he
      ?_ ?_ ?_ ?_ <;>
      simp [RaftNode.applyFailed, failReadBarriers, failPendingProposals, finish, finishes, emit]
  | recordFailed m => exact .unrecorded rfl rfl rfl rfl rfl
  | install src q p m store hinp ht hr hap hp hi hst hd hl hsz hre hin hj =>
    have hne : x.role ≠ .leader := by rw [hr]; simp
    obtain ⟨h1, h2⟩ := hw.idle hne
    refine .of_nil hne h1 h2 ?_ ?_ ?_ ?_ <;>
      simp [installed, evaluateReadBarriers, completeAppliedProposalsUpto, finish, h1, h2]
  | openRead b hr hid => exact .openRead b hid hr rfl rfl rfl rfl rfl
  | answerRead b hr hid hrd hall hse =>
    exact .answerRead b hid hr rfl hrd hall hse rfl rfl rfl rfl
  | finishReads hrd => exact .finishReads rfl hrd rfl rfl rfl rfl

/-- A leader keeps the entries it has not applied. -/
theorem NodeStep.entry_kept (hs : NodeStep J inp x y) (hw : Wf x) (hl : x.role = .leader) {i : Nat}
    {e : LogEntry} (hi : x.lastApplied < i) (he : x.logStore.entryAt i = .ok e) :
    y.logStore.entryAt i = .ok e := by
  have hnot : ∀ {r : Role}, x.role = r → r ≠ .leader → y.logStore.entryAt i = .ok e :=
    fun h1 h2 => absurd (h1 ▸ hl) h2
  cases hs with
  | quiet hc =>
    have hf : y.logStore = x.logStore := (congrArg logStore hc).symm
    rw [hf]
    exact he
  | stepDown li =>
    obtain ⟨_, _, _, _, heq, -⟩ := relinquish_eq li x
    rw [heq]
    exact he
  | newTerm T li store hT hsave =>
    obtain rfl := LogStore.saveHardState_ok hsave
    obtain ⟨_, _, _, _, heq, -⟩ := relinquish_eq li
      { x with logStore := { x.logStore with hardState := ⟨T, none⟩ }, hardState := ⟨T, none⟩ }
    rw [heq]
    exact he
  | campaign store hr hsave => exact absurd hl hr
  | grant src q store lt hinp ht hv hlt hlog hsave =>
    obtain rfl := LogStore.saveHardState_ok hsave
    exact he
  | takeOffice store hr hq ha | abandon hr
  | truncate src q k ex en store er hinp ht hr hab hen hex hne htr
  | appendEntry src q k en store hinp ht hr hen hm hlast hown ha => exact hnot hr (by simp)
  | appendOwn store data hr ha =>
    show store.entryAt i = _
    rw [hw.store.entryAt_append ha, if_neg]
    · exact he
    · have := (hw.entryAt_range he).2.1
      simp only
      omega
  | compact en store hlt hen hinst =>
    show store.entryAt i = _
    rw [hw.store.entryAt_installSnapshot (hw.index ▸ hlt.le) hinst hi]
    exact he
  | applied m en res hlt hen ha =>
    obtain ⟨_, _, heq, -⟩ := applied_eq m en x
    rw [heq]
    exact he
  | install src q p m store hinp ht hr hap hp hidx hst hd hlast hsz hre hin hj =>
    exact hnot hr (by simp)
  | _ => exact he

/-- A node that goes on leading stays in its term. -/
theorem NodeStep.term_kept (hs : NodeStep J inp x y) (hx : x.role = .leader)
    (hy : y.role = .leader) : y.hardState.term = x.hardState.term := by
  cases hs with
  | quiet hc => exact congrArg (fun x => x.hardState.term) hc.symm
  | stepDown | newTerm =>
    rw [relinquish_role] at hy
    simp at hy
  | campaign store hr hsave => exact absurd hx hr
  | abandon hr =>
    rw [hr] at hx
    simp at hx
  | applied m en res hlt hen ha =>
    obtain ⟨_, _, heq, -⟩ := applied_eq m en x
    rw [heq]
  | _ => rfl

end SqlDb.Raft.RaftNode
