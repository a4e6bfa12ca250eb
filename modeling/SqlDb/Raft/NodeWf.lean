/-
  WELL-FORMED NODES: what a node can rely on about itself, whatever messages arrive.

  The in-memory copies (term and vote, last index, snapshot boundary) agree with the log store, and
  a node that is not the leader has nobody waiting.  Every `NodeStep` keeps this — no assumption on
  the message being handled is needed.  What DOES need the rest of the group (that a truncation
  never reaches below the commit index, for one) is not here but in `Simulation.lean`.
-/
import SqlDb.Raft.NodeStep

namespace SqlDb.Raft.RaftNode

variable {σ : Type}

structure Wf (x : RaftNode σ) : Prop where
  store : x.logStore.Wf
  last : x.lastLogIndex = x.logStore.lastIndex
  index : x.lastIncludedIndex = x.logStore.snapshotMeta.lastIncludedIndex
  term : x.lastIncludedTerm = x.logStore.snapshotMeta.lastIncludedTerm
  hard : x.hardState = x.logStore.hardState
  applied_ge : x.lastIncludedIndex ≤ x.lastApplied
  idle : x.role ≠ .leader → x.pendingProposals = [] ∧ x.pendingReadBarriers = []

variable {x : RaftNode σ}

/-- Only a leader has reads waiting. -/
theorem Wf.leader_of_read (h : Wf x) {b : PendingReadBarrier}
    (hb : b ∈ x.pendingReadBarriers) : x.role = .leader := by
  by_contra hr
  rw [(h.idle hr).2] at hb
  simp at hb

/-- A well-formed node can read its log from the snapshot boundary to its end. -/
theorem Wf.entryAt_exists (h : Wf x) {i : Nat} (h0 : 0 < i)
    (hlo : x.lastIncludedIndex ≤ i) (hhi : i ≤ x.lastLogIndex) :
    ∃ e, x.logStore.entryAt i = .ok e :=
  h.store.entryAt_exists h0 (h.index ▸ hlo) (h.last ▸ hhi)

theorem Wf.entryAt_range (h : Wf x) {i : Nat} {e : LogEntry} (he : x.logStore.entryAt i = .ok e) :
    0 < i ∧ i ≤ x.lastLogIndex ∧ x.lastIncludedIndex ≤ i := by
  obtain ⟨h0, hhi, hlo⟩ := LogStore.entryAt_range he
  exact ⟨h0, h.last ▸ hhi, h.index ▸ hlo⟩

/-- At the snapshot boundary the term is known. -/
theorem Wf.entryAt_boundary (h : Wf x) (h0 : 0 < x.lastIncludedIndex) :
    x.logStore.entryAt x.lastIncludedIndex = .ok ⟨x.lastIncludedIndex, x.lastIncludedTerm, []⟩ := by
  rw [h.index, h.term]
  exact LogStore.entryAt_boundary (h.index ▸ h0) h.store.boundary_le

theorem map_term_ok {v : Except Error LogEntry} {t : Nat} (h : v.map LogEntry.term = .ok t) :
    ∃ e, v = .ok e ∧ e.term = t := by
  cases v with
  | error e => simp [Except.map] at h
  | ok e => exact ⟨e, rfl, Except.ok.inj h⟩

/-- The term compared at an index is the term of the entry there, boundary included. -/
theorem Wf.termForCheck_iff (h : Wf x) {i t : Nat} (h0 : 0 < i) :
    x.termForCheck i = .ok t ↔ ∃ e, x.logStore.entryAt i = .ok e ∧ e.term = t := by
  unfold termForCheck
  split_ifs with hi
  · subst hi
    rw [h.entryAt_boundary h0]
    simp
  · refine ⟨map_term_ok, ?_⟩
    rintro ⟨e, he, rfl⟩
    rw [he]
    rfl

/-! ## The compound updates, as one record update each -/

/-- Stepping down: the role changes, and a leader's clients are all told. -/
theorem relinquish_eq (li : Option NodeId) (x : RaftNode σ) :
    ∃ deadline ev pp prb, relinquish li x = { x with
        role := .follower, leaderId := li, votesReceived := [], pendingSnapshot := none,
        electionDeadline := deadline, events := ev, pendingProposals := pp,
        pendingReadBarriers := prb } ∧
      (x.role = .leader → pp = [] ∧ prb = []) ∧
      (x.role ≠ .leader → pp = x.pendingProposals ∧ prb = x.pendingReadBarriers) := by
  by_cases h : x.role = .leader
  · simp only [SqlDb.Raft.RaftNode.relinquish, if_pos h]
    exact ⟨_, _, _, _, rfl, fun _ => ⟨by simp [failReadBarriers, finish, failPendingProposals], rfl⟩,
      fun hn => absurd h hn⟩
  · simp only [SqlDb.Raft.RaftNode.relinquish, if_neg h]
    exact ⟨_, _, _, _, rfl, fun hl => absurd hl h, fun _ => ⟨rfl, rfl⟩⟩

@[simp] theorem relinquish_role (li : Option NodeId) (x : RaftNode σ) :
    (relinquish li x).role = .follower := by
  obtain ⟨_, _, _, _, heq, -⟩ := relinquish_eq li x
  rw [heq]

@[simp] theorem relinquish_hardState (li : Option NodeId) (x : RaftNode σ) :
    (relinquish li x).hardState = x.hardState := by
  obtain ⟨_, _, _, _, heq, -⟩ := relinquish_eq li x
  rw [heq]

theorem Wf.relinquish (h : Wf x) (li : Option NodeId) : Wf (relinquish li x) := by
  obtain ⟨dl, ev, pp, prb, heq, hlead, hother⟩ := relinquish_eq li x
  rw [heq]
  refine { h with idle := fun _ => ?_ }
  by_cases hr : x.role = .leader
  · exact hlead hr
  · obtain ⟨h1, h2⟩ := hother hr
    obtain ⟨h3, h4⟩ := h.idle hr
    exact ⟨h1.trans h3, h2.trans h4⟩

theorem completeAppliedProposal_eq (i : Nat) (x : RaftNode σ) :
    ∃ ev pp, completeAppliedProposal i x = { x with events := ev, pendingProposals := pp } ∧
      (x.pendingProposals = [] → pp = []) := by
  unfold completeAppliedProposal
  split
  · exact ⟨x.events, x.pendingProposals, rfl, id⟩
  · rename_i id hid
    refine ⟨_, _, rfl, fun h0 => ?_⟩
    rw [h0] at hid
    simp at hid

theorem applied_eq (machine : σ) (entry : LogEntry) (x : RaftNode σ) :
    ∃ ev pp, x.applied machine entry = { x with
        stateMachine := machine, applyCount := x.applyCount + 1, lastApplied := x.lastApplied + 1,
        events := ev, pendingProposals := pp } ∧
      (x.pendingProposals = [] → pp = []) :=
  completeAppliedProposal_eq (x.lastApplied + 1)
    { emit (.applied x.hardState.term entry none)
        { x with stateMachine := machine, applyCount := x.applyCount + 1 } with
      lastApplied := x.lastApplied + 1 }

theorem filter_nil_of_nil {α : Type} {l : List α} {p : α → Bool} (h : l = []) :
    l.filter p = [] := by rw [h]; rfl

variable [StateMachine σ]

theorem NodeStep.wf {J : Prop} {inp : Option (NodeId × Message)} {x y : RaftNode σ} (hs : NodeStep J inp x y)
    (h : Wf x) : Wf y := by
  cases hs with
  | quiet hc =>
    have hx : Wf (core x) := { h with }
    rw [hc] at hx
    exact { hx with }
  | touchMatch | send | countVote | progress | optimistic | newRound | commitLeader
  | commitFollower | dropSnapshot | chunk | restoreFailed | recordFailed | answerRead =>
    exact { h with }
  | stepDown li => exact h.relinquish li
  | newTerm T li store hT hsave =>
    obtain rfl := LogStore.saveHardState_ok hsave
    have hw : Wf { x with
        logStore := { x.logStore with hardState := ⟨T, none⟩ }, hardState := ⟨T, none⟩ } :=
      { h with store := { h.store with }, hard := rfl }
    exact hw.relinquish li
  | campaign store hr hsave =>
    obtain rfl := LogStore.saveHardState_ok hsave
    exact { h with store := { h.store with }, hard := rfl, idle := fun _ => h.idle hr }
  | grant src q store lt hinp ht hv hl hlog hsave =>
    obtain rfl := LogStore.saveHardState_ok hsave
    exact { h with store := { h.store with }, hard := rfl }
  | takeOffice store hr hq ha =>
    have hw := h.store.append ha
    obtain ⟨-, -, rfl⟩ := LogStore.append_ok ha
    exact { h with store := hw, last := rfl, idle := fun hn => absurd rfl hn }
  | abandon hr =>
    have hw : Wf (initializeLeaderProgress
        { x with role := .leader, leaderId := some x.config.nodeId }) :=
      { h with idle := fun hn => absurd rfl hn }
    exact hw.relinquish none
  | appendOwn store data hr ha =>
    have hw := h.store.append ha
    obtain ⟨-, -, rfl⟩ := LogStore.append_ok ha
    exact { h with store := hw, last := rfl, idle := fun hn => absurd hr hn }
  | truncate src q k ex en store er hinp ht hr hab he hex hne htr =>
    have hw := h.store.truncateSuffix htr
    obtain ⟨-, -, rfl⟩ := LogStore.truncateSuffix_ok htr
    refine { h with store := hw, last := ?_, idle := fun hn => ?_ }
    · rfl
    · exact ⟨filter_nil_of_nil (h.idle hn).1, (h.idle hn).2⟩
  | appendEntry src q k en store hinp ht hr he hm hl hown ha =>
    have hw := h.store.append ha
    obtain ⟨hidx, -, rfl⟩ := LogStore.append_ok ha
    refine { h with store := hw, last := ?_ }
    show q.prevLogIndex + k + 1 = en.index
    rw [hidx, ← h.last, hl]
  | compact en store hlt he hi =>
    have hw := h.store.installSnapshot (h.index ▸ hlt.le) hi
    have hle := (h.entryAt_range he).2.1
    obtain ⟨-, -, rfl⟩ := LogStore.installSnapshot_ok hi
    refine { h with store := hw, index := rfl, term := rfl, last := ?_, applied_ge := le_rfl }
    show x.lastLogIndex = max x.logStore.lastIndex x.lastApplied
    rw [← h.last]
    omega
  | applied m en res hlt he ha =>
    obtain ⟨ev, pp, heq, hpp⟩ := applied_eq m en x
    rw [heq]
    refine { h with applied_ge := Nat.le_succ_of_le h.applied_ge, idle := fun hn => ?_ }
    exact ⟨hpp (h.idle hn).1, (h.idle hn).2⟩
  | applyFailed m en e hlt he ha =>
    refine { h with idle := fun hn => ⟨filter_nil_of_nil (h.idle hn).1, rfl⟩ }
  | install src q p m store hinp ht hr hap hp hi hst hd hl hsz hre hin hj =>
    have hlo : x.lastIncludedIndex ≤ q.lastIncludedIndex := h.applied_ge.trans hap
    have hw := h.store.installSnapshot (h.index ▸ hlo) hin
    obtain ⟨-, -, rfl⟩ := LogStore.installSnapshot_ok hin
    refine { store := hw, last := ?_, index := rfl, term := rfl, hard := h.hard,
             applied_ge := Nat.le_max_right _ _, idle := fun hn => ?_ }
    · show max x.lastLogIndex _ = max x.logStore.lastIndex _
      rw [h.last]
    · exact ⟨filter_nil_of_nil (h.idle hn).1, filter_nil_of_nil (h.idle hn).2⟩
  | openRead b hr hid => exact { h with idle := fun hn => absurd hr hn }
  | finishReads hrd =>
    exact { h with idle := fun hn => ⟨(h.idle hn).1, filter_nil_of_nil (h.idle hn).2⟩ }

/-- The steps of a whole handler keep a node well-formed. -/
theorem Wf.path {J : Prop} {inp : Option (NodeId × Message)} {x y : RaftNode σ} (h : Wf x)
    (hp : Relation.ReflTransGen (NodeStep J inp) x y) : Wf y := by
  induction hp with
  | refl => exact h
  | tail _ hs ih => exact hs.wf ih

end SqlDb.Raft.RaftNode
