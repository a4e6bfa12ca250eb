/-
  THE MESSAGE HANDLERS ARE SEQUENCES OF STEPS.

  The same walk as in `NodeRun.lean`, for the six handlers.  The one that needs an invariant of its
  own is the loop of `handle_append_entries`: before the `k`-th carried entry, the node's log agrees
  with the request on the term at `prevLogIndex + k` (`MatchesAt`).  ONE index is enough — what a
  single matching term says about everything below it is `EpochLog.matched_of_prev`.
-/
import SqlDb.Raft.NodeRun

namespace SqlDb.Raft.RaftNode

open Prog

variable {σ : Type} [StateMachine σ] {J : Prop} {x : RaftNode σ}

/-! ## Votes -/

theorem run_handleRequestVote (h : Calm x) (src : NodeId) (q : RequestVoteRequest) :
    Run (NodeStep J (some (src, .requestVote q))) (handleRequestVote src q : Act σ Unit) x
      fun _ y => Calm y := by
  unfold handleRequestVote
  refine run_get_bind (run_ite (fun _ => ?_) fun hge => ?_)
  · exact run_modify (single (.send x src _ ⟨rfl, by simp⟩)) h
  -- after this the node is in the candidate's term
  have hterm : Run (NodeStep J (some (src, .requestVote q)))
      (Prog.when (x.hardState.term < q.term) (becomeFollower q.term none) : Act σ Unit) x
      fun r y => Calm y ∧ (r = .ok () → y.hardState.term = q.term) := by
    refine run_ite (fun hlt => ?_) fun hnl => run_pure ⟨h, fun _ => by omega⟩
    refine (run_becomeFollower q.term none).weaken fun r y _ hy => ?_
    cases r with
    | ok _ => exact ⟨calm_of_not_leader (by rw [hy.1]; simp), fun _ => by rw [hy.2]; omega⟩
    | error e => exact ⟨hy ▸ h, by simp⟩
  refine run_bind hterm (fun _ y _ hy => ?_) fun _ _ _ hy => hy.1
  obtain ⟨hcalm, hty⟩ := hy
  have hty := hty rfl
  refine run_get_bind (run_lift_bind (fun _ _ => hcalm) fun lastTerm hlast => ?_)
  refine run_ite (fun hgrant => ?_) fun _ => ?_
  · cases hsave : y.logStore.saveHardState
        { y.hardState with votedFor := some q.candidateId } with
    | error e =>
      exact run_of_eq (p := throw e) (bind_apply_error (writeLog_error hsave))
        Relation.ReflTransGen.refl (run_throw hcalm)
    | ok store =>
      have hstep : NodeStep J (some (src, .requestVote q)) y (resetElectionDeadline { y with
          logStore := store, hardState := { y.hardState with votedFor := some q.candidateId } }) :=
        .grant y src q store lastTerm rfl hty.symm hgrant.1 hlast hgrant.2 hsave
      refine run_of_eq (p := modify (send src _)) (bind_apply_ok (writeLog_ok hsave))
        (single hstep) (run_modify (single (.send _ src _ ⟨rfl, fun _ => ?_⟩)) ?_)
      · exact ⟨q, rfl, hty.symm, rfl⟩
      · obtain rfl := LogStore.saveHardState_ok hsave
        exact hcalm
  · exact run_modify (single (.send y src _ ⟨rfl, by simp⟩)) hcalm

theorem run_handleRequestVoteResponse (h : Ready x) (src : NodeId) (r : RequestVoteResponse) :
    Run (NodeStep J (some (src, .requestVoteResponse r)))
      (handleRequestVoteResponse src r : Act σ Unit) x fun _ y => Calm y := by
  unfold handleRequestVoteResponse
  refine run_get_bind (run_ite (fun _ => ?_) fun hge => ?_)
  · exact (run_recordFollower h.calm _ _).weaken fun _ _ _ hy => hy.2
  refine run_ite (fun _ => run_pure h.calm) fun hcond => ?_
  simp only [not_or, not_not, Bool.not_eq_true', Bool.not_eq_false] at hcond
  obtain ⟨hrole, hterm, hgranted⟩ := hcond
  have hstep : NodeStep J (some (src, .requestVoteResponse r)) x
      { x with votesReceived := x.votesReceived.insert src } :=
    .countVote x src r rfl hrole hterm hgranted
  have hy : Ready { x with votesReceived := x.votesReceived.insert src } :=
    ⟨hstep.wf h.wf, h.applied_le, h.commit_le, h.calm⟩
  refine run_modify_bind (single hstep) (run_get_bind (run_ite (fun hq => ?_)
    fun _ => run_pure hy.calm))
  exact (run_recording (run_becomeLeader hy (by simp [hrole]) fun _ => hq)
    fun _ e hz => hz.recordError e).weaken fun _ _ _ hz => hz.2.calm

/-! ## Append requests -/

variable {inp : Option (NodeId × Message)}

/-- Following the sender of a request of the current or a later term. -/
theorem run_followLeader (h : Calm x) {T : Nat} (li : NodeId) (hT : ¬ T < x.hardState.term) :
    Run (NodeStep J inp) (followLeader T li : Act σ Unit) x fun r y => Calm y ∧
      (r = .ok () → y.role = .follower ∧ y.hardState.term = T) := by
  unfold followLeader
  refine run_get_bind (run_ite (fun hc => ?_) fun hc => ?_)
  · refine (run_becomeFollower T (some li)).weaken fun r y _ hy => ?_
    cases r with
    | ok _ => exact ⟨calm_of_not_leader (by rw [hy.1]; simp), fun _ => ⟨hy.1, by rw [hy.2]; omega⟩⟩
    | error e => exact ⟨hy ▸ h, by simp⟩
  · rw [not_or, not_not] at hc
    refine run_modify (single (.quiet rfl)) ⟨h, fun _ => ⟨hc.2, ?_⟩⟩
    show x.hardState.term = T
    omega

/-- `y` holds the log of `x`, applied and committed as far. -/
structure SameLog (x y : RaftNode σ) : Prop where
  config : y.config = x.config
  entry : ∀ i, y.logStore.entryAt i = x.logStore.entryAt i
  last : y.lastLogIndex = x.lastLogIndex
  index : y.lastIncludedIndex = x.lastIncludedIndex
  commit : y.commitIndex = x.commitIndex
  applied : y.lastApplied = x.lastApplied
  machine : y.stateMachine = x.stateMachine
  outbox : y.outbox = x.outbox
  faults : y.logStore.faults = x.logStore.faults

omit [StateMachine σ] in
theorem SameLog.joins {x y : RaftNode σ} (h : SameLog x y) (b : SnapshotMetadata) :
    y.Joins b ↔ x.Joins b := by
  unfold Joins
  rw [h.last, h.entry]

omit [StateMachine σ] in
theorem SameLog.relinquish (li : Option NodeId) (x : RaftNode σ) :
    SameLog x (relinquish li x) := by
  obtain ⟨_, _, _, _, heq, -⟩ := relinquish_eq li x
  rw [heq]
  exact ⟨rfl, fun _ => rfl, rfl, rfl, rfl, rfl, rfl, rfl, rfl⟩

omit [StateMachine σ] in
/-- Following a leader does not touch the log. -/
theorem followLeader_sameLog (T : Nat) (li : NodeId) (x : RaftNode σ) :
    SameLog x ((followLeader T li : Act σ Unit) x).2 := by
  unfold followLeader
  rw [get_bind_apply]
  split
  · unfold becomeFollower
    rw [get_bind_apply]
    split
    · cases hsave : x.logStore.saveHardState ⟨T, none⟩ with
      | error e =>
        rw [bind_apply_error (writeLog_error hsave)]
        exact ⟨rfl, fun _ => rfl, rfl, rfl, rfl, rfl, rfl, rfl, rfl⟩
      | ok store =>
        obtain rfl := LogStore.saveHardState_ok hsave
        rw [bind_apply_ok (writeLog_ok hsave)]
        exact { SameLog.relinquish (some li) { x with
          logStore := { x.logStore with hardState := ⟨T, none⟩ }, hardState := ⟨T, none⟩ } with }
    · exact SameLog.relinquish (some li) x
  · exact ⟨rfl, fun _ => rfl, rfl, rfl, rfl, rfl, rfl, rfl, rfl⟩

theorem termAt_entry {q : AppendEntriesRequest} {k : Nat} {e : LogEntry}
    (he : q.entries[k]? = some e) : q.termAt (q.prevLogIndex + k + 1) = some e.term := by
  unfold AppendEntriesRequest.termAt
  rw [if_neg (by omega), show q.prevLogIndex + k + 1 - q.prevLogIndex - 1 = k by omega, he]
  rfl

section AppendLoop

variable {src : NodeId} {q : AppendEntriesRequest}

/-- What stays fixed while a request is worked through. -/
structure Receiving (q : AppendEntriesRequest) (x : RaftNode σ) : Prop where
  wf : Wf x
  role : x.role = .follower
  term : q.term = x.hardState.term
  above : x.lastIncludedIndex ≤ q.prevLogIndex

/-- After a conflict has been resolved the log ends right before the entry, or already holds it. -/
theorem run_resolveConflict {k : Nat} {entry : LogEntry} (h : Receiving q x)
    (he : q.entries[k]? = some entry) (hm : x.MatchesAt q (q.prevLogIndex + k)) :
    Run (NodeStep J (some (src, .appendEntries q)))
      (resolveConflict entry (q.prevLogIndex + k + 1) : Act σ Unit) x fun r y =>
      y.role = .follower ∧ (r = .ok () → Receiving q y ∧
        (y.lastLogIndex = q.prevLogIndex + k ∧ y.MatchesAt q (q.prevLogIndex + k) ∨
          y.MatchesAt q (q.prevLogIndex + k + 1))) := by
  unfold resolveConflict
  refine run_get_bind (run_ite (fun hle => ?_) fun hgt => ?_)
  · refine run_lift_bind (fun e _ => ⟨h.role, by simp⟩) fun existing hex => ?_
    refine run_ite (fun hne => ?_) fun heq => ?_
    · refine run_lift_bind (fun e _ => ⟨h.role, by simp⟩) fun store htr => ?_
      have hstep : NodeStep J (some (src, .appendEntries q)) x
          (failPendingProposals (some (q.prevLogIndex + k + 1))
            ⟨.notLeader, "proposal log suffix was truncated by a new leader"⟩
            { x with logStore := store, lastLogIndex := q.prevLogIndex + k }) :=
        .truncate x src q k existing entry store _ rfl h.term h.role h.above he hex hne htr
      refine run_modify (single hstep) ⟨h.role, fun _ =>
        ⟨⟨hstep.wf h.wf, h.role, h.term, h.above⟩, Or.inl ⟨rfl, ?_⟩⟩⟩
      obtain ⟨h1, -, h3⟩ := hm
      refine ⟨h1, le_rfl, h3.imp id ?_⟩
      rintro ⟨e, hat, ht⟩
      exact ⟨e, (LogStore.entryAt_truncateSuffix htr (Nat.lt_succ_self _)).trans hat, ht⟩
    · rw [not_not] at heq
      refine run_ite (fun _ => run_throw ⟨h.role, by simp⟩) fun _ => ?_
      refine run_pure ⟨h.role, fun _ => ⟨h, Or.inr ⟨?_, hle, Or.inr ⟨existing, hex, ?_⟩⟩⟩⟩
      · have := h.above
        omega
      · rw [termAt_entry he, heq]
  · have hlast : x.lastLogIndex = q.prevLogIndex + k := by
      have := hm.2.1
      omega
    exact run_pure ⟨h.role, fun _ => ⟨h, Or.inl ⟨hlast, hm⟩⟩⟩

theorem run_appendMissing {k : Nat} {entry : LogEntry} (h : Receiving q x)
    (he : q.entries[k]? = some entry) (hidx : entry.index = q.prevLogIndex + k + 1)
    (hown : entry.term = q.term)
    (hm : x.lastLogIndex = q.prevLogIndex + k ∧ x.MatchesAt q (q.prevLogIndex + k) ∨
      x.MatchesAt q (q.prevLogIndex + k + 1)) :
    Run (NodeStep J (some (src, .appendEntries q)))
      (appendMissing entry (q.prevLogIndex + k + 1) : Act σ Unit) x fun r y =>
      y.role = .follower ∧ (r = .ok () → Receiving q y ∧
        y.MatchesAt q (q.prevLogIndex + k + 1)) := by
  unfold appendMissing
  refine run_get_bind (run_ite (fun hlt => ?_) fun hge => ?_)
  · obtain ⟨hlast, hmatch⟩ : x.lastLogIndex = q.prevLogIndex + k ∧
        x.MatchesAt q (q.prevLogIndex + k) := by
      refine hm.resolve_right fun hm' => ?_
      have := hm'.2.1
      omega
    refine run_lift_bind (fun e _ => ⟨h.role, by simp⟩) fun store happ => ?_
    have hstep : NodeStep J (some (src, .appendEntries q)) x
        { x with logStore := store, lastLogIndex := q.prevLogIndex + k + 1 } :=
      .appendEntry x src q k entry store rfl h.term h.role he hmatch hlast hown happ
    refine run_modify (single hstep) ⟨h.role, fun _ =>
      ⟨⟨hstep.wf h.wf, h.role, h.term, h.above⟩, ?_, le_rfl, Or.inr ⟨entry, ?_, ?_⟩⟩⟩
    · have := h.above
      show x.lastIncludedIndex ≤ _
      omega
    · show store.entryAt (q.prevLogIndex + k + 1) = .ok entry
      rw [h.wf.store.entryAt_append happ, if_pos hidx.symm]
    · exact termAt_entry he
  · refine run_pure ⟨h.role, fun _ => ⟨h, hm.resolve_left fun hl => ?_⟩⟩
    have := hl.1
    omega

/-- The loop ends with the whole request matched, or with an error. -/
theorem run_appendLoop (src : NodeId) (rest : List LogEntry) : ∀ {x : RaftNode σ} {k : Nat},
    Receiving q x → q.entries.drop k = rest → k ≤ q.entries.length →
    x.MatchesAt q (q.prevLogIndex + k) →
    Run (NodeStep J (some (src, .appendEntries q)))
      (appendLoop q.term rest (q.prevLogIndex + k) : Act σ Nat) x fun r y =>
      y.role = .follower ∧ ∀ i, r = .ok i → i = q.lastIndex ∧ Receiving q y ∧
        y.MatchesAt q q.lastIndex := by
  induction rest with
  | nil =>
    intro x k h hdrop hk hm
    have hlen : k = q.entries.length :=
      Nat.le_antisymm hk (List.drop_eq_nil_iff.mp hdrop)
    subst hlen
    refine run_pure ⟨h.role, fun i hi => ?_⟩
    cases hi
    exact ⟨rfl, h, hm⟩
  | cons entry rest ih =>
    intro x k h hdrop hk hm
    have he : q.entries[k]? = some entry := by
      have := congrArg (fun l => l[0]?) hdrop
      simpa using this
    have hrest : q.entries.drop (k + 1) = rest := by
      rw [← List.drop_drop, hdrop]
      rfl
    have hk1 : k + 1 ≤ q.entries.length := lt_of_getElem? he
    unfold appendLoop
    refine run_ite (fun _ => run_throw ⟨h.role, by simp⟩) fun hcons => ?_
    rw [not_or, not_not, not_not] at hcons
    refine run_bind (run_resolveConflict h he hm) (fun _ y _ hy => ?_)
      fun _ _ _ hy => ⟨hy.1, by simp⟩
    obtain ⟨hry, hmy⟩ := hy.2 rfl
    refine run_bind (run_appendMissing hry he hcons.1 hcons.2 hmy) (fun _ z _ hz => ?_)
      fun _ _ _ hz => ⟨hz.1, by simp⟩
    obtain ⟨hrz, hmz⟩ := hz.2 rfl
    exact ih hrz hrest hk1 hmz

omit [StateMachine σ] in
theorem AppliesOnly.receiving {x y : RaftNode σ} (h : AppliesOnly x y) (hr : Receiving q x)
    (hw : Wf y) {i : Nat} (hm : x.MatchesAt q i) : Receiving q y ∧ y.MatchesAt q i := by
  obtain ⟨_, _, _, _, _, _, rfl, -⟩ := h
  exact ⟨⟨hw, hr.role, hr.term, hr.above⟩, hm⟩

omit [StateMachine σ] in
/-- The consistency check: the node knows the request's term at `prevLogIndex`. -/
theorem matchesAt_prev (hw : Wf x) {t : Nat} (hlo : ¬ q.prevLogIndex < x.lastIncludedIndex)
    (hhi : ¬ x.lastLogIndex < q.prevLogIndex)
    (ht : (if q.prevLogIndex = 0 then .ok q.prevLogTerm else x.termForCheck q.prevLogIndex) = .ok t)
    (heq : t = q.prevLogTerm) : x.MatchesAt q q.prevLogIndex := by
  refine ⟨by omega, by omega, ?_⟩
  rcases Nat.eq_zero_or_pos q.prevLogIndex with h0 | h0
  · exact Or.inl h0
  right
  rw [if_neg (by omega)] at ht
  obtain ⟨e, he, het⟩ := (hw.termForCheck_iff h0).mp ht
  exact ⟨e, he, by simp [AppendEntriesRequest.termAt, het, heq]⟩

/-- The follower's commit index follows the leader's. -/
theorem run_followCommit (h : Receiving q x) (hm : x.MatchesAt q q.lastIndex) :
    Run (NodeStep J (some (src, .appendEntries q))) (modify fun x =>
        if x.commitIndex < q.leaderCommit then
          { x with commitIndex := min q.leaderCommit x.lastLogIndex }
        else x : Act σ Unit) x
      fun r y => r = .ok () ∧ Receiving q y ∧ y.MatchesAt q q.lastIndex := by
  unfold Run
  rw [modify_apply]
  dsimp only
  split_ifs with hlt
  · exact ⟨single (.commitFollower x src q rfl h.term h.role hm hlt), rfl,
      { h with wf := { h.wf with } }, hm⟩
  · exact ⟨Relation.ReflTransGen.refl, rfl, h, hm⟩

theorem run_acceptEntries (hw : Wf x) (hr : x.role = .follower) (ht : q.term = x.hardState.term) :
    Run (NodeStep J (some (src, .appendEntries q))) (acceptEntries src q : Act σ Unit) x
      fun _ y => y.role = .follower := by
  unfold acceptEntries
  refine run_get_bind (run_ite (fun _ => ?_) fun hhi => run_ite (fun _ => ?_) fun hlo => ?_)
  · exact run_modify (single (.send x src _ ⟨rfl, by simp⟩)) hr
  · exact run_modify (single (.send x src _ ⟨rfl, by simp⟩)) hr
  refine run_lift_bind (fun _ _ => hr) fun t hprev => run_ite (fun _ => ?_) fun hterm => ?_
  · exact run_modify (single (.send x src _ ⟨rfl, by simp⟩)) hr
  rw [not_not] at hterm
  have hrec : Receiving q x := ⟨hw, hr, ht, by omega⟩
  refine run_bind (run_appendLoop src q.entries (k := 0) hrec rfl (Nat.zero_le _)
    (matchesAt_prev hw hlo hhi hprev hterm)) (fun i y _ hy => ?_) fun _ _ _ hy => hy.1
  obtain ⟨rfl, hry, hmy⟩ := hy.2 i rfl
  refine run_seq (run_followCommit hry hmy) ?_
  rintro z ⟨hrz, hmz⟩
  refine run_bind (run_attempt (P := fun _ u => Receiving q u ∧ u.MatchesAt q q.lastIndex)
    (run_applyCommitted hrz.wf fun hl => absurd hl (by rw [hrz.role]; simp))
    fun _ u hpath hu => hu.1.receiving hrz (hrz.wf.path hpath) hmz)
    (fun result u _ hu => ?_) fun _ _ _ hu => hu.1.role
  refine run_get_bind (run_modify_bind (single (.send u src _ ⟨rfl, fun _ => ?_⟩))
    (run_lift hu.1.role))
  exact ⟨q, rfl, hu.1.term, hu.1.role, rfl, rfl, hu.2⟩

end AppendLoop

theorem run_handleAppendEntries (h : Ready x) (src : NodeId) (q : AppendEntriesRequest) :
    Run (NodeStep J (some (src, .appendEntries q))) (handleAppendEntries src q : Act σ Unit) x
      fun _ y => Calm y := by
  unfold handleAppendEntries
  refine run_get_bind (run_ite (fun _ => ?_) fun hge => ?_)
  · exact run_modify (single (.send x src _ ⟨rfl, by simp⟩)) h.calm
  refine run_bind (run_followLeader h.calm q.leaderId hge) (fun _ y hpath hy => ?_)
    fun _ _ _ hy => hy.1
  obtain ⟨hrole, hterm⟩ := hy.2 rfl
  exact (run_acceptEntries (h.wf.path hpath) hrole hterm.symm).weaken fun _ z _ hz =>
    calm_of_not_leader (by rw [hz]; simp)

theorem run_handleAppendEntriesResponse (h : Ready x) (src : NodeId) (r : AppendEntriesResponse) :
    Run (NodeStep J (some (src, .appendEntriesResponse r)))
      (handleAppendEntriesResponse src r : Act σ Unit) x fun _ y => Calm y := by
  unfold handleAppendEntriesResponse
  refine run_get_bind (run_ite (fun _ => ?_) fun hge => run_ite (fun _ => run_pure h.calm)
    fun hcond => ?_)
  · exact (run_recordFollower h.calm _ _).weaken fun _ _ _ hy => hy.2
  rw [not_or, not_not, not_not] at hcond
  obtain ⟨hrole, hterm⟩ := hcond
  have hlead := h.lead hrole
  refine run_ite (fun hsucc => ?_) fun _ => ?_
  · have hstep : NodeStep J (some (src, .appendEntriesResponse r)) x { x with
        nextIndex := x.nextIndex.insert src
          (max ((x.nextIndex.find src).getD 0) (max (x.matchOf src) r.matchIndex + 1))
        matchIndex := x.matchIndex.insert src (max (x.matchOf src) r.matchIndex)
        peerAckedRound := x.peerAckedRound.insert src
          (max ((x.peerAckedRound.find src).getD 0) r.round) } :=
      .progress x src r _ rfl hrole hterm hsucc
    have hly : Lead _ := ⟨hstep.wf h.wf, hrole, hlead.applied_le, hlead.commit_le, hlead.reads⟩
    refine run_modify_bind (single hstep) ?_
    refine (run_recording (P := Ready) ?_ fun _ e hz => hz.recordError e).weaken
      fun _ _ _ hz => hz.2.calm
    refine run_bind (run_advanceCommit hly) (fun _ y _ hy => ?_) fun _ _ _ hy => hy.1.ready hy.2
    obtain ⟨hlz, hsz⟩ := hy
    -- a read whose index is applied waits at a node that has applied everything
    have hfin : NodeStep J (some (src, .appendEntriesResponse r)) y (evaluateReadBarriers y) := by
      refine .finishReads y fun b hb hready => ⟨?_, hsz⟩
      refine (hlz.reads b hb).resolve_right fun hlt => ?_
      unfold barrierReady at hready
      simp only [Bool.and_eq_true, decide_eq_true_eq] at hready
      omega
    have hle : Lead (evaluateReadBarriers y) :=
      ⟨hfin.wf hlz.wf, hlz.role, hlz.applied_le, hlz.commit_le,
        fun b hb => hlz.reads b (List.mem_of_mem_filter hb)⟩
    have hse : (evaluateReadBarriers y).Settled := hsz
    refine run_modify_bind (single hfin) (run_get_bind (run_ite (fun _ => ?_)
      fun _ => run_pure (hle.ready hse)))
    exact (run_sendAppendEntries hle.wf hle.role src).weaken fun _ _ _ hz =>
      (hz.lead hle).ready (hz.settled hle.applied_le hse)
  · have hs := (h.calm hrole).1
    refine run_ite (fun _ => ?_) fun _ => ?_
    · exact (run_recording ((run_sendSnapshot h.wf hrole src).weaken fun _ _ _ hz =>
        (hz.lead hlead).ready (hz.settled h.applied_le hs)) fun _ e hz => hz.recordError e).weaken
        fun _ _ _ hz => hz.2.calm
    · refine run_modify_bind (single (.quiet rfl)) ?_
      have hly : Lead { x with
          nextIndex := x.nextIndex.insert src
            (if 1 < (x.nextIndex.find src).getD 0 then (x.nextIndex.find src).getD 0 - 1
             else (x.nextIndex.find src).getD 0) } :=
        ⟨{ h.wf with }, hrole, hlead.applied_le, hlead.commit_le, hlead.reads⟩
      exact (run_recording ((run_sendAppendEntries hly.wf hly.role src).weaken fun _ _ _ hz =>
        (hz.lead hly).ready (hz.settled hly.applied_le hs)) fun _ e hz => hz.recordError e).weaken
        fun _ _ _ hz => hz.2.calm

/-! ## Snapshots -/

section Install

variable {src : NodeId} {q : InstallSnapshotRequest}

/-- Refusing a snapshot: the chunks received so far are dropped. -/
theorem refuse_path (x : RaftNode σ) (dst : NodeId) : Relation.ReflTransGen (NodeStep J inp) x
      (send dst (.installSnapshotResponse ⟨x.hardState.term, false⟩)
        { x with pendingSnapshot := none }) :=
  (single (.dropSnapshot x)).tail (.send _ dst _ rfl)

theorem run_completeInstall {pending : PendingSnapshot} (hr : x.role = .follower)
    (hterm : q.term = x.hardState.term) (happlied : x.lastApplied ≤ q.lastIncludedIndex)
    (hpending : x.pendingSnapshot = some pending)
    (hindex : pending.lastIncludedIndex = q.lastIncludedIndex)
    (hsnapTerm : pending.lastIncludedTerm = q.lastIncludedTerm) (hdone : q.done = true)
    (hlast : pending.buffer.length = q.offset + q.data.length)
    (hsize : pending.buffer.length ≤ kMaxPendingSnapshotBytes)
    (hjoin : J → ((completeInstall src pending : Act σ Unit) x).2.lastIncludedIndex
        = q.lastIncludedIndex → x.Joins ⟨q.lastIncludedIndex, q.lastIncludedTerm⟩) :
    Run (NodeStep J (some (src, .installSnapshot q))) (completeInstall src pending : Act σ Unit) x
      fun _ y => y.role = .follower := by
  unfold completeInstall
  refine run_get_bind ?_
  rcases hres : StateMachine.restore x.stateMachine x.snapshotRange pending.buffer
    with ⟨result, machine⟩
  cases result with
  | error e =>
    have hstep : NodeStep J (some (src, .installSnapshot q)) x { x with stateMachine := machine } :=
      .restoreFailed x machine pending e hres
    exact run_modify_bind (single hstep) (run_modify_bind (refuse_path _ src) (run_throw hr))
  | ok _ =>
    dsimp only
    rw [hindex, hsnapTerm]
    cases hinst : x.logStore.installSnapshot ⟨q.lastIncludedIndex, q.lastIncludedTerm⟩ with
    | error e =>
      have hstep : NodeStep J (some (src, .installSnapshot q)) x
          (emit .unrecorded { x with stateMachine := machine }) := .recordFailed x machine
      exact run_of_eq (p := modify (fun x => send src _ { x with pendingSnapshot := none }) >>=
        fun _ => throw e) rfl (single hstep) (run_modify_bind (refuse_path _ src) (run_throw hr))
    | ok store =>
      have hstep : NodeStep J (some (src, .installSnapshot q)) x
          (x.installed store machine ⟨q.lastIncludedIndex, q.lastIncludedTerm⟩) :=
        .install x src q pending machine store rfl hterm hr happlied hpending hindex hsnapTerm
          hdone hlast hsize hres hinst fun hJ => hjoin hJ (by
            unfold completeInstall
            simp only [get_bind_apply, hres, hindex, hsnapTerm, hinst]
            rfl)
      exact run_of_eq (p := modify fun x => send src _ x) rfl (single hstep)
        (run_modify (single (.send _ src _ rfl)) hr)

theorem run_acceptChunk (hr : x.role = .follower) (hterm : q.term = x.hardState.term)
    (happlied : x.lastApplied ≤ q.lastIncludedIndex) (changed : Bool)
    (hjoin : J → ((acceptChunk src q changed : Act σ Unit) x).2.lastIncludedIndex
        = q.lastIncludedIndex → x.Joins ⟨q.lastIncludedIndex, q.lastIncludedTerm⟩) :
    Run (NodeStep J (some (src, .installSnapshot q))) (acceptChunk src q changed : Act σ Unit) x
      fun _ y => y.role = .follower := by
  unfold acceptChunk at hjoin ⊢
  rw [get_bind_apply] at hjoin
  refine run_get_bind ?_
  -- the buffer so far: empty, or the one already kept for the same snapshot
  have hbefore : ∀ p : PendingSnapshot,
      (if q.offset = 0 ∨ changed then ⟨q.term, q.lastIncludedIndex, q.lastIncludedTerm, []⟩
       else x.pendingSnapshot.getD ⟨q.term, q.lastIncludedIndex, q.lastIncludedTerm, []⟩) = p →
      p.buffer = [] ∨ x.pendingSnapshot = some p := by
    rintro p rfl
    split
    · exact Or.inl rfl
    · cases hp : x.pendingSnapshot with
      | none => exact Or.inl rfl
      | some p => exact Or.inr rfl
  dsimp only at hjoin ⊢
  generalize (if q.offset = 0 ∨ changed then
      (⟨q.term, q.lastIncludedIndex, q.lastIncludedTerm, []⟩ : PendingSnapshot)
    else x.pendingSnapshot.getD ⟨q.term, q.lastIncludedIndex, q.lastIncludedTerm, []⟩) = p
    at hbefore hjoin ⊢
  have hb := hbefore p rfl
  refine run_ite (fun _ => run_modify (refuse_path x src) hr) fun hfit => ?_
  rw [if_neg hfit] at hjoin
  simp only [not_or, not_not] at hfit
  obtain ⟨hindex, hsnapTerm, hoffset⟩ := hfit
  refine run_ite (fun _ => run_modify_bind (refuse_path x src) (run_throw hr)) fun hsize => ?_
  rw [if_neg hsize, modify_bind_apply] at hjoin
  have hchunk : NodeStep J (some (src, .installSnapshot q)) x
      { x with pendingSnapshot := some { p with buffer := p.buffer ++ q.data } } := by
    refine .chunk x src q _ rfl hterm hindex hsnapTerm ⟨p.buffer, rfl, hoffset, hb.imp id ?_⟩
    exact fun hp => ⟨p, hp, rfl, hindex, hsnapTerm⟩
  refine run_modify_bind (single hchunk) (run_ite (fun hdone => ?_) fun _ => run_pure hr)
  rw [if_pos hdone] at hjoin
  exact run_completeInstall hr hterm happlied rfl hindex hsnapTerm hdone
    (by simp [hoffset]) (Nat.le_of_not_lt hsize) hjoin

end Install

theorem run_handleInstallSnapshot (h : Ready x) (src : NodeId) (q : InstallSnapshotRequest)
    (hjoin : J → ((handleInstallSnapshot src q : Act σ Unit) x).2.lastIncludedIndex
        = q.lastIncludedIndex → x.Joins ⟨q.lastIncludedIndex, q.lastIncludedTerm⟩) :
    Run (NodeStep J (some (src, .installSnapshot q))) (handleInstallSnapshot src q : Act σ Unit) x
      fun _ y => Calm y := by
  unfold handleInstallSnapshot at hjoin ⊢
  rw [get_bind_apply] at hjoin
  refine run_get_bind (run_ite (fun _ => ?_) fun hge => ?_)
  · exact run_modify (single (.send x src _ rfl)) h.calm
  rw [if_neg hge] at hjoin
  refine run_bind (run_followLeader h.calm q.leaderId hge).self (fun _ y _ hyx => ?_)
    fun _ _ _ hy => hy.1.1
  obtain ⟨hy, heq⟩ := hyx
  have hlog : SameLog x y := by
    have := followLeader_sameLog q.term q.leaderId x
    rwa [heq] at this
  rw [bind_apply_ok heq, get_bind_apply] at hjoin
  obtain ⟨hrole, hterm⟩ := hy.2 rfl
  refine run_get_bind (run_ite (fun _ => ?_) fun hzero => run_ite (fun _ => ?_) fun happlied => ?_)
  · exact run_modify (single (.send y src _ rfl)) hy.1
  · exact run_modify (single (.send y src _ rfl)) hy.1
  · rw [if_neg hzero, if_neg happlied] at hjoin
    refine (run_acceptChunk hrole hterm.symm (Nat.le_of_not_lt happlied) _ fun hJ hi => ?_).weaken
      fun _ z _ hz => calm_of_not_leader (by rw [hz]; simp)
    exact (hlog.joins _).mpr (hjoin hJ hi)

theorem run_handleInstallSnapshotResponse (h : Ready x)
    (src : NodeId) (r : InstallSnapshotResponse) :
    Run (NodeStep J inp) (handleInstallSnapshotResponse src r : Act σ Unit) x
      fun _ y => Calm y := by
  unfold handleInstallSnapshotResponse
  refine run_get_bind (run_ite (fun _ => ?_) fun _ => run_ite (fun _ => run_pure h.calm)
    fun hcond => run_ite (fun _ => ?_) fun _ => ?_)
  · exact (run_recordFollower h.calm _ _).weaken fun _ _ _ hy => hy.2
  · rw [not_or, not_not, not_not] at hcond
    refine run_ite (fun _ => ?_) fun _ => run_pure h.calm
    exact (run_recording ((run_sendAppendEntries h.wf hcond.1 src).weaken fun _ _ _ hz =>
      hz.calm h.applied_le h.calm) fun _ _ hz => hz).weaken fun _ _ _ hz => hz.2
  · exact run_modify (single (.quiet rfl)) h.calm

omit [StateMachine σ] in
theorem recording_lastIncludedIndex (m : Act σ Unit) (x : RaftNode σ) :
    (recording m x).2.lastIncludedIndex = (m x).2.lastIncludedIndex := by
  unfold recording Prog.orElse
  rcases m x with ⟨r, y⟩
  cases r <;> rfl

/-- **Every handler is a path of steps**, and leaves the waiting reads in order. -/
theorem run_handleMessage (h : Ready x) (src : NodeId) (message : Message)
    (hjoin : J → ∀ q, message = .installSnapshot q →
      ((handleMessage src message : Act σ Unit) x).2.lastIncludedIndex = q.lastIncludedIndex →
      x.Joins ⟨q.lastIncludedIndex, q.lastIncludedTerm⟩) :
    Run (NodeStep J (some (src, message))) (handleMessage src message : Act σ Unit) x
      fun _ y => Calm y := by
  have hrec : ∀ {m : Act σ Unit},
      Run (NodeStep J (some (src, message))) m x (fun _ y => Calm y) →
      Run (NodeStep J (some (src, message))) (recording m) x fun _ y => Calm y :=
    fun hm => (run_recording hm fun _ _ hy => hy).weaken fun _ _ _ hy => hy.2
  cases message with
  | requestVote q => exact hrec (run_handleRequestVote h.calm src q)
  | requestVoteResponse r => exact run_handleRequestVoteResponse h src r
  | appendEntries q => exact hrec (run_handleAppendEntries h src q)
  | appendEntriesResponse r => exact run_handleAppendEntriesResponse h src r
  | installSnapshot q =>
    refine hrec (run_handleInstallSnapshot h src q fun hJ hi => hjoin hJ q rfl ?_)
    rw [← hi]
    exact recording_lastIncludedIndex _ x
  | installSnapshotResponse r => exact run_handleInstallSnapshotResponse h src r

end SqlDb.Raft.RaftNode
