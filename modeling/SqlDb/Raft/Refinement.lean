/-
  EVERY STEP OF A NODE IS MATCHED BY STEPS OF THE ABSTRACT PROTOCOL.

  `NodeStep.sim` puts the pieces of `SimSteps.lean` together.  What is left for this module is
    * the steps that leave everything the history speaks about alone (`NodeOk.congr`), and
    * SENDING (`sim_send`): a message is a statement about the history, true when it is made.  The
      one message that is an abstract step by itself is the positive answer to an append request: it
      promises to keep the confirmed prefix.

  The parameter `J` asks that snapshots are only installed under logs that go on from them; it is
  `False` for everything except log matching, which is FALSE without it.
-/
import SqlDb.Raft.SimSteps

namespace SqlDb.Raft

open EpochLog RaftNode

variable {σ : Type} {J : Prop} {g : Group} {a : History} {n : NodeId} {x : RaftNode σ}

/-- A node that differs only in what the history does not speak about. -/
theorem NodeOk.congr (h : NodeOk g a n x) {y : RaftNode σ} (hw : y.Wf)
    (hconfig : y.config = x.config) (hhard : y.hardState = x.hardState)
    (hstore : y.logStore = x.logStore) (hlast : y.lastLogIndex = x.lastLogIndex)
    (hlii : y.lastIncludedIndex = x.lastIncludedIndex) (hcommit : y.commitIndex = x.commitIndex)
    (happlied : y.lastApplied ≤ x.commitIndex) (hrole : y.role = x.role)
    (hvotes : y.votesReceived = x.votesReceived) (hmatch : ∀ p, y.matchOf p = x.matchOf p)
    (hround : y.heartbeatRound = x.heartbeatRound)
    (hacked : y.peerAckedRound = x.peerAckedRound) : NodeOk g a n y where
  wf := hw
  member := h.member
  voters := by rw [hvotes]; exact h.voters
  nodeId := by rw [hconfig]; exact h.nodeId
  peers := by rw [hconfig]; exact h.peers
  term := by rw [hhard]; exact h.term
  vote := by rw [hhard]; exact h.vote
  log := ⟨by rw [hlast]; exact h.log.length, by rw [hstore, hlii]; exact h.log.entry⟩
  graft := by rw [hlii]; exact h.graft
  applied_le := by rw [hcommit]; exact happlied
  commit_le := by rw [hcommit, hlast]; exact h.commit_le
  commit := by rw [hhard, hcommit]; exact h.commit
  leader := fun hr => by
    have hl := h.leader (hrole ▸ hr)
    exact {
      leader := by rw [hhard]; exact hl.leader
      log := by rw [hhard]; exact hl.log
      commit := by rw [hhard, hcommit]; exact hl.commit
      matched := fun p => by rw [hmatch, hhard, hcommit]; exact hl.matched p
      self := by rw [hhard, hmatch]; exact hl.self
      round := by rw [hround, hhard]; exact hl.round
      rounds := fun p r hp => by rw [hhard, hmatch]; exact hl.rounds p r (hacked ▸ hp) }
  candidate := fun hr => by
    have hc := h.candidate (hrole ▸ hr)
    exact {
      cand := by rw [hhard]; exact hc.cand
      notLeader := by rw [hhard]; exact hc.notLeader
      votes := by rw [hhard, hvotes]; exact hc.votes }

/-! ## Sending -/

/-- A leader tells what is in its log. -/
theorem appendOk_of_builtBy (h : NodeOk g a n x) (hinv : Inv g.quorums a) {q : AppendEntriesRequest}
    (hrole : x.role = .leader) (hq : x.BuiltBy q) : AppendOk a n q := by
  have hl := h.leader hrole
  obtain ⟨v, hv, hc, -⟩ := h.commit
  have hlen : (a.termLog q.term).length = x.lastLogIndex := by
    rw [hq.term, ← hl.log]
    exact h.log.length
  exact {
    leader := by rw [hq.term]; exact hl.leader
    index := fun k e he => h.wf.store.entryAt_index (hq.entries k e he)
    entries := fun k e he => by
      obtain ⟨f, hf, ht, hd⟩ := h.log.entry _ e (hq.entries k e he)
      rw [hq.term, ← hl.log, ht, hd (by have := hq.above; omega)]
      simpa using hf
    prev := hq.prev.imp id fun ⟨e, he, het⟩ => by
      obtain ⟨f, hf, ht, -⟩ := h.log.entry _ e he
      exact ⟨f, by rw [hq.term, ← hl.log]; exact hf, by rw [← ht, het]⟩
    last := by rw [hq.last, hlen]
    base := by
      obtain ⟨e, he, -⟩ := hinv.own q.term (by rw [hq.term, hl.leader]; simp)
      rw [hq.last, ← hlen]
      exact lt_of_getElem? he
    commit := ⟨by rw [hq.leaderCommit, hq.last]; exact h.commit_le,
      v, by rw [hq.term]; exact hv, by rw [hq.leaderCommit]; exact hc⟩
    round := by rw [hq.round, hq.term, hl.round] }

/-- A follower confirms a prefix: a promise it makes to the history, unless it is committed. -/
theorem sim_confirm (h : NodeOk g a n x) (hinv : Inv g.quorums a) {src : NodeId}
    {q : AppendEntriesRequest} (hq : AppendOk a src q) (hterm : q.term = x.hardState.term)
    (hmatch : x.MatchesAt q q.lastIndex) :
    ∃ a', Reach J g.quorums n a a' ∧ NodeOk g a' n x ∧
      (q.lastIndex ≤ a'.acked n x.hardState.term ∨ q.lastIndex ≤ a'.commit x.hardState.term) := by
  have hqcur : q.term = a.cur n := hterm.trans h.term.symm
  have hagree := h.agree hinv hq hterm hmatch (Nat.le_add_right _ _)
  rcases ack_or_committed hinv (h.graft.trans hmatch.1) hagree with hack | hcommit
  · have hstep : Step J g.quorums n a (a.setAcked n (a.cur n) q.lastIndex) :=
      .ack a q.lastIndex (by rw [← hqcur]; exact hq.last) hagree hack
    refine ⟨_, Reach.single hstep, ?_, Or.inl ?_⟩
    · exact h.same (hstep.mono hinv) ⟨rfl, rfl, rfl, rfl, rfl, rfl, rfl, rfl⟩ rfl
    · have : (a.setAcked n (a.cur n) q.lastIndex).acked n x.hardState.term
          = max (a.acked n (a.cur n)) q.lastIndex := by
        rw [← h.term]
        exact if_pos ⟨rfl, rfl⟩
      rw [this]
      exact Nat.le_max_right _ _
  · exact ⟨a, Reach.refl a, h, Or.inr (by rw [← h.term]; exact hcommit)⟩

variable {inp : Option (NodeId × Message)}

theorem sim_send (h : NodeOk g a n x) (hinv : Inv g.quorums a) [StateMachine σ]
    (hinp : ∀ src m, inp = some (src, m) → MsgOk a ⟨src, n, m⟩) {dst : NodeId} {message : Message}
    (hs : Sendable inp x dst message) :
    ∃ a', Reach J g.quorums n a a' ∧ NodeOk g a' n x ∧ MsgOk a' ⟨n, dst, message⟩ := by
  cases message with
  | requestVote r =>
    obtain ⟨hrole, -, hterm, hid, hlast, hlastTerm⟩ := hs
    have hc := h.candidate hrole
    refine ⟨a, Reach.refl a, h, hid.trans h.nodeId, a.log n, ?_, ?_, h.log.lastLogTerm hlastTerm⟩
    · rw [hterm]; exact hc.cand
    · rw [hlast]; exact h.log.length
  | requestVoteResponse r =>
    obtain ⟨hterm, hgrant⟩ := hs
    refine ⟨a, Reach.refl a, h, fun hg => ?_⟩
    obtain ⟨q, hq, hqt, hvote⟩ := hgrant hg
    obtain ⟨hid, -⟩ : q.candidateId = dst ∧ _ := hinp _ _ hq
    show a.vote n r.term = some dst
    rw [hterm, h.vote, hvote, hid]
  | appendEntries q => exact ⟨a, Reach.refl a, h, appendOk_of_builtBy h hinv hs.1 hs.2.2⟩
  | appendEntriesResponse r =>
    obtain ⟨hterm, hok⟩ := hs
    by_cases hsucc : r.success = true
    · obtain ⟨q, hq, hqt, hrole, hround, hmatch, hmat⟩ := hok hsucc
      have hqok : AppendOk a dst q := hinp _ _ hq
      obtain ⟨a', hr, hn, hack⟩ := sim_confirm (J := J) h hinv hqok hqt hmat
      have hm := hr.mono hinv
      have hl : a.leader q.term ≠ none := by rw [hqok.leader]; simp
      have hrt : r.term = q.term := hterm.trans hqt.symm
      refine ⟨a', hr, hn, fun _ => ⟨?_, ?_, ?_, ?_, ?_⟩⟩
      · rw [hterm, hmatch]; exact hack
      · rw [hrt, hround]; exact hqok.round.trans (hm.round _)
      · show a'.seen r.term r.round n ≤ r.term
        rw [hrt, hround, hm.seen _ _ hqok.round, hqt, ← h.term]
        exact hinv.seen_cur _ _ _ (by rw [h.term, ← hqt]; exact hqok.round)
      · rw [hrt, hmatch, hm.base _ hl]; exact hqok.base
      · rw [hrt]; exact hm.leader_ne hl
    · exact ⟨a, Reach.refl a, h, fun hs => absurd hs hsucc⟩
  | installSnapshot r =>
    obtain ⟨hrole, hterm, hid, hidx, ⟨e, he, het⟩, -⟩ := hs
    obtain ⟨v, hv, hc, hag⟩ := h.commit
    obtain ⟨f, hf, hft, -⟩ := h.log.entry _ e he
    have h0 := (h.wf.entryAt_range he).1
    have happ := h.applied_le
    refine ⟨a, Reach.refl a, h, v, by rw [hterm]; exact hv, by rw [hidx]; omega, f, ?_, ?_⟩
    · rw [hidx, ← hag _ (by omega)]; exact hf
    · rw [← hft, het]
  | installSnapshotResponse r => exact ⟨a, Reach.refl a, h, trivial⟩

/-! ## One step of one node -/

theorem sim_countVote (h : NodeOk g a n x) {src : NodeId} {r : RequestVoteResponse}
    (hr : MsgOk a ⟨src, n, .requestVoteResponse r⟩) (hsrc : src ∈ g.peers)
    (hrole : x.role = .candidate) (hterm : r.term = x.hardState.term)
    (hgranted : r.voteGranted = true) :
    NodeOk g a n { x with votesReceived := x.votesReceived.insert src } := by
  have hc := h.candidate hrole
  have hvote : a.vote src x.hardState.term = some n := by
    rw [← hterm]
    exact hr hgranted
  refine { h with
    wf := { h.wf with }
    log := ⟨h.log.length, h.log.entry⟩
    voters := fun q hq => ?_
    leader := fun hl => ?_
    candidate := fun _ => { hc with votes := ⟨hc.votes.1.insert, fun q hq => ?_⟩ } }
  · rcases List.mem_insert_iff.mp hq with rfl | hq
    · exact hsrc
    · exact h.voters q hq
  · have hl : x.role = .leader := hl
    rw [hrole] at hl
    simp at hl
  · rcases List.mem_insert_iff.mp hq with rfl | hq
    · exact hvote
    · exact hc.votes.2 q hq

/-- A step either is silent and matched by steps of the history, or sends a message. -/
theorem sim_silent (h : NodeOk g a n x) (hinv : Inv g.quorums a) (hrounds : Rounds a)
    [StateMachine σ]
    (hinp : ∀ src m, inp = some (src, m) → MsgOk a ⟨src, n, m⟩ ∧ src ∈ g.peers)
    {y : RaftNode σ} (hs : NodeStep J inp x y) :
    (∃ a', Reach J g.quorums n a a' ∧ NodeOk g a' n y ∧ y.outbox = x.outbox) ∨
      ∃ dst message, y = x.send dst message ∧ Sendable inp x dst message := by
  have hwy := hs.wf h.wf
  -- a step that the history does not see
  have same : NodeOk g a n y → y.outbox = x.outbox →
      ∃ a', Reach J g.quorums n a a' ∧ NodeOk g a' n y ∧ y.outbox = x.outbox :=
    fun hy ho => ⟨a, Reach.refl a, hy, ho⟩
  have step : ∀ {a'}, Step J g.quorums n a a' ∧ NodeOk g a' n y → y.outbox = x.outbox →
      ∃ a', Reach J g.quorums n a a' ∧ NodeOk g a' n y ∧ y.outbox = x.outbox :=
    fun hy ho => ⟨_, Reach.single hy.1, hy.2, ho⟩
  have reach : (∃ a', Reach J g.quorums n a a' ∧ NodeOk g a' n y) → y.outbox = x.outbox →
      ∃ a', Reach J g.quorums n a a' ∧ NodeOk g a' n y ∧ y.outbox = x.outbox :=
    fun ⟨a', hr, hy⟩ ho => ⟨a', hr, hy, ho⟩
  cases hs with
  | send dst message hm => exact Or.inr ⟨dst, message, rfl, hm⟩
  | quiet hc =>
    have hf {A : Type} (f : RaftNode σ → A) : f (core y) = f (core x) := (congrArg f hc).symm
    refine Or.inl (same (h.congr hwy (hf config) (hf hardState) (hf logStore) (hf lastLogIndex)
      (hf lastIncludedIndex) (hf commitIndex) ?_ (hf role) (hf votesReceived)
      (fun p => hf (matchOf · p)) (hf heartbeatRound) (hf peerAckedRound)) (hf outbox))
    rw [show y.lastApplied = x.lastApplied from hf lastApplied]
    exact h.applied_le
  | touchMatch m hm =>
    exact Or.inl (same (h.congr hwy rfl rfl rfl rfl rfl rfl h.applied_le rfl rfl hm rfl rfl) rfl)
  | stepDown li =>
    obtain ⟨dl, ev, pp, prb, heq, -⟩ := relinquish_eq li x
    rw [heq] at hwy same ⊢
    exact Or.inl (same (h.follower hwy rfl rfl rfl rfl rfl rfl rfl rfl rfl) rfl)
  | newTerm T li store hT hsave =>
    obtain ⟨dl, ev, pp, prb, heq, -⟩ :=
      relinquish_eq li { x with logStore := store, hardState := ⟨T, none⟩ }
    exact Or.inl (step (sim_newTerm h hinv hT hsave hwy rfl) (by rw [heq]))
  | campaign store hrole hsave => exact Or.inl (step (sim_campaign h hsave hinv hwy rfl) rfl)
  | grant src q store lastTerm hq hterm hvote hlast hlog hsave =>
    exact Or.inl (reach (sim_grant h hinv (hinp _ _ hq).1 hterm hvote hlast hlog hsave hwy rfl) rfl)
  | countVote src r hr hrole hterm hgranted =>
    obtain ⟨hmsg, hsrc⟩ := hinp _ _ hr
    exact Or.inl (same (sim_countVote h hmsg hsrc hrole hterm hgranted) rfl)
  | takeOffice store hrole hquorum happ =>
    exact Or.inl (step (sim_takeOffice h hinv hrounds hrole hquorum happ hwy) rfl)
  | abandon hrole =>
    obtain ⟨dl, ev, pp, prb, heq, -⟩ := relinquish_eq none
      (initializeLeaderProgress { x with role := .leader, leaderId := some x.config.nodeId })
    rw [heq] at hwy same ⊢
    exact Or.inl (same (h.follower hwy rfl rfl rfl rfl rfl rfl rfl rfl rfl) rfl)
  | appendOwn store data hrole happ => exact Or.inl (reach (sim_appendOwn h hinv hrole happ hwy) rfl)
  | truncate src q k existing entry store error hq hterm hrole habove hentry hex hne htr =>
    exact Or.inl (reach (sim_truncate h hinv (hinp _ _ hq).1 hterm hrole habove hentry hex hne htr
      hwy rfl) rfl)
  | appendEntry src q k entry store hq hterm hrole hentry hmatch hlast hown happ =>
    exact Or.inl (reach (sim_appendEntry h hinv (hinp _ _ hq).1 hterm hrole hentry hmatch hlast happ
      hwy rfl) rfl)
  | compact entry store hlt hentry hinst =>
    exact Or.inl (same (sim_compact h hlt hentry hinst hwy rfl) rfl)
  | progress src r next hr hrole hterm hsucc =>
    exact Or.inl (same (sim_progress h (hinp _ _ hr).1 hrole hterm hsucc) rfl)
  | optimistic dst next hrole => exact Or.inl (same (sim_optimistic h hrole) rfl)
  | newRound hrole => exact Or.inl (step (sim_newRound h hinv hrole) rfl)
  | commitLeader entry hrole hlt hle hentry hterm =>
    exact Or.inl (step (sim_commitLeader h hrole hlt hle hentry hterm) rfl)
  | commitFollower src q hq hterm hrole hmatch hlt =>
    exact Or.inl (same (sim_commitFollower h hinv (hinp _ _ hq).1 hterm hrole hmatch hlt) rfl)
  | applied machine entry result hlt hentry happly =>
    obtain ⟨_, _, heq, -⟩ := applied_eq machine entry x
    rw [heq] at hwy same ⊢
    exact Or.inl (same (h.congr hwy rfl rfl rfl rfl rfl rfl hlt rfl rfl (fun _ => rfl) rfl rfl) rfl)
  | applyFailed | dropSnapshot | chunk | restoreFailed | recordFailed | openRead | answerRead
  | finishReads =>
    exact Or.inl (same (h.congr hwy rfl rfl rfl rfl rfl rfl h.applied_le rfl rfl (fun _ => rfl)
      rfl rfl) rfl)
  | install src q pending machine store hq hterm hrole happlied hpending hindex hsnapTerm hdone
      hlast hsize hrestore hinst hjoin =>
    exact Or.inl (reach (sim_install h hinv (hinp _ _ hq).1 hterm hrole happlied hinst hjoin hwy) rfl)

/-- What a node has to say about the history: itself, and the messages it is about to send. -/
def Accounted (g : Group) (a : History) (n : NodeId) (x : RaftNode σ) : Prop :=
  NodeOk g a n x ∧ ∀ p ∈ x.outbox, MsgOk a ⟨n, p.1, p.2⟩

/-- **The simulation.**  A step of an accounted node, handling a true message of a peer, is matched
    by steps of the abstract protocol that account for the node again. -/
theorem RaftNode.NodeStep.sim [StateMachine σ] {y : RaftNode σ}
    (hs : NodeStep J inp x y) (h : Accounted g a n x) (hinv : Inv g.quorums a) (hrounds : Rounds a)
    (hinp : ∀ src m, inp = some (src, m) → MsgOk a ⟨src, n, m⟩ ∧ src ∈ g.peers) :
    ∃ a', Reach J g.quorums n a a' ∧ Accounted g a' n y := by
  obtain ⟨hn, hout⟩ := h
  rcases sim_silent hn hinv hrounds hinp hs with ⟨a', hr, hy, ho⟩ | ⟨dst, message, rfl, hm⟩
  · refine ⟨a', hr, hy, fun p hp => ?_⟩
    rw [ho] at hp
    exact (hout p hp).mono (hr.mono hinv)
  · obtain ⟨a', hr, hy, hmsg⟩ := sim_send (J := J) hn hinv (fun src m hm => (hinp src m hm).1) hm
    refine ⟨a', hr, ?_, fun p hp => ?_⟩
    · exact hy.congr { hy.wf with } rfl rfl rfl rfl rfl rfl hy.applied_le rfl rfl (fun _ => rfl)
        rfl rfl
    · rcases mem_snoc.mp hp with hp | rfl
      · exact (hout p hp).mono (hr.mono hinv)
      · exact hmsg

end SqlDb.Raft
