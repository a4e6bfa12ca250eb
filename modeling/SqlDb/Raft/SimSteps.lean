/-
  THE SIMULATION, STEP BY STEP.

  One lemma for each kind of `NodeStep` that changes what the history accounts for; the others leave
  the abstract state as it is.  `NodeStep.sim` collects them.
-/
import SqlDb.Raft.Simulation

namespace SqlDb.Raft

open EpochLog RaftNode

variable {σ : Type} {J : Prop} {g : Group} {a : History} {n : NodeId} {x : RaftNode σ}

theorem other_role {r s : Role} {P : Prop} (h : x.role = r) (hne : r ≠ s := by decide)
    (hs : x.role = s) : P := absurd (h.symm.trans hs) hne

/-! ## Terms, votes and offices -/

variable {store : LogStore} {y : RaftNode σ} (h : NodeOk g a n x)
include h

/-- A higher term is adopted: no vote has been given in it. -/
theorem sim_newTerm (hinv : Inv g.quorums a) {T : Nat} {li : Option NodeId}
    (hT : x.hardState.term < T)
    (hsave : x.logStore.saveHardState ⟨T, none⟩ = .ok store) (hwy : y.Wf)
    (hy : y = relinquish li { x with logStore := store, hardState := ⟨T, none⟩ }) :
    Step J g.quorums n a (a.setCur n T) ∧ NodeOk g (a.setCur n T) n y := by
  have hcur : a.cur n < T := h.term ▸ hT
  refine ⟨.advance a T hcur, ?_⟩
  obtain rfl := LogStore.saveHardState_ok hsave
  obtain ⟨dl, ev, pp, prb, heq, -⟩ := relinquish_eq li
    { x with logStore := { x.logStore with hardState := ⟨T, none⟩ }, hardState := ⟨T, none⟩ }
  rw [heq] at hy
  subst hy
  obtain ⟨v, hv, hc, hag⟩ := h.commit
  exact { h with
    wf := hwy, voters := by simp, term := if_pos rfl
    vote := by
      show a.vote n T = none
      by_contra hne
      obtain ⟨c, hc⟩ := Option.ne_none_iff_exists'.mp hne
      have := hinv.vote_cur n T c hc
      omega
    log := ⟨h.log.length, h.log.entry⟩
    commit := ⟨v, by simp only; omega, hc, hag⟩
    leader := fun hr => by simp at hr
    candidate := fun hr => by simp at hr }

theorem sim_campaign
    (hsave : x.logStore.saveHardState ⟨x.hardState.term + 1, some x.config.nodeId⟩ = .ok store)
    (hinv : Inv g.quorums a) (hwy : y.Wf)
    (hy : y = resetElectionDeadline { x with
        logStore := store, role := .candidate, leaderId := none,
        hardState := ⟨x.hardState.term + 1, some x.config.nodeId⟩,
        votesReceived := [x.config.nodeId] }) :
    Step J g.quorums n a (a.campaign n) ∧ NodeOk g (a.campaign n) n y := by
  refine ⟨.campaign a, ?_⟩
  obtain rfl := LogStore.saveHardState_ok hsave
  have hid := h.nodeId
  have hterm := h.term
  obtain ⟨v, hv, hc, hag⟩ := h.commit
  have hvote : (a.campaign n).vote n (x.hardState.term + 1) = some n := by
    show (if n = n ∧ x.hardState.term + 1 = a.cur n + 1 then some n else _) = some n
    rw [if_pos ⟨rfl, by omega⟩]
  subst hy
  exact { h with
    wf := hwy
    voters := fun q hq => by
      obtain rfl := List.mem_singleton.mp hq
      rw [hid]
      exact h.member
    term := by
      show (if n = n then a.cur n + 1 else _) = x.hardState.term + 1
      rw [if_pos rfl, hterm]
    vote := by
      show (a.campaign n).vote n (x.hardState.term + 1) = some x.config.nodeId
      rw [hvote, hid]
    log := ⟨h.log.length, h.log.entry⟩
    commit := ⟨v, Nat.le_succ_of_le hv, hc, hag⟩
    leader := fun hr => by simp [resetElectionDeadline] at hr
    candidate := fun _ => {
      cand := by
        show (if x.hardState.term + 1 = a.cur n + 1 ∧ n = n then some (a.log n) else _) = _
        rw [if_pos ⟨by omega, rfl⟩]
        rfl
      notLeader := fun hl => by
        have := hinv.leader_cur (x.hardState.term + 1) n hl
        omega
      votes := ⟨List.nodup_singleton _, fun q hq => by
        obtain rfl := List.mem_singleton.mp hq
        show (a.campaign n).vote x.config.nodeId _ = _
        rw [hid]
        exact hvote⟩ } }

variable {src : NodeId}

theorem sim_grant (hinv : Inv g.quorums a)
    {q : RequestVoteRequest} {lastT : Nat}
    (hq : MsgOk a ⟨src, n, .requestVote q⟩) (hterm : q.term = x.hardState.term)
    (hvote : x.hardState.votedFor = none ∨ x.hardState.votedFor = some q.candidateId)
    (hlast : x.lastLogTerm = .ok lastT)
    (hlog : logIsUpToDate x.lastLogIndex lastT q.lastLogIndex q.lastLogTerm = true)
    (hsave : x.logStore.saveHardState { x.hardState with votedFor := some q.candidateId }
      = .ok store) {y : RaftNode σ} (hwy : y.Wf)
    (hy : y = resetElectionDeadline { x with
        logStore := store, hardState := { x.hardState with votedFor := some q.candidateId } }) :
    ∃ a', Reach J g.quorums n a a' ∧ NodeOk g a' n y := by
  obtain rfl := LogStore.saveHardState_ok hsave
  obtain ⟨hid, l, hcand, hlen, hlt⟩ := hq
  have hcur := h.term
  -- the node as it is after the vote, for any history in which the vote is recorded
  have hok : ∀ a', EpochLog.Mono a a' → SameLogs a a' →
      a'.vote n x.hardState.term = some q.candidateId → NodeOk g a' n y := by
    intro a' hm hs hv
    subst hy
    exact { h with
      wf := hwy
      term := by rw [hs.cur]; exact h.term
      vote := hv
      log := by rw [hs.log]; exact ⟨h.log.length, h.log.entry⟩
      graft := by rw [hs.graft]; exact h.graft
      commit := by rw [hs.log, hs.termLog, hs.commit]; exact h.commit
      leader := fun hr => { (h.leader hr).same hm hs with }
      candidate := fun hr => { (h.candidate hr).same hm hs with } }
  rcases hvote with hnone | hsome
  · -- the first vote of this term
    have hv0 : a.vote n (a.cur n) = none := by rw [hcur, h.vote, hnone]
    have hstep : Step J g.quorums n a (a.setVote n (a.cur n) src) := by
      refine .grant a src l hv0 (by rw [hcur, ← hterm]; exact hcand) ?_
      exact upToDate_of_check h.log.length (h.log.lastLogTerm hlast) hlen hlt hlog
    refine ⟨_, Reach.single hstep, hok _ (hstep.mono hinv) ⟨rfl, rfl, rfl, rfl, rfl, rfl, rfl, rfl⟩ ?_⟩
    show (if n = n ∧ x.hardState.term = a.cur n then some src else _) = _
    rw [if_pos ⟨rfl, hcur.symm⟩, hid]
  · -- the same vote again
    refine ⟨a, Reach.refl a, hok a (EpochLog.Mono.refl a) ⟨rfl, rfl, rfl, rfl, rfl, rfl, rfl, rfl⟩ ?_⟩
    rw [h.vote, hsome]

omit h in
/-- Initially a leader knows of no progress but its own. -/
theorem initializeLeaderProgress_matchOf (x : RaftNode σ) (p : NodeId) :
    (initializeLeaderProgress x).matchOf p = x.lastLogIndex ∧ p = x.config.nodeId ∨
      (initializeLeaderProgress x).matchOf p = 0 := by
  unfold initializeLeaderProgress matchOf
  refine List.foldlRecOn (motive := fun m : OrdMap Nat =>
    (m.find p).getD 0 = x.lastLogIndex ∧ p = x.config.nodeId ∨ (m.find p).getD 0 = 0)
    _ _ (Or.inr rfl) fun m h c _ => ?_
  rw [OrdMap.find_insert]
  by_cases hp : p = c
  · subst hp
    by_cases hc : p = x.config.nodeId
    · left; simp [hc]
    · right; simp [hc]
  · simpa [hp] using h

theorem sim_takeOffice (hinv : Inv g.quorums a) (hrounds : Rounds a)
    (hrole : x.role = .candidate)
    (hquorum : x.hasQuorum x.votesReceived.length = true)
    (happ : x.logStore.append ⟨x.lastLogIndex + 1, x.hardState.term, []⟩ = .ok store)
    (hwy : (x.takeOffice store).Wf) :
    Step J g.quorums n a (a.elect n (a.cur n) []) ∧
      NodeOk g (a.elect n (a.cur n) []) n (x.takeOffice store) := by
  have hc := h.candidate hrole
  have hcur := h.term
  have hvotes : g.quorums.vote fun q => a.vote q (a.cur n) = some n := by
    refine ⟨x.votesReceived, hc.votes.1, fun q hq => ⟨h.voters q hq, ?_⟩, ?_⟩
    · rw [hcur]
      exact hc.votes.2 q hq
    · rw [← h.peers.length_eq]
      exact of_decide_eq_true hquorum
  have hnone : a.leader (a.cur n) = none := by
    by_contra hne
    obtain ⟨c, hlc⟩ := Option.ne_none_iff_exists'.mp hne
    have := leader_unique hinv hlc hvotes
    rw [this, hcur] at hlc
    exact hc.notLeader hlc
  have hstep : Step J g.quorums n a (a.elect n (a.cur n) []) :=
    .elect a [] (by rw [hcur]; exact hc.cand) hnone hvotes
  refine ⟨hstep, ?_⟩
  have hm := hstep.mono hinv
  have hlog : (a.elect n (a.cur n) []).log n = a.log n ++ [⟨x.hardState.term, []⟩] := by
    show (if n = n then _ else _) = _
    rw [if_pos rfl, hcur]
  have htl : (a.elect n (a.cur n) []).termLog x.hardState.term
      = a.log n ++ [⟨x.hardState.term, []⟩] := by
    show (if x.hardState.term = a.cur n then _ else _) = _
    rw [if_pos hcur.symm, hcur]
  have hbase : (a.elect n (a.cur n) []).base x.hardState.term = x.lastLogIndex := by
    show (if x.hardState.term = a.cur n then _ else _) = _
    rw [if_pos hcur.symm, h.log.length]
  have hcommit0 : a.commit x.hardState.term = 0 := by
    rcases hinv.committed x.hardState.term with h0 | hcm
    · exact h0
    · obtain ⟨-, e, he, -⟩ := hcm.own
      exact absurd (hcur ▸ hnone) (termLog_some_of_leader hinv he)
  have hself : (x.takeOffice store).matchOf n = x.lastLogIndex + 1 := by
    simp [RaftNode.takeOffice, matchOf, h.nodeId]
  exact { h with
    wf := hwy
    log := by
      rw [hlog]
      exact h.log.append h.wf happ _ rfl rfl rfl
    commit_le := Nat.le_succ_of_le h.commit_le
    commit := h.commit_mono hinv hm hlog
    leader := fun _ => {
      leader := by
        show (if x.hardState.term = a.cur n then some n else _) = _
        rw [if_pos hcur.symm]
      log := hlog.trans htl.symm
      commit := by
        show a.commit x.hardState.term ≤ _
        omega
      matched := fun p => by
        show (x.takeOffice store).matchOf p ≤
          (if p = n ∧ x.hardState.term = a.cur n then max _ _ else _) ∨ _
        by_cases hp : p = n
        · subst hp
          left
          rw [hself, if_pos ⟨rfl, hcur.symm⟩, List.length_append, h.log.length]
          exact Nat.le_max_right _ _
        · right
          have hz : (x.takeOffice store).matchOf p = 0 := by
            rcases initializeLeaderProgress_matchOf
              { x with role := .leader, leaderId := some x.config.nodeId } p with ⟨-, h1⟩ | h1
            · exact absurd (h1.trans h.nodeId) hp
            · unfold matchOf at h1 ⊢
              simp only [RaftNode.takeOffice, OrdMap.find_insert, h.nodeId, if_neg hp]
              exact h1
          omega
      self := by
        show (a.elect n (a.cur n) []).base x.hardState.term < _
        rw [hbase, hself]
        exact Nat.lt_succ_self _
      round := by
        show 0 = a.round x.hardState.term
        rw [hrounds _ (hcur ▸ hnone)]
      rounds := fun p r hp => by simp [RaftNode.takeOffice, initializeLeaderProgress] at hp }
    candidate := fun hr => by simp [RaftNode.takeOffice, initializeLeaderProgress] at hr }

/-! ## The log -/

theorem sim_appendOwn (hinv : Inv g.quorums a)
    {data : Bytes} (hrole : x.role = .leader)
    (happ : x.logStore.append ⟨x.lastLogIndex + 1, x.hardState.term, data⟩ = .ok store)
    (hwy : (x.appendOwn store ⟨x.lastLogIndex + 1, x.hardState.term, data⟩).Wf) :
    ∃ a', Reach J g.quorums n a a' ∧
      NodeOk g a' n (x.appendOwn store ⟨x.lastLogIndex + 1, x.hardState.term, data⟩) := by
  have hl := h.leader hrole
  have hcur := h.term
  have hstep : Step J g.quorums n a
      (a.pushLeader n (a.cur n) (a.log n ++ [⟨a.cur n, data⟩])) :=
    .push a data (by rw [hcur]; exact hl.leader) (by rw [hcur]; exact hl.log)
  refine ⟨_, Reach.single hstep, ?_⟩
  have hm := hstep.mono hinv
  generalize ha' : a.pushLeader n (a.cur n) (a.log n ++ [⟨a.cur n, data⟩]) = a' at hm
  have hlog : a'.log n = a.log n ++ [⟨x.hardState.term, data⟩] := by
    subst ha'
    show (if n = n then _ else _) = _
    rw [if_pos rfl, hcur]
  have htl : a'.termLog x.hardState.term = a.log n ++ [⟨x.hardState.term, data⟩] := by
    subst ha'
    show (if x.hardState.term = a.cur n then _ else _) = _
    rw [if_pos hcur.symm, hcur]
  have hack : x.lastLogIndex + 1 ≤ a'.acked n x.hardState.term := by
    subst ha'
    show _ ≤ if n = n ∧ x.hardState.term = a.cur n then max _ _ else _
    rw [if_pos ⟨rfl, hcur.symm⟩, List.length_append, h.log.length]
    exact Nat.le_max_right _ _
  have hsame : a'.cur = a.cur ∧ a'.vote = a.vote ∧ a'.graft = a.graft ∧ a'.leader = a.leader ∧
      a'.commit = a.commit ∧ a'.round = a.round ∧ a'.base = a.base := by
    subst ha'
    exact ⟨rfl, rfl, rfl, rfl, rfl, rfl, rfl⟩
  obtain ⟨h1, h2, h3, h4, h5, h6, h7⟩ := hsame
  -- the leader's own progress is the new entry, that of the others is as before
  have hmatch : ∀ p, (x.appendOwn store ⟨x.lastLogIndex + 1, x.hardState.term, data⟩).matchOf p
      = if p = n then x.lastLogIndex + 1 else x.matchOf p := by
    intro p
    simp only [RaftNode.appendOwn, emit, matchOf, OrdMap.find_insert, h.nodeId]
    split <;> rfl
  have hselfle : ∀ p, x.matchOf p ≤ x.lastLogIndex := by
    intro p
    have hlen := hinv.acked_len p x.hardState.term
    rw [← hl.log, h.log.length] at hlen
    have hcl := h.commit_le
    rcases hl.matched p with hp | hp <;> omega
  exact { h with
    wf := hwy
    term := by rw [h1]; exact h.term
    vote := by rw [h2]; exact h.vote
    log := by
      rw [hlog]
      exact h.log.append h.wf happ _ rfl rfl rfl
    graft := by rw [h3]; exact h.graft
    commit_le := Nat.le_succ_of_le h.commit_le
    commit := h.commit_mono hinv hm hlog
    leader := fun _ => {
      leader := by rw [h4]; exact hl.leader
      log := hlog.trans htl.symm
      commit := by rw [h5]; exact hl.commit
      matched := fun p => by
        rw [hmatch]
        by_cases hp : p = n
        · subst hp
          rw [if_pos rfl]
          exact Or.inl hack
        · rw [if_neg hp]
          exact (hl.matched p).imp (fun h => h.trans (hm.acked _ _)) fun h => h
      self := by
        rw [hmatch, if_pos rfl, h7]
        exact Nat.lt_succ_of_le (hl.self.le.trans (hselfle n))
      round := by rw [h6]; exact hl.round
      rounds := fun p r hp => by
        obtain ⟨r1, r2, r3⟩ := hl.rounds p r hp
        refine ⟨r1.trans (hm.round _), ?_, ?_⟩
        · show a'.seen x.hardState.term r p ≤ x.hardState.term
          rw [hm.seen _ _ r1]
          exact r2
        · rw [hmatch, h7]
          split
          · exact Nat.lt_succ_of_le (r3.le.trans (hselfle p))
          · exact r3 }
    candidate := other_role hrole }

variable {q : AppendEntriesRequest}

/-- A truncation never reaches into the committed prefix: the leader holds that too. -/
theorem sim_truncate (hinv : Inv g.quorums a)
    {k : Nat} {existing entry : LogEntry}
    {error : Error} (hq : AppendOk a src q) (hterm : q.term = x.hardState.term)
    (hrole : x.role = .follower) (habove : x.lastIncludedIndex ≤ q.prevLogIndex)
    (hentry : q.entries[k]? = some entry)
    (hex : x.logStore.entryAt (q.prevLogIndex + k + 1) = .ok existing)
    (hne : existing.term ≠ entry.term)
    (htr : x.logStore.truncateSuffix (q.prevLogIndex + k + 1) = .ok store)
    (hwy : y.Wf)
    (hy : y = failPendingProposals (some (q.prevLogIndex + k + 1)) error
      { x with logStore := store, lastLogIndex := q.prevLogIndex + k }) :
    ∃ a', Reach J g.quorums n a a' ∧ NodeOk g a' n y := by
  have hcur := h.term
  have hqcur : q.term = a.cur n := hterm.trans hcur.symm
  have hlead : a.leader (a.cur n) ≠ none := by rw [← hqcur, hq.leader]; simp
  obtain ⟨f, hf, hft, -⟩ := h.log.entry _ existing hex
  rw [Nat.add_sub_cancel] at hf
  have hle := hq.entries k entry hentry
  rw [hqcur] at hle
  have hstep : Step J g.quorums n a (a.setLog n ((a.log n).take (q.prevLogIndex + k))) :=
    .truncate a _ f ⟨entry.term, entry.data⟩ hf hle (by rw [← hft]; exact hne)
      (h.graft.trans (by omega))
  refine ⟨_, Reach.single hstep, ?_⟩
  have hlen : q.prevLogIndex + k ≤ x.lastLogIndex := by
    have := (h.wf.entryAt_range hex).2.1
    omega
  have hcommit : x.commitIndex ≤ q.prevLogIndex + k := by
    by_contra hgt
    have := h.commit_agree hinv hlead (q.prevLogIndex + k) (by omega)
    rw [hf, hle] at this
    have heq := Option.some.inj this
    rw [heq] at hft
    exact hne hft
  have hlog : (a.setLog n ((a.log n).take (q.prevLogIndex + k))).log n
      = (a.log n).take (q.prevLogIndex + k) := if_pos rfl
  obtain ⟨v, hv, hcv, hag⟩ := h.commit
  subst hy
  exact { h with
    wf := hwy
    log := by
      rw [hlog]
      refine ⟨by rw [List.length_take, h.log.length]; exact Nat.min_eq_left hlen, fun i e he => ?_⟩
      have hi : i < q.prevLogIndex + k + 1 := Nat.lt_succ_of_le (hwy.entryAt_range he).2.1
      have he' : store.entryAt i = .ok e := he
      rw [LogStore.entryAt_truncateSuffix htr hi] at he'
      obtain ⟨f', hf', ht', hd'⟩ := h.log.entry i e he'
      refine ⟨f', ?_, ht', hd'⟩
      have h0 := (LogStore.entryAt_range he').1
      rw [List.getElem?_take, if_pos (by omega)]
      exact hf'
    commit_le := hcommit
    commit := ⟨v, hv, hcv, by rw [hlog]; exact hag.take hcommit⟩
    leader := other_role hrole
    candidate := other_role hrole }

variable {entry : LogEntry}

theorem sim_appendEntry (hinv : Inv g.quorums a) {k : Nat}
    (hq : AppendOk a src q) (hterm : q.term = x.hardState.term) (hrole : x.role = .follower)
    (hentry : q.entries[k]? = some entry) (hmatch : x.MatchesAt q (q.prevLogIndex + k))
    (hlast : x.lastLogIndex = q.prevLogIndex + k) (happ : x.logStore.append entry = .ok store)
    (hwy : y.Wf)
    (hy : y = { x with logStore := store, lastLogIndex := q.prevLogIndex + k + 1 }) :
    ∃ a', Reach J g.quorums n a a' ∧ NodeOk g a' n y := by
  have hqcur : q.term = a.cur n := hterm.trans h.term.symm
  have hagree := h.agree hinv hq hterm hmatch (by omega)
  have hle := hq.entries k entry hentry
  rw [hqcur] at hle
  have hlen : (a.log n).length = q.prevLogIndex + k := h.log.length.trans hlast
  have hstep : Step J g.quorums n a
      (a.setLog n (a.log n ++ [⟨entry.term, entry.data⟩])) :=
    .extend a _ (by rw [hlen]; exact hagree) (by rw [hlen]; exact hle)
  refine ⟨_, Reach.single hstep, ?_⟩
  have hlog : (a.setLog n (a.log n ++ [⟨entry.term, entry.data⟩])).log n
      = a.log n ++ [⟨entry.term, entry.data⟩] := if_pos rfl
  have hidx : entry.index = q.prevLogIndex + k + 1 := by
    rw [(LogStore.append_ok happ).1, ← h.wf.last, hlast]
  subst hy
  exact { h with
    wf := hwy
    log := by
      rw [hlog]
      exact h.log.append h.wf happ _ rfl hidx.symm rfl
    commit_le := by
      have := h.commit_le
      show x.commitIndex ≤ q.prevLogIndex + k + 1
      omega
    commit := h.commit_mono hinv (hstep.mono hinv) hlog
    leader := other_role hrole
    candidate := other_role hrole }

theorem sim_compact (hlt : x.lastIncludedIndex < x.lastApplied)
    (hentry : x.logStore.entryAt x.lastApplied = .ok entry)
    (hinst : x.logStore.installSnapshot ⟨x.lastApplied, entry.term⟩ = .ok store)
    (hwy : y.Wf) (hy : y = { x with
      logStore := store, lastIncludedIndex := x.lastApplied, lastIncludedTerm := entry.term }) :
    NodeOk g a n y := by
  obtain ⟨f, hf, hft, -⟩ := h.log.entry _ entry hentry
  subst hy
  exact { h with
    wf := hwy
    log := h.log.install h.wf hlt.le hinst (fun _ => hf) hft.symm
      (fun _ _ => rfl) hwy rfl rfl rfl h.log.length
    graft := h.graft.trans hlt.le
    leader := fun hr => { h.leader hr with }
    candidate := fun hr => { h.candidate hr with } }

/-- A committed prefix of `b` entries is put under the log. -/
theorem sim_install (hinv : Inv g.quorums a) [StateMachine σ]
    {q : InstallSnapshotRequest} {machine : σ}
    (hq : MsgOk a ⟨src, n, .installSnapshot q⟩) (hterm : q.term = x.hardState.term)
    (hrole : x.role = .follower) (happlied : x.lastApplied ≤ q.lastIncludedIndex)
    (hinst : x.logStore.installSnapshot ⟨q.lastIncludedIndex, q.lastIncludedTerm⟩ = .ok store)
    (hjoin : J → x.Joins ⟨q.lastIncludedIndex, q.lastIncludedTerm⟩)
    (hwy : (x.installed store machine ⟨q.lastIncludedIndex, q.lastIncludedTerm⟩).Wf) :
    ∃ a', Reach J g.quorums n a a' ∧
      NodeOk g a' n (x.installed store machine ⟨q.lastIncludedIndex, q.lastIncludedTerm⟩) := by
  obtain ⟨v, hv, hb, f, hf, hft⟩ := hq
  generalize hbq : q.lastIncludedIndex = b at *
  have hw := h.wf
  have hlo : x.lastIncludedIndex ≤ b := hw.applied_ge.trans happlied
  have hjoins : J → Joins a n v b := fun hJ => (hjoin hJ).imp
    (fun hend => by rw [h.log.length]; exact hend) fun hterm => by
      obtain ⟨e, he, het⟩ := RaftNode.map_term_ok hterm
      obtain ⟨f', hf', hft', -⟩ := h.log.entry b e he
      exact ⟨f', f, hf', hf, by rw [← hft', het, hft]⟩
  have hstep : Step J g.quorums n a (a.install n v b) :=
    .install a v b (by rw [h.term, ← hterm]; exact hv) hb (h.graft.trans hlo) hjoins
  refine ⟨_, Reach.single hstep, ?_⟩
  have hbl : b ≤ (a.termLog v).length := hb.trans (commit_le_length hinv v)
  have hlog : (a.install n v b).log n = (a.termLog v).take b ++ (a.log n).drop b := if_pos rfl
  obtain ⟨hlow, hhigh⟩ := grafted hinv (n := n) hb
  rw [← hlog] at hlow hhigh
  obtain ⟨w, hwT, hcw, hag⟩ := h.commit
  exact { h with
    wf := hwy
    log := by
      refine h.log.install hw hlo hinst (fun h0 => ?_) hft hhigh hwy rfl rfl rfl ?_
      · rw [hlow _ (by omega)]
        exact hf
      · show ((a.install n v b).log n).length = max x.lastLogIndex b
        rw [hlog, List.length_append, List.length_take, List.length_drop, h.log.length]
        omega
    graft := by
      show (if n = n then b else _) ≤ b
      rw [if_pos rfl]
    applied_le := by
      show max x.lastApplied b ≤ max x.commitIndex b
      have := h.applied_le
      omega
    commit_le := by
      show max x.commitIndex b ≤ max x.lastLogIndex b
      have := h.commit_le
      omega
    commit := by
      show ∃ u, u ≤ x.hardState.term ∧ max x.commitIndex b ≤ a.commit u ∧
        Agree ((a.install n v b).log n) (a.termLog u) (max x.commitIndex b)
      rcases Nat.le_total x.commitIndex b with hle | hge
      · rw [Nat.max_eq_right hle]
        exact ⟨v, hterm ▸ hv, hb, hlow⟩
      · -- the snapshot lies below the commit index: both committed prefixes agree there
        rw [Nat.max_eq_left hge]
        refine ⟨w, hwT, hcw, fun i hi => ?_⟩
        rcases Nat.lt_or_ge i b with hib | hib
        · rw [hlow i hib]
          exact EpochLog.commit_agree hinv hb (hge.trans hcw) i hib
        · rw [hhigh i hib]
          exact hag i hi
    leader := other_role hrole
    candidate := other_role hrole }

/-! ## Replication and commit -/

omit h in
/-- The progress of a peer is raised to what it has confirmed, or to what is committed anyway. -/
theorem LeaderOk.raise (hl : LeaderOk a n x) {k : Nat} {next rounds : OrdMap Nat}
    (hk : k ≤ a.acked src x.hardState.term ∨ k ≤ x.commitIndex)
    (hrounds : ∀ p r, rounds.find p = some r → r ≤ a.round x.hardState.term ∧
      a.seen x.hardState.term r p ≤ x.hardState.term ∧
      (a.base x.hardState.term < x.matchOf p ∨ p = src ∧ a.base x.hardState.term < k)) :
    LeaderOk a n { x with
      nextIndex := next
      matchIndex := x.matchIndex.insert src (max (x.matchOf src) k)
      peerAckedRound := rounds } := by
  have hmatch : ∀ p, ((x.matchIndex.insert src (max (x.matchOf src) k)).find p).getD 0
      = if p = src then max (x.matchOf src) k else x.matchOf p := by
    intro p
    rw [OrdMap.find_insert]
    split <;> rfl
  have hge : ∀ p, x.matchOf p ≤ ((x.matchIndex.insert src (max (x.matchOf src) k)).find p).getD 0 := by
    intro p
    rw [hmatch]
    split
    · rename_i hp; subst hp; exact Nat.le_max_left _ _
    · exact le_rfl
  refine { hl with matched := fun p => ?_, self := hl.self.trans_le (hge n),
                   rounds := fun p r hp => ?_ }
  · show ((x.matchIndex.insert src _).find p).getD 0 ≤ a.acked p x.hardState.term ∨
      ((x.matchIndex.insert src _).find p).getD 0 ≤ x.commitIndex
    rw [hmatch]
    by_cases hp : p = src
    · subst hp
      rw [if_pos rfl]
      rcases hl.matched p with hm | hm <;> omega
    · rw [if_neg hp]
      exact hl.matched p
  · obtain ⟨r1, r2, r3 | ⟨rfl, r3⟩⟩ := hrounds p r hp
    · exact ⟨r1, r2, r3.trans_le (hge p)⟩
    · refine ⟨r1, r2, ?_⟩
      show a.base x.hardState.term < ((x.matchIndex.insert p _).find p).getD 0
      rw [hmatch, if_pos rfl]
      omega

/-- The leader records what a peer confirmed. -/
theorem sim_progress {r : AppendEntriesResponse}
    {next : OrdMap Nat} (hr : MsgOk a ⟨src, n, .appendEntriesResponse r⟩)
    (hrole : x.role = .leader) (hterm : r.term = x.hardState.term) (hsucc : r.success = true) :
    NodeOk g a n { x with
      nextIndex := next
      matchIndex := x.matchIndex.insert src (max (x.matchOf src) r.matchIndex)
      peerAckedRound := x.peerAckedRound.insert src
        (max ((x.peerAckedRound.find src).getD 0) r.round) } := by
  have hl := h.leader hrole
  obtain ⟨h1, h2, h3, h4, -⟩ := hr hsucc
  dsimp only at h1 h2 h3 h4
  rw [hterm] at h1 h2 h3 h4
  refine { h with
    wf := { h.wf with }
    log := ⟨h.log.length, h.log.entry⟩
    leader := fun _ => hl.raise (h1.imp id fun h => h.trans hl.commit) fun p r' hp => ?_
    candidate := other_role hrole }
  rw [OrdMap.find_insert] at hp
  by_cases hps : p = src
  · subst hps
    rw [if_pos rfl] at hp
    cases hp
    -- the higher one of an old round and the new one
    cases hold : x.peerAckedRound.find p with
    | none =>
      rw [Option.getD_none, Nat.zero_max]
      exact ⟨h2, h3, Or.inr ⟨rfl, h4⟩⟩
    | some r0 =>
      obtain ⟨r1, r2, r3⟩ := hl.rounds p r0 hold
      rw [Option.getD_some]
      rcases Nat.le_total r0 r.round with hle | hle
      · rw [Nat.max_eq_right hle]
        exact ⟨h2, h3, Or.inl r3⟩
      · rw [Nat.max_eq_left hle]
        exact ⟨r1, r2, Or.inl r3⟩
  · rw [if_neg hps] at hp
    obtain ⟨r1, r2, r3⟩ := hl.rounds p r' hp
    exact ⟨r1, r2, Or.inl r3⟩

/-- The leader assumes that a peer will accept a snapshot of what is applied. -/
theorem sim_optimistic {dst : NodeId} {next : OrdMap Nat}
    (hrole : x.role = .leader) :
    NodeOk g a n { x with
      nextIndex := next
      matchIndex := x.matchIndex.insert dst (max (x.matchOf dst) x.lastApplied) } :=
  have hl := h.leader hrole
  { h with
    wf := { h.wf with }
    log := ⟨h.log.length, h.log.entry⟩
    leader := fun _ => hl.raise (Or.inr h.applied_le) fun p r hp =>
      have hr := hl.rounds p r hp
      ⟨hr.1, hr.2.1, Or.inl hr.2.2⟩
    candidate := other_role hrole }

theorem sim_newRound (hinv : Inv g.quorums a) (hrole : x.role = .leader)
    {ev : List Event} :
    Step J g.quorums n a (a.newRound (a.cur n)) ∧ NodeOk g (a.newRound (a.cur n)) n
      { x with heartbeatRound := x.heartbeatRound + 1, events := ev } := by
  have hl := h.leader hrole
  have hcur := h.term
  have hstep : Step J g.quorums n a (a.newRound (a.cur n)) :=
    .newRound a (by rw [hcur]; exact hl.leader)
  refine ⟨hstep, ?_⟩
  have hm := hstep.mono hinv
  refine { h with
    wf := { h.wf with }
    log := ⟨h.log.length, h.log.entry⟩
    leader := fun _ => ?_
    candidate := other_role hrole }
  · refine { hl with round := ?_, rounds := fun p r hp => ?_ }
    · show x.heartbeatRound + 1 = if x.hardState.term = a.cur n then _ else _
      rw [if_pos hcur.symm, hcur, hl.round]
    · obtain ⟨r1, r2, r3⟩ := hl.rounds p r hp
      refine ⟨r1.trans (hm.round _), ?_, r3⟩
      show (a.newRound (a.cur n)).seen x.hardState.term r p ≤ x.hardState.term
      rw [hm.seen _ _ r1]
      exact r2

/-- The median of the match indexes is committed: those above the commit index were confirmed. -/
theorem sim_commitLeader
    (hrole : x.role = .leader) (hlt : x.commitIndex < x.quorumMatchIndex)
    (hle : x.quorumMatchIndex ≤ x.lastLogIndex)
    (hentry : x.logStore.entryAt x.quorumMatchIndex = .ok entry)
    (hterm : entry.term = x.hardState.term) :
    Step J g.quorums n a (a.setCommit (a.cur n) x.quorumMatchIndex) ∧
      NodeOk g (a.setCommit (a.cur n) x.quorumMatchIndex) n
        { x with commitIndex := x.quorumMatchIndex } := by
  have hl := h.leader hrole
  have hcur := h.term
  generalize hk : x.quorumMatchIndex = k at *
  have hpeers : x.config.peers ≠ [] := by
    intro hnil
    have hmem := h.peers.mem_iff.mpr h.member
    rw [hnil] at hmem
    simp at hmem
  have hquorum : g.quorums.commit fun p => k ≤ a.acked p (a.cur n) := by
    have hcount := (le_quorumMatchIndex_iff hpeers).mp hk.symm.le
    have hnd : x.config.peers.Nodup := h.peers.nodup_iff.mpr g.nodup
    have hat := atLeast_perm h.peers (atLeast_filter hnd _ hcount)
    rw [h.peers.length_eq] at hat
    refine AtLeast.mono (fun p hp => ?_) hat
    have hp' : k ≤ x.matchOf p := of_decide_eq_true hp
    rw [hcur]
    rcases hl.matched p with hm | hm <;> omega
  obtain ⟨f, hf, hft, -⟩ := h.log.entry k entry hentry
  have hcommitted : Committed g.quorums a (a.cur n) k := by
    refine ⟨by omega, ⟨f, ?_, ?_⟩, hquorum⟩
    · rw [hcur, ← hl.log]; exact hf
    · rw [hcur, ← hft]; exact hterm
  have hstep : Step J g.quorums n a (a.setCommit (a.cur n) k) :=
    .commit a k (by rw [hcur]; exact hl.leader) hcommitted
      (by rw [hcur]; exact hl.commit.trans hlt.le)
  refine ⟨hstep, ?_⟩
  have hnew : (a.setCommit (a.cur n) k).commit x.hardState.term = k := by
    show (if x.hardState.term = a.cur n then k else _) = k
    rw [if_pos hcur.symm]
  refine { h with
    wf := { h.wf with }
    log := ⟨h.log.length, h.log.entry⟩
    applied_le := h.applied_le.trans hlt.le
    commit_le := hle
    commit := ⟨x.hardState.term, le_rfl, hnew.symm.le, ?_⟩
    leader := fun _ => ?_
    candidate := other_role hrole }
  · show Agree (a.log n) (a.termLog x.hardState.term) k
    rw [hl.log]
    exact Agree.refl _ _
  · refine { hl with commit := hnew.le, matched := fun p => ?_ }
    show x.matchOf p ≤ _ ∨ x.matchOf p ≤ k
    rcases hl.matched p with hm | hm
    · exact Or.inl hm
    · exact Or.inr (by omega)

theorem sim_commitFollower (hinv : Inv g.quorums a)
    (hq : AppendOk a src q) (hterm : q.term = x.hardState.term)
    (hrole : x.role = .follower) (hmatch : x.MatchesAt q q.lastIndex)
    (hlt : x.commitIndex < q.leaderCommit) :
    NodeOk g a n { x with commitIndex := min q.leaderCommit x.lastLogIndex } := by
  have hqcur : q.term = a.cur n := hterm.trans h.term.symm
  have hlead : a.leader (a.cur n) ≠ none := by rw [← hqcur, hq.leader]; simp
  have hagree := h.agree hinv hq hterm hmatch (Nat.le_add_right _ _)
  obtain ⟨hle, v, hv, hcv⟩ := hq.commit
  have hmin : min q.leaderCommit x.lastLogIndex = q.leaderCommit := by
    have := hmatch.2.1
    omega
  rw [hmin]
  have happ := h.applied_le
  refine { h with
    wf := { h.wf with }
    log := ⟨h.log.length, h.log.entry⟩
    applied_le := by simp only; omega
    commit_le := by have := hmatch.2.1; simp only; omega
    commit := ⟨v, hterm ▸ hv, hcv, ?_⟩
    leader := other_role hrole
    candidate := other_role hrole }
  exact (hagree.mono hle).trans ((leader_holds hinv (hqcur ▸ hv) hlead).mono hcv)

end SqlDb.Raft
