/-
  READS ARE LINEARIZABLE.

  A read barrier remembers the commit index of the call and starts a round of heartbeats.  It is
  finished when a majority has acknowledged that round (or a later one) and the remembered index has
  been applied.  Why a read after that sees every write acknowledged before the call:

    * an acknowledged write is COMMITTED, in some term `v`;
    * if `v` is a later term than the reader's, a majority had left the reader's term before the call
      — and so cannot all have acknowledged the round (`EpochLog.Behind.of_quorum`);
    * if it is the reader's own term, the index is at most the remembered commit index;
    * if it is an earlier term, the reader inherited the entry at its election.  This is the case of
      a FRESH leader, whose commit index may still be behind: whoever acknowledges a round of the
      term confirms the leader's first entry with it, so that entry is committed before the read is
      answered, and the node answers only when everything committed is applied.
-/
import SqlDb.Raft.Proposals

namespace SqlDb.Raft

open EpochLog RaftNode List

variable {σ : Type} {J : Prop} {g : Group} {a a' : History} {n : NodeId} {x y : RaftNode σ}

/-! ## A barrier that is ready -/

section Ready

/-- A peer that counts for a barrier of round `r`: the leader itself, or one that has acknowledged
    the round or a later one. -/
def AckedSince (n : NodeId) (x : RaftNode σ) (r : Nat) (p : NodeId) : Prop :=
  p = n ∨ ∃ r', x.peerAckedRound.find p = some r' ∧ r ≤ r'

theorem NodeOk.atLeast_acked (h : NodeOk g a n x) {r : Nat} (hq : x.quorumAcknowledged r = true) :
    AtLeast g.peers (g.peers.length / 2 + 1) (AckedSince n x r) := by
  unfold quorumAcknowledged hasQuorum at hq
  rw [decide_eq_true_eq, h.peers.length_eq] at hq
  -- the leader, then the peers the code counts
  refine ⟨n :: x.config.peers.filter _, ?_, ?_, hq.trans (Nat.le_of_eq (Nat.add_comm _ _))⟩
  · rw [nodup_cons]
    constructor
    · intro hm
      have := (mem_filter.mp hm).2
      simp [h.nodeId] at this
    · exact (h.peers.nodup_iff.mpr g.nodup).filter _
  · intro p hp
    rcases mem_cons.mp hp with rfl | hp
    · exact ⟨h.member, Or.inl rfl⟩
    · obtain ⟨hmem, hcond⟩ := mem_filter.mp hp
      refine ⟨h.peers.mem_iff.mp hmem, Or.inr ?_⟩
      cases hf : x.peerAckedRound.find p with
      | none => simp [hf] at hcond
      | some r' =>
        simp only [hf, Bool.and_eq_true, decide_eq_true_eq] at hcond
        exact ⟨r', rfl, hcond.2⟩

variable (h : NodeOk g a n x) (hinv : Inv g.quorums a) (hrole : x.role = .leader)
include h hinv hrole

/-- Whoever counts had not left the leader's term when the round began, and has confirmed the
    leader's first entry. -/
theorem NodeOk.acked_since {r : Nat} (hr : r ≤ x.heartbeatRound) {p : NodeId}
    (hp : AckedSince n x r p) :
    a.seen x.hardState.term r p ≤ x.hardState.term ∧ a.base x.hardState.term < x.matchOf p := by
  have hl := h.leader hrole
  have hround := hl.round
  rcases hp with rfl | ⟨r', hf, hrr⟩
  · have hseen := hinv.seen_cur x.hardState.term r p (by omega)
    rw [h.term] at hseen
    exact ⟨hseen, hl.self⟩
  · obtain ⟨h1, h2, h3⟩ := hl.rounds p r' hf
    exact ⟨(hinv.seen_mono _ r r' p hrr h1).trans h2, h3⟩

/-- No match index lies beyond the log. -/
theorem NodeOk.quorumMatchIndex_le : x.quorumMatchIndex ≤ x.lastLogIndex := by
  have hl := h.leader hrole
  have hpeers : x.config.peers ≠ [] := ne_nil_of_mem (h.peers.mem_iff.mpr h.member)
  have hcount := (le_quorumMatchIndex_iff hpeers).mp le_rfl
  obtain ⟨p, hp⟩ := exists_mem_of_length_pos ((Nat.succ_pos _).trans_le hcount)
  have hle := of_decide_eq_true (mem_filter.mp hp).2
  rcases hl.matched p with hm | hm
  · have hlen := hinv.acked_len p x.hardState.term
    rw [← hl.log, h.log.length] at hlen
    omega
  · have := h.commit_le
    omega

/-- A settled leader whose first entry is confirmed by a quorum has committed it. -/
theorem NodeOk.commit_of_settled (hs : x.Settled)
    (hbase : a.base x.hardState.term < x.quorumMatchIndex) :
    x.quorumMatchIndex ≤ x.commitIndex := by
  have hl := h.leader hrole
  have hle := h.quorumMatchIndex_le hinv hrole
  by_contra hcon
  have hlii : x.lastIncludedIndex ≤ x.quorumMatchIndex := by
    have h1 := h.wf.applied_ge
    have h2 := h.applied_le
    omega
  obtain ⟨e, he⟩ := h.wf.entryAt_exists (by omega) hlii hle
  obtain ⟨f, hf, hterm, -⟩ := h.log.entry _ e he
  obtain ⟨e', he', hown⟩ := hinv.own x.hardState.term (by rw [hl.leader]; simp)
  rw [hl.log] at hf
  have hsorted := hinv.tree.sorted (by omega) he' hf
  have hbound := (hinv.tree _ _ f hf).1
  rcases hs with hs | hs | hs
  · exact hcon hs
  · omega
  · exact hs e he (by omega)

/-- **A barrier that is ready at a settled leader has everything behind it applied.** -/
theorem NodeOk.applied_of_ready {b : PendingReadBarrier} (hready : x.barrierReady b = true)
    (hall : x.commitIndex ≤ x.lastApplied) (hs : x.Settled) (hr : b.round ≤ x.heartbeatRound)
    {k : Nat} (hk : Behind g.quorums a x.hardState.term b.round b.targetIndex k) :
    k ≤ x.lastApplied := by
  unfold barrierReady at hready
  rw [Bool.and_eq_true, decide_eq_true_eq] at hready
  obtain ⟨hquorum, htarget⟩ := hready
  have hat := h.atLeast_acked hquorum
  have hvote : g.quorums.vote fun q => a.seen x.hardState.term b.round q ≤ x.hardState.term :=
    AtLeast.mono (fun p hp => (h.acked_since hinv hrole hr hp).1) hat
  rcases hk.of_quorum hvote with hk | hk
  · exact hk.trans htarget
  · have hpeers : x.config.peers ≠ [] := ne_nil_of_mem (h.peers.mem_iff.mpr h.member)
    have hbase : a.base x.hardState.term < x.quorumMatchIndex := by
      refine (le_quorumMatchIndex_iff hpeers).mpr ?_
      have hcount := (atLeast_perm h.peers.symm hat).le_filter
        (p := fun p => decide (a.base x.hardState.term + 1 ≤ x.matchOf p))
        fun q _ hq => decide_eq_true (h.acked_since hinv hrole hr hq).2
      refine Nat.le_trans ?_ hcount
      rw [h.peers.length_eq]
      omega
    have := h.commit_of_settled hinv hrole hs hbase
    omega

end Ready

/-! ## A barrier that waits -/

/-- The completion `id` belongs to a read, and index `k` is behind it: whenever the read is finished,
    `k` has been applied. -/
structure ReadOk (g : Group) (a : History) (id : CompletionId) (k : Nat) (x : RaftNode σ) :
    Prop where
  issued : id < x.nextCompletion
  apart : ∀ p ∈ x.pendingProposals, p.2 ≠ id
  waits : ∀ b ∈ x.pendingReadBarriers, b.completion = id → b.round ≤ a.round x.hardState.term ∧
    Behind g.quorums a x.hardState.term b.round b.targetIndex k
  done : ∀ la, .finished id none la ∈ x.events → k ≤ la

section Steps

variable {id : CompletionId} {k : Nat}

/-- Nothing of this read is finished by the step. -/
theorem ReadOk.keep (h : ReadOk g a id k x) (hid : x.nextCompletion ≤ y.nextCompletion)
    (hpp : ∀ p ∈ y.pendingProposals, p.2 ≠ id)
    (hwaits : ∀ b ∈ y.pendingReadBarriers, b.completion = id → b ∈ x.pendingReadBarriers)
    (hold : ∀ b ∈ y.pendingReadBarriers, b ∈ x.pendingReadBarriers →
      b.round ≤ a.round x.hardState.term ∧
        Behind g.quorums a x.hardState.term b.round b.targetIndex k →
      b.round ≤ a'.round y.hardState.term ∧
        Behind g.quorums a' y.hardState.term b.round b.targetIndex k)
    (hdone : ∀ la, .finished id none la ∈ y.events → .finished id none la ∈ x.events ∨ k ≤ la) :
    ReadOk g a' id k y where
  issued := h.issued.trans_le hid
  apart := hpp
  waits := fun b hb hbid =>
    hold b hb (hwaits b hb hbid) (h.waits b (hwaits b hb hbid) hbid)
  done := fun la hev => (hdone la hev).elim (h.done la) fun hle => hle

/-- No other step finishes the read. -/
theorem mem_finishes_none {ids : List CompletionId} {error : Option Error} {la la' : Nat}
    (h : .finished id none la ∈ finishes ids error la') : id ∈ ids ∧ error = none ∧ la = la' := by
  obtain ⟨i, hi, heq⟩ := mem_map.mp h
  obtain ⟨rfl, rfl, rfl⟩ := Event.finished.inj heq
  exact ⟨hi, rfl, rfl⟩

variable [StateMachine σ] {inp : Option (NodeId × Message)}

theorem RaftNode.NodeStep.reads (hs : NodeStep J inp x y) (hx : NodeOk g a n x) (hy : NodeOk g a' n y)
    (hinv : Inv g.quorums a) (hm : EpochLog.Mono a a') (h : ReadOk g a id k x) :
    ReadOk g a' id k y := by
  -- a barrier that goes on waiting does so in the same term
  have hold : ∀ b ∈ y.pendingReadBarriers, b ∈ x.pendingReadBarriers →
      b.round ≤ a.round x.hardState.term ∧
        Behind g.quorums a x.hardState.term b.round b.targetIndex k →
      b.round ≤ a'.round y.hardState.term ∧
        Behind g.quorums a' y.hardState.term b.round b.targetIndex k := by
    rintro b hby hbx ⟨hr, hb⟩
    have hlx := hx.wf.leader_of_read hbx
    rw [hs.term_kept hlx (hy.wf.leader_of_read hby)]
    refine ⟨hr.trans (hm.round _), hb.mono hm ?_ hr⟩
    rw [(hx.leader hlx).leader]
    simp
  have hne : id ≠ x.nextCompletion := Nat.ne_of_lt h.issued
  cases hs.client hx.wf with
  | same happlied hev hpp hrd hid =>
    refine h.keep hid.symm.le (by rw [hpp]; exact h.apart)
      (fun b hb _ => hrd ▸ hb) hold fun la hla => Or.inl (hev ▸ hla)
  | unrecorded happlied hev hpp hrd hid =>
    refine h.keep hid.symm.le (by rw [hpp]; exact h.apart)
      (fun b hb _ => hrd ▸ hb) hold fun la hla => Or.inl ?_
    simpa [hev] using hla
  | propose entry hindex hentry happlied hev hpp hrd hid =>
    refine h.keep (hid ▸ Nat.le_succ _) ?_ (fun b hb _ => hrd ▸ hb) hold fun la hla => Or.inl ?_
    · intro p hp
      rw [hpp] at hp
      rcases OrdMap.mem_insert hp with rfl | hp
      · exact hne.symm
      · exact h.apart p hp
    · simpa [hev] using hla
  | openRead b hb hrole happlied hev hpp hrd hid =>
    refine h.keep (hid ▸ Nat.le_succ _) (by rw [hpp]; exact h.apart) ?_ hold fun la hla => Or.inl (hev ▸ hla)
    intro b' hb' hbid
    rw [hrd] at hb'
    rcases mem_snoc.mp hb' with hb' | rfl
    · exact hb'
    · exact absurd (hbid.symm.trans hb) hne
  | answerRead b hb hrole happlied hready hall hsettled hev hpp hrd hid =>
    refine h.keep (hid ▸ Nat.le_succ _) (by rw [hpp]; exact h.apart) (fun b' hb' _ => hrd ▸ hb') hold
      fun la hla => Or.inl ?_
    rw [hev, mem_append, mem_singleton] at hla
    rcases hla with hla | hla
    · exact hla
    · exact absurd ((Event.finished.inj hla).1.trans hb) hne
  | applied entry hlt hentry happlied hev hpp hrd hid =>
    refine h.keep hid.symm.le ?_ (fun b hb _ => hrd ▸ hb) hold fun la hla => Or.inl ?_
    · intro p hp
      rw [hpp, OrdMap.mem_erase] at hp
      exact h.apart p hp.1
    · rw [hev, mem_append, mem_cons] at hla
      rcases hla with hla | hla | hla
      · exact hla
      · simp at hla
      · -- the entry's proposal is not this read
        have hmem := Option.mem_toList.mp (mem_finishes_none hla).1
        exact absurd rfl (h.apart _ (OrdMap.mem_of_find hmem))
  | applyFailed entry e keep happlied hlt hentry hev hpp hrd hid =>
    refine h.keep hid.symm.le ?_ (fun b hb _ => ?_) hold fun la hla => Or.inl ?_
    · intro p hp
      rw [hpp] at hp
      exact h.apart p (mem_filter.mp hp).1
    · rw [hrd] at hb
      simp at hb
    · rw [hev, mem_append, mem_cons] at hla
      rcases hla with hla | hla | hla
      · exact hla
      · simp at hla
      · exact absurd (mem_finishes_none hla).2.1 (by simp)
  | lost e e' hrole hev hpp hrd hid =>
    refine h.keep hid.symm.le ?_ (fun b hb _ => ?_) hold fun la hla => Or.inl ?_
    · rw [hpp]
      simp
    · rw [hrd] at hb
      simp at hb
    · rw [hev, mem_append, mem_append] at hla
      rcases hla with (hla | hla) | hla
      · exact hla
      · exact absurd (mem_finishes_none hla).2.1 (by simp)
      · exact absurd (mem_finishes_none hla).2.1 (by simp)
  | finishReads happlied hready hev hpp hrd hid =>
    refine h.keep hid.symm.le (by rw [hpp]; exact h.apart) (fun b hb _ => ?_) hold
      fun la hla => ?_
    · rw [hrd] at hb
      exact (mem_filter.mp hb).1
    · rw [hev, mem_append] at hla
      rcases hla with hla | hla
      · exact Or.inl hla
      · obtain ⟨hmem, -, rfl⟩ := mem_finishes_none hla
        obtain ⟨b, hb, hbid⟩ := mem_map.mp hmem
        obtain ⟨hbx, hbr⟩ := mem_filter.mp hb
        obtain ⟨hr, hbehind⟩ := h.waits b hbx hbid
        obtain ⟨hall, hsettled⟩ := hready b hbx hbr
        have hlx := hx.wf.leader_of_read hbx
        rw [← (hx.leader hlx).round] at hr
        exact Or.inr (hx.applied_of_ready hinv hlx hbr hall hsettled hr hbehind)

end Steps

/-! ## Reads of a group -/

section World

variable {id : CompletionId} {k : Nat} {w w' : World σ}

/-- The same for node `n` of a world: index `k` is behind the read `id`. -/
structure ReadBehind (g : Group) (a : History) (n : NodeId) (id : CompletionId) (k : Nat)
    (w : World σ) : Prop where
  node : ReadOk g a id k (w.nodes n)
  done : ∀ la, (n, .finished id none la) ∈ w.trace → k ≤ la

theorem ReadOk.mono (h : ReadOk g a id k x) (hx : NodeOk g a n x) (hm : EpochLog.Mono a a') :
    ReadOk g a' id k x := by
  refine { h with waits := fun b hb hbid => ?_ }
  obtain ⟨hr, hbehind⟩ := h.waits b hb hbid
  refine ⟨hr.trans (hm.round _), hbehind.mono hm ?_ hr⟩
  rw [(hx.leader (hx.wf.leader_of_read hb)).leader]
  simp

theorem mem_absorb_trace {m : NodeId} {e : Event} (h : (m, e) ∈ (w.absorb n x).trace) :
    (m, e) ∈ w.trace ∨ (m = n ∧ e ∈ x.events) := by
  rcases mem_append.mp h with h | h
  · exact Or.inl h
  · obtain ⟨e', he', heq⟩ := mem_map.mp h
    cases heq
    exact Or.inr ⟨rfl, he'⟩

/-- The reading node is put back … -/
theorem ReadBehind.absorb (hx : ReadOk g a id k x)
    (hdone : ∀ la, (n, .finished id none la) ∈ w.trace → k ≤ la) :
    ReadBehind g a n id k (w.absorb n x) := by
  constructor
  · rw [absorb_nodes_self]
    exact { hx with done := by simp }
  · intro la hla
    rcases mem_absorb_trace hla with hla | ⟨-, hla⟩
    · exact hdone la hla
    · exact hx.done la hla

/-- … or another one. -/
theorem ReadBehind.other {m : NodeId} (hne : n ≠ m) (hx : ReadOk g a id k (w.nodes n))
    (hdone : ∀ la, (n, .finished id none la) ∈ w.trace → k ≤ la) :
    ReadBehind g a n id k (w.absorb m x) := by
  constructor
  · rw [absorb_nodes_ne w x hne]
    exact hx
  · intro la hla
    rcases mem_absorb_trace hla with hla | ⟨heq, -⟩
    · exact hdone la hla
    · exact absurd heq hne

/-- **The call.**  Whatever is committed when `read_barrier` is called is behind the read. -/
theorem RaftNode.BarrierCalled.readOk {read : ReadIndex} (h : BarrierCalled x read y) (hx : NodeOk g a n x)
    (hy : NodeOk g a' n y) (hinv : Inv g.quorums a) (hinv' : Inv g.quorums a')
    (hm : EpochLog.Mono a a') {tr : List Event} (hc : ClientsOk tr x) (hquiet : x.events = [])
    {v : Nat} (hk : k ≤ a.commit v) : ReadOk g a' read.completion k y := by
  obtain ⟨hrole, hid, z, ⟨out, next, mtch, err, hz, -⟩, hsettled, hopen⟩ := h
  have hl := hx.leader hrole
  rw [hid]
  generalize hb : (⟨x.heartbeatRound + 1, x.commitIndex, x.nextCompletion⟩ : PendingReadBarrier)
    = b at hopen
  have hfields : y.role = x.role ∧ y.hardState = x.hardState ∧
      y.heartbeatRound = x.heartbeatRound + 1 ∧ y.nextCompletion = x.nextCompletion + 1 ∧
      y.pendingProposals = x.pendingProposals := by
    rw [hopen, hz]
    unfold openBarrier
    dsimp only
    split <;> exact ⟨rfl, rfl, rfl, rfl, rfl⟩
  obtain ⟨hyrole, hyhard, hyround, hynext, hypp⟩ := hfields
  have hround := (hy.leader (hyrole.trans hrole)).round
  rw [hyround, hyhard] at hround
  have hbehind : Behind g.quorums a' y.hardState.term b.round b.targetIndex k := by
    rw [hyhard, ← hb]
    refine behind_of_commit hinv hm hk (by rw [hl.leader]; simp) hl.commit fun q => ?_
    refine hm.fresh _ _ q ?_ hround.le
    rw [← hl.round]
    exact Nat.lt_succ_self _
  have hbelow := hc.trace.below
  constructor
  · rw [hynext]
    exact Nat.lt_succ_self _
  · intro p hp
    rw [hypp] at hp
    exact Nat.ne_of_lt (hbelow p.2 (Or.inl (mem_map.mpr ⟨p, hp, rfl⟩)))
  · intro b' hb' hbid
    have hnew : b' = b := by
      have hcases : b' ∈ x.pendingReadBarriers ∨ b' = b := by
        rw [hopen, hz] at hb'
        unfold openBarrier at hb'
        dsimp only at hb'
        split at hb'
        · exact Or.inl hb'
        · exact (mem_append.mp hb').imp id mem_singleton.mp
      refine hcases.resolve_left fun hmem => ?_
      exact Nat.ne_of_lt (hbelow _ (Or.inr (mem_map.mpr ⟨b', hmem, rfl⟩))) hbid
    rw [hnew]
    refine ⟨?_, hbehind⟩
    rw [hyhard, ← hround, ← hb]
  · intro la hla
    rw [hopen] at hla
    unfold openBarrier at hla
    split_ifs at hla with hready
    · have hev : (.finished x.nextCompletion none la : Event) = .finished b.completion none
          z.lastApplied := by
        simpa [finish, hz, hquiet] using hla
      obtain ⟨-, -, rfl⟩ := Event.finished.inj hev
      have hyz : y = finish [b.completion] none { z with nextCompletion := z.nextCompletion + 1 } := by
        rw [hopen]
        unfold openBarrier
        exact if_pos hready
      subst hyz
      refine hy.applied_of_ready hinv' (hyrole.trans hrole) hready ?_ hsettled ?_ hbehind
      · unfold barrierReady at hready
        rw [Bool.and_eq_true, decide_eq_true_eq, ← hb, hz] at hready
        show z.commitIndex ≤ z.lastApplied
        rw [hz]
        exact hready.2
      · rw [hyround, ← hb]
    · simp [hz, hquiet] at hla

variable [StateMachine σ]

theorem WorldStep.reads (hs : WorldStep J g w w') (hsim : Sim g a w) (hsim' : Sim g a' w')
    (hm : EpochLog.Mono a a') (hn : n ∈ g.peers) (h : ReadBehind g a n id k w) :
    ReadBehind g a' n id k w' := by
  cases hs with
  | node w m inp x y hmem hinp hs =>
    have hdone : ∀ la, (n, .finished id none la) ∈ w.trace → k ≤ la := fun la hla =>
      h.done la (mem_append_left _ hla)
    by_cases hne : n = m
    · subst hne
      have hx : ReadOk g a id k x := by
        have hnode := h.node
        rw [absorb_nodes_self] at hnode
        exact { hnode with
          done := fun la hla =>
            h.done la (mem_append_right _ (mem_map.mpr ⟨_, hla, rfl⟩)) }
      exact .absorb (hs.reads (hsim.accounted hn).1 (hsim'.accounted hn).1 hsim.inv hm hx)
        hdone
    · have hnode := h.node.mono (hsim.node n hn) hm
      rw [absorb_nodes_ne w x hne] at hnode
      exact .other hne hnode hdone
  | enter w m now faults hmem =>
    have hnode := h.node.mono (hsim.node n hn) hm
    by_cases hne : n = m
    · subst hne
      exact .absorb { hnode with } h.done
    · exact .other hne hnode h.done
  | restart w m machine now hmem =>
    have hnode := h.node.mono (hsim.node n hn) hm
    by_cases hne : n = m
    · subst hne
      refine .absorb ?_ h.done
      -- the new process has no clients
      unfold World.reboot
      rw [start_eq hn]
      exact { issued := h.node.issued
              apart := by simp [resetElectionDeadline, create]
              waits := by simp [resetElectionDeadline, create]
              done := by simp }
    · exact .other hne hnode h.done

/-- Only members of the group do anything. -/
theorem World.run_trace_peers (g : Group) (machine : NodeId → σ) (inputs : List (Input σ))
    {p : NodeId × Event} (hp : p ∈ (World.run g machine inputs).trace) : p.1 ∈ g.peers := by
  have habsorb : ∀ (w : World σ) n (x : RaftNode σ), n ∈ g.peers →
      (∀ p ∈ w.trace, p.1 ∈ g.peers) → ∀ p ∈ (w.absorb n x).trace, p.1 ∈ g.peers := by
    rintro w n x hn hw ⟨m, e⟩ hp
    rcases mem_absorb_trace hp with hp | ⟨rfl, -⟩
    · exact hw _ hp
    · exact hn
  obtain ⟨-, -, -, h⟩ := World.run_rule (g := g) (J := False)
    (P := fun _ w => ∀ p ∈ w.trace, p.1 ∈ g.peers) machine (by simp [World.init])
    (fun a a' m w w' _ hP hs _ _ => by
      cases hs with
      | node w n inp x y hn hinp hs =>
        exact habsorb w n y hn fun p hp => hP p (mem_append_left _ hp)
      | enter w n now faults hn => exact habsorb w n _ hn hP
      | restart w n machine now hn => exact habsorb w n _ hn hP) inputs fun h => h.elim
  exact h p hp

/-- An acknowledged proposal is committed. -/
theorem World.run_acked (g : Group) (machine : NodeId → σ) (inputs : List (Input σ)) :
    ∃ a, Sim g a (World.run g machine inputs) ∧ ∀ m id e la,
      (m, .proposed id e) ∈ (World.run g machine inputs).trace →
      (m, .finished id none la) ∈ (World.run g machine inputs).trace →
      ∃ v, e.index ≤ a.commit v := by
  obtain ⟨a, h, happ⟩ := World.run_applied g machine inputs
  obtain ⟨-, -, hclients⟩ := World.run_clients g machine inputs
  refine ⟨a, h, fun m id e la hprop hfin => ?_⟩
  have hc := hclients m (World.run_trace_peers g machine inputs hprop)
  obtain ⟨k, hk⟩ := getElem?_of_mem (mem_eventsOf.mpr hfin)
  obtain ⟨T, hT⟩ := hc.trace.acked k id e la hk (mem_eventsOf.mpr hprop)
  obtain ⟨-, v, -, hv, -⟩ := happ m T e ⟨none, mem_eventsOf.mp (mem_of_mem_take hT)⟩
  exact ⟨v, hv⟩

/-- Calling `read_barrier` in a world of a run. -/
theorem read_called (hsim : Sim g a w) (hcalm : AllCalm g w) (hn : n ∈ g.peers)
    (hc : ClientsOk (w.eventsOf n) (w.nodes n)) {now : Nat} {faults : WriteOp → Option Error}
    {read : ReadIndex} (hread : (readBarrier (w.enter n now faults)).1 = .ok read) {v : Nat}
    (hk : k ≤ a.commit v) :
    ∃ a', Sim g a' (w.step g ⟨.readBarrier n, now, faults⟩) ∧
      AllCalm g (w.step g ⟨.readBarrier n, now, faults⟩) ∧
      ReadBehind g a' n read.completion k (w.step g ⟨.readBarrier n, now, faults⟩) := by
  have hx := (hsim.node n hn).enter now faults
  have hready : Ready (w.enter n now faults) := ⟨hx.wf, hx.applied_le, hx.commit_le, hcalm n hn⟩
  have hrun : Prog.Run (NodeStep False none) readBarrier (w.enter n now faults) _ :=
    run_readBarrier hready
  have hcalled := hrun.post.2 read hread
  have hstep : w.step g ⟨.readBarrier n, now, faults⟩
      = w.absorb n (readBarrier (w.enter n now faults)).2 := if_pos hn
  obtain ⟨hpath, hcalm'⟩ := World.step_path (J := False) hsim hcalm ⟨.readBarrier n, now, faults⟩
    fun h => h.elim
  obtain ⟨a', hm, hsim', -⟩ := hsim.path_rule (P := fun _ _ => True) trivial
    (fun _ _ _ _ _ _ _ _ _ _ => trivial) hpath
  refine ⟨a', hsim', hcalm', ?_⟩
  rw [hstep] at hsim' ⊢
  have hclients : ClientsOk (w.eventsOf n) (w.enter n now faults) := { hc with }
  refine .absorb (hcalled.readOk hx (hsim'.accounted hn).1 hsim.inv hsim'.inv hm hclients
    (hsim.quiet n).2 hk) fun la hla => ?_
  -- the completion is new
  have hmem := mem_finishedIds.mpr ⟨none, la, mem_eventsOf.mpr hla⟩
  rw [hcalled.completion] at hmem
  exact absurd (hc.trace.finished_below _ hmem) (Nat.lt_irrefl _)

/-- **Reads are linearizable.**  In every run: if `read_barrier`, called on node `n` by the input at
    `i`, is later finished without error while the node's applied index is `la`, then every proposal
    that any node had acknowledged before the call has an index of at most `la`. -/
theorem reads_linearizable (g : Group) (machine : NodeId → σ) (inputs : List (Input σ)) (i : Nat)
    (now : Nat) (faults : WriteOp → Option Error) (n m : NodeId) (read : ReadIndex)
    (id : CompletionId) (e : LogEntry) (la la' : Nat)
    (hcall : inputs[i]? = some ⟨.readBarrier n, now, faults⟩)
    (hread : (readBarrier ((World.run g machine (inputs.take i)).enter n now faults)).1 = .ok read)
    (hdone : (n, .finished read.completion none la) ∈ (World.run g machine inputs).trace)
    (hproposed : (m, .proposed id e) ∈ (World.run g machine (inputs.take i)).trace)
    (hacked : (m, .finished id none la') ∈ (World.run g machine (inputs.take i)).trace) :
    e.index ≤ la := by
  have hn : n ∈ g.peers := World.run_trace_peers g machine inputs hdone
  obtain ⟨a, hsim, hcommitted⟩ := World.run_acked g machine (inputs.take i)
  obtain ⟨v, hv⟩ := hcommitted m id e la' hproposed hacked
  obtain ⟨-, -, hcalm⟩ := World.run_sim g machine (inputs.take i)
  obtain ⟨-, -, hclients⟩ := World.run_clients g machine (inputs.take i)
  obtain ⟨a', hsim', hcalm', hbehind⟩ := read_called hsim hcalm hn (hclients n hn) hread hv
  -- the rest of the run
  obtain ⟨a'', -, -, -, hend⟩ := Sim.inputs_rule (J := False)
    (P := fun a w => ReadBehind g a n read.completion e.index w)
    (fun a a' m w w' h hP hs hr h' => hs.reads h h' (hr.mono h.inv) hn hP) (inputs.drop (i + 1))
    hsim' hcalm' hbehind fun h => h.elim
  refine hend.done la ?_
  have hsplit : inputs = inputs.take i ++ ⟨.readBarrier n, now, faults⟩ :: inputs.drop (i + 1) := by
    obtain ⟨hlt, hget⟩ := List.getElem?_eq_some_iff.mp hcall
    rw [← hget, ← drop_eq_getElem_cons hlt, take_append_drop]
  rw [hsplit] at hdone
  unfold World.run at hdone ⊢
  rw [foldl_append, foldl_cons] at hdone
  exact hdone

/-- Node 1 leads in term 1 and acknowledges a proposal; then a read is called, and node 2 answers
    its round. -/
def readAfterWrite : List (Input NullMachine) :=
  [.tick 1 5000, .deliver 0, .deliver 2, .propose 1 [97], .deliver 5, .deliver 7,
    { action := .readBarrier 1 }, .deliver 11, .deliver 13]

theorem reads_linearizable_readAfterWrite :
    (1, .finished 1 none 2) ∈ (World.run trio nullMachines readAfterWrite).trace ∧ 2 ≤ 2 := by
  have hread : (readBarrier ((World.run trio nullMachines (readAfterWrite.take 6)).enter 1 0
      fun _ => none)).1 = .ok ⟨2, 1, 1⟩ := by
    decide +kernel
  have hdone : (1, .finished 1 none 2) ∈ (World.run trio nullMachines readAfterWrite).trace := by
    decide +kernel
  have hproposed : (1, .proposed 0 ⟨2, 1, [97]⟩)
      ∈ (World.run trio nullMachines (readAfterWrite.take 6)).trace := by
    decide +kernel
  have hacked : (1, .finished 0 none 2)
      ∈ (World.run trio nullMachines (readAfterWrite.take 6)).trace := by
    decide +kernel
  exact ⟨hdone, reads_linearizable trio nullMachines readAfterWrite 6 0 _ 1 1 _ 0 _ 2 2 rfl hread
    hdone hproposed hacked⟩

end World

end SqlDb.Raft
