/-
  WHAT A TERM KEEPS: votes, majorities and the leader's log.

  The history that accounts for a run (`Sim`) only grows, so three promises made within a term can be
  read off it, at any later moment and whatever crashed in between:

    * `votes_final` — a granted vote is the one on the voter's disk until its term is over, and no other
      candidate is ever told that it has this vote;
    * `leader_elected` — whoever leads has the saved votes of a majority, or of the members that have
      not moved on to a later term;
    * `leader_append_only` — a leader never changes or drops an entry of its own log.
-/
import SqlDb.Raft.Safety

namespace SqlDb.Raft

open EpochLog RaftNode

variable {σ : Type} [StateMachine σ] {g : Group} {a : History}

/-- The node's saved term is at least `T`, and in `T` itself its saved vote is for `c`. -/
def VoteKept (x : RaftNode σ) (T : Nat) (c : NodeId) : Prop :=
  T < x.logStore.hardState.term ∨ x.logStore.hardState = ⟨T, some c⟩

omit [StateMachine σ] in
theorem NodeOk.voteKept {n : NodeId} {x : RaftNode σ} (h : NodeOk g a n x) (hinv : Inv g.quorums a)
    {T : Nat} {c : NodeId} (hvote : a.vote n T = some c) : VoteKept x T c := by
  have hcur := hinv.vote_cur n T c hvote
  rw [h.term] at hcur
  unfold VoteKept
  rw [← h.wf.hard]
  rcases Nat.lt_or_eq_of_le hcur with hlt | rfl
  · exact Or.inl hlt
  · rw [h.vote] at hvote
    exact Or.inr (by rw [← hvote])

/-- **A vote is final.**  Of two granted votes that one node ever sent in one term both went to the same
    candidate, and as long as the node is in that term this is the vote its log store holds. -/
theorem votes_final (g : Group) (machine : NodeId → σ) (inputs : List (Input σ))
    {n c c' : NodeId} {r r' : RequestVoteResponse}
    (hsent : ⟨n, c, .requestVoteResponse r⟩ ∈ (World.run g machine inputs).sent)
    (hsent' : ⟨n, c', .requestVoteResponse r'⟩ ∈ (World.run g machine inputs).sent)
    (hgranted : r.voteGranted = true) (hgranted' : r'.voteGranted = true) (hterm : r.term = r'.term) :
    c = c' ∧ VoteKept ((World.run g machine inputs).nodes n) r.term c := by
  obtain ⟨a, h, -⟩ := World.run_sim g machine inputs
  obtain ⟨hvote, hn⟩ := h.sent _ hsent
  have hc : a.vote n r.term = some c := hvote hgranted
  have hc' : a.vote n r'.term = some c' := (h.sent _ hsent').1 hgranted'
  rw [← hterm, hc] at hc'
  exact ⟨Option.some.inj hc', (h.node n hn).voteKept h.inv hc⟩

/-- Node 1 has voted for node 3. -/
theorem votes_final_trio : VoteKept ((World.run trio nullMachines (trioElection.take 2)).nodes 1) 1 3 :=
  (@votes_final _ _ trio nullMachines (trioElection.take 2) 1 3 3 ⟨1, true⟩ ⟨1, true⟩
    (by decide +kernel) (by decide +kernel) rfl rfl rfl).2

/-- **A leader has a majority behind it**, from its election on. -/
theorem leader_elected (g : Group) (machine : NodeId → σ) (inputs more : List (Input σ)) {n : NodeId}
    (hn : n ∈ g.peers) (hlead : ((World.run g machine inputs).nodes n).role = .leader) :
    AtLeast g.peers (g.peers.length / 2 + 1) fun q =>
      VoteKept ((World.run g machine (inputs ++ more)).nodes q)
        ((World.run g machine inputs).nodes n).hardState.term n := by
  obtain ⟨a, a', h, hmono, h'⟩ := World.run_append g machine inputs more
  have hleader := hmono.leader _ _ ((h.node n hn).leader hlead).leader
  obtain ⟨⟨l, hnd, hl, hlength⟩, hvotes, -⟩ := h'.inv.elected _ _ hleader
  exact ⟨l, hnd, fun q hq => ⟨(hl q hq).1,
    (h'.node q (hl q hq).1).voteKept h'.inv (hvotes q (hl q hq).2)⟩, hlength⟩

theorem leader_elected_trio : AtLeast [1, 2, 3] 2 fun q =>
    VoteKept ((World.run trio nullMachines (trioElection.take 3 ++ trioElection.drop 3)).nodes q) 1 3 := by
  have hterm : ((World.run trio nullMachines (trioElection.take 3)).nodes 3).hardState.term = 1 := by
    decide +kernel
  have hvotes := @leader_elected _ _ trio nullMachines (trioElection.take 3) (trioElection.drop 3) 3
    (by decide) (by decide +kernel)
  rwa [hterm] at hvotes

/-- **Leaders only append.**  What a leader holds above its snapshot it still holds at any later moment at
    which it leads in the same term, or its snapshot covers it. -/
theorem leader_append_only (g : Group) (machine : NodeId → σ) (inputs more : List (Input σ))
    {n : NodeId} (hn : n ∈ g.peers) {i : Nat} {e : LogEntry} :
    let x := (World.run g machine inputs).nodes n
    let y := (World.run g machine (inputs ++ more)).nodes n
    x.role = .leader → y.role = .leader → x.hardState.term = y.hardState.term →
      x.lastIncludedIndex < i → x.logStore.entryAt i = .ok e →
      i ≤ y.lastIncludedIndex ∨ y.logStore.entryAt i = .ok e := by
  intro x y hx hy hterm hi he
  obtain ⟨a, a', h, hmono, h'⟩ := World.run_append g machine inputs more
  have hox : NodeOk g a n x := h.node n hn
  have hoy : NodeOk g a' n y := h'.node n hn
  obtain ⟨f, hf, hft, hfd⟩ := hox.log.entry i e he
  -- both logs are the leader's log of the term, which has only grown
  have hf' : (a'.log n)[i - 1]? = some f := by
    rw [(hoy.leader hy).log, ← hterm]
    rw [(hox.leader hx).log] at hf
    obtain ⟨more, hmore⟩ := hmono.termLog x.hardState.term
    rw [← hmore, List.getElem?_append_left (lt_of_getElem? hf)]
    exact hf
  rcases Nat.lt_or_ge y.lastIncludedIndex i with hlt | hle
  · have hlen := lt_of_getElem? hf'
    rw [hoy.log.length] at hlen
    obtain ⟨e', he'⟩ := hoy.wf.entryAt_exists (by omega) hlt.le (by omega)
    obtain ⟨f', hf'', hft', hfd'⟩ := hoy.log.entry i e' he'
    obtain rfl : f = f' := Option.some.inj (hf'.symm.trans hf'')
    have hindex := (hox.wf.store.entryAt_index he).trans (hoy.wf.store.entryAt_index he').symm
    obtain rfl : e' = e := by
      cases e
      cases e'
      exact LogEntry.mk.injEq .. ▸ ⟨hindex.symm, hft'.trans hft.symm, (hfd' hlt).trans (hfd hi).symm⟩
    exact Or.inr he'
  · exact Or.inl hle

/-- The no-op entry of node 3. -/
theorem leader_append_only_trio :
    ((World.run trio nullMachines (trioElection.take 3 ++ trioElection.drop 3)).nodes
      3).logStore.entryAt 1 = .ok ⟨1, 1, []⟩ :=
  (leader_append_only trio nullMachines (trioElection.take 3) (trioElection.drop 3) (n := 3)
    (by decide) (by decide +kernel) (by decide +kernel) (by decide +kernel) (by decide +kernel)
    (by decide +kernel)).resolve_left (by decide +kernel)

end SqlDb.Raft
