/-
  THE NODES REFINE THE ABSTRACT PROTOCOL.

  An abstract state `a` of `EpochLog` accounts for a node (`NodeOk`) and for a message (`MsgOk`).
  Both relations say only what is needed to take the next step:

    * a node's log store REPRESENTS its abstract log, from the snapshot boundary on (`LogRep`);
    * its commit index lies within what some leader has committed, and its log agrees with that
      leader's up to there;
    * a leader's log IS the leader log of its term, and every match index it holds was confirmed, or
      is committed anyway (this is what makes the optimistic progress after a snapshot harmless);
    * a message tells the truth about the history at the time it was sent — which stays true, because
      history only grows.

  `NodeStep.sim` is the simulation: each step of a node is matched by steps of the abstract protocol.
-/
import SqlDb.Raft.NodeRun
import SqlDb.Raft.Group
import SqlDb.Lib.EpochLogRun

namespace SqlDb.Raft

open EpochLog

variable {σ : Type}

/-- The abstract states of a group: payloads are byte strings. -/
abbrev History := EpochLog.State NodeId Bytes

def Group.quorums (g : Group) : Quorums NodeId := majorities g.peers

/-! ## The relations -/

/-- The log store represents the log `l`: the entries above the snapshot boundary, and the term at
    the boundary. -/
structure LogRep (x : RaftNode σ) (l : List (Entry Bytes)) : Prop where
  length : l.length = x.lastLogIndex
  entry : ∀ i e, x.logStore.entryAt i = .ok e → ∃ f, l[i - 1]? = some f ∧ e.term = f.term ∧
    (x.lastIncludedIndex < i → e.data = f.data)

/-- The history accounts for a leader. -/
structure LeaderOk (a : History) (n : NodeId) (x : RaftNode σ) : Prop where
  leader : a.leader x.hardState.term = some n
  log : a.log n = a.termLog x.hardState.term
  commit : a.commit x.hardState.term ≤ x.commitIndex
  matched : ∀ p, x.matchOf p ≤ a.acked p x.hardState.term ∨ x.matchOf p ≤ x.commitIndex
  self : a.base x.hardState.term < x.matchOf n
  round : x.heartbeatRound = a.round x.hardState.term
  rounds : ∀ p r, x.peerAckedRound.find p = some r → r ≤ a.round x.hardState.term ∧
    a.seen x.hardState.term r p ≤ x.hardState.term ∧ a.base x.hardState.term < x.matchOf p

/-- The history accounts for a candidate. -/
structure CandidateOk (a : History) (n : NodeId) (x : RaftNode σ) : Prop where
  cand : a.cand x.hardState.term n = some (a.log n)
  notLeader : a.leader x.hardState.term ≠ some n
  votes : x.votesReceived.Nodup ∧ ∀ q ∈ x.votesReceived, a.vote q x.hardState.term = some n

/-- The history accounts for node `n`. -/
structure NodeOk (g : Group) (a : History) (n : NodeId) (x : RaftNode σ) : Prop where
  wf : x.Wf
  member : n ∈ g.peers
  voters : ∀ q ∈ x.votesReceived, q ∈ g.peers
  nodeId : x.config.nodeId = n
  peers : x.config.peers.Perm g.peers
  term : a.cur n = x.hardState.term
  vote : a.vote n x.hardState.term = x.hardState.votedFor
  log : LogRep x (a.log n)
  graft : a.graft n ≤ x.lastIncludedIndex
  applied_le : x.lastApplied ≤ x.commitIndex
  commit_le : x.commitIndex ≤ x.lastLogIndex
  commit : ∃ v, v ≤ x.hardState.term ∧ x.commitIndex ≤ a.commit v ∧
    Agree (a.log n) (a.termLog v) x.commitIndex
  leader : x.role = .leader → LeaderOk a n x
  candidate : x.role = .candidate → CandidateOk a n x

/-- An append request describes a segment of the leader log of its term. -/
structure AppendOk (a : History) (src : NodeId) (q : AppendEntriesRequest) : Prop where
  leader : a.leader q.term = some src
  index : ∀ (k : Nat) e, q.entries[k]? = some e → e.index = q.prevLogIndex + k + 1
  entries : ∀ (k : Nat) e, q.entries[k]? = some e →
    (a.termLog q.term)[q.prevLogIndex + k]? = some ⟨e.term, e.data⟩
  prev : q.prevLogIndex = 0 ∨
    ∃ f, (a.termLog q.term)[q.prevLogIndex - 1]? = some f ∧ f.term = q.prevLogTerm
  last : q.lastIndex ≤ (a.termLog q.term).length
  base : a.base q.term < q.lastIndex
  commit : q.leaderCommit ≤ q.lastIndex ∧ ∃ v, v ≤ q.term ∧ q.leaderCommit ≤ a.commit v
  round : q.round ≤ a.round q.term

/-- A message tells the truth about the history. -/
def MsgOk (a : History) (env : Envelope) : Prop :=
  match env.message with
  | .requestVote q => q.candidateId = env.src ∧ ∃ l, a.cand q.term env.src = some l ∧
      l.length = q.lastLogIndex ∧ lastTerm l = q.lastLogTerm
  | .requestVoteResponse r => r.voteGranted = true → a.vote env.src r.term = some env.dst
  | .appendEntries q => AppendOk a env.src q
  | .appendEntriesResponse r => r.success = true →
      (r.matchIndex ≤ a.acked env.src r.term ∨ r.matchIndex ≤ a.commit r.term) ∧
      r.round ≤ a.round r.term ∧ a.seen r.term r.round env.src ≤ r.term ∧
      a.base r.term < r.matchIndex ∧ a.leader r.term ≠ none
  | .installSnapshot q => ∃ v, v ≤ q.term ∧ q.lastIncludedIndex ≤ a.commit v ∧
      ∃ f, (a.termLog v)[q.lastIncludedIndex - 1]? = some f ∧ f.term = q.lastIncludedTerm
  | .installSnapshotResponse _ => True

/-! ## History only grows: what was accounted for stays accounted for -/

section Mono

variable {a a' : History} {g : Group}

theorem MsgOk.mono {env : Envelope} (h : MsgOk a env) (hm : EpochLog.Mono a a') :
    MsgOk a' env := by
  obtain ⟨src, dst, message⟩ := env
  cases message with
  | requestVote q =>
    obtain ⟨hid, l, hl, hlen, hlast⟩ := h
    exact ⟨hid, l, hm.cand _ _ l hl, hlen, hlast⟩
  | requestVoteResponse r => exact fun hg => hm.vote _ _ _ (h hg)
  | appendEntries q =>
    have h : AppendOk a src q := h
    have hne : a.leader q.term ≠ none := by rw [h.leader]; simp
    have hb := hm.base q.term hne
    obtain ⟨hc1, v, hv, hc2⟩ := h.commit
    exact {
      leader := hm.leader _ _ h.leader
      index := h.index
      entries := fun k e he => getElem?_of_pre (hm.termLog _) (h.entries k e he)
      prev := h.prev.imp id fun ⟨f, hf, ht⟩ => ⟨f, getElem?_of_pre (hm.termLog _) hf, ht⟩
      last := h.last.trans (hm.termLog _).length_le
      base := hb ▸ h.base
      commit := ⟨hc1, v, hv, hc2.trans (hm.commit v)⟩
      round := h.round.trans (hm.round _) }
  | appendEntriesResponse r =>
    intro hs
    obtain ⟨h1, h2, h3, h4, h5⟩ := h hs
    refine ⟨?_, h2.trans (hm.round _), ?_, ?_, hm.leader_ne h5⟩
    · exact h1.imp (fun h => h.trans (hm.acked _ _)) fun h => h.trans (hm.commit _)
    · rw [hm.seen _ _ h2]
      exact h3
    · rw [hm.base _ h5]
      exact h4
  | installSnapshot q =>
    obtain ⟨v, hv, hc, f, hf, ht⟩ := h
    exact ⟨v, hv, hc.trans (hm.commit v), f, getElem?_of_pre (hm.termLog v) hf, ht⟩
  | installSnapshotResponse r => trivial

variable {n : NodeId} {x : RaftNode σ}

theorem LeaderOk.mono (h : LeaderOk a n x) (hm : EpochLog.Mono a a')
    (hlog : a'.log n = a.log n) (htl : a'.termLog x.hardState.term = a.termLog x.hardState.term)
    (hcommit : a'.commit x.hardState.term = a.commit x.hardState.term)
    (hround : a'.round x.hardState.term = a.round x.hardState.term) : LeaderOk a' n x := by
  have hb := hm.base x.hardState.term (by rw [h.leader]; simp)
  refine {
    leader := hm.leader _ _ h.leader
    log := by rw [hlog, htl]; exact h.log
    commit := hcommit ▸ h.commit
    matched := fun p => (h.matched p).imp (fun h => h.trans (hm.acked _ _)) id
    self := hb ▸ h.self
    round := hround ▸ h.round
    rounds := fun p r hp => ?_ }
  obtain ⟨r1, r2, r3⟩ := h.rounds p r hp
  exact ⟨hround ▸ r1, by rw [hm.seen _ _ r1]; exact r2, hb ▸ r3⟩

theorem CandidateOk.mono (h : CandidateOk a n x)
    (hm : EpochLog.Mono a a') (hlog : a'.log n = a.log n)
    (hleader : a'.leader x.hardState.term = some n → a.leader x.hardState.term = some n) :
    CandidateOk a' n x where
  cand := by rw [hlog]; exact hm.cand _ _ _ h.cand
  notLeader := fun hl => h.notLeader (hleader hl)
  votes := ⟨h.votes.1, fun q hq => hm.vote _ _ _ (h.votes.2 q hq)⟩

/-- What a node has committed stays committed when its log grows. -/
theorem NodeOk.commit_mono (h : NodeOk g a n x)
    (hinv : Inv g.quorums a) (hm : EpochLog.Mono a a') {more : List (Entry Bytes)}
    (hlog : a'.log n = a.log n ++ more) : ∃ v, v ≤ x.hardState.term ∧
      x.commitIndex ≤ a'.commit v ∧ Agree (a'.log n) (a'.termLog v) x.commitIndex := by
  obtain ⟨v, hv, hc, hag⟩ := h.commit
  have hcl : x.commitIndex ≤ (a.log n).length := by rw [h.log.length]; exact h.commit_le
  refine ⟨v, hv, hc.trans (hm.commit v), ?_⟩
  rw [hlog]
  exact (agree_append_left hag hcl).of_pre (hm.termLog v)
    (hc.trans (commit_le_length hinv v))

/-- Steps of another node leave this node accounted for. -/
theorem NodeOk.frame {n m : NodeId} (h : NodeOk g a n x)
    (hinv : Inv g.quorums a) (hm : EpochLog.Mono a a') (hf : Frame m a a') (hne : n ≠ m) :
    NodeOk g a' n x := by
  have hlog := hf.log n hne
  exact { h with
    term := (hf.cur n hne).trans h.term
    vote := by rw [hf.vote n hne]; exact h.vote
    log := by rw [hlog]; exact h.log
    graft := by rw [hf.graft n hne]; exact h.graft
    commit := h.commit_mono hinv hm (hlog.trans (List.append_nil _).symm)
    leader := fun hr =>
      have hl := (h.leader hr).leader
      (h.leader hr).mono hm hlog (hf.termLog _ n hne hl) (hf.commit _ n hne hl)
        (hf.round _ n hne hl)
    candidate := fun hr => (h.candidate hr).mono hm hlog (hf.leader _ n hne).mp }

/-- `a'` differs from `a` in recorded votes and confirmations only. -/
structure SameLogs (a a' : History) : Prop where
  cur : a'.cur = a.cur
  log : a'.log = a.log
  graft : a'.graft = a.graft
  leader : a'.leader = a.leader
  termLog : a'.termLog = a.termLog
  commit : a'.commit = a.commit
  round : a'.round = a.round
  base : a'.base = a.base

theorem LeaderOk.same (h : LeaderOk a n x)
    (hm : EpochLog.Mono a a') (hs : SameLogs a a') : LeaderOk a' n x :=
  h.mono hm (congrFun hs.log n) (congrFun hs.termLog _) (congrFun hs.commit _) (congrFun hs.round _)

theorem CandidateOk.same (h : CandidateOk a n x)
    (hm : EpochLog.Mono a a') (hs : SameLogs a a') : CandidateOk a' n x :=
  h.mono hm (congrFun hs.log n) fun hl => hs.leader ▸ hl

theorem NodeOk.same (h : NodeOk g a n x) (hm : EpochLog.Mono a a') (hs : SameLogs a a')
    (hv : a'.vote n x.hardState.term = a.vote n x.hardState.term) : NodeOk g a' n x :=
  { h with
    term := by rw [hs.cur]; exact h.term
    vote := hv.trans h.vote
    log := by rw [hs.log]; exact h.log
    graft := by rw [hs.graft]; exact h.graft
    commit := by rw [hs.log, hs.termLog, hs.commit]; exact h.commit
    leader := fun hr => (h.leader hr).same hm hs
    candidate := fun hr => (h.candidate hr).same hm hs }

end Mono

/-! ## Reading the abstract log through the store -/

section Rep

variable {x : RaftNode σ} {l : List (Entry Bytes)}

theorem LogRep.append {e : LogEntry} {store : LogStore} (h : LogRep x l) (hw : x.Wf)
    (ha : x.logStore.append e = .ok store) (y : RaftNode σ) (hstore : y.logStore = store)
    (hlast : y.lastLogIndex = e.index) (hlii : y.lastIncludedIndex = x.lastIncludedIndex) :
    LogRep y (l ++ [⟨e.term, e.data⟩]) := by
  have hidx := (LogStore.append_ok ha).1
  rw [← hw.last] at hidx
  refine ⟨by rw [List.length_append, h.length, hlast, hidx]; rfl, fun i e' he' => ?_⟩
  rw [hstore, hw.store.entryAt_append ha, hidx] at he'
  split at he'
  · rename_i hi
    cases he'
    refine ⟨⟨e.term, e.data⟩, ?_, rfl, fun _ => rfl⟩
    rw [hi, Nat.add_sub_cancel, ← h.length]
    exact getElem?_snoc.mpr (Or.inr ⟨rfl, rfl⟩)
  · obtain ⟨f, hf, ht, hd⟩ := h.entry i e' he'
    exact ⟨f, getElem?_snoc.mpr (Or.inl hf), ht, hlii ▸ hd⟩

/-- The store was cut at a new boundary: the log it represents is the old one above it. -/
theorem LogRep.install {b t : Nat} {store : LogStore} {l' : List (Entry Bytes)} (h : LogRep x l)
    (hw : x.Wf) (hlo : x.lastIncludedIndex ≤ b) (hinst : x.logStore.installSnapshot ⟨b, t⟩ = .ok store)
    {f : Entry Bytes} (hf : 0 < b → l'[b - 1]? = some f) (hft : f.term = t)
    (hhigh : ∀ i, b ≤ i → l'[i]? = l[i]?) {y : RaftNode σ} (hwy : y.Wf) (hstore : y.logStore = store)
    (hb : y.lastIncludedIndex = b) (ht : y.lastIncludedTerm = t) (hlen : l'.length = y.lastLogIndex) :
    LogRep y l' := by
  refine ⟨hlen, fun i e he => ?_⟩
  obtain ⟨h0, -, hlo'⟩ := hwy.entryAt_range he
  rcases Nat.eq_or_lt_of_le hlo' with heq | hgt
  · -- the new boundary
    subst heq
    rw [hwy.entryAt_boundary h0] at he
    cases he
    exact ⟨f, hb ▸ hf (hb ▸ h0), ht.trans hft.symm, fun hlt => absurd hlt (Nat.lt_irrefl _)⟩
  · rw [hb] at hgt
    rw [hstore, hw.store.entryAt_installSnapshot (hw.index ▸ hlo) hinst hgt] at he
    obtain ⟨f', hf', hft', hd⟩ := h.entry i e he
    exact ⟨f', by rw [hhigh _ (by omega)]; exact hf', hft', fun _ => hd (by omega)⟩

/-- The last term a node computes is the last term of its log. -/
theorem LogRep.lastLogTerm {t : Nat} (h : LogRep x l) (ht : x.lastLogTerm = .ok t) :
    lastTerm l = t := by
  unfold RaftNode.lastLogTerm at ht
  split_ifs at ht with h0
  · rw [← h.length] at h0
    rw [List.eq_nil_of_length_eq_zero h0, ← Except.ok.inj ht]
    rfl
  · obtain ⟨e, he, het⟩ := RaftNode.map_term_ok ht
    obtain ⟨f, hf, hft, -⟩ := h.entry _ e he
    rw [← h.length] at hf
    rw [lastTerm_of_getElem? hf, ← hft, het]

theorem upToDate_of_check {l c : List (Entry Bytes)} {lastIndex lastT candIndex candT : Nat}
    (hl : l.length = lastIndex) (hlt : lastTerm l = lastT) (hc : c.length = candIndex)
    (hct : lastTerm c = candT) (h : logIsUpToDate lastIndex lastT candIndex candT = true) :
    UpToDate c l := by
  unfold logIsUpToDate at h
  subst hl hlt hc hct
  split_ifs at h with heq
  · exact Or.inl (of_decide_eq_true h)
  · rw [not_not] at heq
    exact Or.inr ⟨heq.symm, of_decide_eq_true h⟩

/-- What an append request asserts about a term is so in the leader log. -/
theorem AppendOk.termAt {a : History} {src : NodeId} {q : AppendEntriesRequest}
    (h : AppendOk a src q) {i t : Nat} (hi : q.termAt i = some t) (h0 : i ≠ 0)
    (hlo : q.prevLogIndex ≤ i) : ∃ f, (a.termLog q.term)[i - 1]? = some f ∧ f.term = t := by
  unfold AppendEntriesRequest.termAt at hi
  split_ifs at hi with heq
  · obtain ⟨f, hf, ht⟩ := h.prev.resolve_left (heq ▸ h0)
    exact ⟨f, heq ▸ hf, ht.trans (Option.some.inj hi)⟩
  · cases he : q.entries[i - q.prevLogIndex - 1]? with
    | none => rw [he] at hi; simp at hi
    | some e =>
      rw [he] at hi
      have := h.entries _ e he
      rw [show q.prevLogIndex + (i - q.prevLogIndex - 1) = i - 1 by omega] at this
      exact ⟨_, this, Option.some.inj hi⟩

end Rep

section Follow

variable {g : Group} {a : History} {n src : NodeId} {x : RaftNode σ} {q : AppendEntriesRequest}

/-- **One matching term is enough.**  A node that agrees with a request on the term at `i` agrees
    with the leader log on everything up to `i`. -/
theorem NodeOk.agree (h : NodeOk g a n x) (hinv : Inv g.quorums a) (hq : AppendOk a src q)
    (hterm : q.term = x.hardState.term) {i : Nat} (hm : x.MatchesAt q i)
    (hlo : q.prevLogIndex ≤ i) : Agree (a.log n) (a.termLog (a.cur n)) i := by
  have hcur : q.term = a.cur n := hterm.trans h.term.symm
  refine matched_of_prev hinv (by rw [← hcur, hq.leader]; simp)
    (h.graft.trans hm.1) (hm.2.2.imp id ?_)
  rintro ⟨e, he, ht⟩
  obtain ⟨f, hf, hft, -⟩ := h.log.entry i e he
  obtain ⟨f', hf', hft'⟩ := hq.termAt ht (by have := (h.wf.entryAt_range he).1; omega) hlo
  rw [hcur] at hf'
  exact ⟨f, f', hf, hf', by rw [hft', ← hft]⟩

/-- A node's committed prefix is held by the leader of its term. -/
theorem NodeOk.commit_agree (h : NodeOk g a n x) (hinv : Inv g.quorums a)
    (hl : a.leader (a.cur n) ≠ none) :
    Agree (a.log n) (a.termLog (a.cur n)) x.commitIndex := by
  obtain ⟨v, hv, hc, hag⟩ := h.commit
  exact hag.trans ((leader_holds hinv (h.term ▸ hv) hl).mono hc).symm

/-- A node at the same place whose role no longer matters. -/
theorem NodeOk.follower (h : NodeOk g a n x) {y : RaftNode σ} (hw : y.Wf)
    (hvotes : y.votesReceived = []) (hrole : y.role = .follower) (hconfig : y.config = x.config)
    (hhard : y.hardState = x.hardState) (hlog : y.logStore = x.logStore)
    (hlast : y.lastLogIndex = x.lastLogIndex) (hlii : y.lastIncludedIndex = x.lastIncludedIndex)
    (hcommit : y.commitIndex = x.commitIndex) (happlied : y.lastApplied = x.lastApplied) :
    NodeOk g a n y where
  wf := hw
  member := h.member
  voters := by rw [hvotes]; simp
  nodeId := by rw [hconfig]; exact h.nodeId
  peers := by rw [hconfig]; exact h.peers
  term := by rw [hhard]; exact h.term
  vote := by rw [hhard]; exact h.vote
  log := ⟨by rw [hlast]; exact h.log.length, by rw [hlog, hlii]; exact h.log.entry⟩
  graft := by rw [hlii]; exact h.graft
  applied_le := by rw [happlied, hcommit]; exact h.applied_le
  commit_le := by rw [hcommit, hlast]; exact h.commit_le
  commit := by rw [hhard, hcommit]; exact h.commit
  leader := fun hr => by rw [hrole] at hr; simp at hr
  candidate := fun hr => by rw [hrole] at hr; simp at hr

end Follow

end SqlDb.Raft
