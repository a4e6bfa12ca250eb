/-
  EPOCH LOGS: runs.

  `Reach J Q n s s'` is any sequence of steps by node `n`.  Three facts about it are all that a
  refinement proof needs: it keeps the invariant (`Reach.inv`), HISTORY only grows (`Mono`: terms,
  votes, leaders, leader logs, commits, confirmations), and it touches nothing that belongs to
  another node (`Frame`).  The remaining lemmas say what a node may conclude from a local check:
  what a matching (index, term) pair proves about the whole prefix, and when a confirmation may be
  recorded.
-/
import SqlDb.Lib.EpochLogStep

namespace EpochLog

open List

variable {N D : Type} [DecidableEq N] {J : Prop} {Q : Quorums N} {n : N}

/-! ## The invariant along a run -/

omit [DecidableEq N] in
theorem inv_init (Q : Quorums N) : Inv Q (State.init N D) where
  tree := fun T p e he => by simp [State.init] at he
  led := fun T hT => absurd rfl hT
  own := fun T hT => absurd rfl hT
  inherited := fun T p e he => by simp [State.init] at he
  elected := fun T c hc => by simp [State.init] at hc
  voteOk := fun q T c hv => by simp [State.init] at hv
  leader_pos := rfl
  cand_pos := fun _ => rfl
  leader_cur := fun T c hc => by simp [State.init] at hc
  vote_cur := fun q T c hv => by simp [State.init] at hv
  cand_cur := fun T c l hl => by simp [State.init] at hl
  acked_cur := fun q v h0 => absurd h0 (Nat.lt_irrefl 0)
  acked_len := fun _ _ => Nat.zero_le _
  log_cur := fun q j e he => by simp [State.init] at he
  graft := fun q => ⟨0, Nat.le_refl _, Nat.le_refl _, agree_zero _ _⟩
  seg := fun q p e _ he => by simp [State.init] at he
  committed := fun _ => Or.inl rfl
  ret := fun q v k ho => by obtain ⟨-, e, he, -⟩ := ho; simp [State.init] at he
  retVote := fun q T c hv => by simp [State.init] at hv
  seen_mono := fun _ _ _ _ _ _ => Nat.le_refl _
  seen_cur := fun _ _ _ _ => Nat.le_refl _

variable {s s' : State N D}

theorem Step.inv (hs : Step J Q n s s') (h : Inv Q s) : Inv Q s' := by
  cases hs with
  | advance T hT => exact inv_advance h hT
  | campaign => exact inv_campaign h
  | grant c l hnone hc hup => exact inv_grant h hnone hc hup
  | elect d hc hnone hq => exact inv_elect h hc hnone hq
  | push d hl hlog => exact inv_push h hl hlog
  | truncate i e f he hf hne hg => exact inv_truncate h he hf hne hg
  | extend e hm he => exact inv_extend h hm he
  | ack k hk hm hs => exact inv_ack h hk hm hs
  | commit k hl hc hk => exact inv_commit h hc hk
  | install v b hv hb hg hj => exact inv_install h hv hb hg
  | newRound hl => exact inv_newRound h

/-- Any sequence of steps by node `n`. -/
def Reach (J : Prop) (Q : Quorums N) (n : N) : State N D → State N D → Prop :=
  Relation.ReflTransGen (Step J Q n)

theorem Reach.refl (s : State N D) : Reach J Q n s s := Relation.ReflTransGen.refl

theorem Reach.single (h : Step J Q n s s') : Reach J Q n s s' :=
  Relation.ReflTransGen.single h

theorem Reach.inv (hr : Reach J Q n s s') (h : Inv Q s) : Inv Q s' := by
  induction hr with
  | refl => exact h
  | tail _ hs ih => exact hs.inv ih

/-! ## History only grows -/

/-- Everything recorded in `s` is still recorded in `s'`. -/
structure Mono (s s' : State N D) : Prop where
  cur : ∀ q, s.cur q ≤ s'.cur q
  vote : ∀ q T c, s.vote q T = some c → s'.vote q T = some c
  cand : ∀ T c l, s.cand T c = some l → s'.cand T c = some l
  leader : ∀ T c, s.leader T = some c → s'.leader T = some c
  voters : ∀ T, s.leader T ≠ none → s'.voters T = s.voters T
  termLog : ∀ T, s.termLog T <+: s'.termLog T
  acked : ∀ q T, s.acked q T ≤ s'.acked q T
  commit : ∀ T, s.commit T ≤ s'.commit T
  round : ∀ T, s.round T ≤ s'.round T
  seen : ∀ T r, r ≤ s.round T → s'.seen T r = s.seen T r
  base : ∀ T, s.leader T ≠ none → s'.base T = s.base T
  /-- A round that was started in between saw every node at least in its old term. -/
  fresh : ∀ T r q, s.round T < r → r ≤ s'.round T → s.cur q ≤ s'.seen T r q

omit [DecidableEq N] in
theorem Mono.refl (s : State N D) : Mono s s where
  cur := fun _ => Nat.le_refl _
  vote := fun _ _ _ h => h
  cand := fun _ _ _ h => h
  leader := fun _ _ h => h
  voters := fun _ _ => rfl
  termLog := fun _ => prefix_rfl
  acked := fun _ _ => Nat.le_refl _
  commit := fun _ => Nat.le_refl _
  round := fun _ => Nat.le_refl _
  seen := fun _ _ _ => rfl
  base := fun _ _ => rfl
  fresh := fun _ _ _ h1 h2 => absurd (Nat.lt_of_lt_of_le h1 h2) (Nat.lt_irrefl _)

variable {T : Nat}

omit [DecidableEq N] in
theorem Mono.leader_ne (h : Mono s s') (hT : s.leader T ≠ none) : s'.leader T ≠ none := by
  obtain ⟨c, hc⟩ := Option.ne_none_iff_exists'.mp hT
  rw [h.leader T c hc]; simp

omit [DecidableEq N] in
theorem Mono.trans {s s' s'' : State N D} (h : Mono s s') (h' : Mono s' s'') : Mono s s'' where
  cur := fun q => Nat.le_trans (h.cur q) (h'.cur q)
  vote := fun q T c hv => h'.vote q T c (h.vote q T c hv)
  cand := fun T c l hl => h'.cand T c l (h.cand T c l hl)
  leader := fun T c hc => h'.leader T c (h.leader T c hc)
  voters := fun T hT => (h'.voters T (h.leader_ne hT)).trans (h.voters T hT)
  termLog := fun T => (h.termLog T).trans (h'.termLog T)
  acked := fun q T => Nat.le_trans (h.acked q T) (h'.acked q T)
  commit := fun T => Nat.le_trans (h.commit T) (h'.commit T)
  round := fun T => Nat.le_trans (h.round T) (h'.round T)
  seen := fun T r hr =>
    (h'.seen T r (Nat.le_trans hr (h.round T))).trans (h.seen T r hr)
  base := fun T hT => (h'.base T (h.leader_ne hT)).trans (h.base T hT)
  fresh := fun T r q h1 h2 => by
    rcases Nat.lt_or_ge (s'.round T) r with hlt | hge
    · exact Nat.le_trans (h.cur q) (h'.fresh T r q hlt h2)
    · rw [h'.seen T r hge]
      exact h.fresh T r q h1 hge

variable {s : State N D}

theorem mono_setCur (hT : s.cur n ≤ T) : Mono s (s.setCur n T) :=
  { Mono.refl s with
    cur := fun q => by
      show s.cur q ≤ if q = n then T else s.cur q
      split
      · rename_i hq; rw [hq]; exact hT
      · exact Nat.le_refl _ }

theorem mono_setVote {c : N} (hnone : s.vote n T = none) : Mono s (s.setVote n T c) :=
  { Mono.refl s with
    vote := fun q U x hv => by
      show (if q = n ∧ U = T then some c else s.vote q U) = some x
      rw [if_neg]
      · exact hv
      · rintro ⟨rfl, rfl⟩; rw [hnone] at hv; simp at hv }

theorem mono_campaign (h : Inv Q s) : Mono s (s.campaign n) := by
  obtain ⟨hnone, hcnone⟩ := h.next_term n
  exact
  { (mono_setCur (n := n) (Nat.le_succ (s.cur n))).trans
      (mono_setVote (s := s.setCur n (s.cur n + 1)) (c := n) hnone) with
    cand := fun U m l hl => by
      show (if U = s.cur n + 1 ∧ m = n then some (s.log n) else s.cand U m) = some l
      rw [if_neg]
      · exact hl
      · rintro ⟨rfl, rfl⟩; rw [hcnone] at hl; simp at hl }

theorem mono_setAcked {T k : Nat} : Mono s (s.setAcked n T k) :=
  { Mono.refl s with
    acked := fun q U => by
      show s.acked q U ≤ if q = n ∧ U = T then max (s.acked q U) k else s.acked q U
      split
      · exact Nat.le_max_left _ _
      · exact Nat.le_refl _ }

omit [DecidableEq N] in
theorem mono_setCommit {T k : Nat} (hk : s.commit T ≤ k) : Mono s (s.setCommit T k) :=
  { Mono.refl s with
    commit := fun U => by
      show s.commit U ≤ if U = T then k else s.commit U
      split
      · rename_i hU; rw [hU]; exact hk
      · exact Nat.le_refl _ }

omit [DecidableEq N] in
theorem mono_newRound : Mono s (s.newRound T) :=
  { Mono.refl s with
    round := fun U => by
      show s.round U ≤ if U = T then s.round T + 1 else s.round U
      split
      · rename_i hU; rw [hU]; omega
      · exact Nat.le_refl _
    seen := fun U r hr => by
      funext q
      show (if U = T ∧ r = s.round T + 1 then s.cur q else s.seen U r q) = _
      rw [if_neg]
      rintro ⟨rfl, rfl⟩
      omega
    fresh := fun U r q h1 h2 => by
      have h2' : r ≤ if U = T then s.round T + 1 else s.round U := h2
      show s.cur q ≤ if U = T ∧ r = s.round T + 1 then s.cur q else s.seen U r q
      split at h2'
      · rename_i hU
        subst hU
        exact Nat.le_of_eq (if_pos ⟨rfl, by omega⟩).symm
      · omega }

theorem mono_elect (h : Inv Q s) {d : D} (hnone : s.leader (s.cur n) = none) :
    Mono s (s.elect n (s.cur n) d) := by
  have h0 : s.termLog (s.cur n) = [] := by by_contra hne; exact h.led _ hne hnone
  exact
  { mono_setAcked (s := s) (n := n) (T := s.cur n) (k := (s.log n ++ [(⟨s.cur n, d⟩ : Entry D)]).length) with
    leader := fun T c hc => by
      show (if T = s.cur n then some n else s.leader T) = some c
      rw [if_neg]
      · exact hc
      · rintro rfl; rw [hnone] at hc; simp at hc
    voters := fun T hT => by
      funext q
      show (if T = s.cur n then s.vote q (s.cur n) = some n else s.voters T q) = _
      rw [if_neg]
      rintro rfl
      exact hT hnone
    base := fun T hT => by
      show (if T = s.cur n then _ else s.base T) = _
      rw [if_neg]
      rintro rfl
      exact hT hnone
    termLog := fun T => by
      show _ <+: if T = s.cur n then _ else s.termLog T
      split
      · rename_i hT; rw [hT, h0]; exact nil_prefix
      · exact prefix_rfl }

theorem mono_push {d : D} (hlog : s.log n = s.termLog (s.cur n)) :
    Mono s (s.pushLeader n (s.cur n) (s.log n ++ [⟨s.cur n, d⟩])) :=
  { mono_setAcked (s := s) (n := n) (T := s.cur n) (k := (s.log n ++ [(⟨s.cur n, d⟩ : Entry D)]).length) with
    termLog := fun T => by
      show _ <+: if T = s.cur n then _ else s.termLog T
      split
      · rename_i hT; rw [hT, ← hlog]; exact prefix_append _ _
      · exact prefix_rfl }

theorem Step.mono (hs : Step J Q n s s') (h : Inv Q s) : Mono s s' := by
  cases hs with
  | advance T hT => exact mono_setCur (Nat.le_of_lt hT)
  | campaign => exact mono_campaign h
  | grant c l hnone hc hup => exact mono_setVote hnone
  | elect d hc hnone hq => exact mono_elect h hnone
  | push d hl hlog => exact mono_push hlog
  | truncate | extend | install => exact { Mono.refl s with }
  | ack k hk hm hs => exact mono_setAcked
  | commit k hl hc hk => exact mono_setCommit hk
  | newRound hl => exact mono_newRound

theorem Reach.mono (hr : Reach J Q n s s') (h : Inv Q s) : Mono s s' := by
  induction hr with
  | refl => exact Mono.refl s
  | tail hr' hs ih => exact ih.trans (hs.mono (Reach.inv hr' h))

/-- Rounds are counted from the election on. -/
def Rounds (s : State N D) : Prop := ∀ T, s.leader T = none → s.round T = 0

theorem Step.rounds (hs : Step J Q n s s') (h : Rounds s) : Rounds s' := by
  cases hs with
  | elect d hc hnone hq =>
    intro T hT
    have hT' : (if T = s.cur n then some n else s.leader T) = none := hT
    split at hT'
    · simp at hT'
    · exact h T hT'
  | newRound hl =>
    intro T hT
    have hT' : s.leader T = none := hT
    show (if T = s.cur n then s.round (s.cur n) + 1 else s.round T) = 0
    rw [if_neg]
    · exact h T hT'
    · rintro rfl
      rw [hl] at hT'
      simp at hT'
  | _ => exact h

theorem Reach.rounds (hr : Reach J Q n s s') (h : Rounds s) : Rounds s' := by
  induction hr with
  | refl => exact h
  | tail _ hs ih => exact hs.rounds ih

/-! ## What belongs to another node is left alone -/

/-- From `s` to `s'` only node `n` acted. -/
structure Frame (n : N) (s s' : State N D) : Prop where
  cur : ∀ q, q ≠ n → s'.cur q = s.cur q
  log : ∀ q, q ≠ n → s'.log q = s.log q
  graft : ∀ q, q ≠ n → s'.graft q = s.graft q
  vote : ∀ q, q ≠ n → s'.vote q = s.vote q
  cand : ∀ T q, q ≠ n → s'.cand T q = s.cand T q
  leader : ∀ T q, q ≠ n → (s'.leader T = some q ↔ s.leader T = some q)
  termLog : ∀ T q, q ≠ n → s.leader T = some q → s'.termLog T = s.termLog T
  commit : ∀ T q, q ≠ n → s.leader T = some q → s'.commit T = s.commit T
  round : ∀ T q, q ≠ n → s.leader T = some q → s'.round T = s.round T

omit [DecidableEq N] in
theorem Frame.refl (s : State N D) : Frame n s s where
  cur := fun _ _ => rfl
  log := fun _ _ => rfl
  graft := fun _ _ => rfl
  vote := fun _ _ => rfl
  cand := fun _ _ _ => rfl
  leader := fun _ _ _ => Iff.rfl
  termLog := fun _ _ _ _ => rfl
  commit := fun _ _ _ _ => rfl
  round := fun _ _ _ _ => rfl

omit [DecidableEq N] in
theorem Frame.trans {s s' s'' : State N D} (h : Frame n s s') (h' : Frame n s' s'') :
    Frame n s s'' where
  cur := fun q hq => (h'.cur q hq).trans (h.cur q hq)
  log := fun q hq => (h'.log q hq).trans (h.log q hq)
  graft := fun q hq => (h'.graft q hq).trans (h.graft q hq)
  vote := fun q hq => (h'.vote q hq).trans (h.vote q hq)
  cand := fun T q hq => (h'.cand T q hq).trans (h.cand T q hq)
  leader := fun T q hq => (h'.leader T q hq).trans (h.leader T q hq)
  termLog := fun T q hq hl =>
    (h'.termLog T q hq ((h.leader T q hq).mpr hl)).trans (h.termLog T q hq hl)
  commit := fun T q hq hl =>
    (h'.commit T q hq ((h.leader T q hq).mpr hl)).trans (h.commit T q hq hl)
  round := fun T q hq hl =>
    (h'.round T q hq ((h.leader T q hq).mpr hl)).trans (h.round T q hq hl)

theorem Step.frame (hs : Step J Q n s s') : Frame n s s' := by
  -- the terms a step writes for are led by `n`, or by nobody
  have hled : ∀ {T q : _}, q ≠ n → s.leader T = some q → s.leader (s.cur n) = some n →
      T ≠ s.cur n := by
    rintro T q hq hl hln rfl
    rw [hl] at hln
    exact hq (Option.some.inj hln)
  cases hs with
  | advance T hT => exact { Frame.refl s with cur := fun q hq => if_neg hq }
  | campaign =>
    exact
    { Frame.refl s with
      cur := fun q hq => if_neg hq
      vote := fun q hq => funext fun U => if_neg fun hx => hq hx.1
      cand := fun T q hq => if_neg fun hx => hq hx.2 }
  | grant c l hnone hc hup =>
    exact { Frame.refl s with vote := fun q hq => funext fun U => if_neg fun hx => hq hx.1 }
  | elect d hc hnone hq =>
    have hne : ∀ {T q : _}, s.leader T = some q → T ≠ s.cur n := by
      rintro T q hl rfl; rw [hnone] at hl; simp at hl
    exact
    { Frame.refl s with
      log := fun q hq => if_neg hq
      leader := fun T q hq => by
        show (if T = s.cur n then some n else s.leader T) = some q ↔ _
        split_ifs with hT
        · rw [hT, hnone]
          simp [Ne.symm hq]
        · exact Iff.rfl
      termLog := fun T q _ hl => if_neg (hne hl) }
  | push d hl hlog =>
    exact
    { Frame.refl s with
      log := fun q hq => if_neg hq
      termLog := fun T q hq hT => if_neg (hled hq hT hl) }
  | truncate | extend => exact { Frame.refl s with log := fun q hq => if_neg hq }
  | ack k hk hm hs => exact { Frame.refl s with }
  | commit k hl hc hk =>
    exact { Frame.refl s with commit := fun T q hq hT => if_neg (hled hq hT hl) }
  | install v b hv hb hg hj =>
    exact { Frame.refl s with log := fun q hq => if_neg hq, graft := fun q hq => if_neg hq }
  | newRound hl =>
    exact { Frame.refl s with round := fun T q hq hT => if_neg (hled hq hT hl) }

theorem Reach.frame (hr : Reach J Q n s s') : Frame n s s' := by
  induction hr with
  | refl => exact Frame.refl s
  | tail _ hs ih => exact ih.trans hs.frame

/-! ## What a node may conclude from a local check -/

section Local

omit [DecidableEq N]

variable {s : State N D}

/-- **The consistency check.**  If node `n` and the leader of its term hold an entry of the same
    term at position `p - 1`, at or above the graft point, they agree on everything below `p` —
    although `n`'s log may carry a suffix that never belonged to the prefix under it. -/
theorem matched_of_prev (h : Inv Q s) {p : Nat} (hl : s.leader (s.cur n) ≠ none)
    (hg : s.graft n ≤ p)
    (hp : p = 0 ∨ ∃ e f, (s.log n)[p - 1]? = some e ∧ (s.termLog (s.cur n))[p - 1]? = some f ∧
      e.term = f.term) : Agree (s.log n) (s.termLog (s.cur n)) p := by
  obtain ⟨v, hv, hgv, hga⟩ := h.graft n
  intro j hj
  rcases Nat.lt_or_ge j (s.graft n) with hlt | hge
  · rw [hga j hlt]
    exact (leader_holds h hv hl j (by omega)).symm
  · obtain ⟨e, f, he, hf, hef⟩ := hp.resolve_left (by omega)
    rw [h.seg n _ e (by omega) he j hge (by omega)]
    rw [hef]
    exact ((h.tree _ _ f hf).2 j (by omega)).symm

/-- A confirmation of `k` may be recorded, unless `k` is a graft point the leader of this very term
    has already committed (then it says nothing new, and a stale suffix may still lie above it). -/
theorem ack_or_committed (h : Inv Q s) {k : Nat} (hg : s.graft n ≤ k)
    (hm : Agree (s.log n) (s.termLog (s.cur n)) k) :
    (∀ f, (s.termLog (s.cur n))[k - 1]? = some f → f.term = s.cur n →
      ∀ j e, k ≤ j → (s.log n)[j]? = some e → s.cur n ≤ e.term) ∨ k ≤ s.commit (s.cur n) := by
  rcases Nat.eq_zero_or_pos k with h0 | h0
  · right; omega
  by_cases hown : ∃ f, (s.termLog (s.cur n))[k - 1]? = some f ∧ f.term = s.cur n
  · obtain ⟨f, hf, hft⟩ := hown
    rcases Nat.eq_or_lt_of_le hg with heq | hlt
    · right
      obtain ⟨v, hv, hgv, hga⟩ := h.graft n
      have hin : (s.termLog v)[k - 1]? = some f := by
        rw [← hga (k - 1) (by omega), hm (k - 1) (by omega)]; exact hf
      have hle := (h.tree v _ f hin).1
      obtain rfl : v = s.cur n := by omega
      omega
    · left
      intro _ _ _ j e hj he
      have hk : (s.termLog e.term)[k - 1]? = some f := by
        rw [← h.seg n j e (by omega) he (k - 1) (by omega) (by omega), hm (k - 1) (by omega)]
        exact hf
      have := (h.tree _ _ f hk).1
      omega
  · left
    intro f hf hft
    exact absurd ⟨f, hf, hft⟩ hown

/-- A term has one leader: two vote quorums share a voter. -/
theorem leader_unique (h : Inv Q s) {c x : N} (hl : s.leader T = some x)
    (hq : Q.vote fun q => s.vote q T = some c) : x = c := by
  obtain ⟨hv, hvote, -⟩ := h.elected T x hl
  obtain ⟨q, hqv, hqc⟩ := Q.vote_meet hv hq
  have h1 : s.vote q T = some x := hvote q hqv
  have h2 : s.vote q T = some c := hqc
  rw [h1] at h2
  exact Option.some.inj h2

end Local

/-! ## Logs without a seam

A snapshot put under a log that does not go on from it leaves a SEAM: a suffix that belongs to
another history.  Without such installs every log follows, up to each of its entries, the leader log
of that entry's term. -/

def Seamless (s : State N D) : Prop :=
  ∀ q p e, (s.log q)[p]? = some e → Agree (s.log q) (s.termLog e.term) (p + 1)

section Seams

variable {s s' : State N D}

omit [DecidableEq N] in
/-- An entry of a seamless log is an entry of the leader log of its term. -/
theorem Seamless.termLog (h : Seamless s) {q : N} {p : Nat} {e : Entry D}
    (he : (s.log q)[p]? = some e) : (s.termLog e.term)[p]? = some e := by
  rw [← h q p e he p (Nat.lt_succ_self p)]
  exact he

omit [DecidableEq N] in
/-- Seamless logs agree up to any index where they hold one term. -/
theorem Seamless.agree (h : Seamless s) {q m : N} {p : Nat} {e f : Entry D}
    (he : (s.log q)[p]? = some e) (hf : (s.log m)[p]? = some f) (hterm : e.term = f.term) :
    Agree (s.log q) (s.log m) (p + 1) := by
  have h1 := h q p e he
  have h2 := h m p f hf
  rw [hterm] at h1
  exact h1.trans h2.symm

/-- One log is replaced by one that is seamless in the new state. -/
theorem Seamless.set (h : Seamless s) (hlog : ∀ q, q ≠ n → s'.log q = s.log q)
    (hpre : ∀ T, s.termLog T <+: s'.termLog T)
    (hn : ∀ p e, (s'.log n)[p]? = some e → Agree (s'.log n) (s'.termLog e.term) (p + 1)) :
    Seamless s' := by
  intro q p e he
  by_cases hq : q = n
  · subst hq
    exact hn p e he
  · rw [hlog q hq] at he ⊢
    refine (h q p e he).of_pre (hpre _) ?_
    exact lt_of_getElem? (h.termLog he)

/-- A leader log that gets one more entry, which its owner's log gets too. -/
theorem Seamless.append (h : Seamless s) {e : Entry D} (he : e.term = T)
    (hlog : ∀ q, s'.log q = if q = n then s.log n ++ [e] else s.log q)
    (hterm : ∀ U, s'.termLog U = if U = T then s.log n ++ [e] else s.termLog U)
    (hpre : s.termLog T <+: s.log n) : Seamless s' := by
  have hgrow : ∀ U, s.termLog U <+: s'.termLog U := by
    intro U
    rw [hterm]
    split_ifs with hU
    · rw [hU]
      exact hpre.trans (prefix_append _ _)
    · exact prefix_refl _
  refine h.set (n := n) (fun q hq => by rw [hlog, if_neg hq]) hgrow fun p f hf => ?_
  rw [hlog, if_pos rfl] at hf ⊢
  rcases getElem?_snoc.mp hf with hf | ⟨-, rfl⟩
  · refine agree_append_left ((h n p f hf).of_pre (hgrow _) ?_) (lt_of_getElem? hf)
    exact lt_of_getElem? (h.termLog hf)
  · rw [hterm, if_pos he]
    exact Agree.refl _ _

/-- Putting a snapshot under a log that goes on from it changes nothing below. -/
theorem Seamless.install (h : Seamless s) (hinv : Inv Q s) {v b : Nat} (hb : b ≤ s.commit v)
    (hj : Joins s n v b) : Seamless (s.install n v b) := by
  have hlog : (s.install n v b).log n = (s.termLog v).take b ++ (s.log n).drop b := if_pos rfl
  obtain ⟨hlow, hhigh⟩ := grafted hinv (n := n) hb
  refine h.set (n := n) (fun q hq => if_neg hq) (fun T => prefix_refl _) fun p e he => ?_
  rw [hlog] at he ⊢
  show Agree _ (s.termLog e.term) _
  rcases Nat.lt_or_ge p b with hlt | hge
  · rw [hlow p hlt] at he
    exact (hlow.mono hlt).trans (hinv.tree v p e he).2
  · rw [hhigh p hge] at he
    -- the log reaches above `b`, so it holds the snapshot's last term and hence all of it
    have hag : Agree (s.termLog v) (s.log n) b := by
      rcases hj with hend | ⟨e0, f0, he0, hf0, ht⟩
      · have := lt_of_getElem? he
        omega
      · have h1 := h n _ e0 he0
        have h2 := (hinv.tree v _ f0 hf0).2
        rw [ht] at h1
        exact (h2.trans h1.symm).mono (by omega)
    have hsame : Agree ((s.termLog v).take b ++ (s.log n).drop b) (s.log n) (p + 1) := by
      intro i hi
      rcases Nat.lt_or_ge i b with hib | hib
      · exact (hlow i hib).trans (hag i hib)
      · exact hhigh i hib
    exact hsame.trans (h n p e he)

theorem Step.seamless (hs : Step True Q n s s') (hinv : Inv Q s) (h : Seamless s) :
    Seamless s' := by
  cases hs with
  | advance | campaign | grant | ack | commit | newRound => exact h
  | elect d hc hnone hq =>
    refine h.append (T := s.cur n) (e := ⟨s.cur n, d⟩) rfl (fun q => rfl) (fun U => rfl) ?_
    have : s.termLog (s.cur n) = [] := by
      by_contra hne
      exact hinv.led _ hne hnone
    rw [this]
    exact ⟨_, nil_append _⟩
  | push d hl hlog =>
    refine h.append (T := s.cur n) (e := ⟨s.cur n, d⟩) rfl (fun q => rfl) (fun U => rfl) ?_
    exact ⟨[], by rw [append_nil, hlog]⟩
  | truncate i e f he hf hne hg =>
    refine h.set (n := n) (fun q hq => if_neg hq) (fun T => prefix_refl _) fun p e' he' => ?_
    have hlog : (s.setLog n ((s.log n).take i)).log n = (s.log n).take i := if_pos rfl
    rw [hlog] at he' ⊢
    have hlt : p < i := by
      have := lt_of_getElem? he'
      rw [length_take] at this
      omega
    rw [getElem?_take_of_lt hlt] at he'
    exact ((agree_take _ _).mono hlt).trans (h n p e' he')
  | extend e hm he =>
    refine h.set (n := n) (fun q hq => if_neg hq) (fun T => prefix_refl _) fun p e' he' => ?_
    have hlog : (s.setLog n (s.log n ++ [e])).log n = s.log n ++ [e] := if_pos rfl
    rw [hlog] at he' ⊢
    rcases getElem?_snoc.mp he' with hold | ⟨rfl, rfl⟩
    · exact agree_append_left (h n p e' hold) (lt_of_getElem? hold)
    · refine Agree.trans (fun i hi => ?_) (hinv.tree _ _ _ he).2
      rcases Nat.lt_or_ge i (s.log n).length with hlt | hge
      · rw [getElem?_append_left hlt]
        exact hm i hlt
      · obtain rfl : i = (s.log n).length := by omega
        rw [he, he']
  | install v b hv hb hg hj => exact h.install hinv hb (hj trivial)

theorem Reach.seamless (hr : Reach True Q n s s') (hinv : Inv Q s) (h : Seamless s) :
    Seamless s' := by
  induction hr with
  | refl => exact h
  | tail hr hs ih => exact hs.seamless (Reach.inv hr hinv) ih

end Seams

/-! ## What a heartbeat round proves

A leader that starts a round, and later hears from a quorum of nodes that had not left its term when
the round began, knows of everything that was committed BEFORE the round: it was committed by the
leader itself, or inherited at its election, or committed in a later term — which a quorum of nodes
must have entered already. -/

/-- Index `k` was committed before round `r` of term `T`, as its leader, whose commit index was then
    `target`, sees it. -/
def Behind (Q : Quorums N) (s : State N D) (T r target k : Nat) : Prop :=
  k ≤ target ∨ k ≤ s.base T ∨ Q.commit fun q => T < s.seen T r q

section Rounds

variable {s s' : State N D} {T r target k : Nat}

omit [DecidableEq N] in
/-- What an earlier leader committed was inherited. -/
theorem commit_le_base (h : Inv Q s) {v : Nat} (hv : v < T) (hl : s.leader T ≠ none) :
    s.commit v ≤ s.base T := by
  by_contra hcon
  obtain ⟨e, he, ht⟩ := h.own T hl
  rw [leader_complete h hv hl _ (by omega)] at he
  have := (h.tree v _ e he).1
  omega

omit [DecidableEq N] in
/-- A round that saw every node at least where it was in `s` comes after all commits of `s`. -/
theorem behind_of_commit (h : Inv Q s) (hm : Mono s s') {v : Nat} (hk : k ≤ s.commit v)
    (hl : s.leader T ≠ none) (htarget : s.commit T ≤ target)
    (hfresh : ∀ q, s.cur q ≤ s'.seen T r q) : Behind Q s' T r target k := by
  rcases Nat.lt_trichotomy v T with hlt | heq | hgt
  · right; left
    rw [hm.base T hl]
    exact Nat.le_trans hk (commit_le_base h hlt hl)
  · left
    rw [heq] at hk
    exact Nat.le_trans hk htarget
  · rcases h.committed v with h0 | hc
    · left
      omega
    · right; right
      refine Q.commit_mono (fun q hq => ?_) hc.2.2
      have h1 := hc.1
      have h2 := h.acked_cur q v (by omega)
      exact Nat.lt_of_lt_of_le (Nat.lt_of_lt_of_le hgt h2) (hfresh q)

omit [DecidableEq N] in
theorem Behind.mono (h : Behind Q s T r target k) (hm : Mono s s') (hl : s.leader T ≠ none)
    (hr : r ≤ s.round T) : Behind Q s' T r target k := by
  unfold Behind
  rw [hm.base T hl, hm.seen T r hr]
  exact h

omit [DecidableEq N] in
/-- A quorum that was still in term `T` rules out a later term. -/
theorem Behind.of_quorum (h : Behind Q s T r target k)
    (hq : Q.vote fun q => s.seen T r q ≤ T) : k ≤ target ∨ k ≤ s.base T := by
  rcases h with h | h | h
  · exact Or.inl h
  · exact Or.inr h
  · obtain ⟨q, h1, h2⟩ := Q.meet h hq
    exact absurd h1 (Nat.not_lt.mpr h2)

end Rounds

end EpochLog
