/-
  EPOCH LOGS: every step keeps the invariant.

  One lemma per step.  The steps that write no leader log leave most of `Inv` untouched, and Lean
  sees that by itself (the fields are DEFINITIONALLY the old ones); what remains in each case is the
  part of the argument that is about that step.  The two that do write one (`elect`, `push`) share
  `Grow`: a leader log only gains entries of its own term, so what was retained stays retained, and
  a leader that had missed a prefix never acquires it.
-/
import SqlDb.Lib.EpochLogInv

namespace EpochLog

open List

variable {N D : Type} {Q : Quorums N} {s : State N D} {n : N}

/-! ## Growing leader logs -/

/-- From `s` to `s'` leaders stay, and the log of an elected leader gains only entries of its own
    term. -/
structure Grow (s s' : State N D) : Prop where
  leader : ∀ T c, s.leader T = some c → s'.leader T = some c
  pre : ∀ T, s.termLog T <+: s'.termLog T
  own : ∀ T, s.leader T ≠ none → ∀ (p : Nat) e, (s.termLog T).length ≤ p →
    (s'.termLog T)[p]? = some e → e.term = T

variable {l : List (Entry D)}

theorem Ret.grow {s' : State N D} (hg : Grow s s') {v k : Nat}
    (hr : Ret s l v k) (hk : k ≤ (s.termLog v).length) : Ret s' l v k :=
  ⟨hr.1.of_pre (hg.pre v) hk, hr.2⟩

theorem Esc.grow {s' : State N D} (hg : Grow s s') (h : Inv Q s) {v k B : Nat} (he : Esc s v k B)
    (hk : k ≤ (s.termLog v).length) : Esc s' v k B := by
  obtain ⟨u, hvu, huB, hl, hna⟩ := he
  obtain ⟨c, hc⟩ := Option.ne_none_iff_exists'.mp hl
  refine ⟨u, hvu, huB, by rw [hg.leader u c hc]; simp, fun hag => hna fun j hj => ?_⟩
  have hv : (s'.termLog v)[j]? = (s.termLog v)[j]? :=
    agree_of_pre (hg.pre v) j (by omega)
  have hj' := hag j hj
  rw [hv] at hj'
  rcases Nat.lt_or_ge j (s.termLog u).length with hlt | hge
  · rw [← agree_of_pre (hg.pre u) j hlt]
    exact hj'
  · -- the new entry is of term `u`, the old one of a term at most `v`
    have hjv : j < (s.termLog v).length := by omega
    have hsome : (s.termLog v)[j]? = some (s.termLog v)[j] := getElem?_eq_getElem hjv
    rw [hsome] at hj'
    have h1 := hg.own u hl j _ hge hj'
    have h2 := (h.tree v j _ hsome).1
    omega

theorem OwnEntry.of_grow {s' : State N D} (hg : Grow s s') {v k : Nat} (ho : OwnEntry s' v k)
    (hk : k ≤ (s.termLog v).length) : OwnEntry s v k := by
  obtain ⟨h1, e, he, ht⟩ := ho
  refine ⟨h1, e, ?_, ht⟩
  rw [← agree_of_pre (hg.pre v) (k - 1) (by omega)]
  exact he

/-! ## Raising a term, campaigning, voting -/

section Terms

variable [DecidableEq N] (h : Inv Q s)
include h

theorem inv_advance {T : Nat} (hT : s.cur n < T) : Inv Q (s.setCur n T) := by
  have hcur : ∀ q, s.cur q ≤ (s.setCur n T).cur q := by
    intro q
    show s.cur q ≤ if q = n then T else s.cur q
    split
    · rename_i heq; subst heq; omega
    · exact Nat.le_refl _
  exact
  { h with
    leader_cur := fun U c hl => Nat.le_trans (h.leader_cur U c hl) (hcur c)
    vote_cur := fun q U c hv => Nat.le_trans (h.vote_cur q U c hv) (hcur q)
    cand_cur := fun U c l hc => Nat.le_trans (h.cand_cur U c l hc) (hcur c)
    acked_cur := fun q v ha => Nat.le_trans (h.acked_cur q v ha) (hcur q)
    log_cur := fun q j e he => Nat.le_trans (h.log_cur q j e he) (hcur q)
    graft := fun q => by
      obtain ⟨v, hv, hg, ha⟩ := h.graft q
      exact ⟨v, Nat.le_trans hv (hcur q), hg, ha⟩
    ret := fun q v k ho hk => by
      rcases h.ret q v k ho hk with hr | ⟨u, h1, h2, h3⟩
      · exact Or.inl hr
      · exact Or.inr ⟨u, h1, Nat.le_trans h2 (hcur q), h3⟩
    seen_cur := fun U r q hr => Nat.le_trans (h.seen_cur U r q hr) (hcur q) }

/-- A vote recorded where there was none, on a log that is retained. -/
theorem inv_setVote {c : N} {T : Nat} (hT : T ≤ s.cur n)
    (hnone : s.vote n T = none) (hc : s.cand T c = some l) (hup : UpToDate l (s.log n))
    (hret : s.leader T = none → ∀ v k, v < T → OwnEntry s v k → k ≤ s.acked n v →
      Ret s (s.log n) v k ∨ Esc s v k (T - 1)) : Inv Q (s.setVote n T c) := by
  have hvote : ∀ q U d, s.vote q U = some d → (s.setVote n T c).vote q U = some d := by
    intro q U d hv
    show (if q = n ∧ U = T then some c else s.vote q U) = some d
    rw [if_neg]
    · exact hv
    · rintro ⟨rfl, rfl⟩; rw [hnone] at hv; simp at hv
  -- a vote that counts for an elected leader was there before
  have hnew : ∀ q U, (s.leader U = none ∨ s.voters U q) → q = n → U = T → s.leader U = none := by
    rintro q U (hl | hv) rfl rfl
    · exact hl
    · by_contra hl
      obtain ⟨d, hd⟩ := Option.ne_none_iff_exists'.mp hl
      have := (h.elected U d hd).2.1 q hv
      rw [hnone] at this; simp at this
  exact
  { h with
    elected := fun U d hl => by
      obtain ⟨h1, h2, h3⟩ := h.elected U d hl
      exact ⟨h1, fun q hq => hvote q U d (h2 q hq), h3⟩
    voteOk := fun q U d hv hor => by
      by_cases hqU : q = n ∧ U = T
      · obtain ⟨rfl, rfl⟩ := hqU
        have hd : c = d := by simpa [State.setVote] using hv
        subst hd
        refine ⟨l, hc, ?_⟩
        simpa [State.setVote] using hup
      · have hv' : s.vote q U = some d := by simpa [State.setVote, hqU] using hv
        obtain ⟨l', h1, h2⟩ := h.voteOk q U d hv' hor
        exact ⟨l', h1, by simpa [State.setVote, hqU] using h2⟩
    vote_cur := fun q U d hv => by
      by_cases hqU : q = n ∧ U = T
      · obtain ⟨rfl, rfl⟩ := hqU; exact hT
      · exact h.vote_cur q U d (by simpa [State.setVote, hqU] using hv)
    retVote := fun q U d hv hor v k hvU ho hk => by
      by_cases hqU : q = n ∧ U = T
      · obtain ⟨rfl, rfl⟩ := hqU
        have hl := hnew q U hor rfl rfl
        have := hret hl v k hvU ho hk
        simpa [State.setVote, Ret, Esc] using this
      · have hv' : s.vote q U = some d := by simpa [State.setVote, hqU] using hv
        have := h.retVote q U d hv' hor v k hvU ho hk
        simpa [State.setVote, hqU, Ret, Esc] using this }

theorem inv_grant {c : N} (hnone : s.vote n (s.cur n) = none)
    (hc : s.cand (s.cur n) c = some l) (hup : UpToDate l (s.log n)) :
    Inv Q (s.setVote n (s.cur n) c) := by
  refine inv_setVote h (Nat.le_refl _) hnone hc hup fun hl v k hv ho hk => ?_
  rcases h.ret n v k ho hk with hr | ⟨u, h1, h2, h3, h4⟩
  · exact Or.inl hr
  · -- the escaping leader is not the one being voted on: that term has none yet
    have hne : u ≠ s.cur n := by rintro rfl; exact h3 hl
    exact Or.inr ⟨u, h1, by omega, h3, h4⟩

omit [DecidableEq N] in
/-- In the term after its own a node has not voted, and has not stood for election. -/
theorem Inv.next_term (n : N) :
    s.vote n (s.cur n + 1) = none ∧ s.cand (s.cur n + 1) n = none := by
  constructor
  · by_contra hv
    obtain ⟨c, hc⟩ := Option.ne_none_iff_exists'.mp hv
    exact absurd (h.vote_cur n _ c hc) (by omega)
  · by_contra hv
    obtain ⟨l, hl⟩ := Option.ne_none_iff_exists'.mp hv
    exact absurd (h.cand_cur _ n l hl) (by omega)

theorem inv_campaign : Inv Q (s.campaign n) := by
  obtain ⟨hnone, hcnone⟩ := h.next_term n
  have hadv := inv_advance (T := s.cur n + 1) h (Nat.lt_succ_self (s.cur n))
  -- register the candidacy first, then the vote for itself
  let s1 : State N D := { s.setCur n (s.cur n + 1) with
    cand := fun U m => if U = s.cur n + 1 ∧ m = n then some (s.log n) else s.cand U m }
  have hcand : ∀ U m l, s.cand U m = some l → s1.cand U m = some l := by
    intro U m l hl
    show (if U = s.cur n + 1 ∧ m = n then some (s.log n) else s.cand U m) = some l
    rw [if_neg]
    · exact hl
    · rintro ⟨rfl, rfl⟩; rw [hcnone] at hl; simp at hl
  have h1 : Inv Q s1 :=
    { hadv with
      elected := fun U c hl => by
        obtain ⟨h1, h2, h3⟩ := h.elected U c hl
        exact ⟨h1, h2, hcand _ _ _ h3⟩
      voteOk := fun q U c hv hor => by
        obtain ⟨l, hl, hup⟩ := h.voteOk q U c hv hor
        exact ⟨l, hcand _ _ _ hl, hup⟩
      cand_cur := fun U m l hl => by
        by_cases hUm : U = s.cur n + 1 ∧ m = n
        · obtain ⟨rfl, rfl⟩ := hUm
          exact Nat.le_of_eq (if_pos rfl).symm
        · have hl' : s.cand U m = some l := by simpa [s1, hUm] using hl
          exact hadv.cand_cur U m l hl' }
  have hcur1 : s1.cur n = s.cur n + 1 := if_pos rfl
  refine inv_setVote (s := s1) (c := n) (T := s.cur n + 1) (l := s.log n) h1 (by omega) hnone ?_
    (UpToDate.refl _) ?_
  · show (if s.cur n + 1 = s.cur n + 1 ∧ n = n then some (s.log n) else _) = _
    simp
  · intro _ v k _ ho hk
    exact h.ret n v k ho hk

end Terms

/-! ## Taking office: an elected log is a prefix of a leader log -/

/-- The candidate's log ends in a term no earlier than any commit it was grafted on: otherwise the
    voter shared with that commit quorum would have refused. -/
theorem commit_le_lastTerm (h : Inv Q s) {T v : Nat} (hc : s.cand T n = some (s.log n))
    (hnone : s.leader T = none) (hq : Q.vote fun q => s.vote q T = some n) (hv : v < T)
    (hcom : Committed Q s v (s.commit v)) : v ≤ lastTerm (s.log n) := by
  obtain ⟨q, hqa, hqv⟩ := Q.meet hcom.2.2 hq
  have hret : Ret s (s.voteLog q T) v (s.commit v) := by
    rcases h.retVote q T n hqv (Or.inl hnone) v _ hv hcom.own hqa with hr | ⟨u, h1, _, h3, h4⟩
    · exact hr
    · exact absurd (leader_complete h h1 h3) h4
  have hle := (hret.lastTerm_le hcom.own).1
  obtain ⟨l, hl, hup⟩ := h.voteOk q T n hqv (Or.inl hnone)
  rw [hc] at hl
  obtain rfl : s.log n = l := Option.some.inj hl
  rcases hup with hlt | ⟨heq, -⟩ <;> omega

/-- The log a node is elected on follows the leader logs all the way down, whatever was grafted
    under it. -/
theorem cand_good (h : Inv Q s) (hc : s.cand (s.cur n) n = some (s.log n))
    (hnone : s.leader (s.cur n) = none) (hq : Q.vote fun q => s.vote q (s.cur n) = some n) :
    ∀ p e, (s.log n)[p]? = some e →
      e.term < s.cur n ∧ Agree (s.log n) (s.termLog e.term) (p + 1) := by
  intro p e he
  have hp := lt_of_getElem? he
  have hled : ∀ T (i : Nat) f, T ≤ s.cur n → (s.termLog T)[i]? = some f → T < s.cur n := by
    intro T i f hT hf
    rcases Nat.eq_or_lt_of_le hT with heq | hlt
    · subst heq; exact absurd hnone (termLog_some_of_leader h hf)
    · exact hlt
  obtain ⟨f, hf⟩ : ∃ f, (s.log n)[(s.log n).length - 1]? = some f :=
    ⟨_, getElem?_eq_getElem (by omega)⟩
  have hw : lastTerm (s.log n) = f.term := lastTerm_of_getElem? hf
  -- the whole log is a prefix of the leader log of its last term
  have hall : f.term < s.cur n ∧ Agree (s.log n) (s.termLog f.term) (s.log n).length := by
    obtain ⟨v, hv, hgv, hga⟩ := h.graft n
    rcases Nat.lt_or_ge (s.graft n) (s.log n).length with hg | hg
    · have hseg := h.seg n _ f (by omega) hf
      have hin : (s.termLog f.term)[(s.log n).length - 1]? = some f := by
        rw [← hseg _ (by omega) (Nat.le_refl _)]; exact hf
      refine ⟨hled _ _ _ (h.log_cur n _ f hf) hin, fun i hi => ?_⟩
      rcases Nat.lt_or_ge i (s.graft n) with hlt | hge
      · have hcom := commit_own h (Nat.lt_of_lt_of_le hlt hgv)
        obtain ⟨-, g, hgl, -⟩ := hcom.own
        have hvT := hled v _ _ hv hgl
        have hvw := commit_le_lastTerm h hc hnone hq hvT hcom
        rw [hga i hlt]
        exact (leader_holds h (by omega) (termLog_some_of_leader h hin) i (by omega)).symm
      · exact hseg i hge (by omega)
    · have hin : (s.termLog v)[(s.log n).length - 1]? = some f := by
        rw [← hga _ (by omega)]; exact hf
      have ht := h.tree v _ f hin
      have hag : Agree (s.log n) (s.termLog f.term) (s.log n).length := by
        intro i hi
        rw [hga i (by omega)]
        exact ht.2 i (by omega)
      refine ⟨Nat.lt_of_le_of_lt ht.1 (hled v _ _ hv hin), hag⟩
  have hin : (s.termLog f.term)[p]? = some e := by rw [← hall.2 p hp]; exact he
  have ht := h.tree f.term p e hin
  exact ⟨by omega, (hall.2.mono (by omega)).trans ht.2⟩

/-- `s'` is `s` after node `c` pushed one entry of its term on the leader log and on its own. -/
structure Pushed [DecidableEq N] (s s' : State N D) (c : N) (d : D) : Prop where
  grow : Grow s s'
  termLog : ∀ U, s'.termLog U =
    if U = s.cur c then s.log c ++ [⟨s.cur c, d⟩] else s.termLog U
  log : ∀ m, s'.log m = if m = c then s.log c ++ [⟨s.cur c, d⟩] else s.log m
  acked : ∀ m U, s'.acked m U = if m = c ∧ U = s.cur c then
    max (s.acked m U) ((s.log c).length + 1) else s.acked m U
  cur : s'.cur = s.cur
  graft : s'.graft = s.graft
  commit : s'.commit = s.commit
  /-- What the leader had written so far is in its log. -/
  pre : s.termLog (s.cur c) <+: s.log c
  /-- What it inherited follows the older leader logs. -/
  good : ∀ (p : Nat) e, (s.log c)[p]? = some e → e.term ≠ s.cur c →
    e.term ≤ s.cur c ∧ Agree (s.log c) (s.termLog e.term) (p + 1)

section Push

variable [DecidableEq N] {s' : State N D} {c : N} {d : D}

section

variable (hp : Pushed s s' c d)
include hp

theorem Pushed.acked_old {q : N} {v : Nat} (hq : ¬ (q = c ∧ v = s.cur c)) :
    s'.acked q v = s.acked q v := by
  rw [hp.acked, if_neg hq]

theorem Pushed.acked_le (q : N) (v : Nat) : s.acked q v ≤ s'.acked q v := by
  rw [hp.acked]
  split
  · exact Nat.le_max_left _ _
  · exact Nat.le_refl _

variable (h : Inv Q s)
include h

theorem Pushed.tree : Tree s' := by
  intro U p e he
  rw [hp.termLog U] at he
  by_cases hU : U = s.cur c
  · rw [if_pos hU] at he
    rw [hp.termLog U, if_pos hU]
    rcases getElem?_snoc.mp he with hold | ⟨hpl, hex⟩
    · by_cases ht : e.term = s.cur c
      · rw [hp.termLog, if_pos ht]
        exact ⟨by omega, Agree.refl _ _⟩
      · obtain ⟨hle, hag⟩ := hp.good p e hold ht
        have hpl := lt_of_getElem? hold
        rw [hp.termLog, if_neg ht]
        exact ⟨by omega, agree_append_left hag hpl⟩
    · have ht : e.term = s.cur c := by rw [hex]
      rw [hp.termLog, if_pos ht]
      exact ⟨by omega, Agree.refl _ _⟩
  · rw [if_neg hU] at he
    obtain ⟨hle, hag⟩ := h.tree U p e he
    refine ⟨hle, ?_⟩
    rw [hp.termLog U, if_neg hU]
    refine hag.of_pre (hp.grow.pre _) ?_
    exact hag.symm.length_le (lt_of_getElem? he)

theorem Pushed.log_cur :
    ∀ q (j : Nat) e, (s'.log q)[j]? = some e → e.term ≤ s'.cur q := by
  intro q j e he
  rw [hp.cur]
  rw [hp.log] at he
  split_ifs at he with hq
  · subst hq
    rcases getElem?_snoc.mp he with hold | ⟨-, hex⟩
    · exact h.log_cur q j e hold
    · exact Nat.le_of_eq (by rw [hex])
  · exact h.log_cur q j e he

theorem Pushed.acked_cur :
    ∀ q v, 0 < s'.acked q v → v ≤ s'.cur q := by
  intro q v ha
  rw [hp.cur]
  by_cases hq : q = c ∧ v = s.cur c
  · obtain ⟨rfl, rfl⟩ := hq; exact Nat.le_refl _
  · rw [hp.acked_old hq] at ha
    exact h.acked_cur q v ha

theorem Pushed.acked_len :
    ∀ q v, s'.acked q v ≤ (s'.termLog v).length := by
  intro q v
  by_cases hq : q = c ∧ v = s.cur c
  · obtain ⟨rfl, rfl⟩ := hq
    have h1 := h.acked_len q (s.cur q)
    have h2 := (hp.pre).length_le
    rw [hp.acked, hp.termLog, if_pos ⟨rfl, rfl⟩, if_pos rfl, length_append,
      length_singleton]
    omega
  · rw [hp.acked_old hq]
    exact Nat.le_trans (h.acked_len q v) (hp.grow.pre v).length_le

theorem Pushed.graft_ok : ∀ q, ∃ v, v ≤ s'.cur q ∧
    s'.graft q ≤ s'.commit v ∧ Agree (s'.log q) (s'.termLog v) (s'.graft q) := by
  intro q
  obtain ⟨v, hv, hg, ha⟩ := h.graft q
  rw [hp.cur, hp.graft, hp.commit]
  refine ⟨v, hv, hg, ?_⟩
  have ha' : Agree (s.log q) (s'.termLog v) (s.graft q) :=
    ha.of_pre (hp.grow.pre v) (Nat.le_trans hg (commit_le_length h v))
  rw [hp.log]
  split_ifs with hq
  · subst hq
    exact agree_append_left ha' (graft_le_length h q)
  · exact ha'

theorem Pushed.seg : ∀ q (p : Nat) e, s'.graft q ≤ p →
    (s'.log q)[p]? = some e → ∀ i, s'.graft q ≤ i → i ≤ p →
    (s'.log q)[i]? = (s'.termLog e.term)[i]? := by
  intro q p e hgp he i hgi hip
  rw [hp.graft] at hgp hgi
  -- an entry that was there before
  have hold : ∀ m, (s.log m)[p]? = some e → s.graft m ≤ p → s.graft m ≤ i →
      (s.log m)[i]? = (s'.termLog e.term)[i]? := by
    intro m hm h1 h2
    rw [h.seg m p e h1 hm i h2 hip]
    have hlen : p < (s.termLog e.term).length := by
      have := h.seg m p e h1 hm p h1 (Nat.le_refl _)
      rw [hm] at this
      exact lt_of_getElem? this.symm
    exact (agree_of_pre (hp.grow.pre e.term) i (by omega)).symm
  rw [hp.log] at he ⊢
  split_ifs at he with hq
  · subst hq
    rw [if_pos rfl]
    by_cases ht : e.term = s.cur q
    · rw [hp.termLog, if_pos ht]
    · rcases getElem?_snoc.mp he with ho | ⟨-, hex⟩
      · have hpl := lt_of_getElem? ho
        rw [getElem?_append_left (by omega)]
        exact hold q ho hgp hgi
      · rw [hex] at ht; exact absurd rfl ht
  · rw [if_neg hq]
    exact hold q he hgp hgi

theorem Pushed.committed :
    ∀ v, s'.commit v = 0 ∨ Committed Q s' v (s'.commit v) := by
  intro v
  rw [hp.commit]
  rcases h.committed v with h0 | ⟨h1, ⟨e, he, ht⟩, hq⟩
  · exact Or.inl h0
  · refine Or.inr ⟨h1, ⟨e, getElem?_of_pre (hp.grow.pre v) he, ht⟩, ?_⟩
    exact Q.commit_mono (fun q hqa => Nat.le_trans hqa (hp.acked_le q v)) hq

theorem Pushed.ret : ∀ q v k, OwnEntry s' v k →
    k ≤ s'.acked q v → Ret s' (s'.log q) v k ∨ Esc s' v k (s'.cur q) := by
  intro q v k ho hk
  rw [hp.cur]
  by_cases hq : q = c ∧ v = s.cur c
  · -- the leader's own confirmation: its log is the leader log
    obtain ⟨rfl, rfl⟩ := hq
    have hlog : s'.log q = s'.termLog (s.cur q) := by rw [hp.log, hp.termLog, if_pos rfl, if_pos rfl]
    refine Or.inl ⟨by rw [hlog]; exact Agree.refl _ _, fun j e hj he => ?_⟩
    rw [hlog] at he
    exact Nat.le_of_eq ((hp.tree h).own_of_le ho (by omega) he).symm
  · rw [hp.acked_old hq] at hk
    have hlen : k ≤ (s.termLog v).length := Nat.le_trans hk (h.acked_len q v)
    rcases h.ret q v k (ho.of_grow hp.grow hlen) hk with hr | he
    · left
      rw [hp.log]
      split_ifs with hqc
      · subst hqc
        have hkl : k ≤ (s.log q).length := hr.1.length_le hlen
        refine Ret.grow hp.grow ⟨agree_append_left hr.1 hkl, fun j e hj he => ?_⟩ hlen
        rcases getElem?_snoc.mp he with hold | ⟨-, hex⟩
        · exact hr.2 j e hj hold
        · rw [hex]
          have hpos : 0 < s.acked q v := Nat.lt_of_lt_of_le ho.1 hk
          exact h.acked_cur q v hpos
      · exact hr.grow hp.grow hlen
    · exact Or.inr (he.grow hp.grow h hlen)

theorem Pushed.retVote {q : N} {T : Nat} {x : N}
    (hv : s.vote q T = some x) (hor : s.leader T = none ∨ s.voters T q) :
    ∀ v k, v < T → OwnEntry s' v k → k ≤ s'.acked q v →
      Ret s' (s.voteLog q T) v k ∨ Esc s' v k (T - 1) := by
  intro v k hvT ho hk
  have hq : ¬ (q = c ∧ v = s.cur c) := by
    rintro ⟨rfl, rfl⟩
    have := h.vote_cur q T x hv
    omega
  rw [hp.acked_old hq] at hk
  have hlen : k ≤ (s.termLog v).length := Nat.le_trans hk (h.acked_len q v)
  rcases h.retVote q T x hv hor v k hvT (ho.of_grow hp.grow hlen) hk with hr | he
  · exact Or.inl (hr.grow hp.grow hlen)
  · exact Or.inr (he.grow hp.grow h hlen)

end

/-- The leader of the current term pushes a new entry. -/
theorem pushed_push (h : Inv Q s) (hlog : s.log c = s.termLog (s.cur c)) :
    Pushed s (s.pushLeader c (s.cur c) (s.log c ++ [⟨s.cur c, d⟩])) c d where
  grow :=
    { leader := fun _ _ hT => hT
      pre := fun T => by
        show _ <+: if T = s.cur c then _ else _
        split
        · rename_i hT; rw [hT, ← hlog]; exact prefix_append _ _
        · exact prefix_rfl
      own := fun T _ p e hp he => by
        have he' : (if T = s.cur c then s.log c ++ [⟨s.cur c, d⟩] else s.termLog T)[p]? = some e := he
        split at he'
        · rename_i hT
          rcases getElem?_snoc.mp he' with hold | ⟨-, hex⟩
          · rw [hT, ← hlog] at hp
            have := lt_of_getElem? hold
            omega
          · rw [hex, hT]
        · have := lt_of_getElem? he'
          omega }
  termLog := fun _ => rfl
  log := fun _ => rfl
  acked := fun m U => by
    rw [← length_singleton (a := (⟨s.cur c, d⟩ : Entry D)), ← length_append]
    rfl
  cur := rfl
  graft := rfl
  commit := rfl
  pre := ⟨[], by rw [append_nil, hlog]⟩
  good := fun p e he _ => by rw [hlog] at he ⊢; exact h.tree _ p e he

theorem inv_push (h : Inv Q s) (hl : s.leader (s.cur c) = some c)
    (hlog : s.log c = s.termLog (s.cur c)) :
    Inv Q (s.pushLeader c (s.cur c) (s.log c ++ [⟨s.cur c, d⟩])) := by
  have hp : Pushed s (s.pushLeader c (s.cur c) (s.log c ++ [⟨s.cur c, d⟩])) c d :=
    pushed_push h hlog
  have hbase : ∀ T, s.leader T ≠ none → s.base T < (s.termLog T).length := by
    intro T hT
    obtain ⟨e, he, -⟩ := h.own T hT
    exact lt_of_getElem? he
  exact
  { h with
    tree := hp.tree h
    led := fun T hT => by
      by_cases hTc : T = s.cur c
      · rw [hTc]; exact fun h0 => by rw [show s.leader (s.cur c) = none from h0] at hl; simp at hl
      · rw [hp.termLog, if_neg hTc] at hT; exact h.led T hT
    own := fun T hT => by
      obtain ⟨e, he, ht⟩ := h.own T hT
      exact ⟨e, getElem?_of_pre (hp.grow.pre T) he, ht⟩
    inherited := fun T p e he hb => by
      have hT : s.leader T ≠ none := by
        by_cases hTc : T = s.cur c
        · rw [hTc, hl]; simp
        · rw [hp.termLog, if_neg hTc] at he; exact termLog_some_of_leader h he
      have hlt := hbase T hT
      have hb' : p < s.base T := hb
      rw [agree_of_pre (hp.grow.pre T) p (by omega)] at he
      exact h.inherited T p e he hb'
    elected := fun T x hx => by
      obtain ⟨h1, h2, h3⟩ := h.elected T x hx
      refine ⟨h1, h2, ?_⟩
      have hT : s.leader T ≠ none := by rw [show s.leader T = some x from hx]; simp
      have hlt := hbase T hT
      obtain ⟨r, hr⟩ := hp.grow.pre T
      rw [← hr, take_append_of_le_length (by exact Nat.le_of_lt hlt)]
      exact h3
    log_cur := hp.log_cur h
    acked_cur := hp.acked_cur h
    acked_len := hp.acked_len h
    graft := hp.graft_ok h
    seg := hp.seg h
    committed := hp.committed h
    ret := hp.ret h
    retVote := fun q T x hv hor => hp.retVote h hv hor }

/-- A candidate with a vote quorum takes office: the log it was elected on is good. -/
theorem pushed_elect (h : Inv Q s) (hc : s.cand (s.cur c) c = some (s.log c))
    (hnone : s.leader (s.cur c) = none) (hq : Q.vote fun q => s.vote q (s.cur c) = some c) :
    Pushed s (s.elect c (s.cur c) d) c d where
  grow :=
    { leader := fun T x hT => by
        show (if T = s.cur c then some c else s.leader T) = some x
        rw [if_neg]
        · exact hT
        · rintro rfl; rw [hnone] at hT; simp at hT
      pre := fun T => by
        show _ <+: if T = s.cur c then _ else _
        split_ifs with hT
        · rw [hT, termLog_of_none h hnone]; exact nil_prefix
        · exact prefix_rfl
      own := fun T hT p e hp he => by
        have hTc : T ≠ s.cur c := by rintro rfl; exact hT hnone
        have he' : (if T = s.cur c then s.log c ++ [⟨s.cur c, d⟩] else s.termLog T)[p]? = some e := he
        rw [if_neg hTc] at he'
        have := lt_of_getElem? he'
        omega }
  termLog := fun _ => rfl
  log := fun _ => rfl
  acked := fun m U => by
    rw [← length_singleton (a := (⟨s.cur c, d⟩ : Entry D)), ← length_append]
    rfl
  cur := rfl
  graft := rfl
  commit := rfl
  pre := by rw [termLog_of_none h hnone]; exact nil_prefix
  good := fun p e he _ => by
    obtain ⟨h1, h2⟩ := cand_good h hc hnone hq p e he
    exact ⟨Nat.le_of_lt h1, h2⟩

theorem inv_elect (h : Inv Q s) (hc : s.cand (s.cur c) c = some (s.log c))
    (hnone : s.leader (s.cur c) = none) (hq : Q.vote fun q => s.vote q (s.cur c) = some c) :
    Inv Q (s.elect c (s.cur c) d) := by
  have hp : Pushed s (s.elect c (s.cur c) d) c d := pushed_elect h hc hnone hq
  have hgood := cand_good h hc hnone hq
  have hTpos : s.cur c ≠ 0 := by
    intro h0; rw [h0, h.cand_pos] at hc; simp at hc
  -- votes that count after the election counted before it
  have hcount : ∀ q T, ((s.elect c (s.cur c) d).leader T = none ∨
      (s.elect c (s.cur c) d).voters T q) → s.leader T = none ∨ s.voters T q := by
    intro q T hor
    by_cases hT : T = s.cur c
    · rw [hT]; exact Or.inl hnone
    · simpa [State.elect, hT] using hor
  exact
  { h with
    tree := hp.tree h
    led := fun T hT => by
      by_cases hTc : T = s.cur c
      · simp [State.elect, hTc]
      · rw [hp.termLog, if_neg hTc] at hT
        simpa [State.elect, hTc] using h.led T hT
    own := fun T hT => by
      by_cases hTc : T = s.cur c
      · refine ⟨⟨s.cur c, d⟩, ?_, hTc.symm⟩
        rw [hp.termLog, if_pos hTc]
        simp [State.elect, hTc]
      · have hT' : s.leader T ≠ none := by simpa [State.elect, hTc] using hT
        obtain ⟨e, he, ht⟩ := h.own T hT'
        refine ⟨e, ?_, ht⟩
        rw [hp.termLog, if_neg hTc]
        simpa [State.elect, hTc] using he
    inherited := fun T p e he hb => by
      rw [hp.termLog] at he
      by_cases hTc : T = s.cur c
      · rw [if_pos hTc] at he
        have hb' : p < (s.log c).length := by simpa [State.elect, hTc] using hb
        rw [getElem?_append_left hb'] at he
        rw [hTc]
        exact (hgood p e he).1
      · rw [if_neg hTc] at he
        exact h.inherited T p e he (by simpa [State.elect, hTc] using hb)
    elected := fun T x hx => by
      rw [hp.termLog]
      by_cases hTc : T = s.cur c
      · have hcx : c = x := by simpa [State.elect, hTc] using hx
        subst hcx
        rw [if_pos hTc]
        refine ⟨?_, fun q hv => ?_, ?_⟩
        · have hvot : (s.elect c (s.cur c) d).voters T = fun q => s.vote q (s.cur c) = some c := by
            funext q; simp [State.elect, hTc]
          rw [hvot]; exact hq
        · have hv' : s.vote q (s.cur c) = some c := by simpa [State.elect, hTc] using hv
          rw [hTc]; exact hv'
        · have hb : (s.elect c (s.cur c) d).base T = (s.log c).length := by simp [State.elect, hTc]
          rw [hb, take_left, hTc]
          exact hc
      · have hx' : s.leader T = some x := by simpa [State.elect, hTc] using hx
        obtain ⟨h1, h2, h3⟩ := h.elected T x hx'
        have hvot : (s.elect c (s.cur c) d).voters T = s.voters T := by
          funext q; simp [State.elect, hTc]
        have hb : (s.elect c (s.cur c) d).base T = s.base T := by simp [State.elect, hTc]
        rw [hvot, hb, if_neg hTc]
        exact ⟨h1, h2, h3⟩
    voteOk := fun q T x hv hor => h.voteOk q T x hv (hcount q T hor)
    leader_pos := by
      simpa [State.elect, hTpos.symm] using h.leader_pos
    leader_cur := fun T x hx => by
      by_cases hTc : T = s.cur c
      · have hcx : c = x := by simpa [State.elect, hTc] using hx
        rw [hTc, hcx]; exact Nat.le_refl _
      · exact h.leader_cur T x (by simpa [State.elect, hTc] using hx)
    log_cur := hp.log_cur h
    acked_cur := hp.acked_cur h
    acked_len := hp.acked_len h
    graft := hp.graft_ok h
    seg := hp.seg h
    committed := hp.committed h
    ret := hp.ret h
    retVote := fun q T x hv hor => hp.retVote h hv (hcount q T hor) }

end Push

/-! ## A follower's log under its leader -/

/-- A retained prefix is held by the current leader too, or that leader escaped it. -/
theorem leader_agree_or_esc {v k T : Nat} (hv : v ≤ T) (hl : s.leader T ≠ none) :
    Agree (s.termLog T) (s.termLog v) k ∨ Esc s v k T := by
  by_cases hag : Agree (s.termLog T) (s.termLog v) k
  · exact Or.inl hag
  · refine Or.inr ⟨T, ?_, Nat.le_refl _, hl, hag⟩
    rcases Nat.eq_or_lt_of_le hv with heq | hlt
    · rw [heq] at hag; exact absurd (Agree.refl _ _) hag
    · exact hlt

section Follow

variable [DecidableEq N] (h : Inv Q s)
include h

/-- Node `n` gets the log `l` with its first `b` entries grafted on: what must be checked is the log
    itself and what it retains. -/
theorem inv_relog {b : Nat} (hcur : ∀ (j : Nat) e, l[j]? = some e → e.term ≤ s.cur n)
    (hgraft : ∃ v, v ≤ s.cur n ∧ b ≤ s.commit v ∧ Agree l (s.termLog v) b)
    (hseg : ∀ (p : Nat) e, b ≤ p → l[p]? = some e → ∀ i, b ≤ i → i ≤ p →
      l[i]? = (s.termLog e.term)[i]?)
    (hret : ∀ v k, OwnEntry s v k → k ≤ s.acked n v → Ret s (s.log n) v k →
      Ret s l v k ∨ Esc s v k (s.cur n)) :
    Inv Q { s.setLog n l with graft := fun q => if q = n then b else s.graft q } := by
  let s' : State N D := { s.setLog n l with graft := fun q => if q = n then b else s.graft q }
  have hlog : ∀ q, s'.log q = if q = n then l else s.log q := fun _ => rfl
  have hgr : ∀ q, s'.graft q = if q = n then b else s.graft q := fun _ => rfl
  exact
  { h with
    log_cur := fun q j e he => by
      rw [hlog] at he
      split at he
      · rename_i hq; subst hq; exact hcur j e he
      · exact h.log_cur q j e he
    graft := fun q => by
      rw [hgr, hlog]
      split
      · rename_i hq; subst hq; exact hgraft
      · exact h.graft q
    seg := fun q p e hgp he i hgi hip => by
      rw [hgr] at hgp hgi
      rw [hlog] at he ⊢
      by_cases hq : q = n
      · subst hq
        rw [if_pos rfl] at hgp hgi he ⊢
        exact hseg p e hgp he i hgi hip
      · rw [if_neg hq] at hgp hgi he ⊢
        exact h.seg q p e hgp he i hgi hip
    ret := fun q v k ho hk => by
      rw [hlog]
      rcases h.ret q v k ho hk with hr | he
      · split
        · rename_i hq; subst hq; exact hret v k ho hk hr
        · exact Or.inl hr
      · exact Or.inr he }

/-- A log change that keeps the graft. -/
theorem inv_setLog (hcur : ∀ (j : Nat) e, l[j]? = some e → e.term ≤ s.cur n)
    (hgraft : Agree l (s.log n) (s.graft n))
    (hseg : ∀ (p : Nat) e, s.graft n ≤ p → l[p]? = some e → ∀ i, s.graft n ≤ i → i ≤ p →
      l[i]? = (s.termLog e.term)[i]?)
    (hret : ∀ v k, OwnEntry s v k → k ≤ s.acked n v → Ret s (s.log n) v k →
      Ret s l v k ∨ Esc s v k (s.cur n)) : Inv Q (s.setLog n l) := by
  obtain ⟨v, hv, hg, ha⟩ := h.graft n
  have hnew := inv_relog h hcur ⟨v, hv, hg, hgraft.trans ha⟩ hseg hret
  have hsame : (fun q => if q = n then s.graft n else s.graft q) = s.graft := by
    funext q
    split
    · rename_i hq; rw [hq]
    · rfl
  rw [hsame] at hnew
  exact hnew

theorem inv_truncate {i : Nat} {e f : Entry D} (he : (s.log n)[i]? = some e)
    (hf : (s.termLog (s.cur n))[i]? = some f) (hne : e.term ≠ f.term) (hg : s.graft n ≤ i) :
    Inv Q (s.setLog n ((s.log n).take i)) := by
  have hsub : ∀ (j : Nat) x, ((s.log n).take i)[j]? = some x → j < i ∧ (s.log n)[j]? = some x := by
    intro j x hx
    rw [getElem?_take] at hx
    split at hx
    · exact ⟨by assumption, hx⟩
    · simp at hx
  refine inv_setLog h (fun j x hx => h.log_cur n j x (hsub j x hx).2)
    ((agree_take _ _).mono hg) ?_ ?_
  · intro p x hgp hx j hgj hjp
    obtain ⟨hpi, hx'⟩ := hsub p x hx
    rw [agree_take _ _ j (by omega)]
    exact h.seg n p x hgp hx' j hgj hjp
  · intro v k ho hk hr
    have hv : v ≤ s.cur n := h.acked_cur n v (Nat.lt_of_lt_of_le ho.1 hk)
    rcases leader_agree_or_esc (k := k) hv (termLog_some_of_leader h hf) with hag | hesc
    · -- the conflict lies above everything the leader also holds
      have hki : k ≤ i := by
        by_contra hcon
        have h1 := hr.1 i (by omega)
        rw [he, ← hag i (by omega), hf] at h1
        exact hne (by rw [Option.some.inj h1])
      refine Or.inl ⟨hr.1.take hki, fun j x hj hx => ?_⟩
      exact hr.2 j x hj (hsub j x hx).2
    · exact Or.inr hesc

theorem inv_extend {e : Entry D}
    (hm : Agree (s.log n) (s.termLog (s.cur n)) (s.log n).length)
    (he : (s.termLog (s.cur n))[(s.log n).length]? = some e) :
    Inv Q (s.setLog n (s.log n ++ [e])) := by
  have hte := h.tree _ _ e he
  refine inv_setLog h (fun j x hx => ?_) (agree_append_left (Agree.refl _ _) (graft_le_length h n))
    ?_ ?_
  · rcases getElem?_snoc.mp hx with hold | ⟨-, hex⟩
    · exact h.log_cur n j x hold
    · rw [hex]; exact hte.1
  · intro p x hgp hx j hgj hjp
    -- the extended log is a prefix of the leader log
    have hall : Agree (s.log n ++ [e]) (s.termLog (s.cur n)) ((s.log n).length + 1) := by
      intro i hi
      rcases Nat.lt_or_ge i (s.log n).length with hlt | hge
      · rw [getElem?_append_left hlt]; exact hm i hlt
      · obtain rfl : i = (s.log n).length := by omega
        rw [getElem?_concat_length]; exact he.symm
    have hp := lt_of_getElem? hx
    rw [length_append, length_singleton] at hp
    have hxl : (s.termLog (s.cur n))[p]? = some x := by rw [← hall p hp]; exact hx
    rw [hall j (by omega)]
    exact (h.tree _ p x hxl).2 j (by omega)
  · intro v k ho hk hr
    have hv : v ≤ s.cur n := h.acked_cur n v (Nat.lt_of_lt_of_le ho.1 hk)
    have hkl : k ≤ (s.log n).length :=
      hr.1.length_le (Nat.le_trans hk (h.acked_len n v))
    rcases leader_agree_or_esc (k := k) hv (termLog_some_of_leader h he) with hag | hesc
    · refine Or.inl ⟨agree_append_left hr.1 hkl, fun j x hj hx => ?_⟩
      rcases getElem?_snoc.mp hx with hold | ⟨hjl, hex⟩
      · exact hr.2 j x hj hold
      · obtain ⟨h1, y, hy, hyt⟩ := ho
        rw [← hag (k - 1) (by omega)] at hy
        have := h.tree.sorted (by omega) hy he
        rw [hex]; omega
    · exact Or.inr hesc

/-! ## Confirming, committing -/

theorem inv_ack {k : Nat} (hk : k ≤ (s.termLog (s.cur n)).length)
    (hm : Agree (s.log n) (s.termLog (s.cur n)) k)
    (hs : ∀ f, (s.termLog (s.cur n))[k - 1]? = some f → f.term = s.cur n →
      ∀ j e, k ≤ j → (s.log n)[j]? = some e → s.cur n ≤ e.term) :
    Inv Q (s.setAcked n (s.cur n) k) := by
  have hacked : ∀ q v, (s.setAcked n (s.cur n) k).acked q v =
      if q = n ∧ v = s.cur n then max (s.acked q v) k else s.acked q v := fun _ _ => rfl
  have hle : ∀ q v, s.acked q v ≤ (s.setAcked n (s.cur n) k).acked q v := by
    intro q v
    rw [hacked]
    split
    · exact Nat.le_max_left _ _
    · exact Nat.le_refl _
  exact
  { h with
    acked_cur := fun q v ha => by
      by_cases hq : q = n ∧ v = s.cur n
      · obtain ⟨rfl, rfl⟩ := hq; exact Nat.le_refl _
      · rw [hacked, if_neg hq] at ha
        exact h.acked_cur q v ha
    acked_len := fun q v => by
      have hold := h.acked_len q v
      rw [hacked]
      split_ifs with hq
      · obtain ⟨rfl, rfl⟩ := hq
        exact Nat.max_le.mpr ⟨hold, hk⟩
      · exact hold
    committed := fun v => by
      rcases h.committed v with h0 | ⟨h1, h2, hq⟩
      · exact Or.inl h0
      · exact Or.inr ⟨h1, h2, Q.commit_mono (fun q hqa => Nat.le_trans hqa (hle q v)) hq⟩
    ret := fun q v k' ho hk' => by
      by_cases hold : k' ≤ s.acked q v
      · exact h.ret q v k' ho hold
      · rw [hacked] at hk'
        split at hk'
        · rename_i hq
          obtain ⟨rfl, rfl⟩ := hq
          have hk'k : k' ≤ k := by omega
          refine Or.inl ⟨hm.mono hk'k, fun j e hj he => ?_⟩
          -- positions below `k` follow the leader, the rest is what the step checked
          rcases Nat.lt_or_ge j k with hjk | hjk
          · have he' : (s.termLog (s.cur q))[j]? = some e := by rw [← hm j hjk]; exact he
            exact Nat.le_of_eq (h.tree.own_of_le ho (by omega) he').symm
          · obtain ⟨f, hf⟩ : ∃ f, (s.termLog (s.cur q))[k - 1]? = some f :=
              ⟨_, getElem?_eq_getElem (by have := ho.1; omega)⟩
            exact hs f hf (h.tree.own_of_le ho (by omega) hf) j e hjk he
        · exact absurd hk' hold
    retVote := fun q T c hv hor v k' hvT ho hk' => by
      rw [hacked] at hk'
      split at hk'
      · rename_i hq
        obtain ⟨rfl, rfl⟩ := hq
        have := h.vote_cur q T c hv
        omega
      · exact h.retVote q T c hv hor v k' hvT ho hk' }

omit [DecidableEq N] in
theorem inv_commit {T k : Nat} (hc : Committed Q s T k) (hk : s.commit T ≤ k) :
    Inv Q (s.setCommit T k) := by
  have hle : ∀ v, s.commit v ≤ (s.setCommit T k).commit v := by
    intro v
    show s.commit v ≤ if v = T then k else s.commit v
    split
    · rename_i hv; rw [hv]; exact hk
    · exact Nat.le_refl _
  exact
  { h with
    graft := fun q => by
      obtain ⟨v, hv, hg, ha⟩ := h.graft q
      exact ⟨v, hv, Nat.le_trans hg (hle v), ha⟩
    committed := fun v => by
      show (if v = T then k else s.commit v) = 0 ∨ Committed Q s v (if v = T then k else s.commit v)
      split
      · rename_i hv; rw [hv]; exact Or.inr hc
      · exact h.committed v }

/-! ## Grafting a snapshot -/

omit [DecidableEq N] in
/-- What a confirmed prefix becomes when a committed prefix of `b` entries is put under the log. -/
theorem install_ret {v b w k : Nat} (hv : v ≤ s.cur n)
    (hb : b ≤ s.commit v) (ho : OwnEntry s w k) (hr : Ret s (s.log n) w k)
    (hlow : ∀ i, i < b → l[i]? = (s.termLog v)[i]?)
    (hhigh : ∀ i, b ≤ i → l[i]? = (s.log n)[i]?) : Ret s l w k ∨ Esc s w k (s.cur n) := by
  obtain ⟨hk1, y, hy, hyt⟩ := id ho
  -- where the new prefix and the confirmed one overlap, and what lies above the confirmed one
  have hcmp : ((∀ j, j < k → j < b → (s.termLog v)[j]? = (s.termLog w)[j]?) ∧
      ∀ j e, k ≤ j → j < b → (s.termLog v)[j]? = some e → w ≤ e.term) ∨ Esc s w k (s.cur n) := by
    rcases Nat.eq_zero_or_pos b with hb0 | hb0
    · exact Or.inl ⟨fun j _ hj => by omega, fun j _ _ hj => by omega⟩
    obtain ⟨-, z, hz, -⟩ := (commit_own h (Nat.lt_of_lt_of_le hb0 hb)).own
    have hlv := termLog_some_of_leader h hz
    rcases Nat.lt_or_ge v w with hlt | hge
    · have hag := (leader_complete h hlt (termLog_some_of_leader h hy)).mono hb
      refine Or.inl ⟨fun j _ hj => (hag j hj).symm, fun j e hkj hj he => ?_⟩
      rw [← hag j hj] at he
      exact Nat.le_of_eq (h.tree.own_of_le ho (by omega) he).symm
    · rcases leader_agree_or_esc (k := k) hge hlv with hag | ⟨u, h1, h2, h3⟩
      · refine Or.inl ⟨fun j hj _ => hag j hj, fun j e hkj _ he => ?_⟩
        rw [← hag (k - 1) (by omega)] at hy
        have := h.tree.sorted (by omega) hy he
        omega
      · exact Or.inr ⟨u, h1, Nat.le_trans h2 hv, h3⟩
  rcases hcmp with ⟨hc1, hc2⟩ | hesc
  · refine Or.inl ⟨fun j hj => ?_, fun j e hkj he => ?_⟩
    · rcases Nat.lt_or_ge j b with hjb | hjb
      · rw [hlow j hjb]; exact hc1 j hj hjb
      · rw [hhigh j hjb]; exact hr.1 j hj
    · rcases Nat.lt_or_ge j b with hjb | hjb
      · rw [hlow j hjb] at he; exact hc2 j e hkj hjb he
      · rw [hhigh j hjb] at he; exact hr.2 j e hkj he
  · exact Or.inr hesc

omit [DecidableEq N] in
/-- A committed prefix put under a log: what lies below the boundary, and above it. -/
theorem grafted {v b : Nat} (hb : b ≤ s.commit v) :
    Agree ((s.termLog v).take b ++ (s.log n).drop b) (s.termLog v) b ∧
      ∀ i, b ≤ i → ((s.termLog v).take b ++ (s.log n).drop b)[i]? = (s.log n)[i]? := by
  have hbl : b ≤ (s.termLog v).length := Nat.le_trans hb (commit_le_length h v)
  have hlen : ((s.termLog v).take b).length = b := by rw [length_take]; omega
  refine ⟨agree_append_left (agree_take _ _) (by omega), fun i hi => ?_⟩
  rw [getElem?_append_right (by omega), hlen, getElem?_drop]
  congr 1; omega

theorem inv_install {v b : Nat} (hv : v ≤ s.cur n) (hb : b ≤ s.commit v)
    (hg : s.graft n ≤ b) : Inv Q (s.install n v b) := by
  obtain ⟨hlow, hhigh⟩ := grafted h (n := n) hb
  refine inv_relog h (fun j e he => ?_) ⟨v, hv, hb, hlow⟩ (fun p e hgp he i hgi hip => ?_)
    fun w k ho _ hr => install_ret h hv hb ho hr hlow hhigh
  · rcases Nat.lt_or_ge j b with hlt | hge
    · rw [hlow j hlt] at he
      exact Nat.le_trans (h.tree v j e he).1 hv
    · rw [hhigh j hge] at he
      exact h.log_cur n j e he
  · rw [hhigh p hgp] at he
    rw [hhigh i hgi]
    exact h.seg n p e (by omega) he i (by omega) hip

/-! ## Heartbeat rounds -/

omit [DecidableEq N] in
theorem inv_newRound {T : Nat} : Inv Q (s.newRound T) := by
  have hround : ∀ U, (s.newRound T).round U = if U = T then s.round T + 1 else s.round U :=
    fun _ => rfl
  have hseen : ∀ U r q, (s.newRound T).seen U r q =
      if U = T ∧ r = s.round T + 1 then s.cur q else s.seen U r q := fun _ _ _ => rfl
  have hcur : ∀ U r q, r ≤ (s.newRound T).round U → (s.newRound T).seen U r q ≤ s.cur q := by
    intro U r q hr
    rw [hseen]
    split_ifs with hne
    · exact Nat.le_refl _
    · refine h.seen_cur U r q ?_
      rw [hround] at hr
      split at hr
      · rename_i hU; subst hU
        have : r ≠ s.round U + 1 := fun hr' => hne ⟨rfl, hr'⟩
        omega
      · exact hr
  exact
  { h with
    seen_mono := fun U r r' q hrr hr => by
      by_cases hnew : U = T ∧ r' = s.round T + 1
      · rw [hseen U r', if_pos hnew]
        exact hcur U r q (by omega)
      · rw [hseen U r', if_neg hnew, hseen, if_neg]
        · refine h.seen_mono U r r' q hrr ?_
          rw [hround] at hr
          split at hr
          · rename_i hU; subst hU
            have : r' ≠ s.round U + 1 := fun hr' => hnew ⟨rfl, hr'⟩
            omega
          · exact hr
        · rintro ⟨rfl, hr'⟩
          rw [hround, if_pos rfl] at hr
          exact hnew ⟨rfl, by omega⟩
    seen_cur := hcur }

end Follow

end EpochLog
