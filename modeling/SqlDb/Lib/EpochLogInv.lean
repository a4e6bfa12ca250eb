/-
  EPOCH LOGS: the invariant, and leader completeness as a consequence of it.

  The whole argument rests on ONE structural fact, `Inv.tree`: in a leader log, everything up to an
  entry of term `t` is a prefix of `termLog t`.  Sortedness of terms, log matching and uniqueness of
  an entry by (index, term) all read off it.

  Leader completeness (`leader_complete`) is not carried through the steps: it is DERIVED at every
  state, by strong induction on the term, from what voters retained (`Inv.retVote`).  What makes
  that provable step by step is the escape clause `Esc`: a node that confirmed a prefix still holds
  it UNLESS some later leader was elected without it — a statement that mentions no commit and no
  quorum, and that leader completeness then shows to be void.
-/
import SqlDb.Lib.EpochLog

namespace EpochLog

variable {N D : Type}

/-! ## What a log retains of a confirmed prefix -/

/-- `l` still holds the first `k` entries of `termLog v`, and above them only entries of terms that
    are at least `v`.  The second half is what a voter's last term depends on. -/
def Ret (s : State N D) (l : List (Entry D)) (v k : Nat) : Prop :=
  Agree l (s.termLog v) k ∧ ∀ j e, k ≤ j → l[j]? = some e → v ≤ e.term

/-- Some leader of a term in `(v, B]` was elected without the first `k` entries of `termLog v`. -/
def Esc (s : State N D) (v k B : Nat) : Prop :=
  ∃ u, v < u ∧ u ≤ B ∧ s.leader u ≠ none ∧ ¬ Agree (s.termLog u) (s.termLog v) k

/-- `k` is an index of the leader log of `v` that holds an entry of term `v`. -/
def OwnEntry (s : State N D) (v k : Nat) : Prop :=
  1 ≤ k ∧ ∃ e, (s.termLog v)[k - 1]? = some e ∧ e.term = v

/-! ## The invariant -/

/-- Everything up to an entry of term `t` is a prefix of the leader log of `t`. -/
def Tree (s : State N D) : Prop :=
  ∀ T p e, (s.termLog T)[p]? = some e →
    e.term ≤ T ∧ Agree (s.termLog T) (s.termLog e.term) (p + 1)

/-- The invariant of every reachable state. -/
structure Inv (Q : Quorums N) (s : State N D) : Prop where
  tree : Tree s
  /-- Only elected leaders write. -/
  led : ∀ T, s.termLog T ≠ [] → s.leader T ≠ none
  /-- A leader writes an entry of its own term right after what it inherited. -/
  own : ∀ T, s.leader T ≠ none → ∃ e, (s.termLog T)[s.base T]? = some e ∧ e.term = T
  /-- What a leader inherited is of earlier terms. -/
  inherited : ∀ T p e, (s.termLog T)[p]? = some e → p < s.base T → e.term < T
  /-- A leader was elected by a vote quorum, on the log it then had. -/
  elected : ∀ T c, s.leader T = some c → Q.vote (s.voters T) ∧
    (∀ q, s.voters T q → s.vote q T = some c) ∧
    s.cand T c = some ((s.termLog T).take (s.base T))
  /-- A vote that counts was given on a log no more up to date than the candidate's. -/
  voteOk : ∀ q T c, s.vote q T = some c → (s.leader T = none ∨ s.voters T q) →
    ∃ l, s.cand T c = some l ∧ UpToDate l (s.voteLog q T)
  leader_pos : s.leader 0 = none
  cand_pos : ∀ c, s.cand 0 c = none
  leader_cur : ∀ T c, s.leader T = some c → T ≤ s.cur c
  vote_cur : ∀ q T c, s.vote q T = some c → T ≤ s.cur q
  cand_cur : ∀ T c l, s.cand T c = some l → T ≤ s.cur c
  acked_cur : ∀ q v, 0 < s.acked q v → v ≤ s.cur q
  acked_len : ∀ q v, s.acked q v ≤ (s.termLog v).length
  log_cur : ∀ q (j : Nat) e, (s.log q)[j]? = some e → e.term ≤ s.cur q
  /-- Below its graft point a log is a committed prefix. -/
  graft : ∀ q, ∃ v, v ≤ s.cur q ∧ s.graft q ≤ s.commit v ∧
    Agree (s.log q) (s.termLog v) (s.graft q)
  /-- Above its graft point a log follows the leader log of each of its entries. -/
  seg : ∀ q p e, s.graft q ≤ p → (s.log q)[p]? = some e →
    ∀ i, s.graft q ≤ i → i ≤ p → (s.log q)[i]? = (s.termLog e.term)[i]?
  committed : ∀ v, s.commit v = 0 ∨ Committed Q s v (s.commit v)
  /-- A confirmed prefix is retained, or a later leader was elected without it. -/
  ret : ∀ q v k, OwnEntry s v k → k ≤ s.acked q v → Ret s (s.log q) v k ∨ Esc s v k (s.cur q)
  /-- The same at the moment of a vote that counts, with the voted term excluded. -/
  retVote : ∀ q T c, s.vote q T = some c → (s.leader T = none ∨ s.voters T q) →
    ∀ v k, v < T → OwnEntry s v k → k ≤ s.acked q v →
    Ret s (s.voteLog q T) v k ∨ Esc s v k (T - 1)
  seen_mono : ∀ T r r' q, r ≤ r' → r' ≤ s.round T → s.seen T r q ≤ s.seen T r' q
  seen_cur : ∀ T r q, r ≤ s.round T → s.seen T r q ≤ s.cur q

/-! ## First consequences: sortedness, and comparing two logs at one entry -/

section Consequences

variable {Q : Quorums N} {s : State N D}

theorem termLog_some_of_leader (h : Inv Q s) {T p : Nat} {e : Entry D}
    (he : (s.termLog T)[p]? = some e) : s.leader T ≠ none :=
  h.led T fun h0 => by rw [h0] at he; simp at he

theorem termLog_of_none (h : Inv Q s) {T : Nat} (hl : s.leader T = none) : s.termLog T = [] := by
  by_contra hne
  exact h.led T hne hl

/-- Terms never decrease along a leader log. -/
theorem Tree.sorted (h : Tree s) {T i p : Nat} {e f : Entry D} (hip : i ≤ p)
    (he : (s.termLog T)[i]? = some e) (hf : (s.termLog T)[p]? = some f) : e.term ≤ f.term := by
  have hi : (s.termLog f.term)[i]? = some e := by
    rw [← (h T p f hf).2 i (by omega)]
    exact he
  exact (h f.term i e hi).1

/-- Everything from the entry of `T` at `k` on is of term `T`. -/
theorem Tree.own_of_le (h : Tree s) {T k j : Nat} (hk : OwnEntry s T k) (hj : k ≤ j + 1) {e : Entry D}
    (he : (s.termLog T)[j]? = some e) : e.term = T := by
  obtain ⟨h1, f, hf, hft⟩ := hk
  have hle : f.term ≤ e.term := h.sorted (by omega) hf he
  have hge := (h T j e he).1
  omega

/-- A retained prefix bounds the last term of the log from below. -/
theorem Ret.lastTerm_le {l : List (Entry D)} {v k : Nat} (hr : Ret s l v k) (hk : OwnEntry s v k) :
    v ≤ lastTerm l ∧ k ≤ l.length := by
  obtain ⟨h1, f, hf, hft⟩ := hk
  have hlen : k ≤ l.length := by
    have hlt := lt_of_getElem? hf
    exact hr.1.length_le (by omega)
  refine ⟨?_, hlen⟩
  have hlast : l[l.length - 1]? = some l[l.length - 1] := List.getElem?_eq_getElem (by omega)
  rw [lastTerm_of_getElem? hlast]
  rcases Nat.lt_or_ge (l.length - 1) k with hlt | hge
  · -- the last entry IS the confirmed one
    have hk1 : l.length - 1 = k - 1 := by omega
    have : l[l.length - 1]? = some f := by rw [hk1, hr.1 (k - 1) (by omega)]; exact hf
    rw [hlast] at this
    rw [Option.some.inj this]
    omega
  · exact hr.2 _ _ hge hlast

end Consequences

/-! ## Leader completeness -/

section LeaderComplete

variable {Q : Quorums N} {s : State N D}

/-- The voter the two quorums share: it confirmed `k` in term `v` and its vote for `u` counted. -/
theorem exists_shared_voter (h : Inv Q s) {v u c} (hc : Committed Q s v (s.commit v))
    (hl : s.leader u = some c) :
    ∃ q, s.commit v ≤ s.acked q v ∧ s.voters u q ∧ s.vote q u = some c := by
  obtain ⟨hq, hv, -⟩ := h.elected u c hl
  obtain ⟨q, hqa, hqv⟩ := Q.meet hc.2.2 hq
  exact ⟨q, hqa, hqv, hv q hqv⟩

theorem Committed.own {v k : Nat} (hc : Committed Q s v k) : OwnEntry s v k := ⟨hc.1, hc.2.1⟩

theorem commit_own (h : Inv Q s) {v k : Nat} (hk : k < s.commit v) :
    Committed Q s v (s.commit v) := by
  rcases h.committed v with h0 | h1
  · omega
  · exact h1

theorem commit_le_length (h : Inv Q s) (v : Nat) : s.commit v ≤ (s.termLog v).length := by
  rcases h.committed v with h0 | ⟨h1, ⟨e, he, -⟩, -⟩
  · omega
  · have := lt_of_getElem? he
    omega

theorem graft_le_length (h : Inv Q s) (q : N) : s.graft q ≤ (s.log q).length := by
  obtain ⟨v, -, hg, ha⟩ := h.graft q
  exact ha.length_le (Nat.le_trans hg (commit_le_length h v))

/-- What a leader inherited, when it is not empty: its last entry, read in the leader log of that
    entry's own term. -/
theorem base_last (h : Inv Q s) {u : Nat} (hl : s.leader u ≠ none)
    (hw : 0 < lastTerm ((s.termLog u).take (s.base u))) :
    ∃ e, (s.termLog u)[s.base u - 1]? = some e ∧ 1 ≤ s.base u ∧
      lastTerm ((s.termLog u).take (s.base u)) = e.term := by
  obtain ⟨f, hf, -⟩ := h.own u hl
  have hlt := lt_of_getElem? hf
  have hb : 1 ≤ s.base u := by
    rcases Nat.eq_zero_or_pos (s.base u) with h0 | h0
    · rw [h0] at hw; simp at hw
    · exact h0
  have hlen : ((s.termLog u).take (s.base u)).length = s.base u := by
    rw [List.length_take]; omega
  have hbl : s.base u - 1 < (s.termLog u).length := by omega
  have he : (s.termLog u)[s.base u - 1]? = some (s.termLog u)[s.base u - 1] :=
    List.getElem?_eq_getElem hbl
  refine ⟨_, he, hb, lastTerm_of_getElem? ?_⟩
  rw [hlen, agree_take (s.termLog u) (s.base u) (s.base u - 1) (by omega)]
  exact he

/-- **Leader completeness.**  Every leader of a later term holds what the leader of `v` committed. -/
theorem leader_complete (h : Inv Q s) : ∀ {u v : Nat}, v < u → s.leader u ≠ none →
    Agree (s.termLog u) (s.termLog v) (s.commit v) := by
  intro u
  -- strong induction on the later term: all leaders in between already hold the prefix
  induction u using Nat.strongRecOn with
  | ind u ih =>
    intro v hvu hl
    rcases h.committed v with h0 | hc
    · rw [h0]; exact agree_zero _ _
    obtain ⟨c, hlc⟩ := Option.ne_none_iff_exists'.mp hl
    obtain ⟨q, hqa, hqv, hvote⟩ := exists_shared_voter h hc hlc
    have hown := hc.own
    have hret : Ret s (s.voteLog q u) v (s.commit v) := by
      rcases h.retVote q u c hvote (Or.inr hqv) v _ hvu hown hqa with hr | ⟨w, hw1, hw2, hw3, hw4⟩
      · exact hr
      · exact absurd (ih w (by omega) hw1 hw3) hw4
    obtain ⟨hvt, hvl⟩ := hret.lastTerm_le hown
    obtain ⟨l, hl1, hup⟩ := h.voteOk q u c hvote (Or.inr hqv)
    have hbase := (h.elected u c hlc).2.2
    rw [hl1] at hbase
    obtain rfl : l = (s.termLog u).take (s.base u) := Option.some.inj hbase
    have hvpos : 0 < v := by
      rcases Nat.eq_zero_or_pos v with hv0 | hv0
      · obtain ⟨-, e, he, -⟩ := hown
        subst hv0
        exact absurd h.leader_pos (termLog_some_of_leader h he)
      · exact hv0
    have hlast : v ≤ lastTerm ((s.termLog u).take (s.base u)) := by
      rcases hup with hlt | ⟨heq, -⟩ <;> omega
    obtain ⟨e, he, hb, hlt⟩ := base_last h hl (by omega)
    have htree := (h.tree u _ e he).2
    rcases Nat.eq_or_lt_of_le hlast with heq | hgt
    · -- the inherited log ends in term `v` itself, and is at least as long as the voter's
      have hlen : s.commit v ≤ s.base u := by
        have hle : (s.voteLog q u).length ≤ ((s.termLog u).take (s.base u)).length := by
          rcases hup with hlt' | ⟨-, hle⟩
          · omega
          · exact hle
        rw [List.length_take] at hle
        omega
      rw [show e.term = v by omega] at htree
      exact htree.mono (by omega)
    · -- it ends in a term strictly between: that leader holds the prefix
      have hw : e.term < u := h.inherited u _ e he (by omega)
      have he' : (s.termLog e.term)[s.base u - 1]? = some e := by
        rw [← htree _ (by omega)]; exact he
      have hmid := ih e.term hw (v := v) (by omega) (termLog_some_of_leader h he')
      have hlen : s.commit v ≤ s.base u := by
        by_contra hcon
        have hpos : s.base u - 1 < s.commit v := by omega
        have hin : (s.termLog v)[s.base u - 1]? = some e := by
          rw [← hmid _ hpos]; exact he'
        have := (h.tree v _ e hin).1
        omega
      exact (htree.mono (by omega)).trans hmid

/-- Committed prefixes are comparable: any two agree as far as both reach. -/
theorem commit_agree (h : Inv Q s) {v w k : Nat} (hv : k ≤ s.commit v) (hw : k ≤ s.commit w) :
    Agree (s.termLog v) (s.termLog w) k := by
  have key : ∀ {a b : Nat}, a < b → k ≤ s.commit a → k ≤ s.commit b →
      Agree (s.termLog b) (s.termLog a) k := by
    intro a b hab ha hb
    rcases Nat.eq_zero_or_pos k with h0 | h0
    · rw [h0]; exact agree_zero _ _
    · obtain ⟨-, e, he, -⟩ := (commit_own h (Nat.lt_of_lt_of_le h0 hb)).own
      exact (leader_complete h hab (termLog_some_of_leader h he)).mono ha
  rcases Nat.lt_trichotomy v w with hlt | heq | hgt
  · exact (key hlt hv hw).symm
  · rw [heq]; exact Agree.refl _ _
  · exact key hgt hw hv

/-- What was committed in a term up to `T` is held by the leader of `T`. -/
theorem leader_holds (h : Inv Q s) {v T : Nat} (hvT : v ≤ T) (hl : s.leader T ≠ none) :
    Agree (s.termLog T) (s.termLog v) (s.commit v) := by
  rcases Nat.eq_or_lt_of_le hvT with heq | hlt
  · rw [heq]; exact Agree.refl _ _
  · exact leader_complete h hlt hl

end LeaderComplete

end EpochLog
