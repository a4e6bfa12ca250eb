/-
  EPOCH LOGS: a leader-per-term replicated log, as an abstract transition system.

  Nothing here mentions a program.  A fixed set of nodes `N` share logs of entries `Entry D`; time
  is cut into TERMS, a term has at most one LEADER, and only the leader of a term writes entries of
  that term.  The state records, besides the logs themselves, the HISTORY a safety argument needs:

  * `termLog T`    — the whole log of the leader of term `T`, which only ever grows;
  * `base T`       — its length when that leader was elected (what it inherited);
  * `voters T`     — the nodes whose votes elected it, each with the log `voteLog q T` it voted on;
  * `acked q T`    — the longest prefix of `termLog T` that node `q` confirmed during term `T`;
  * `commit T`     — the longest prefix of `termLog T` the leader of `T` declared committed;
  * `graft q`      — the length of the prefix `q` last received as a SNAPSHOT.

  The steps are deliberately SMALL — cut one entry off, push one entry on, record one vote — so that
  a handler of an implementation is a short sequence of them, and a handler that stops half way
  (an I/O error, a crash) is just a shorter sequence.

  Two departures from the textbook protocol are built in, because implementations make them:

  * commit quorums and vote quorums are two families (`Quorums`), required to MEET each other; the
    commit quorum need not be a strict majority;
  * a snapshot replaces a prefix and keeps whatever suffix the node had (`Step.install`), even when
    that suffix does not continue the new prefix.  A log is then only consistent ABOVE its graft
    point, and the invariants are stated with that in mind.
-/
import Mathlib.Logic.Relation
import SqlDb.Lib.History

namespace EpochLog

/-! ## Agreement of two lists on a prefix -/

section Agree

variable {α : Type}

/-- `l` and `m` carry the same elements (or both none) at every position below `k`. -/
def Agree (l m : List α) (k : Nat) : Prop := ∀ j, j < k → l[j]? = m[j]?

theorem Agree.refl (l : List α) (k : Nat) : Agree l l k := fun _ _ => rfl

variable {l m : List α} {k : Nat}

theorem Agree.symm (h : Agree l m k) : Agree m l k :=
  fun j hj => (h j hj).symm

theorem Agree.trans {l m p : List α} (h : Agree l m k) (h' : Agree m p k) :
    Agree l p k := fun j hj => (h j hj).trans (h' j hj)

theorem Agree.mono {k k' : Nat} (h : Agree l m k) (hk : k' ≤ k) : Agree l m k' :=
  fun j hj => h j (Nat.lt_of_lt_of_le hj hk)

theorem agree_zero (l m : List α) : Agree l m 0 := fun _ hj => absurd hj (Nat.not_lt_zero _)

theorem Agree.length_le (h : Agree l m k) (hk : k ≤ m.length) : k ≤ l.length := by
  cases k with
  | zero => exact Nat.zero_le _
  | succ k =>
    have hl : l[k]? = some m[k] := by
      rw [h k (Nat.lt_succ_self k)]
      exact List.getElem?_eq_getElem hk
    exact lt_of_getElem? hl

theorem agree_append_left {l m r : List α} (h : Agree l m k) (hk : k ≤ l.length) :
    Agree (l ++ r) m k := fun j hj => by
  rw [List.getElem?_append_left (Nat.lt_of_lt_of_le hj hk)]
  exact h j hj

theorem agree_append_right {l m r : List α} (h : Agree l m k) (hk : k ≤ m.length) :
    Agree l (m ++ r) k := (agree_append_left h.symm hk).symm

/-- A prefix of a longer list agrees with it on its own length. -/
theorem agree_of_pre (h : l <+: m) : Agree m l l.length := by
  obtain ⟨r, rfl⟩ := h
  exact agree_append_left (Agree.refl l _) (Nat.le_refl _)

theorem Agree.of_pre {l m m' : List α} (h : Agree l m k) (hp : m <+: m')
    (hk : k ≤ m.length) : Agree l m' k := by
  obtain ⟨r, rfl⟩ := hp
  exact agree_append_right h hk

theorem getElem?_of_pre (h : l <+: m) {p : Nat} {e : α} (he : l[p]? = some e) : m[p]? = some e := by
  rw [agree_of_pre h p (lt_of_getElem? he)]
  exact he

theorem agree_take (l : List α) (k : Nat) : Agree (l.take k) l k := fun j hj => by
  rw [List.getElem?_take, if_pos hj]

theorem Agree.take {k i : Nat} (h : Agree l m k) (hk : k ≤ i) :
    Agree (l.take i) m k := ((agree_take l i).mono hk).trans h

end Agree

/-! ## Entries, logs and quorums -/

/-- A log entry: the term of the leader that created it, and its payload. -/
structure Entry (D : Type) where
  term : Nat
  data : D
deriving DecidableEq

/-- The term of the last entry, `0` for the empty log. -/
def lastTerm {D : Type} (l : List (Entry D)) : Nat := (l.getLast?.map Entry.term).getD 0

/-- The voter's comparison: the candidate's log `c` ends in a later term, or in the same term and
    is at least as long. -/
def UpToDate {D : Type} (c v : List (Entry D)) : Prop :=
  lastTerm v < lastTerm c ∨ (lastTerm v = lastTerm c ∧ v.length ≤ c.length)

theorem UpToDate.refl {D : Type} (l : List (Entry D)) : UpToDate l l :=
  Or.inr ⟨rfl, Nat.le_refl _⟩

theorem lastTerm_of_getElem? {D : Type} {l : List (Entry D)} {e : Entry D}
    (h : l[l.length - 1]? = some e) : lastTerm l = e.term := by
  rw [lastTerm, List.getLast?_eq_getElem?, h]
  rfl

@[simp] theorem lastTerm_nil {D : Type} : lastTerm ([] : List (Entry D)) = 0 := rfl

/-- Two families of node sets.  Every commit quorum meets every vote quorum, and two vote quorums
    meet; nothing is asked of two commit quorums. -/
structure Quorums (N : Type) where
  commit : (N → Prop) → Prop
  vote : (N → Prop) → Prop
  commit_mono : ∀ {A B : N → Prop}, (∀ n, A n → B n) → commit A → commit B
  meet : ∀ {A B : N → Prop}, commit A → vote B → ∃ n, A n ∧ B n
  vote_meet : ∀ {A B : N → Prop}, vote A → vote B → ∃ n, A n ∧ B n

/-! ## The state and its steps -/

/-- The abstract state: the nodes' terms and logs, and the history of elections, votes,
    acknowledgements, commits and heartbeat rounds. -/
structure State (N D : Type) where
  cur : N → Nat
  log : N → List (Entry D)
  graft : N → Nat
  vote : N → Nat → Option N
  voteLog : N → Nat → List (Entry D)
  cand : Nat → N → Option (List (Entry D))
  leader : Nat → Option N
  voters : Nat → N → Prop
  termLog : Nat → List (Entry D)
  base : Nat → Nat
  acked : N → Nat → Nat
  commit : Nat → Nat
  round : Nat → Nat
  seen : Nat → Nat → N → Nat

/-- Nothing has happened yet. -/
def State.init (N D : Type) : State N D where
  cur := fun _ => 0
  log := fun _ => []
  graft := fun _ => 0
  vote := fun _ _ => none
  voteLog := fun _ _ => []
  cand := fun _ _ => none
  leader := fun _ => none
  voters := fun _ _ => False
  termLog := fun _ => []
  base := fun _ => 0
  acked := fun _ _ => 0
  commit := fun _ => 0
  round := fun _ => 0
  seen := fun _ _ _ => 0

/-- Index `k` of the leader log of `T` is an entry of `T` itself and a commit quorum confirmed it. -/
def Committed {N D : Type} (Q : Quorums N) (s : State N D) (T k : Nat) : Prop :=
  1 ≤ k ∧ (∃ e, (s.termLog T)[k - 1]? = some e ∧ e.term = T) ∧ Q.commit fun q => k ≤ s.acked q T

section Steps

variable {N D : Type} [DecidableEq N] (s : State N D)

/-- `s.setCur n T` moves node `n` to term `T`. -/
def State.setCur (n : N) (T : Nat) : State N D :=
  { s with cur := fun m => if m = n then T else s.cur m }

/-- Record the vote of `q` for `c` in term `T`, on the log `q` has now. -/
def State.setVote (q : N) (T : Nat) (c : N) : State N D :=
  { s with
    vote := fun m U => if m = q ∧ U = T then some c else s.vote m U
    voteLog := fun m U => if m = q ∧ U = T then s.log q else s.voteLog m U }

/-- Replace the log of node `n`. -/
def State.setLog (n : N) (l : List (Entry D)) : State N D :=
  { s with log := fun m => if m = n then l else s.log m }

/-- Replace the leader log of term `T`. -/
def State.setTermLog (T : Nat) (l : List (Entry D)) : State N D :=
  { s with termLog := fun U => if U = T then l else s.termLog U }

/-- Raise the confirmed prefix of node `n` in term `T` to at least `k`. -/
def State.setAcked (n : N) (T k : Nat) : State N D :=
  { s with acked := fun m U => if m = n ∧ U = T then max (s.acked m U) k else s.acked m U }

/-- `n` becomes a candidate of its next term and votes for itself. -/
def State.campaign (n : N) : State N D :=
  let T := s.cur n + 1
  let s1 := (s.setCur n T).setVote n T n
  { s1 with cand := fun U m => if U = T ∧ m = n then some (s.log n) else s.cand U m }

/-- The entry `⟨T, d⟩` is pushed on the leader log of `T` and on the leader's own log. -/
def State.pushLeader (c : N) (T : Nat) (l : List (Entry D)) : State N D :=
  ((s.setTermLog T l).setLog c l).setAcked c T l.length

/-- `c` takes office in term `T` with the first entry `⟨T, d⟩`. -/
def State.elect (c : N) (T : Nat) (d : D) : State N D :=
  let s1 := s.pushLeader c T (s.log c ++ [⟨T, d⟩])
  { s1 with
    leader := fun U => if U = T then some c else s.leader U
    voters := fun U q => if U = T then s.vote q T = some c else s.voters U q
    base := fun U => if U = T then (s.log c).length else s.base U }

/-- Raise the committed prefix of term `T` to `k`. -/
def State.setCommit (T k : Nat) : State N D :=
  { s with commit := fun U => if U = T then k else s.commit U }

/-- The snapshot step: the first `b` entries of `termLog v` replace the first `b` of `q`. -/
def State.install (q : N) (v b : Nat) : State N D :=
  let s1 := s.setLog q ((s.termLog v).take b ++ (s.log q).drop b)
  { s1 with graft := fun m => if m = q then b else s.graft m }

/-- Start heartbeat round `round T + 1`, remembering every node's term at that moment. -/
def State.newRound (T : Nat) : State N D :=
  { s with
    round := fun U => if U = T then s.round T + 1 else s.round U
    seen := fun U r q => if U = T ∧ r = s.round T + 1 then s.cur q else s.seen U r q }

/-- The log of `q` goes on from the first `b` entries of `termLog v`: it ends there, or holds an
    entry of the same term at that place. -/
def Joins (q : N) (v b : Nat) : Prop :=
  (s.log q).length ≤ b ∨ ∃ e f, (s.log q)[b - 1]? = some e ∧ (s.termLog v)[b - 1]? = some f ∧
    e.term = f.term

/-- The steps node `n` can take.  Each names exactly what it needs to know.  Under `J` a snapshot is
    only put under a log that goes on from it. -/
inductive Step (J : Prop) (Q : Quorums N) (n : N) : State N D → State N D → Prop
  | advance (s : State N D) (T : Nat) (h : s.cur n < T) : Step J Q n s (s.setCur n T)
  | campaign (s : State N D) : Step J Q n s (s.campaign n)
  | grant (s : State N D) (c : N) (l : List (Entry D)) (hnone : s.vote n (s.cur n) = none)
      (hc : s.cand (s.cur n) c = some l) (hup : UpToDate l (s.log n)) :
      Step J Q n s (s.setVote n (s.cur n) c)
  | elect (s : State N D) (d : D) (hc : s.cand (s.cur n) n = some (s.log n))
      (hnone : s.leader (s.cur n) = none) (hq : Q.vote fun q => s.vote q (s.cur n) = some n) :
      Step J Q n s (s.elect n (s.cur n) d)
  | push (s : State N D) (d : D) (hl : s.leader (s.cur n) = some n)
      (hlog : s.log n = s.termLog (s.cur n)) :
      Step J Q n s (s.pushLeader n (s.cur n) (s.log n ++ [⟨s.cur n, d⟩]))
  | truncate (s : State N D) (i : Nat) (e f : Entry D) (he : (s.log n)[i]? = some e)
      (hf : (s.termLog (s.cur n))[i]? = some f) (hne : e.term ≠ f.term) (hg : s.graft n ≤ i) :
      Step J Q n s (s.setLog n ((s.log n).take i))
  | extend (s : State N D) (e : Entry D)
      (hm : Agree (s.log n) (s.termLog (s.cur n)) (s.log n).length)
      (he : (s.termLog (s.cur n))[(s.log n).length]? = some e) :
      Step J Q n s (s.setLog n (s.log n ++ [e]))
  | ack (s : State N D) (k : Nat) (hk : k ≤ (s.termLog (s.cur n)).length)
      (hm : Agree (s.log n) (s.termLog (s.cur n)) k)
      (hs : ∀ f, (s.termLog (s.cur n))[k - 1]? = some f → f.term = s.cur n →
        ∀ j e, k ≤ j → (s.log n)[j]? = some e → s.cur n ≤ e.term) :
      Step J Q n s (s.setAcked n (s.cur n) k)
  | commit (s : State N D) (k : Nat) (hl : s.leader (s.cur n) = some n)
      (hc : Committed Q s (s.cur n) k) (hk : s.commit (s.cur n) ≤ k) :
      Step J Q n s (s.setCommit (s.cur n) k)
  | install (s : State N D) (v b : Nat) (hv : v ≤ s.cur n) (hb : b ≤ s.commit v)
      (hg : s.graft n ≤ b) (hj : J → Joins s n v b) : Step J Q n s (s.install n v b)
  | newRound (s : State N D) (hl : s.leader (s.cur n) = some n) :
      Step J Q n s (s.newRound (s.cur n))

end Steps

end EpochLog
