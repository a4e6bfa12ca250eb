/-
  LOG MATCHING — and the one step that breaks it.

  `LogMatching` compares the logs of a group as their stores answer: two entries with one index and
  term carry the same data, and below them the logs agree wherever both still hold an entry (at the
  snapshot boundary only the term is held); along each log the terms never decrease.

  It is NOT an invariant.  `install_snapshot` drops the entries the snapshot covers and keeps
  whatever lies above them, without asking whether those entries continue the snapshot.  A deposed
  leader with a long uncommitted suffix that receives a shorter snapshot ends up with
  "committed prefix, then leftovers of a lost term" (`seam_breaks_log_matching`).

  It IS an invariant of every run in which each snapshot is installed under a log that goes on from
  it: a log that ends at or below the boundary, or holds the boundary's term there
  (`log_matching_of_joins`).
-/
import SqlDb.Raft.Safety

namespace SqlDb.Raft

open EpochLog RaftNode

variable {σ : Type} {g : Group} {a : History}

/-- The entry a node holds at index `i`, or the term it remembers there. -/
def World.HasEntry (w : World σ) (n : NodeId) (i : Nat) (e : LogEntry) : Prop :=
  (w.nodes n).logStore.entryAt i = .ok e

/-- Two nodes hold the same at index `i`: the same term, and the same data unless one of them has
    only the term left. -/
def World.AgreeAt (w : World σ) (n m : NodeId) (i : Nat) (e f : LogEntry) : Prop :=
  e.term = f.term ∧
    ((w.nodes n).lastIncludedIndex < i → (w.nodes m).lastIncludedIndex < i → e.data = f.data)

structure LogMatching (g : Group) (w : World σ) : Prop where
  /-- Equal index and term determine the entry and everything below it. -/
  agree : ∀ n ∈ g.peers, ∀ m ∈ g.peers, ∀ i e f, w.HasEntry n i e → w.HasEntry m i f →
    e.term = f.term → w.AgreeAt n m i e f ∧
      ∀ j e' f', j < i → w.HasEntry n j e' → w.HasEntry m j f' → w.AgreeAt n m j e' f'
  /-- Terms never decrease along a log. -/
  sorted : ∀ n ∈ g.peers, ∀ i j e f, i ≤ j → w.HasEntry n i e → w.HasEntry n j f → e.term ≤ f.term

/-! ## Seamless logs match -/

/-- Logs that agree beyond `i` are answered alike at `i`. -/
theorem agreeAt_of_agree {w : World σ} {n m : NodeId} (hn : NodeOk g a n (w.nodes n))
    (hm : NodeOk g a m (w.nodes m)) {i k : Nat} {e f : LogEntry} (hik : i ≤ k) (he : w.HasEntry n i e)
    (hf : w.HasEntry m i f) (hagree : Agree (a.log n) (a.log m) k) : w.AgreeAt n m i e f := by
  have h0 := (hn.wf.entryAt_range he).1
  obtain ⟨e', he', ht, hd⟩ := hn.log.entry i e he
  obtain ⟨f', hf', ht', hd'⟩ := hm.log.entry i f hf
  rw [hagree _ (by omega), hf'] at he'
  cases he'
  constructor
  · rw [ht, ht']
  · intro hlt hlt'
    rw [hd hlt, hd' hlt']

theorem logMatching_of_seamless {w : World σ} (h : Sim g a w) (hs : Seamless a) :
    LogMatching g w := by
  constructor
  · intro n hn m hm i e f he hf hterm
    have hon := h.node n hn
    have hom := h.node m hm
    have h0 := (hon.wf.entryAt_range he).1
    obtain ⟨e', he', ht, -⟩ := hon.log.entry i e he
    obtain ⟨f', hf', ht', -⟩ := hom.log.entry i f hf
    have hagree := hs.agree he' hf' (by rw [← ht, ← ht', hterm])
    constructor
    · exact agreeAt_of_agree hon hom (by omega) he hf hagree
    · intro j e'' f'' hj hej hfj
      exact agreeAt_of_agree hon hom (by omega) hej hfj hagree
  · intro n hn i j e f hij he hf
    have hon := h.node n hn
    have h0 := (hon.wf.entryAt_range he).1
    obtain ⟨e', he', ht, -⟩ := hon.log.entry i e he
    obtain ⟨f', hf', ht', -⟩ := hon.log.entry j f hf
    -- up to its entry `f'`, the log is a prefix of a leader log, and those are sorted
    have hpre := hs n _ f' hf'
    rw [hpre _ (by omega)] at he'
    rw [hpre _ (by omega)] at hf'
    rw [ht, ht']
    exact h.inv.tree.sorted (by omega) he' hf'

variable [StateMachine σ]

/-- **Log matching** holds in every state of every run that installs snapshots only under logs that
    go on from them. -/
theorem log_matching_of_joins (g : Group) (machine : NodeId → σ) (inputs : List (Input σ))
    (hjoin : joinsThroughout g (World.init g machine) inputs = true) :
    LogMatching g (World.run g machine inputs) := by
  have hinit : Seamless (State.init NodeId Bytes) := by
    intro q p e he
    simp [State.init] at he
  obtain ⟨a, h, -, hs⟩ := World.run_rule (J := True) (P := fun a _ => Seamless a) machine hinit
    (fun a a' m w w' h hs _ hr _ => hr.seamless h.inv hs) inputs (fun _ => hjoin)
  exact logMatching_of_seamless h hs

/-- Three nodes that compact their logs as soon as two entries are applied. -/
def compactingTrio : Group := Group.uniform [1, 2, 3] 2 trio_nodup trio_pos

/-- Node 1 leads in term 1 and stores two proposals nobody else hears of; node 2 leads in term 2,
    commits two entries with node 3, compacts its log and sends node 1 the snapshot. -/
def seam : List (Input NullMachine) :=
  [.tick 1 5000, .deliver 0, .deliver 2, .propose 1 [97], .propose 1 [98], .tick 2 20000,
    .deliver 10, .deliver 11, .propose 2 [120], .deliver 15, .deliver 16, .tick 2 20200,
    .tick 2 20400, .deliver 22]

/-- The same without the two proposals: the log of node 1 ends below the snapshot. -/
def joined : List (Input NullMachine) :=
  [.tick 1 5000, .deliver 0, .deliver 2, .tick 2 20000, .deliver 6, .deliver 7, .propose 2 [120],
    .deliver 11, .deliver 12, .tick 2 20200, .tick 2 20400, .deliver 18]

theorem log_matching_of_joins_joined :
    ((World.run compactingTrio nullMachines joined).nodes 1).lastIncludedIndex = 2 ∧
    LogMatching compactingTrio (World.run compactingTrio nullMachines joined) := by
  have hjoin : joinsThroughout compactingTrio (World.init compactingTrio nullMachines) joined
      = true := by
    decide +kernel
  constructor
  · decide +kernel
  · exact log_matching_of_joins compactingTrio nullMachines joined hjoin

/-- After `seam` node 1 holds the term 2 at index 2, its snapshot boundary, and an entry of term 1
    at index 3. -/
theorem seam_breaks_log_matching :
    ¬ LogMatching compactingTrio (World.run compactingTrio nullMachines seam) := by
  intro h
  have h2 : (World.run compactingTrio nullMachines seam).HasEntry 1 2 ⟨2, 2, []⟩ := by
    unfold World.HasEntry
    decide +kernel
  have h3 : (World.run compactingTrio nullMachines seam).HasEntry 1 3 ⟨3, 1, [98]⟩ := by
    unfold World.HasEntry
    decide +kernel
  exact absurd (h.sorted 1 (by decide) 2 3 _ _ (by decide) h2 h3) (by decide)

end SqlDb.Raft
