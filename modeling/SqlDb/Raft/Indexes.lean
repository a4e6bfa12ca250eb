/-
  THE INDEXES OF A NODE, over whole runs.

  Each handler moves its own indexes, some of them before and some after a write that can fail.
  `NodeStep.advances` says once what any step does to them, and from it:

    * at every moment, inside handlers too, the snapshot boundary, the applied, the committed and the
      last index are in this order, and the last index is the log store's (`IndexesInOrder`); the
      difference `maybe_compact_log` computes is one of a larger and a smaller number;
    * the term never decreases; the other indexes never decrease while the process lives (`NotAhead`),
      and a committed entry stays until the snapshot covers it.
-/
import SqlDb.Raft.Safety
import SqlDb.Raft.MachineStep

namespace SqlDb.Raft

open EpochLog RaftNode

variable {σ : Type} {J : Prop} {g : Group} {a : History}

namespace RaftNode

structure IndexesInOrder (x : RaftNode σ) : Prop where
  included_le : x.lastIncludedIndex ≤ x.lastApplied
  applied_le : x.lastApplied ≤ x.commitIndex
  commit_le : x.commitIndex ≤ x.lastLogIndex
  last : x.lastLogIndex = x.logStore.lastIndex

/-- No index of `x` is above that of `y`. -/
structure NotAhead (x y : RaftNode σ) : Prop where
  included : x.lastIncludedIndex ≤ y.lastIncludedIndex
  applied : x.lastApplied ≤ y.lastApplied
  commit : x.commitIndex ≤ y.commitIndex

theorem NotAhead.of_eq {x y : RaftNode σ} (h1 : y.lastIncludedIndex = x.lastIncludedIndex)
    (h2 : y.lastApplied = x.lastApplied) (h3 : y.commitIndex = x.commitIndex) : NotAhead x y :=
  ⟨h1.ge, h2.ge, h3.ge⟩

theorem NotAhead.trans {x y z : RaftNode σ} (h : NotAhead x y) (h' : NotAhead y z) : NotAhead x z :=
  ⟨h.included.trans h'.included, h.applied.trans h'.applied,
    h.commit.trans h'.commit⟩

theorem NodeStep.advances [StateMachine σ] {inp : Option (NodeId × Message)} {x y : RaftNode σ}
    (hs : NodeStep J inp x y) (hw : Wf x) (hc : x.commitIndex ≤ x.lastLogIndex) :
    x.hardState.term ≤ y.hardState.term ∧ NotAhead x y := by
  have relinquished : ∀ li (z : RaftNode σ), z.lastIncludedIndex = x.lastIncludedIndex →
      z.lastApplied = x.lastApplied → z.commitIndex = x.commitIndex →
      x.hardState.term ≤ z.hardState.term →
      x.hardState.term ≤ (relinquish li z).hardState.term ∧ NotAhead x (relinquish li z) := by
    intro li z h1 h2 h3 ht
    obtain ⟨_, _, _, _, heq, -⟩ := relinquish_eq li z
    rw [heq]
    exact ⟨ht, .of_eq h1 h2 h3⟩
  cases hs with
  | quiet h =>
    have h1 := congrArg lastIncludedIndex h
    have h2 := congrArg lastApplied h
    have h3 := congrArg commitIndex h
    have h4 := congrArg (fun z => z.hardState.term) h
    exact ⟨h4.le, h1.le, h2.le, h3.le⟩
  | stepDown li => exact relinquished li x rfl rfl rfl le_rfl
  | newTerm T li store hT => exact relinquished li _ rfl rfl rfl hT.le
  | abandon => exact relinquished none _ rfl rfl rfl le_rfl
  | campaign => exact ⟨Nat.le_succ _, .of_eq rfl rfl rfl⟩
  | compact => exact ⟨le_rfl, hw.applied_ge, le_rfl, le_rfl⟩
  | commitLeader _ _ hlt => exact ⟨le_rfl, le_rfl, le_rfl, hlt.le⟩
  | commitFollower _ _ _ _ _ _ hlt =>
    exact ⟨le_rfl, le_rfl, le_rfl, Nat.le_min.mpr ⟨hlt.le, hc⟩⟩
  | applied m entry =>
    obtain ⟨_, _, heq, -⟩ := applied_eq m entry x
    rw [heq]
    exact ⟨le_rfl, le_rfl, Nat.le_succ _, le_rfl⟩
  | install _ _ _ _ _ _ _ _ happlied =>
    exact ⟨le_rfl, hw.applied_ge.trans happlied, Nat.le_max_left _ _,
      Nat.le_max_left _ _⟩
  | _ => exact ⟨le_rfl, .of_eq rfl rfl rfl⟩

end RaftNode

/-- An accounted node has its indexes in order. -/
theorem NodeOk.inOrder {n : NodeId} {x : RaftNode σ} (h : NodeOk g a n x) : IndexesInOrder x :=
  ⟨h.wf.applied_ge, h.applied_le, h.commit_le, h.wf.last⟩

variable [StateMachine σ]

/-- A step of the world moves the indexes of a node forward, or restarts it. -/
theorem WorldStep.advances {w w' : World σ} (hs : WorldStep J g w w') (h : Sim g a w) (n : NodeId) :
    (w.nodes n).hardState.term ≤ (w'.nodes n).hardState.term ∧
      (NotAhead (w.nodes n) (w'.nodes n) ∨ (n, .restarted) ∈ w'.trace.drop w.trace.length) := by
  have same : ∀ z : RaftNode σ, z.hardState.term ≤ z.hardState.term ∧ (NotAhead z z ∨
      (n, .restarted) ∈ w'.trace.drop w.trace.length) :=
    fun z => ⟨le_rfl, Or.inl (.of_eq rfl rfl rfl)⟩
  cases hs with
  | node w m inp x y hm hinp hs =>
    by_cases hnm : n = m
    · subst hnm
      obtain ⟨hx, -⟩ := h.accounted hm
      obtain ⟨ht, hb⟩ := hs.advances hx.wf hx.commit_le
      rw [absorb_nodes_self, absorb_nodes_self]
      exact ⟨ht, Or.inl ⟨hb.included, hb.applied, hb.commit⟩⟩
    · rw [absorb_nodes_ne w x hnm, absorb_nodes_ne w y hnm]
      exact same _
  | enter w m now faults hm =>
    by_cases hnm : n = m
    · subst hnm
      rw [absorb_nodes_self]
      exact ⟨le_rfl, Or.inl (.of_eq rfl rfl rfl)⟩
    · rw [absorb_nodes_ne w _ hnm]
      exact same _
  | restart w m machine now hm =>
    by_cases hnm : n = m
    · subst hnm
      rw [absorb_nodes_self]
      refine ⟨?_, Or.inr (by simp [World.absorb, World.reboot])⟩
      unfold World.reboot
      rw [start_eq hm, (h.node n hm).wf.hard]
      exact le_rfl
    · rw [absorb_nodes_ne w _ hnm]
      exact same _

/-- **The indexes of a node.**  At every moment, those inside a handler included, they are in order.
    From one moment of a run to a later one the term does not decrease; unless the node has been
    restarted in between, nor do the other indexes, and what was committed is still held or is
    covered by the snapshot. -/
theorem node_indexes (g : Group) (machine : NodeId → σ) (inputs more : List (Input σ)) (n : NodeId)
    (hn : n ∈ g.peers) :
    let w := World.run g machine inputs
    let w' := World.run g machine (inputs ++ more)
    (∀ v, Relation.ReflTransGen (WorldStep False g) w v → IndexesInOrder (v.nodes n)) ∧
    (w.nodes n).hardState.term ≤ (w'.nodes n).hardState.term ∧
    ((n, .restarted) ∉ w'.trace.drop w.trace.length →
      NotAhead (w.nodes n) (w'.nodes n) ∧
      ∀ i e, i ≤ (w.nodes n).commitIndex → (w.nodes n).lastIncludedIndex < i →
        (w.nodes n).logStore.entryAt i = .ok e →
        i ≤ (w'.nodes n).lastIncludedIndex ∨ (w'.nodes n).logStore.entryAt i = .ok e) := by
  intro w w'
  obtain ⟨a, h, hc⟩ := World.run_sim g machine inputs
  obtain ⟨a', hm, h', -, ht, -, hb⟩ := Sim.inputs_rule (J := False) (P := fun _ v =>
      (w.nodes n).hardState.term ≤ (v.nodes n).hardState.term ∧ w.trace <+: v.trace ∧
        ((n, .restarted) ∉ v.trace.drop w.trace.length → NotAhead (w.nodes n) (v.nodes n)))
    (fun a a' _ v v' hv ⟨ht, hpre, hb⟩ hs _ _ => by
      obtain ⟨ht', hb'⟩ := hs.advances hv n
      have hpre' := hs.trace_mono hv
      refine ⟨ht.trans ht', hpre.trans hpre', fun hup => ?_⟩
      obtain ⟨old, hold⟩ := hpre
      obtain ⟨new, hnew⟩ := hpre'
      rw [← hnew, ← hold] at hup hb'
      rw [← hold] at hb
      simp only [List.append_assoc, List.drop_left, List.mem_append, not_or] at hup hb
      rw [List.drop_left] at hb'
      exact (hb hup.1).trans (hb'.resolve_right hup.2))
    more h hc ⟨le_rfl, List.prefix_refl _, fun _ => .of_eq rfl rfl rfl⟩ fun h => h.elim
  have hrun : more.foldl (World.step g) w = w' := List.foldl_append.symm
  rw [hrun] at h' ht hb
  refine ⟨fun v hpath => ?_, ht, fun hup => ⟨hb hup, fun i e hi hlo he => ?_⟩⟩
  · obtain ⟨_, -, hv, -⟩ := h.path_rule (P := fun _ _ => True) trivial
      (fun _ _ _ _ _ _ _ _ _ _ => trivial) hpath
    exact (hv.node n hn).inOrder
  -- both entries are committed at one index
  · have hx := h.node n hn
    have hy := h'.node n hn
    have hi' : i ≤ (w'.nodes n).commitIndex := hi.trans (hb hup).commit
    rcases Nat.lt_or_ge (w'.nodes n).lastIncludedIndex i with hlt | hle
    · obtain ⟨e', he'⟩ := hy.wf.entryAt_exists (by omega) hlt.le
        (hi'.trans hy.commit_le)
      have hidx := (hx.wf.store.entryAt_index he).trans (hy.wf.store.entryAt_index he').symm
      rw [((hx.committed hlo hi he).mono hm).unique h'.inv (hy.committed hlt hi' he') hidx]
      exact Or.inr he'
    · exact Or.inl hle

theorem node_indexes_trioElection :
    NotAhead ((World.run trio nullMachines (trioElection.take 3)).nodes 3)
      ((World.run trio nullMachines (trioElection.take 3 ++ trioElection.drop 3)).nodes 3) :=
  ((node_indexes trio nullMachines (trioElection.take 3) (trioElection.drop 3) 3
    (by decide)).2.2 (by decide +kernel)).1

end SqlDb.Raft
