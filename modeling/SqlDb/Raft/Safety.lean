/-
  ELECTION SAFETY AND STATE MACHINE SAFETY of every run.

    * `election_safety` — one term, one leader, over the whole run: whoever leads in a term at some
      moment is the only node that leads in it at any other moment.
    * `commit_quorum_iff` — a leader commits what a quorum of voters stores, or one half of an even
      group;
    * `applied_entries_agree` — no two nodes ever apply different entries at one index, and what a
      node applied in term `T` is held by every leader of `T` or a later term from then on, at its
      index or under the snapshot.

  The restriction to LATER TERMS is needed: a node that won the election of an old term may learn so
  (and take office) long after a newer leader has committed entries it never saw.
  `stale_leader_lacks_applied_entry` is such a run.  The late leader cannot commit anything, so no
  harm is done, but its log does not hold what was applied before it became leader.
-/
import SqlDb.Raft.GroupRun
import SqlDb.Raft.Clients

namespace SqlDb.Raft

open EpochLog RaftNode

variable {σ : Type} [StateMachine σ] {J : Prop} {g : Group} {a : History}

/-! ## One leader per term -/

theorem leader_agrees (g : Group) (machine : NodeId → σ) (inputs more : List (Input σ))
    {n m : NodeId} (hn : n ∈ g.peers) (hm : m ∈ g.peers)
    (hln : ((World.run g machine inputs).nodes n).role = .leader)
    (hlm : ((World.run g machine (inputs ++ more)).nodes m).role = .leader)
    (hterm : ((World.run g machine inputs).nodes n).hardState.term
      = ((World.run g machine (inputs ++ more)).nodes m).hardState.term) : n = m := by
  obtain ⟨a, a', h, hmono, h'⟩ := World.run_append g machine inputs more
  have h1 := hmono.leader _ _ ((h.node n hn).leader hln).leader
  have h2 := ((h'.node m hm).leader hlm).leader
  rw [hterm, h2] at h1
  exact (Option.some.inj h1).symm

/-- **Election safety.**  Nodes that lead in one term, at any two moments `i` and `j` of a run, are
    one node. -/
theorem election_safety (g : Group) (machine : NodeId → σ) (inputs : List (Input σ)) (i j : Nat)
    (n m : NodeId) (hn : n ∈ g.peers) (hm : m ∈ g.peers)
    (hln : ((World.run g machine (inputs.take i)).nodes n).role = .leader)
    (hlm : ((World.run g machine (inputs.take j)).nodes m).role = .leader)
    (hterm : ((World.run g machine (inputs.take i)).nodes n).hardState.term
      = ((World.run g machine (inputs.take j)).nodes m).hardState.term) : n = m := by
  rcases Nat.le_total i j with hij | hij
  · obtain ⟨more, hmore⟩ := List.take_prefix_take_left (l := inputs) hij
    rw [← hmore] at hlm hterm
    exact leader_agrees g machine _ more hn hm hln hlm hterm
  · obtain ⟨more, hmore⟩ := List.take_prefix_take_left (l := inputs) hij
    rw [← hmore] at hln hterm
    exact (leader_agrees g machine _ more hm hn hlm hln hterm.symm).symm

/-- A state machine that keeps nothing, for runs that are about logs only. -/
structure NullMachine
deriving DecidableEq

instance : StateMachine NullMachine where
  apply := fun s _ => (.ok "", s)
  snapshot := fun _ _ => .ok []
  restore := fun s _ _ => (.ok (), s)

def nullMachines : NodeId → NullMachine := fun _ => .mk

theorem trio_nodup : [1, 2, 3].Nodup := by decide

theorem trio_pos : 0 ∉ [1, 2, 3] := by decide

/-- Three nodes that never compact their logs. -/
def trio : Group := Group.uniform [1, 2, 3] 0 trio_nodup trio_pos

/-- Node 3 stands for election in term 1, and node 1 votes for it. -/
def trioElection : List (Input NullMachine) :=
  [.tick 3 5000, .deliver 0, .deliver 2, .deliver 1]

theorem election_safety_trio :
    ((World.run trio nullMachines (trioElection.take 3)).nodes 3).role = .leader ∧
    ((World.run trio nullMachines (trioElection.take 4)).nodes 3).role = .leader ∧
    (3 : NodeId) = 3 :=
  ⟨by decide +kernel, by decide +kernel,
    election_safety trio nullMachines trioElection 3 4 3 3 (by decide) (by decide)
      (by decide +kernel) (by decide +kernel) (by decide +kernel)⟩

/-! ## The two quorums -/

omit [StateMachine σ] in
/-- **The commit quorum is the vote quorum except at one half**: `quorum_match_index` reaches an
    index exactly when `has_quorum` accepts the number of peers that store it, unless these are one
    half of the group.  An even group commits with half of its members. -/
theorem commit_quorum_iff (x : RaftNode σ) (i : Nat) (hi : 1 ≤ i) :
    (i ≤ x.quorumMatchIndex ↔
      x.hasQuorum (x.config.peers.filter fun p => i ≤ x.matchOf p).length = true) ↔
    (x.config.peers = [] ∨
      2 * (x.config.peers.filter fun p => i ≤ x.matchOf p).length ≠ x.config.peers.length) := by
  by_cases hp : x.config.peers = []
  · simp [quorumMatchIndex, hasQuorum, hp]
    omega
  have hn : 0 < x.config.peers.length := List.length_pos_iff.mpr hp
  rw [le_quorumMatchIndex_iff hp, hasQuorum, decide_eq_true_iff]
  simp only [hp, false_or]
  omega

theorem commit_quorum_iff_trio :
    (1 ≤ ((World.run trio nullMachines trioElection).nodes 3).quorumMatchIndex ↔
      ((World.run trio nullMachines trioElection).nodes 3).hasQuorum 1 = true) :=
  (commit_quorum_iff ((World.run trio nullMachines trioElection).nodes 3) 1 (by decide)).mpr
    (Or.inr (by decide +kernel))

/-- Four nodes.  Node 3 is elected by three of them, and its first entry is stored by node 1. -/
def quartet : Group := Group.uniform [1, 2, 3, 4] 0 (by decide) (by decide)

def halfReplicated : List (Input NullMachine) :=
  [.tick 3 5000, .deliver 0, .deliver 1, .deliver 3, .deliver 4, .deliver 5, .deliver 8]

/-- The leader of four nodes commits an entry that two of them store. -/
theorem half_of_four_commits :
    ((World.run quartet nullMachines halfReplicated).nodes 3).commitIndex = 1 ∧
    (quartet.peers.filter fun n =>
      1 ≤ ((World.run quartet nullMachines halfReplicated).nodes n).lastLogIndex) = [1, 3] ∧
    1 ≤ ((World.run quartet nullMachines halfReplicated).nodes 3).quorumMatchIndex ∧
    (quartet.peers.filter fun p =>
      1 ≤ ((World.run quartet nullMachines halfReplicated).nodes 3).matchOf p) = [1, 3] ∧
    ((World.run quartet nullMachines halfReplicated).nodes 3).hasQuorum 2 = false := by
  decide +kernel

/-! ## What is applied is committed -/

/-- Node `n` has given `entry` to its state machine, during term `T`. -/
def World.Applies (w : World σ) (n : NodeId) (T : Nat) (entry : LogEntry) : Prop :=
  ∃ error, (n, Event.applied T entry error) ∈ w.trace

/-- The history knows `entry` as committed in a term up to `T`. -/
def CommittedEntry (a : History) (T : Nat) (entry : LogEntry) : Prop :=
  0 < entry.index ∧ ∃ v, v ≤ T ∧ entry.index ≤ a.commit v ∧
    (a.termLog v)[entry.index - 1]? = some ⟨entry.term, entry.data⟩

theorem CommittedEntry.mono {a' : History} {T : Nat} {entry : LogEntry}
    (h : CommittedEntry a T entry) (hm : EpochLog.Mono a a') : CommittedEntry a' T entry := by
  obtain ⟨h0, v, hv, hc, he⟩ := h
  exact ⟨h0, v, hv, hc.trans (hm.commit v), getElem?_of_pre (hm.termLog v) he⟩

omit [StateMachine σ] in
/-- Above its snapshot, a node holds committed entries up to its commit index. -/
theorem NodeOk.committed {n : NodeId} {x : RaftNode σ} {i : Nat} {entry : LogEntry}
    (h : NodeOk g a n x) (hlo : x.lastIncludedIndex < i) (hhi : i ≤ x.commitIndex)
    (he : x.logStore.entryAt i = .ok entry) : CommittedEntry a x.hardState.term entry := by
  have hidx := h.wf.store.entryAt_index he
  obtain ⟨v, hv, hc, hag⟩ := h.commit
  obtain ⟨f, hf, ht, hd⟩ := h.log.entry _ _ he
  refine ⟨by omega, v, hv, by omega, ?_⟩
  rw [hidx, ← hag _ (by omega), hf, ht, hd hlo]

/-- An event that is new reports the entry after the last one its node had applied. -/
theorem WorldStep.applied_cases {w w' : World σ} (hs : WorldStep J g w w') (h : Sim g a w)
    {n : NodeId} {T : Nat} {e : LogEntry} {error : Option Error}
    (hev : (n, .applied T e error) ∈ w'.trace) :
    (n, .applied T e error) ∈ w.trace ∨ n ∈ g.peers ∧ T = (w.nodes n).hardState.term ∧
      (w.nodes n).lastApplied < (w.nodes n).commitIndex ∧
      (w.nodes n).logStore.entryAt ((w.nodes n).lastApplied + 1) = .ok e := by
  cases hs with
  | node w m inp x y hm hinp hs =>
    rcases List.mem_append.mp hev with hev | hev
    · exact Or.inl (List.mem_append_left _ hev)
    obtain ⟨ev, hev, heq⟩ := List.mem_map.mp hev
    cases heq
    rcases (hs.client (h.accounted hm).1.wf).applied_new hev with hev | hnew
    · exact Or.inl (List.mem_append_right _ (List.mem_map.mpr ⟨_, hev, rfl⟩))
    · rw [absorb_nodes_self]
      exact Or.inr ⟨hm, hnew⟩
  | enter w m now faults hm =>
    rcases List.mem_append.mp hev with hev | hev
    · exact Or.inl hev
    · have : (w.enter m now faults).events = [] := (h.quiet m).2
      simp [this] at hev
  | restart w m machine now hm =>
    rcases List.mem_append.mp hev with hev | hev
    · exact Or.inl hev
    · simp [World.reboot] at hev

theorem WorldStep.applied_new {w w' : World σ} (hs : WorldStep J g w w') (h : Sim g a w)
    {n : NodeId} {T : Nat} {e : LogEntry} {error : Option Error}
    (hev : (n, .applied T e error) ∈ w'.trace) :
    (n, .applied T e error) ∈ w.trace ∨ CommittedEntry a T e := by
  rcases hs.applied_cases h hev with hev | ⟨hn, rfl, hlt, he⟩
  · exact Or.inl hev
  · have hx := h.node n hn
    exact Or.inr (hx.committed (Nat.lt_succ_of_le hx.wf.applied_ge) hlt he)

/-- In every run, what has been applied is committed. -/
theorem World.run_applied (g : Group) (machine : NodeId → σ) (inputs : List (Input σ)) :
    ∃ a, Sim g a (World.run g machine inputs) ∧
      ∀ n T e, (World.run g machine inputs).Applies n T e → CommittedEntry a T e := by
  obtain ⟨a, h, -, hP⟩ := World.run_rule (g := g) (J := False)
    (P := fun a w => ∀ n T e, w.Applies n T e → CommittedEntry a T e) machine
    (fun n T e happ => by obtain ⟨_, hev⟩ := happ; simp [World.init] at hev)
    (fun a a' m w w' h hP hs hr h' n T e ⟨error, hev⟩ =>
      (hs.applied_new h hev).elim (fun hev => (hP n T e ⟨error, hev⟩).mono (hr.mono h.inv))
        fun hc => hc.mono (hr.mono h.inv))
    inputs fun h => h.elim
  exact ⟨a, h, hP⟩

/-- Committed entries with one index are one entry. -/
theorem CommittedEntry.unique (hinv : Inv g.quorums a) {T U : Nat} {e f : LogEntry}
    (he : CommittedEntry a T e) (hf : CommittedEntry a U f) (hidx : e.index = f.index) : e = f := by
  obtain ⟨h0, v, -, hcv, hev⟩ := he
  obtain ⟨-, u, -, hcu, hfu⟩ := hf
  rw [← hidx] at hcu hfu
  rw [EpochLog.commit_agree hinv hcv hcu _ (by omega), hfu] at hev
  obtain ⟨hterm, hdata⟩ := EpochLog.Entry.mk.inj (Option.some.inj hev)
  cases e; cases f
  simp_all

omit [StateMachine σ] in
/-- A leader of the term or a later one holds a committed entry, or has it under its snapshot. -/
theorem NodeOk.holds_committed (hinv : Inv g.quorums a) {n : NodeId} {x : RaftNode σ}
    (h : NodeOk g a n x) (hl : x.role = .leader) {T : Nat} {e : LogEntry}
    (he : CommittedEntry a T e) (hT : T ≤ x.hardState.term) :
    e.index ≤ x.lastIncludedIndex ∨ x.logStore.entryAt e.index = .ok e := by
  rcases Nat.lt_or_ge x.lastIncludedIndex e.index with hlt | hle
  swap
  · exact Or.inl hle
  obtain ⟨h0, v, hv, hc, hev⟩ := he
  have hlead := h.leader hl
  have hagree := leader_holds hinv (hv.trans hT) (by rw [hlead.leader]; simp)
  rw [← hagree _ (by omega), ← hlead.log] at hev
  have hlen := lt_of_getElem? hev
  rw [h.log.length] at hlen
  obtain ⟨e', he'⟩ := h.wf.entryAt_exists h0 hlt.le (by omega)
  obtain ⟨f, hf, ht, hd⟩ := h.log.entry _ _ he'
  rw [hev] at hf
  cases hf
  have hidx := h.wf.store.entryAt_index he'
  refine Or.inr (he'.trans (congrArg Except.ok ?_))
  cases e; cases e'
  simp_all

/-- **State machine safety and leader completeness.**  Applied entries with one index are one entry;
    and what has been applied in term `T` is held from then on by every leader of `T` or a later
    term, at its index or under the snapshot. -/
theorem applied_entries_agree (g : Group) (machine : NodeId → σ) (inputs : List (Input σ))
    (i j : Nat) (hij : i ≤ j) :
    (∀ n m T U e f, (World.run g machine (inputs.take i)).Applies n T e →
      (World.run g machine (inputs.take j)).Applies m U f → e.index = f.index → e = f) ∧
    ∀ n m T e, (World.run g machine (inputs.take i)).Applies n T e → m ∈ g.peers →
      ((World.run g machine (inputs.take j)).nodes m).role = .leader →
      T ≤ ((World.run g machine (inputs.take j)).nodes m).hardState.term →
      e.index ≤ ((World.run g machine (inputs.take j)).nodes m).lastIncludedIndex ∨
        ((World.run g machine (inputs.take j)).nodes m).logStore.entryAt e.index = .ok e := by
  obtain ⟨a, h, happ⟩ := World.run_applied g machine (inputs.take j)
  have early : ∀ n T e, (World.run g machine (inputs.take i)).Applies n T e →
      CommittedEntry a T e := fun n T e ⟨error, hev⟩ =>
    happ n T e ⟨error, (World.run_trace g machine inputs hij).subset hev⟩
  refine ⟨fun n m T U e f he hf hidx => ?_, fun n m T e he hm hl hT => ?_⟩
  · exact (early n T e he).unique h.inv (happ m U f hf) hidx
  · exact (h.node m hm).holds_committed h.inv hl (early n T e he) hT

/-- Node 3 wins the election of term 1 but does not hear of it until node 2 has become leader of
    term 2 and its first entry has been applied. -/
def lateOffice : List (Input NullMachine) :=
  [.tick 3 5000, .deliver 0, .deliver 1, .tick 2 20000, .deliver 4, .deliver 6, .deliver 7,
    .deliver 9, .deliver 2]

theorem applied_entries_agree_lateOffice :
    ((World.run trio nullMachines (lateOffice.take 8)).nodes 2).role = .leader ∧
    ∀ n e, (World.run trio nullMachines (lateOffice.take 8)).Applies n 2 e →
      e.index ≤ ((World.run trio nullMachines (lateOffice.take 8)).nodes 2).lastIncludedIndex ∨
      ((World.run trio nullMachines (lateOffice.take 8)).nodes 2).logStore.entryAt e.index
        = .ok e := by
  have hl : ((World.run trio nullMachines (lateOffice.take 8)).nodes 2).role = .leader := by
    decide +kernel
  have hT : 2 ≤ ((World.run trio nullMachines (lateOffice.take 8)).nodes 2).hardState.term := by
    decide +kernel
  obtain ⟨-, h⟩ := applied_entries_agree trio nullMachines lateOffice 8 8 (Nat.le_refl 8)
  exact ⟨hl, fun n e he => h n 2 2 e he (by decide) hl hT⟩

/-- Becoming leader LATER is not enough: node 2 has applied an entry of term 2 at index 1, then node
    3 becomes leader (of term 1), and its log holds another entry there. -/
theorem stale_leader_lacks_applied_entry :
    (2, .applied 2 ⟨1, 2, []⟩ none) ∈ (World.run trio nullMachines (lateOffice.take 8)).trace ∧
    ((World.run trio nullMachines (lateOffice.take 8)).nodes 3).role ≠ .leader ∧
    ((World.run trio nullMachines (lateOffice.take 9)).nodes 3).role = .leader ∧
    ((World.run trio nullMachines (lateOffice.take 9)).nodes 3).lastIncludedIndex = 0 ∧
    ((World.run trio nullMachines (lateOffice.take 9)).nodes 3).logStore.entries
      = [⟨1, 1, []⟩] := by
  decide +kernel

end SqlDb.Raft
