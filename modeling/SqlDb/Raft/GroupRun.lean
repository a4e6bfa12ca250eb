/-
  WHOLE RUNS OF A GROUP.

  A step of the world is a path of `WorldStep`s: a `NodeStep` of one node, a node that is given the
  time and the condition of its disk, or a restart.  `Sim g a w` says that the history `a` accounts
  for every node of `w` and for every message ever sent.

    * `WorldStep.sim` — each `WorldStep` keeps the world accounted for, by a history that grew;
    * `World.step_path` — each step of the world is such a path, and leaves every node calm;
    * `World.run_rule` — THE INDUCTION RULE of everything that follows: what holds at the start, and
      is kept by each `WorldStep` of an accounted world, holds at the end of every run.
-/
import SqlDb.Raft.Refinement
import SqlDb.Raft.HandlerRun

namespace SqlDb.Raft

open EpochLog RaftNode

variable {σ : Type} {J : Prop} {g : Group} {a : History} {n : NodeId}

/-! ## Starting a node -/

theorem start_eq [StateMachine σ] (hn : n ∈ g.peers) (store : LogStore) (machine : σ) (now : Nat) :
    (start (create (g.config n) store machine now)).2 = resetElectionDeadline
      { create (g.config n) store machine now with
        hardState := store.hardState
        lastLogIndex := store.lastIndex
        lastIncludedIndex := store.snapshotMeta.lastIncludedIndex
        lastIncludedTerm := store.snapshotMeta.lastIncludedTerm
        lastApplied := store.snapshotMeta.lastIncludedIndex
        commitIndex := store.snapshotMeta.lastIncludedIndex } := by
  unfold start
  rw [Prog.get_bind_apply, show checkConfig (create (g.config n) store machine now).config
    = .ok () from g.valid n hn]
  rfl

/-- A node started on a log store that the history accounts for. -/
theorem nodeOk_start [StateMachine σ] (hn : n ∈ g.peers) {store : LogStore} {machine : σ}
    {now : Nat} (hstore : store.Wf) (hcur : a.cur n = store.hardState.term)
    (hvote : a.vote n store.hardState.term = store.hardState.votedFor)
    (hlen : (a.log n).length = store.lastIndex)
    (hentry : ∀ i e, store.entryAt i = .ok e → ∃ f, (a.log n)[i - 1]? = some f ∧ e.term = f.term ∧
      (store.snapshotMeta.lastIncludedIndex < i → e.data = f.data))
    (hgraft : a.graft n ≤ store.snapshotMeta.lastIncludedIndex)
    (hcommit : ∃ v, v ≤ store.hardState.term ∧
      store.snapshotMeta.lastIncludedIndex ≤ a.commit v ∧
      Agree (a.log n) (a.termLog v) store.snapshotMeta.lastIncludedIndex) :
    NodeOk g a n (start (create (g.config n) store machine now)).2 := by
  rw [start_eq hn]
  exact {
    wf := ⟨hstore, rfl, rfl, rfl, rfl, le_rfl, fun _ => ⟨rfl, rfl⟩⟩
    member := hn
    voters := fun q hq => by simp [resetElectionDeadline, create] at hq
    nodeId := g.nodeId_eq n hn
    peers := g.peers_perm n hn
    term := hcur, vote := hvote
    log := ⟨hlen, hentry⟩
    graft := hgraft
    applied_le := le_rfl
    commit_le := hstore.boundary_le
    commit := hcommit
    leader := fun hr => by simp [resetElectionDeadline, create] at hr
    candidate := fun hr => by simp [resetElectionDeadline, create] at hr }

/-- Nothing a crash destroys is accounted for. -/
theorem NodeOk.restart [StateMachine σ] {x : RaftNode σ} (h : NodeOk g a n x) (machine : σ)
    (now : Nat) : NodeOk g a n (World.reboot g x n machine now) := by
  have hw := h.wf
  have hle : x.lastIncludedIndex ≤ x.commitIndex := hw.applied_ge.trans h.applied_le
  obtain ⟨v, hv, hc, hag⟩ := h.commit
  have hs : NodeOk g a n (start (create (g.config n) x.logStore machine now)).2 := by
    refine nodeOk_start h.member hw.store (hw.hard ▸ h.term) (hw.hard ▸ h.vote)
      (h.log.length.trans hw.last) (hw.index ▸ h.log.entry) (hw.index ▸ h.graft) ?_
    rw [← hw.index, ← hw.hard]
    exact ⟨v, hv, hle.trans hc, hag.mono hle⟩
  exact hs.congr { hs.wf with } rfl rfl rfl rfl rfl rfl hs.applied_le rfl rfl (fun _ => rfl) rfl rfl

/-! ## Accounted worlds -/

/-- The history accounts for the whole world. -/
structure Sim (g : Group) (a : History) (w : World σ) : Prop where
  inv : Inv g.quorums a
  rounds : Rounds a
  node : ∀ n ∈ g.peers, NodeOk g a n (w.nodes n)
  sent : ∀ env ∈ w.sent, MsgOk a env ∧ env.src ∈ g.peers
  quiet : ∀ n, (w.nodes n).outbox = [] ∧ (w.nodes n).events = []

/-- A step of the world, cut as fine as the steps of its nodes. -/
inductive WorldStep [StateMachine σ] (J : Prop) (g : Group) : World σ → World σ → Prop
  | node (w : World σ) (n : NodeId) (inp : Option (NodeId × Message)) (x y : RaftNode σ)
      (hn : n ∈ g.peers) (hinp : ∀ src m, inp = some (src, m) → ⟨src, n, m⟩ ∈ w.sent)
      (hs : NodeStep J inp x y) : WorldStep J g (w.absorb n x) (w.absorb n y)
  | enter (w : World σ) (n : NodeId) (now : Nat) (faults : WriteOp → Option Error)
      (hn : n ∈ g.peers) : WorldStep J g w (w.absorb n (w.enter n now faults))
  | restart (w : World σ) (n : NodeId) (machine : σ) (now : Nat) (hn : n ∈ g.peers) :
      WorldStep J g w (w.absorb n (World.reboot g (w.nodes n) n machine now))

section Absorb

variable {w : World σ} {x : RaftNode σ}

@[simp] theorem absorb_nodes_self (w : World σ) (n : NodeId) (x : RaftNode σ) :
    (w.absorb n x).nodes n = { x with outbox := [], events := [] } := if_pos rfl

@[simp] theorem absorb_nodes_ne (w : World σ) (x : RaftNode σ) {m : NodeId} (h : m ≠ n) :
    (w.absorb n x).nodes m = w.nodes m := if_neg h

theorem NodeOk.unload (h : NodeOk g a n x) : NodeOk g a n { x with outbox := [], events := [] } :=
  h.congr { h.wf with } rfl rfl rfl rfl rfl rfl h.applied_le rfl rfl (fun _ => rfl) rfl rfl

theorem NodeOk.reload (h : NodeOk g a n { x with outbox := [], events := [] }) : NodeOk g a n x :=
  h.congr { h.wf with } rfl rfl rfl rfl rfl rfl h.applied_le rfl rfl (fun _ => rfl) rfl rfl

/-- Putting an accounted node into an accounted world, after steps of the history by that node. -/
theorem Sim.absorb {a' : History} {w₀ : World σ} (h : Sim g a w₀) (hr : Reach J g.quorums n a a')
    (hx : Accounted g a' n x) (hn : n ∈ g.peers) (hnodes : ∀ m, m ≠ n → w.nodes m = w₀.nodes m)
    (hsent : ∀ env ∈ w.sent, env ∈ w₀.sent) : Sim g a' (w.absorb n x) := by
  have hm := hr.mono h.inv
  refine { inv := hr.inv h.inv, rounds := hr.rounds h.rounds, node := fun m hmem => ?_,
           sent := fun env henv => ?_, quiet := fun m => ?_ }
  · by_cases hmn : m = n
    · subst hmn
      rw [absorb_nodes_self]
      exact hx.1.unload
    · rw [absorb_nodes_ne w x hmn, hnodes m hmn]
      exact (h.node m hmem).frame h.inv hm hr.frame hmn
  · rcases List.mem_append.mp henv with henv | henv
    · obtain ⟨hmsg, hsrc⟩ := h.sent env (hsent env henv)
      exact ⟨hmsg.mono hm, hsrc⟩
    · obtain ⟨p, hp, rfl⟩ := List.mem_map.mp henv
      exact ⟨hx.2 p hp, hn⟩
  · by_cases hmn : m = n
    · subst hmn
      rw [absorb_nodes_self]
      exact ⟨rfl, rfl⟩
    · rw [absorb_nodes_ne w x hmn, hnodes m hmn]
      exact h.quiet m

theorem Sim.accounted (h : Sim g a (w.absorb n x)) (hn : n ∈ g.peers) : Accounted g a n x := by
  refine ⟨?_, fun p hp => (h.sent _ (List.mem_append_right _ (List.mem_map.mpr ⟨p, hp, rfl⟩))).1⟩
  have := h.node n hn
  rw [absorb_nodes_self] at this
  exact this.reload

/-- What enters a step is accounted for, whatever the clock and the disk. -/
theorem NodeOk.enter (h : NodeOk g a n (w.nodes n)) (now : Nat)
    (faults : WriteOp → Option Error) : NodeOk g a n (w.enter n now faults) :=
  { h with
    wf := { h.wf with store := { h.wf.store with } }
    log := ⟨h.log.length, h.log.entry⟩
    leader := fun hr => { h.leader hr with }
    candidate := fun hr => { h.candidate hr with } }

end Absorb

variable [StateMachine σ]

/-- **Each step keeps the world accounted for**, by a history that one node has carried on. -/
theorem WorldStep.sim {w w' : World σ} (hs : WorldStep J g w w') (h : Sim g a w) :
    ∃ a' m, Reach J g.quorums m a a' ∧ Sim g a' w' := by
  cases hs with
  | node w n inp x y hn hinp hs =>
    obtain ⟨a', hr, hy⟩ := hs.sim (h.accounted hn) h.inv h.rounds fun src m hm =>
      h.sent _ (List.mem_append_left _ (hinp src m hm))
    exact ⟨a', n, hr, h.absorb hr hy hn (fun m hmn => (absorb_nodes_ne w x hmn).symm)
      fun env henv => List.mem_append_left _ henv⟩
  | enter w n now faults hn =>
    refine ⟨a, n, Reach.refl a, h.absorb (Reach.refl (J := J) a) ⟨(h.node n hn).enter now faults, ?_⟩
      hn (fun _ _ => rfl) fun _ henv => henv⟩
    intro p hp
    have hp : p ∈ (w.nodes n).outbox := hp
    rw [(h.quiet n).1] at hp
    simp at hp
  | restart w n machine now hn =>
    refine ⟨a, n, Reach.refl a, h.absorb (Reach.refl (J := J) a)
      ⟨(h.node n hn).restart machine now, ?_⟩ hn (fun _ _ => rfl) fun _ henv => henv⟩
    intro p hp
    unfold World.reboot at hp
    rw [start_eq hn] at hp
    simp [resetElectionDeadline, create] at hp

/-! ## Steps of the world -/

/-- If this input completes the installation of a snapshot, the log of the receiving node goes on
    from that snapshot. -/
def World.joinsOnInstall (g : Group) (w : World σ) (i : Input σ) : Bool :=
  match i.action with
  | .deliver k =>
    match w.sent[k]? with
    | some ⟨_, dst, .installSnapshot q⟩ =>
      decide (((w.step g i).nodes dst).lastIncludedIndex = q.lastIncludedIndex →
        (w.nodes dst).Joins ⟨q.lastIncludedIndex, q.lastIncludedTerm⟩)
    | _ => true
  | _ => true

/-- Every snapshot that the inputs install is one the receiving log goes on from. -/
def joinsThroughout (g : Group) (w : World σ) : List (Input σ) → Bool
  | [] => true
  | i :: inputs => w.joinsOnInstall g i && joinsThroughout g (w.step g i) inputs

variable {w : World σ}

theorem World.joins_of_deliver {i : Input σ} (h : w.joinsOnInstall g i = true)
    (k : Nat) (env : Envelope) (q : InstallSnapshotRequest) (hk : i.action = .deliver k)
    (henv : w.sent[k]? = some env) (hq : env.message = .installSnapshot q)
    (hi : ((w.step g i).nodes env.dst).lastIncludedIndex = q.lastIncludedIndex) :
    (w.nodes env.dst).Joins ⟨q.lastIncludedIndex, q.lastIncludedTerm⟩ := by
  obtain ⟨src, dst, message⟩ := env
  obtain rfl : message = .installSnapshot q := hq
  unfold World.joinsOnInstall at h
  rw [hk] at h
  simp only [henv] at h
  exact of_decide_eq_true h hi

def AllCalm (g : Group) (w : World σ) : Prop := ∀ n ∈ g.peers, Calm (w.nodes n)

omit [StateMachine σ] in
theorem AllCalm.absorb {x : RaftNode σ} (h : AllCalm g w) (hx : Calm x) :
    AllCalm g (w.absorb n x) := by
  intro m hm
  by_cases hmn : m = n
  · subst hmn
    rw [absorb_nodes_self]
    exact hx
  · rw [absorb_nodes_ne w x hmn]
    exact h m hm

/-- Running a method of node `n` is a path of the world. -/
theorem Sim.walk (h : Sim g a w) (hc : AllCalm g w) (hn : n ∈ g.peers) (now : Nat)
    (faults : WriteOp → Option Error) (inp : Option (NodeId × Message))
    (hinp : ∀ src m, inp = some (src, m) → ⟨src, n, m⟩ ∈ w.sent) {A : Type} {m : Act σ A}
    (hm : Ready (w.enter n now faults) →
      Prog.Run (NodeStep J inp) m (w.enter n now faults) fun _ y => Calm y) :
    Relation.ReflTransGen (WorldStep J g) w (w.absorb n (m (w.enter n now faults)).2) ∧
      AllCalm g (w.absorb n (m (w.enter n now faults)).2) := by
  have hx := (h.node n hn).enter now faults
  obtain ⟨hpath, hcalm⟩ := hm ⟨hx.wf, hx.applied_le, hx.commit_le, hc n hn⟩
  refine ⟨?_, hc.absorb hcalm⟩
  refine Relation.ReflTransGen.head (.enter w n now faults hn) ?_
  exact hpath.lift (w.absorb n) fun x y hs => .node w n inp x y hn hinp hs

/-- **A step of the world is a path**, and ends with every node calm. -/
theorem World.step_path (h : Sim g a w) (hc : AllCalm g w) (i : Input σ)
    (hjoin : J → w.joinsOnInstall g i = true) :
    Relation.ReflTransGen (WorldStep J g) w (w.step g i) ∧ AllCalm g (w.step g i) := by
  have stay : Relation.ReflTransGen (WorldStep J g) w w ∧ AllCalm g w :=
    ⟨Relation.ReflTransGen.refl, hc⟩
  have nothing : ∀ {n} (src : NodeId) (m : Message),
      (none : Option (NodeId × Message)) = some (src, m) → (⟨src, n, m⟩ : Envelope) ∈ w.sent :=
    fun _ _ h => by simp at h
  have hinst := fun hJ => World.joins_of_deliver (hjoin hJ)
  unfold World.step at hinst ⊢
  obtain ⟨action, now, faults⟩ := i
  cases action with
  | tick n =>
    dsimp only
    split
    · exact h.walk hc ‹_› now faults none nothing fun hr => run_tick hr
    · exact stay
  | propose n data =>
    dsimp only
    split
    · exact h.walk hc ‹_› now faults none nothing fun hr =>
        (run_propose hr data).weaken fun _ _ _ hy => hy.1
    · exact stay
  | readBarrier n =>
    dsimp only
    split
    · exact h.walk hc ‹_› now faults none nothing fun hr =>
        (run_readBarrier hr).weaken fun _ _ _ hq => hq.1
    · exact stay
  | deliver k =>
    dsimp only
    cases hk : w.sent[k]? with
    | none => exact stay
    | some env =>
      dsimp only
      split_ifs with hn
      · refine h.walk hc hn now faults (some (env.src, env.message)) (fun src m hm => ?_)
          fun hr => run_handleMessage hr env.src env.message fun hJ q hq hi => ?_
        · cases hm
          exact List.mem_of_getElem? hk
        · have := hinst hJ k env q rfl hk hq
          simp only [hk, if_pos hn, absorb_nodes_self] at this
          exact this hi
      · exact stay
  | restart n machine =>
    dsimp only
    split_ifs with hn
    · refine ⟨.single (.restart w n machine now hn), hc.absorb (calm_of_not_leader ?_)⟩
      unfold World.reboot
      rw [start_eq hn]
      simp [resetElectionDeadline, create]
    · exact stay

/-! ## Runs -/

theorem sim_init (machine : NodeId → σ) :
    Sim g (State.init NodeId Bytes) (World.init g machine) ∧ AllCalm g (World.init g machine) := by
  have hnode : ∀ n ∈ g.peers, NodeOk g (State.init NodeId Bytes) n
      ((World.init g machine).nodes n) := fun n hn =>
    nodeOk_start hn LogStore.wf_empty rfl rfl rfl
      (fun i e he => by
        have hr := LogStore.entryAt_range he
        have h0 : i ≤ 0 := hr.2.1
        omega)
      le_rfl ⟨0, le_rfl, le_rfl, agree_zero _ _⟩
  refine ⟨{ inv := inv_init _, rounds := fun _ _ => rfl, node := hnode, sent := by simp [World.init],
            quiet := fun n => ?_ }, fun n hn => calm_of_not_leader ?_⟩
  · show ((start (create (g.config n) {} (machine n) 0)).2).outbox = [] ∧
      ((start (create (g.config n) {} (machine n) 0)).2).events = []
    unfold start
    rw [Prog.get_bind_apply]
    cases hcheck : checkConfig (create (g.config n) {} (machine n) 0).config with
    | ok | error => exact ⟨rfl, rfl⟩
  · show ((start (create (g.config n) {} (machine n) 0)).2).role ≠ .leader
    rw [start_eq hn]
    simp [resetElectionDeadline, create]

variable {P : History → World σ → Prop}

/-- What each `WorldStep` keeps, a path keeps. -/
theorem Sim.path_rule {w w' : World σ} (h : Sim g a w) (hP : P a w)
    (hstep : ∀ a a' m w w', Sim g a w → P a w → WorldStep J g w w' → Reach J g.quorums m a a' →
      Sim g a' w' → P a' w')
    (hpath : Relation.ReflTransGen (WorldStep J g) w w') :
    ∃ a', EpochLog.Mono a a' ∧ Sim g a' w' ∧ P a' w' := by
  induction hpath with
  | refl => exact ⟨a, Mono.refl a, h, hP⟩
  | tail _ hs ih =>
    obtain ⟨a₁, hm, h₁, hP₁⟩ := ih
    obtain ⟨a₂, m, hr, h₂⟩ := hs.sim h₁
    exact ⟨a₂, hm.trans (hr.mono h₁.inv), h₂, hstep _ _ m _ _ h₁ hP₁ hs hr h₂⟩

/-- What each `WorldStep` keeps, the inputs keep, from any accounted world on. -/
theorem Sim.inputs_rule
    (hstep : ∀ a a' m w w', Sim g a w → P a w → WorldStep J g w w' → Reach J g.quorums m a a' →
      Sim g a' w' → P a' w') (inputs : List (Input σ)) :
    ∀ {a : History} {w : World σ}, Sim g a w → AllCalm g w → P a w →
      (J → joinsThroughout g w inputs = true) →
      ∃ a', EpochLog.Mono a a' ∧ Sim g a' (inputs.foldl (World.step g) w) ∧
        AllCalm g (inputs.foldl (World.step g) w) ∧ P a' (inputs.foldl (World.step g) w) := by
  induction inputs with
  | nil => exact fun h hc hP _ => ⟨_, Mono.refl _, h, hc, hP⟩
  | cons i inputs ih =>
    intro a w h hc hP hjoin
    have hjoin' := fun hJ => (Bool.and_eq_true_iff.mp (hjoin hJ))
    obtain ⟨hpath, hc₁⟩ := World.step_path h hc i fun hJ => (hjoin' hJ).1
    obtain ⟨a₁, hm₁, h₁, hP₁⟩ := h.path_rule hP hstep hpath
    obtain ⟨a₂, hm₂, h₂⟩ := ih h₁ hc₁ hP₁ fun hJ => (hjoin' hJ).2
    exact ⟨a₂, hm₁.trans hm₂, h₂⟩

/-- **The induction rule.**  What holds at the start and is kept by each `WorldStep` holds at the end
    of every run. -/
theorem World.run_rule (machine : NodeId → σ)
    (hinit : P (State.init NodeId Bytes) (World.init g machine))
    (hstep : ∀ a a' m w w', Sim g a w → P a w → WorldStep J g w w' → Reach J g.quorums m a a' →
      Sim g a' w' → P a' w') (inputs : List (Input σ))
    (hjoin : J → joinsThroughout g (World.init g machine) inputs = true) :
    ∃ a, Sim g a (World.run g machine inputs) ∧ AllCalm g (World.run g machine inputs) ∧
      P a (World.run g machine inputs) := by
  obtain ⟨h, hc⟩ := sim_init (g := g) machine
  obtain ⟨a, -, h'⟩ := Sim.inputs_rule hstep inputs h hc hinit hjoin
  exact ⟨a, h'⟩

/-- Every run is accounted for. -/
theorem World.run_sim (g : Group) (machine : NodeId → σ) (inputs : List (Input σ)) :
    ∃ a, Sim g a (World.run g machine inputs) ∧ AllCalm g (World.run g machine inputs) := by
  obtain ⟨a, h, hc, -⟩ := World.run_rule (J := False) (P := fun _ _ => True) machine trivial
    (fun _ _ _ _ _ _ _ _ _ _ => trivial) inputs fun h => h.elim
  exact ⟨a, h, hc⟩

/-- A run that goes on: the history of its first part grows into the history of the whole. -/
theorem World.run_append (g : Group) (machine : NodeId → σ) (inputs more : List (Input σ)) :
    ∃ a a', Sim g a (World.run g machine inputs) ∧ EpochLog.Mono a a' ∧
      Sim g a' (World.run g machine (inputs ++ more)) := by
  obtain ⟨a, h, hc⟩ := World.run_sim g machine inputs
  obtain ⟨a', hm, h', -⟩ := Sim.inputs_rule (J := False) (P := fun _ _ => True)
    (fun _ _ _ _ _ _ _ _ _ _ => trivial) more h hc trivial fun h => h.elim
  refine ⟨a, a', h, hm, ?_⟩
  unfold World.run
  rw [List.foldl_append]
  exact h'

end SqlDb.Raft
