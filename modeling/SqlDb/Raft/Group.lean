/-
  A RAFT GROUP: several nodes, the messages they have sent, and what they have done.

  A `World` evolves by `Input`s: a clock tick, a client call, the delivery of ONE message that was
  ever sent, or a crash followed by a restart.  `sent` only grows and a delivery picks any position
  of it, so messages may be lost, delayed, duplicated and reordered at will.  Each input also fixes
  the time its node sees and the writes its log store refuses.

  A restart keeps the log store and NOTHING else: the state machine is whatever the environment
  finds (`machine`), and every completion object of the old process is gone.
-/
import SqlDb.Raft.Node

namespace SqlDb.Raft

/-- A group: nodes that agree on who the voters are, each with a configuration `start` accepts. -/
structure Group where
  peers : List NodeId
  config : NodeId → NodeConfig
  nodeId_eq : ∀ n ∈ peers, (config n).nodeId = n
  peers_perm : ∀ n ∈ peers, (config n).peers.Perm peers
  nodup : peers.Nodup
  valid : ∀ n ∈ peers, RaftNode.checkConfig (RaftNode.normalizeConfig (config n)) = .ok ()

/-- The group whose nodes all have the default configuration, but for the compaction threshold. -/
def Group.uniform (peers : List NodeId) (snapshotEntriesThreshold : Nat) (hnodup : peers.Nodup)
    (hpos : 0 ∉ peers) : Group where
  peers := peers
  config := fun n => { nodeId := n, peers := peers, snapshotEntriesThreshold }
  nodeId_eq := fun _ _ => rfl
  peers_perm := fun _ _ => List.Perm.refl _
  nodup := hnodup
  valid := fun n hn => by
    have h0 : n ≠ 0 := fun h => hpos (h ▸ hn)
    have hne : peers ≠ [] := List.ne_nil_of_mem hn
    simp [RaftNode.checkConfig, RaftNode.normalizeConfig, h0, hne, hn, hnodup]

structure Envelope where
  src : NodeId
  dst : NodeId
  message : Message
deriving DecidableEq, Repr

structure World (σ : Type) where
  nodes : NodeId → RaftNode σ
  sent : List Envelope := []
  trace : List (NodeId × Event) := []

inductive Action (σ : Type)
  | tick (n : NodeId)
  | propose (n : NodeId) (data : Bytes)
  | readBarrier (n : NodeId)
  /-- Deliver the message at position `k` of everything sent so far. -/
  | deliver (k : Nat)
  | restart (n : NodeId) (machine : σ)

structure Input (σ : Type) where
  action : Action σ
  now : Nat := 0
  faults : WriteOp → Option Error := fun _ => none

namespace Input

variable {σ : Type}

/-! Inputs while the disk works. -/

def tick (n : NodeId) (now : Nat) : Input σ := { action := .tick n, now }

def propose (n : NodeId) (data : Bytes) : Input σ := { action := .propose n data }

def deliver (k : Nat) : Input σ := { action := .deliver k }

end Input

namespace World

variable {σ : Type}

/-- Put node `n` back after a step, and move what it sent and did to the world. -/
def absorb (w : World σ) (n : NodeId) (x : RaftNode σ) : World σ where
  nodes := fun m => if m = n then { x with outbox := [], events := [] } else w.nodes m
  sent := w.sent ++ x.outbox.map fun p => ⟨n, p.1, p.2⟩
  trace := w.trace ++ x.events.map fun e => (n, e)

/-- Node `n` as it enters a step. -/
def enter (w : World σ) (n : NodeId) (now : Nat) (faults : WriteOp → Option Error) : RaftNode σ :=
  { w.nodes n with now := now, logStore := { (w.nodes n).logStore with faults := faults } }

variable [StateMachine σ]

/-- A new process for node `n`, on the log store the old one left behind. -/
def reboot (g : Group) (old : RaftNode σ) (n : NodeId) (machine : σ) (now : Nat) : RaftNode σ :=
  let fresh := (RaftNode.start (RaftNode.create (g.config n) old.logStore machine now)).2
  { fresh with nextCompletion := old.nextCompletion, events := [.restarted] }

def step (g : Group) (w : World σ) (i : Input σ) : World σ :=
  let run {A : Type} (n : NodeId) (m : Act σ A) : World σ :=
    if n ∈ g.peers then w.absorb n (m (w.enter n i.now i.faults)).2 else w
  match i.action with
  | .tick n => run n RaftNode.tick
  | .propose n data => run n (RaftNode.propose data)
  | .readBarrier n => run n RaftNode.readBarrier
  | .deliver k =>
    match w.sent[k]? with
    | some env => run env.dst (RaftNode.handleMessage env.src env.message)
    | none => w
  | .restart n machine =>
    if n ∈ g.peers then w.absorb n (reboot g (w.nodes n) n machine i.now) else w

/-- All nodes have just been started on empty log stores. -/
def init (g : Group) (machine : NodeId → σ) : World σ where
  nodes := fun n => (RaftNode.start (RaftNode.create (g.config n) {} (machine n) 0)).2

def run (g : Group) (machine : NodeId → σ) (inputs : List (Input σ)) : World σ :=
  inputs.foldl (step g) (init g machine)

/-! ## The record of events only grows -/

omit [StateMachine σ] in
theorem absorb_trace (w : World σ) (n : NodeId) (x : RaftNode σ) :
    w.trace <+: (w.absorb n x).trace := List.prefix_append _ _

theorem step_trace (g : Group) (w : World σ) (i : Input σ) : w.trace <+: (w.step g i).trace := by
  unfold step
  dsimp only
  repeat' split
  all_goals first | exact absorb_trace w _ _ | exact List.prefix_refl _

theorem steps_trace (g : Group) (w : World σ) (inputs : List (Input σ)) :
    w.trace <+: (inputs.foldl (step g) w).trace := by
  induction inputs generalizing w with
  | nil => exact List.prefix_refl _
  | cons i inputs ih => exact (step_trace g w i).trans (ih (w.step g i))

theorem run_trace (g : Group) (machine : NodeId → σ) (inputs : List (Input σ)) {i j : Nat}
    (hij : i ≤ j) : (run g machine (inputs.take i)).trace <+: (run g machine (inputs.take j)).trace := by
  obtain ⟨more, hmore⟩ := List.take_prefix_take_left (l := inputs) hij
  rw [← hmore]
  unfold run
  rw [List.foldl_append]
  exact steps_trace g _ more

end World

end SqlDb.Raft
