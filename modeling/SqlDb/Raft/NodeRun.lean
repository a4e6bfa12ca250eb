/-
  THE HANDLERS ARE SEQUENCES OF STEPS.

  Each method of the node is walked through once: its writes are shown to be `NodeStep`s whose
  guards hold at that point (`Prog.Run`).  Besides the path, the walk establishes what a leader's
  READS need at the end of every handler (`Calm`), because that is where the order of statements
  inside a handler matters: match indexes and acknowledged rounds are recorded together, the commit
  index is advanced right after, and a failed apply empties the list of waiting reads.
-/
import SqlDb.Raft.NodeWf
import SqlDb.Lib.Majority

namespace SqlDb.Raft.RaftNode

open Prog

variable {σ : Type}

/-! ## The median of the match indexes -/

variable {x : RaftNode σ}

theorem le_quorumMatchIndex_iff (hp : x.config.peers ≠ []) {k : Nat} :
    k ≤ x.quorumMatchIndex ↔ (x.config.peers.length - 1) / 2 + 1 ≤
      (x.config.peers.filter fun p => k ≤ x.matchOf p).length := by
  unfold quorumMatchIndex
  rw [EpochLog.le_median_iff (by simpa using hp), List.length_map, List.countP_map,
    List.countP_eq_length_filter]
  rfl

variable {x y : RaftNode σ}

/-- Match indexes that differ only at or below `c` have medians that differ only there. -/
theorem quorumMatchIndex_congr {c : Nat} (hc : y.config = x.config)
    (h : ∀ p k, c < k → (k ≤ y.matchOf p ↔ k ≤ x.matchOf p)) :
    y.quorumMatchIndex = x.quorumMatchIndex ∨
      (y.quorumMatchIndex ≤ c ∧ x.quorumMatchIndex ≤ c) := by
  by_cases hp : x.config.peers = []
  · left
    simp [quorumMatchIndex, hc, hp]
  have hiff : ∀ k, c < k → (k ≤ y.quorumMatchIndex ↔ k ≤ x.quorumMatchIndex) := by
    intro k hk
    rw [le_quorumMatchIndex_iff hp, le_quorumMatchIndex_iff (hc ▸ hp), hc]
    simp only [h _ k hk]
  rcases Nat.lt_or_ge c y.quorumMatchIndex with hy | hy
  · have h1 := (hiff _ hy).mp le_rfl
    have h2 := (hiff x.quorumMatchIndex (by omega)).mpr le_rfl
    exact Or.inl (by omega)
  · right
    refine ⟨hy, ?_⟩
    by_contra hx
    have := (hiff x.quorumMatchIndex (by omega)).mpr le_rfl
    omega

/-! ## What the walk carries -/

/-- The reads that wait at a leader are in order: nothing is ripe for commit, and a read whose index
    has been applied waits only at a node that has applied everything. -/
def Calm (x : RaftNode σ) : Prop :=
  x.role = .leader → x.Settled ∧
    ∀ b ∈ x.pendingReadBarriers, x.commitIndex ≤ x.lastApplied ∨ x.lastApplied < b.targetIndex

/-- A node between two handlers. -/
structure Ready (x : RaftNode σ) : Prop where
  wf : Wf x
  applied_le : x.lastApplied ≤ x.commitIndex
  commit_le : x.commitIndex ≤ x.lastLogIndex
  calm : Calm x

theorem calm_of_not_leader (h : x.role ≠ .leader) : Calm x :=
  fun hl => absurd hl h

/-- `y` is `x` after messages have been sent: progress of a peer may have been raised, but not above
    what is applied. -/
def SendsOnly (x y : RaftNode σ) : Prop :=
  ∃ out next mtch err, y = { x with
      outbox := out, nextIndex := next, matchIndex := mtch, lastError := err } ∧
    ∀ p, y.matchOf p = x.matchOf p ∨ (x.matchOf p ≤ y.matchOf p ∧ y.matchOf p ≤ x.lastApplied)

theorem SendsOnly.refl (x : RaftNode σ) : SendsOnly x x :=
  ⟨_, _, _, _, rfl, fun _ => Or.inl rfl⟩

theorem SendsOnly.trans {x y z : RaftNode σ} (h : SendsOnly x y) (h' : SendsOnly y z) :
    SendsOnly x z := by
  obtain ⟨_, _, _, _, rfl, hm⟩ := h
  obtain ⟨_, _, _, _, rfl, hm'⟩ := h'
  refine ⟨_, _, _, _, rfl, fun p => ?_⟩
  rcases hm p with h1 | ⟨h1, h2⟩ <;> rcases hm' p with h3 | ⟨h3, h4⟩
  · exact Or.inl (h3.trans h1)
  · exact Or.inr ⟨h1 ▸ h3, h4⟩
  · exact Or.inr ⟨h3 ▸ h1, h3 ▸ h2⟩
  · exact Or.inr ⟨h1.trans h3, h4⟩

theorem SendsOnly.settled (h : SendsOnly x y)
    (ha : x.lastApplied ≤ x.commitIndex) (hs : x.Settled) : y.Settled := by
  have hq : y.quorumMatchIndex = x.quorumMatchIndex ∨
      (y.quorumMatchIndex ≤ x.commitIndex ∧ x.quorumMatchIndex ≤ x.commitIndex) := by
    obtain ⟨_, _, _, _, heq, hm⟩ := h
    refine quorumMatchIndex_congr (by rw [heq]) fun p k hk => ?_
    rcases hm p with h1 | ⟨h1, h2⟩
    · rw [h1]
    · constructor <;> intro hle <;> omega
  obtain ⟨_, _, _, _, heq, -⟩ := h
  unfold Settled at hs ⊢
  rcases hq with hq | hq
  · rw [hq, heq]
    exact hs
  · left
    rw [heq] at hq ⊢
    exact hq.1

theorem SendsOnly.calm (h : SendsOnly x y)
    (ha : x.lastApplied ≤ x.commitIndex) (hc : Calm x) : Calm y := by
  intro hl
  have hx : x.role = .leader ∧ (∀ b ∈ y.pendingReadBarriers, b ∈ x.pendingReadBarriers) ∧
      y.commitIndex = x.commitIndex ∧ y.lastApplied = x.lastApplied := by
    obtain ⟨_, _, _, _, rfl, -⟩ := h
    exact ⟨hl, fun _ hb => hb, rfl, rfl⟩
  obtain ⟨hlx, hbx, hcx, hax⟩ := hx
  obtain ⟨h1, h2⟩ := hc hlx
  refine ⟨h.settled ha h1, fun b hb => ?_⟩
  rw [hcx, hax]
  exact h2 b (hbx b hb)

theorem SendsOnly.recordError (h : SendsOnly x y) (e : Error) : SendsOnly x (recordError e y) := by
  obtain ⟨_, _, _, _, rfl, hm⟩ := h
  exact ⟨_, _, _, _, rfl, hm⟩

theorem SendsOnly.wf (h : SendsOnly x y) (hw : Wf x) : Wf y := by
  obtain ⟨_, _, _, _, rfl, -⟩ := h
  exact { hw with }

theorem SendsOnly.role (h : SendsOnly x y) : y.role = x.role := by
  obtain ⟨_, _, _, _, rfl, -⟩ := h
  rfl

/-- `y` is `x` after a round of heartbeats. -/
def BeatsOnly (x y : RaftNode σ) : Prop :=
  SendsOnly { x with heartbeatRound := x.heartbeatRound + 1 } y

theorem BeatsOnly.settled (h : BeatsOnly x y)
    (ha : x.lastApplied ≤ x.commitIndex) (hs : x.Settled) : y.Settled :=
  SendsOnly.settled h ha hs

/-- `y` is `x` after some committed entries have been given to the state machine. -/
def AppliesOnly (x y : RaftNode σ) : Prop :=
  ∃ machine count ev done pp prb, y = { x with
      stateMachine := machine, applyCount := count, events := ev, lastApplied := done,
      pendingProposals := pp, pendingReadBarriers := prb } ∧
    x.lastApplied ≤ done ∧ (x.lastApplied ≤ x.commitIndex → done ≤ x.commitIndex) ∧
    ∀ b ∈ prb, b ∈ x.pendingReadBarriers

theorem AppliesOnly.refl (x : RaftNode σ) : AppliesOnly x x :=
  ⟨_, _, _, _, _, _, rfl, le_rfl, id, fun _ h => h⟩

theorem AppliesOnly.trans {x y z : RaftNode σ} (h : AppliesOnly x y) (h' : AppliesOnly y z) :
    AppliesOnly x z := by
  obtain ⟨_, _, _, _, _, _, rfl, h1, h2, h3⟩ := h
  obtain ⟨_, _, _, _, _, _, rfl, h4, h5, h6⟩ := h'
  exact ⟨_, _, _, _, _, _, rfl, h1.trans h4, fun hx => h5 (h2 hx),
    fun b hb => h3 b (h6 b hb)⟩

theorem applied_appliesOnly (machine : σ) (entry : LogEntry) (hlt : x.lastApplied < x.commitIndex) :
    AppliesOnly x (x.applied machine entry) ∧
      (x.applied machine entry).lastApplied = x.lastApplied + 1 ∧
      (x.applied machine entry).pendingReadBarriers = x.pendingReadBarriers := by
  obtain ⟨ev, pp, heq, -⟩ := applied_eq machine entry x
  rw [heq]
  exact ⟨⟨_, _, _, _, _, _, rfl, Nat.le_succ _, fun _ => hlt, fun _ h => h⟩, rfl, rfl⟩

/-- A read that waits although its index is applied waits at a node that has applied everything. -/
def ReadsInOrder (x : RaftNode σ) : Prop :=
  ∀ b ∈ x.pendingReadBarriers, x.commitIndex ≤ x.lastApplied ∨ x.lastApplied < b.targetIndex

theorem AppliesOnly.settled (h : AppliesOnly x y) (hs : x.Settled) : y.Settled := by
  obtain ⟨_, _, _, _, _, _, rfl, -⟩ := h
  exact hs

/-- A leader in the middle of a handler. -/
structure Lead (x : RaftNode σ) : Prop where
  wf : Wf x
  role : x.role = .leader
  applied_le : x.lastApplied ≤ x.commitIndex
  commit_le : x.commitIndex ≤ x.lastLogIndex
  reads : ReadsInOrder x

theorem Ready.lead (h : Ready x) (hr : x.role = .leader) : Lead x :=
  ⟨h.wf, hr, h.applied_le, h.commit_le, (h.calm hr).2⟩

theorem Lead.ready (h : Lead x) (hs : x.Settled) : Ready x :=
  ⟨h.wf, h.applied_le, h.commit_le, fun _ => ⟨hs, h.reads⟩⟩

theorem SendsOnly.lead (h : SendsOnly x y) (hx : Lead x) : Lead y := by
  have hw := h.wf hx.wf
  obtain ⟨_, _, _, _, rfl, -⟩ := h
  exact ⟨hw, hx.role, hx.applied_le, hx.commit_le, hx.reads⟩

theorem BeatsOnly.lead (h : BeatsOnly x y) (hx : Lead x) : Lead y :=
  SendsOnly.lead h ⟨{ hx.wf with }, hx.role, hx.applied_le, hx.commit_le, hx.reads⟩

theorem writeLog_ok {op : LogStore → Except Error LogStore} {store : LogStore}
    (h : op x.logStore = .ok store) :
    (writeLog op : Act σ Unit) x = (.ok (), { x with logStore := store }) := by
  unfold writeLog
  rw [get_bind_apply, h]
  rfl

theorem writeLog_error {op : LogStore → Except Error LogStore} {e : Error}
    (h : op x.logStore = .error e) : (writeLog op : Act σ Unit) x = (.error e, x) := by
  unfold writeLog
  rw [get_bind_apply, h]
  rfl

theorem becomeFollower_same {T : Nat} {li : Option NodeId} (h : ¬ x.hardState.term < T) :
    (becomeFollower T li : Act σ Unit) x = (.ok (), relinquish li x) := by
  unfold becomeFollower
  rw [get_bind_apply, if_neg h]
  rfl

/-- A node that is not the leader has no reads to worry about. -/
theorem ready_of_not_leader (hw : Wf x) (ha : x.lastApplied ≤ x.commitIndex)
    (hc : x.commitIndex ≤ x.lastLogIndex) (hr : x.role ≠ .leader) : Ready x :=
  ⟨hw, ha, hc, calm_of_not_leader hr⟩

theorem AppliesOnly.ready (h : AppliesOnly x y) (hx : Ready x) (hw : Wf y)
    (hr : ReadsInOrder y) : Ready y := by
  have hs : y.role = .leader → y.Settled := fun hl => h.settled ((hx.calm (by
    obtain ⟨_, _, _, _, _, _, rfl, -⟩ := h
    exact hl)).1)
  obtain ⟨_, _, _, _, _, _, rfl, -, h2, -⟩ := h
  exact ⟨hw, h2 hx.applied_le, hx.commit_le, fun hl => ⟨hs hl, hr⟩⟩

theorem Ready.recordError (h : Ready x) (e : Error) : Ready (recordError e x) :=
  ⟨{ h.wf with }, h.applied_le, h.commit_le, h.calm⟩

/-! ## Sending -/

section Walk

variable [StateMachine σ] {J : Prop} {inp : Option (NodeId × Message)} {x : RaftNode σ}

theorem single (h : NodeStep J inp x y) :
    Relation.ReflTransGen (NodeStep J inp) x y := Relation.ReflTransGen.single h

/-- A method whose error is recorded ends where it ended, up to `last_error_`. -/
theorem run_recording {m : Act σ Unit} {P : RaftNode σ → Prop}
    (hm : Run (NodeStep J inp) m x fun _ y => P y)
    (hP : ∀ y e, P y → P (recordError e y)) :
    Run (NodeStep J inp) (recording m) x fun r y => r = .ok () ∧ P y :=
  run_orElse hm (fun _ _ h => ⟨rfl, h⟩) fun e y _ h => ⟨single (.quiet rfl), rfl, hP y e h⟩

/-- Every chunk of a snapshot carries the header it was cut with. -/
theorem snapshotChunks_header {h r : InstallSnapshotRequest} {blob : Bytes} {fuel offset : Nat}
    (hr : r ∈ snapshotChunks h blob fuel offset) :
    r.term = h.term ∧ r.leaderId = h.leaderId ∧ r.lastIncludedIndex = h.lastIncludedIndex ∧
      r.lastIncludedTerm = h.lastIncludedTerm := by
  induction fuel generalizing offset with
  | zero => simp [snapshotChunks] at hr
  | succ fuel ih =>
    unfold snapshotChunks at hr
    split at hr
    · rcases List.mem_cons.mp hr with rfl | hr
      · exact ⟨rfl, rfl, rfl, rfl⟩
      · exact ih hr
    · simp at hr

/-- The chunks depend on the header's four identifying fields only. -/
theorem snapshotChunks_congr {h h' : InstallSnapshotRequest} (blob : Bytes)
    (heq : h'.term = h.term ∧ h'.leaderId = h.leaderId ∧
      h'.lastIncludedIndex = h.lastIncludedIndex ∧ h'.lastIncludedTerm = h.lastIncludedTerm)
    (fuel offset : Nat) :
    snapshotChunks h' blob fuel offset = snapshotChunks h blob fuel offset := by
  induction fuel generalizing offset with
  | zero => rfl
  | succ fuel ih =>
    unfold snapshotChunks
    simp only [ih, heq.1, heq.2.1, heq.2.2.1, heq.2.2.2]

theorem snapshotMessages_header {h r : InstallSnapshotRequest} {blob : Bytes}
    (hr : r ∈ snapshotMessages h blob) :
    (r.term = h.term ∧ r.leaderId = h.leaderId ∧ r.lastIncludedIndex = h.lastIncludedIndex ∧
      r.lastIncludedTerm = h.lastIncludedTerm) ∧ r ∈ snapshotMessages r blob := by
  unfold snapshotMessages at hr ⊢
  split_ifs at hr with hb
  · simp only [List.mem_singleton] at hr
    subst hr
    exact ⟨⟨rfl, rfl, rfl, rfl⟩, by simp [hb]⟩
  · have heq := snapshotChunks_header hr
    refine ⟨heq, ?_⟩
    rw [if_neg hb, snapshotChunks_congr blob heq]
    exact hr

/-- Sending a batch of messages, each of which may be sent. -/
theorem run_sends {A : Type} {l : List A} {d : A → NodeId} {msg : A → Message}
    (h : ∀ a ∈ l, ∀ out, Sendable inp { x with outbox := out } (d a) (msg a)) :
    Run (NodeStep J inp) (l.forM fun a => (modify (send (d a) (msg a)) : Act σ Unit)) x
      fun r y => r = .ok () ∧ ∃ out, y = { x with outbox := out } := by
  refine run_forM (I := fun y => ∃ out, y = { x with outbox := out }) l (fun a ha y hy => ?_)
    (show ∃ out, x = { x with outbox := out } from ⟨x.outbox, rfl⟩)
  obtain ⟨out, rfl⟩ := hy
  exact run_modify (single (.send _ (d a) (msg a) (h a ha out))) ⟨rfl, _, rfl⟩

/-- Read a value without changing the node. -/
theorem run_lift_bind {A B : Type} {v : Except Error A} {f : A → Act σ B}
    {Q : Except Error B → RaftNode σ → Prop} (herr : ∀ e, v = .error e → Q (.error e) x)
    (hok : ∀ a, v = .ok a → Run (NodeStep J inp) (f a) x Q) :
    Run (NodeStep J inp) (lift v >>= f) x Q := by
  cases v with
  | ok a => exact hok a rfl
  | error e => exact run_throw (herr e rfl)

theorem run_sendSnapshot (hw : Wf x) (hr : x.role = .leader) (dst : NodeId) :
    Run (NodeStep J inp) (sendSnapshot dst) x fun _ y => SendsOnly x y := by
  unfold sendSnapshot
  refine run_get_bind (run_ite (fun _ => run_pure (SendsOnly.refl x)) fun hlii => ?_)
  refine run_lift_bind (fun _ _ => SendsOnly.refl x) fun blob hblob => ?_
  refine run_lift_bind (fun _ _ => SendsOnly.refl x) fun t ht => ?_
  have hterm := (hw.termForCheck_iff (by have := hw.applied_ge; omega)).mp ht
  refine run_bind (run_sends (d := fun _ => dst) fun r hmem out => ?_) ?_ fun _ _ _ ⟨_, _, hy⟩ => ?_
  · obtain ⟨⟨h1, h2, h3, h4⟩, hself⟩ := snapshotMessages_header hmem
    exact ⟨hr, h1, h2, h3, h4 ▸ hterm, blob, hblob, hself⟩
  · rintro _ y - ⟨-, out, rfl⟩
    refine run_modify (single (.optimistic { x with outbox := out } dst _ hr))
      ⟨_, _, _, _, rfl, fun p => ?_⟩
    simp only [matchOf, OrdMap.find_insert]
    by_cases hp : p = dst
    · subst hp
      simp only [if_true, Option.getD_some]
      rcases Nat.le_total ((x.matchIndex.find p).getD 0) x.lastApplied with hle | hle
      · exact Or.inr ⟨Nat.le_max_left _ _, by rw [Nat.max_eq_right hle]⟩
      · exact Or.inl (Nat.max_eq_left hle)
    · exact Or.inl (by simp [hp])
  · rw [hy]
    exact ⟨_, _, _, _, rfl, fun _ => Or.inl rfl⟩

/-- Reading the entries `next, next + 1, …` of the log. -/
theorem entriesFrom_ok {store : LogStore} {next count : Nat} {l : List LogEntry}
    (h : entriesFrom store next count = .ok l) :
    l.length = count ∧ ∀ (k : Nat) e, l[k]? = some e → store.entryAt (next + k) = .ok e := by
  induction count generalizing next l with
  | zero =>
    cases h
    exact ⟨rfl, fun k e he => by simp at he⟩
  | succ count ih =>
    unfold entriesFrom at h
    cases ha : store.entryAt next with
    | error e => rw [ha] at h; simp at h
    | ok a =>
      rw [ha] at h
      cases hrest : entriesFrom store (next + 1) count with
      | error e => rw [hrest] at h; simp [Except.map] at h
      | ok rest =>
        rw [hrest] at h
        obtain rfl : a :: rest = l := Except.ok.inj h
        obtain ⟨hlen, hat⟩ := ih hrest
        refine ⟨by simp [hlen], fun k e he => ?_⟩
        cases k with
        | zero =>
          obtain rfl : a = e := by simpa using he
          exact ha
        | succ k =>
          rw [show next + (k + 1) = next + 1 + k by omega]
          exact hat k e (by simpa using he)

theorem touch_getD (m : OrdMap Nat) (k p : Nat) : ((m.touch k 0).find p).getD 0 = (m.find p).getD 0 := by
  unfold OrdMap.touch
  split_ifs with h
  · rfl
  · rw [OrdMap.find_insert]
    split_ifs with hp
    · subst hp
      cases hf : m.find p with
      | none => rfl
      | some v => rw [hf] at h; simp at h
    · rfl

theorem run_sendAppendEntries (hw : Wf x) (hr : x.role = .leader) (dst : NodeId) :
    Run (NodeStep J inp) (sendAppendEntries dst) x fun _ y => SendsOnly x y := by
  unfold sendAppendEntries
  refine run_modify_bind (g := fun x : RaftNode σ => { x with
      nextIndex := x.nextIndex.touch dst (x.lastLogIndex + 1)
      matchIndex := x.matchIndex.touch dst 0 }) ?_ ?_
  · exact (single (.touchMatch x _ fun p => touch_getD _ _ _)).tail (.quiet rfl)
  have hsame : SendsOnly x { x with
      nextIndex := x.nextIndex.touch dst (x.lastLogIndex + 1)
      matchIndex := x.matchIndex.touch dst 0 } :=
    ⟨_, _, _, _, rfl, fun p => Or.inl (touch_getD _ _ _)⟩
  refine run_get_bind (run_ite (fun _ => ?_) fun hnext => ?_)
  · exact (run_sendSnapshot (hsame.wf hw) hr dst).weaken fun _ _ _ h => hsame.trans h
  refine run_lift_bind (fun _ _ => hsame) fun prevTerm hprev => ?_
  refine run_lift_bind (fun _ _ => hsame) fun entries hentries => ?_
  obtain ⟨hlen, hat⟩ := entriesFrom_ok hentries
  refine run_modify (single (.send _ dst _ ⟨hr, ?_, ?_⟩))
    (hsame.trans ⟨_, _, _, _, rfl, fun _ => Or.inl rfl⟩)
  · show _ = _ - 1 + 1
    omega
  simp only at hnext hprev hlen hat
  generalize ((x.nextIndex.touch dst (x.lastLogIndex + 1)).find dst).getD 0 = next at *
  -- where the request starts: index 0, the boundary, or an entry that was read
  have hstart : next - 1 = 0 ∨
      ∃ e, x.logStore.entryAt (next - 1) = .ok e ∧ e.term = prevTerm := by
    rcases Nat.eq_zero_or_pos (next - 1) with h0 | h0
    · exact Or.inl h0
    · rw [if_pos (Nat.ne_of_gt h0)] at hprev
      exact Or.inr ((hw.termForCheck_iff h0).mp hprev)
  have hle : next - 1 ≤ x.lastLogIndex := by
    rcases hstart with h0 | ⟨e, he, -⟩
    · omega
    · exact (hw.entryAt_range he).2.1
  have hlast : next - 1 + entries.length = x.lastLogIndex := by
    clear hstart hprev
    omega
  have habove : x.lastIncludedIndex ≤ next - 1 := by
    clear hstart hprev
    omega
  exact {
    term := rfl, leaderId := rfl, leaderCommit := rfl, round := rfl
    last := hlast, prev := hstart, above := habove
    entries := fun k e he => by
      have hk : next - 1 + k + 1 = next + k := by clear hstart hprev; omega
      show x.logStore.entryAt (next - 1 + k + 1) = .ok e
      rw [hk]
      exact hat k e he }

theorem run_sendToPeers (hw : Wf x) (hr : x.role = .leader) :
    Run (NodeStep J inp) (sendToPeers : Act σ Unit) x fun r y => r = .ok () ∧ SendsOnly x y := by
  unfold sendToPeers
  refine run_get_bind (run_forM (I := fun y => SendsOnly x y) _ (fun peer _ y hy => ?_)
    (SendsOnly.refl x))
  refine run_recording ?_ fun z e hz => hz.recordError e
  exact (run_sendAppendEntries (hy.wf hw) (hy.role.trans hr) peer).weaken fun _ _ _ h => hy.trans h

theorem run_sendHeartbeats (hw : Wf x) (hr : x.role = .leader) :
    Run (NodeStep J inp) (sendHeartbeats : Act σ Unit) x fun r y => r = .ok () ∧ BeatsOnly x y :=
  run_modify_bind (single (.newRound x hr)) (run_sendToPeers { hw with } hr)

/-! ## Applying -/

/-- One iteration of the loop, when the state machine rejects the entry … -/
theorem applyLoop_error {entry : LogEntry} {e : Error} {machine : σ} {fuel : Nat}
    (hlt : x.lastApplied < x.commitIndex)
    (hentry : x.logStore.entryAt (x.lastApplied + 1) = .ok entry)
    (happ : StateMachine.apply x.stateMachine entry = (.error e, machine)) :
    applyLoop (fuel + 1) x = (.error e, x.applyFailed machine entry e) := by
  rw [applyLoop, get_bind_apply, if_pos hlt, hentry, lift_ok_bind, happ]
  rfl

/-- … and when it accepts it. -/
theorem applyLoop_ok {entry : LogEntry} {res : String} {machine : σ} {fuel : Nat}
    (hlt : x.lastApplied < x.commitIndex)
    (hentry : x.logStore.entryAt (x.lastApplied + 1) = .ok entry)
    (happ : StateMachine.apply x.stateMachine entry = (.ok res, machine)) :
    applyLoop (fuel + 1) x = applyLoop fuel (x.applied machine entry) := by
  rw [applyLoop, get_bind_apply, if_pos hlt, hentry, lift_ok_bind, happ]
  rfl

/-- The loop applies everything that is committed, or stops at an entry the state machine rejects
    after having told everyone who waits.  (It could also run past the end of the log, if the commit
    index lay there.) -/
theorem run_applyLoop (hw : Wf x) (fuel : Nat) (hfuel : x.commitIndex - x.lastApplied ≤ fuel) :
    Run (NodeStep J inp) (applyLoop fuel : Act σ Unit) x fun r y => AppliesOnly x y ∧
      match r with
      | .ok _ => y.commitIndex ≤ y.lastApplied ∧ y.pendingReadBarriers = x.pendingReadBarriers
      | .error _ => x.commitIndex ≤ x.lastLogIndex → y.pendingReadBarriers = [] := by
  induction fuel generalizing x with
  | zero => exact run_pure ⟨AppliesOnly.refl x, by omega, rfl⟩
  | succ fuel ih =>
    by_cases hlt : x.lastApplied < x.commitIndex
    · cases hentry : x.logStore.entryAt (x.lastApplied + 1) with
      | error e =>
        refine run_of_eq (p := throw e) ?_ Relation.ReflTransGen.refl
          (run_throw ⟨AppliesOnly.refl x, fun hc => ?_⟩)
        · rw [applyLoop, get_bind_apply, if_pos hlt, hentry]
          rfl
        · -- a committed entry inside the log can be read
          obtain ⟨entry, hok⟩ :=
            hw.entryAt_exists (Nat.succ_pos x.lastApplied) (by have := hw.applied_ge; omega)
              (show x.lastApplied + 1 ≤ x.lastLogIndex by omega)
          rw [hentry] at hok
          simp at hok
      | ok entry =>
        rcases happ : StateMachine.apply x.stateMachine entry with ⟨result, machine⟩
        cases result with
        | error e =>
          refine run_of_eq (p := throw e) (applyLoop_error hlt hentry happ)
            (single (.applyFailed x machine entry e hlt hentry happ))
            (run_throw ⟨?_, fun _ => rfl⟩)
          exact ⟨_, _, _, _, _, _, rfl, le_rfl, id, fun b hb => by simp at hb⟩
        | ok res =>
          have hstep : NodeStep J inp x (x.applied machine entry) :=
            .applied x machine entry res hlt hentry happ
          obtain ⟨honly, hla, hprb⟩ := applied_appliesOnly machine entry hlt
          have hci : (x.applied machine entry).commitIndex = x.commitIndex ∧
              (x.applied machine entry).lastLogIndex = x.lastLogIndex := by
            obtain ⟨_, _, _, _, _, _, heq, -⟩ := honly
            rw [heq]
            exact ⟨rfl, rfl⟩
          refine run_of_eq (applyLoop_ok hlt hentry happ) (single hstep) ?_
          refine (ih (hstep.wf hw) (by rw [hci.1, hla]; omega)).weaken
            fun r y _ h => ⟨honly.trans h.1, ?_⟩
          rw [← hprb, ← hci.1, ← hci.2]
          exact h.2
    · refine run_of_eq (p := pure ()) ?_ Relation.ReflTransGen.refl
        (run_pure ⟨AppliesOnly.refl x, by omega, rfl⟩)
      rw [applyLoop, get_bind_apply, if_neg hlt]

theorem run_applyCommitted (hw : Wf x) (hs : x.role = .leader → x.Settled) :
    Run (NodeStep J inp) (applyCommitted : Act σ Unit) x fun _ y =>
      AppliesOnly x y ∧ (x.commitIndex ≤ x.lastLogIndex → ReadsInOrder y) := by
  unfold applyCommitted
  refine run_get_bind (run_bind (run_applyLoop hw _ le_rfl) ?_ ?_)
  · rintro _ y hpath ⟨honly, hall, hprb⟩
    have hwy := hw.path hpath
    -- only a leader has reads waiting, and a leader is settled
    have hlead : ∀ b ∈ y.pendingReadBarriers, y.Settled := by
      intro b hb
      exact honly.settled (hs (hw.leader_of_read (hprb ▸ hb)))
    refine run_modify (single (.finishReads y fun b hb _ => ⟨hall, hlead b hb⟩))
      ⟨honly.trans ?_, fun _ b _ => Or.inl hall⟩
    exact ⟨_, _, _, _, _, _, rfl, le_rfl, id, fun b hb => List.mem_of_mem_filter hb⟩
  · rintro e y - ⟨honly, hprb⟩
    exact ⟨honly, fun hc b hb => by rw [hprb hc] at hb; simp at hb⟩

/-! ## Leaders -/

/-- Whatever happens, nothing is ripe after `advance_commit`. -/
theorem run_advanceCommit (h : Lead x) :
    Run (NodeStep J inp) (advanceCommit : Act σ Unit) x fun _ y => Lead y ∧ y.Settled := by
  unfold advanceCommit
  refine run_get_bind (run_ite (fun hno => ?_) fun hyes => ?_)
  · exact run_pure ⟨h, hno.imp id Or.inl⟩
  obtain ⟨hlt, hle⟩ := not_or.mp hyes
  rw [Nat.not_le] at hlt
  rw [Nat.not_lt] at hle
  have hlo := h.wf.applied_ge.trans h.applied_le
  obtain ⟨entry, hentry⟩ := h.wf.entryAt_exists (by omega) (by omega) hle
  rw [hentry, lift_ok_bind]
  refine run_ite (fun hne => ?_) fun heq => ?_
  · refine run_pure ⟨h, Or.inr (Or.inr fun e he => ?_)⟩
    rw [hentry] at he
    exact Except.ok.inj he ▸ hne
  rw [not_not] at heq
  have hcommit : NodeStep J inp x { x with commitIndex := x.quorumMatchIndex } :=
    .commitLeader x entry h.role hlt hle hentry heq
  have hs : Settled { x with commitIndex := x.quorumMatchIndex } := Or.inl le_rfl
  have hlead : ∀ {y}, Relation.ReflTransGen (NodeStep J inp)
      { x with commitIndex := x.quorumMatchIndex } y →
      AppliesOnly { x with commitIndex := x.quorumMatchIndex } y → ReadsInOrder y → Lead y := by
    intro y hpath honly hreads
    obtain ⟨_, _, _, _, _, _, rfl, -, h2, -⟩ := honly
    exact ⟨(hcommit.wf h.wf).path hpath, h.role,
      h2 (h.applied_le.trans hlt.le), hle, hreads⟩
  refine run_modify_bind (single hcommit) ?_
  refine run_bind (run_applyCommitted (hcommit.wf h.wf) fun _ => hs) ?_ ?_
  · rintro _ y hpath ⟨honly, hreads⟩
    have hly := hlead hpath honly (hreads hle)
    have hsy := honly.settled hs
    refine run_ite (fun _ => ?_) fun _ => run_pure ⟨hly, hsy⟩
    exact (run_sendHeartbeats hly.wf hly.role).weaken fun _ z _ hz =>
      ⟨hz.2.lead hly, hz.2.settled hly.applied_le hsy⟩
  · rintro e y hpath ⟨honly, hreads⟩
    exact ⟨hlead hpath honly (hreads hle), honly.settled hs⟩

/-! ## Changing the role -/

/-- Stepping down succeeds, or the store refuses the new term and nothing changes. -/
theorem run_becomeFollower (T : Nat) (li : Option NodeId) :
    Run (NodeStep J inp) (becomeFollower T li : Act σ Unit) x fun r y =>
      match r with
      | .ok _ => y.role = .follower ∧ y.hardState.term = max x.hardState.term T
      | .error _ => y = x := by
  unfold becomeFollower
  refine run_get_bind (run_ite (fun hlt => ?_) fun hge => ?_)
  · cases hsave : x.logStore.saveHardState ⟨T, none⟩ with
    | error e =>
      exact run_of_eq (p := throw e) (bind_apply_error (writeLog_error hsave))
        Relation.ReflTransGen.refl (run_throw rfl)
    | ok store =>
      refine run_of_eq (p := pure ()) (bind_apply_ok (writeLog_ok hsave))
        (single (.newTerm x T li store hlt hsave)) (run_pure ?_)
      exact ⟨relinquish_role .., by simp only [relinquish_hardState]; omega⟩
  · exact run_modify (single (.stepDown x li))
      ⟨relinquish_role .., by simp only [relinquish_hardState]; omega⟩

/-- A recorded attempt to step down ends well in any case. -/
theorem run_recordFollower (h : Calm x) (T : Nat) (li : Option NodeId) :
    Run (NodeStep J inp) (recording (becomeFollower T li) : Act σ Unit) x
      fun r y => r = .ok () ∧ Calm y := by
  refine run_recording ((run_becomeFollower T li).weaken fun r y _ hy => ?_) fun y e hy => hy
  cases r with
  | ok _ => exact calm_of_not_leader (by rw [hy.1]; simp)
  | error e => exact hy ▸ h

/-- A candidate that was elected writes its no-op entry and leads, or gives up. -/
theorem run_becomeLeader (h : Ready x) (hnl : x.role ≠ .leader)
    (hq : x.role = .candidate → x.hasQuorum x.votesReceived.length = true) :
    Run (NodeStep J inp) (becomeLeader : Act σ Unit) x fun _ y => Ready y := by
  unfold becomeLeader
  refine run_get_bind (run_ite (fun _ => run_pure h) fun hr => ?_)
  rw [not_not] at hr
  cases happ : x.logStore.append ⟨x.lastLogIndex + 1, x.hardState.term, []⟩ with
  | error e =>
    have hstep : NodeStep J inp x (relinquish none (initializeLeaderProgress
        { x with role := .leader, leaderId := some x.config.nodeId })) := .abandon x hr
    refine run_of_eq (p := throw e) ?_ (single hstep) (run_throw ?_)
    · rw [modify_bind_apply, happ]
      exact bind_apply_ok (becomeFollower_same (Nat.lt_irrefl _))
    · have hw := hstep.wf h.wf
      obtain ⟨_, _, _, _, heq, -⟩ := relinquish_eq none (initializeLeaderProgress
        { x with role := .leader, leaderId := some x.config.nodeId })
      rw [heq] at hw ⊢
      exact ready_of_not_leader hw h.applied_le h.commit_le (by simp)
  | ok store =>
    have hstep : NodeStep J inp x (x.takeOffice store) := .takeOffice x store hr (hq hr) happ
    refine run_of_eq (p := sendHeartbeats >>= fun _ => advanceCommit)
      (t := x.takeOffice store) ?_ (single hstep) ?_
    · rw [modify_bind_apply, happ]
      rfl
    have hlead : Lead (x.takeOffice store) :=
      ⟨hstep.wf h.wf, rfl, h.applied_le, Nat.le_succ_of_le h.commit_le, fun b hb => by
        have hb' : b ∈ x.pendingReadBarriers := hb
        rw [(h.wf.idle hnl).2] at hb'
        simp at hb'⟩
    refine run_seq (run_sendHeartbeats hlead.wf hlead.role) fun y hy => ?_
    exact (run_advanceCommit (hy.lead hlead)).weaken fun _ z _ hz => hz.1.ready hz.2

theorem run_startElection (h : Ready x) (hr : x.role ≠ .leader) :
    Run (NodeStep J inp) (startElection : Act σ Unit) x fun _ y => Ready y := by
  unfold startElection
  refine run_get_bind ?_
  dsimp only
  cases hsave : x.logStore.saveHardState
      ⟨x.hardState.term + 1, some x.config.nodeId⟩ with
  | error e =>
    have hstep : NodeStep J inp x { x with leaderId := none } := .quiet rfl
    exact run_modify_bind (single hstep)
      (run_throw (ready_of_not_leader (hstep.wf h.wf) h.applied_le h.commit_le hr))
  | ok store =>
    have hstep : NodeStep J inp x (resetElectionDeadline { x with
        logStore := store, role := .candidate, leaderId := none,
        hardState := ⟨x.hardState.term + 1, some x.config.nodeId⟩,
        votesReceived := [x.config.nodeId] }) := .campaign x store hr hsave
    have hy := ready_of_not_leader (hstep.wf h.wf) h.applied_le h.commit_le
      (by simp [resetElectionDeadline])
    refine run_modify_bind (single hstep) (run_get_bind (run_ite (fun hq => ?_) fun _ => ?_))
    · exact run_becomeLeader hy (by simp [resetElectionDeadline]) fun _ => hq
    · refine run_lift_bind (fun _ _ => hy) fun lastTerm hlast => ?_
      refine (run_sends fun peer hpeer out => ?_).weaken fun _ z hpath hz => ?_
      · exact ⟨rfl, by simpa [others] using (List.mem_filter.mp hpeer).2, rfl, rfl, rfl, hlast⟩
      · have hwz := hy.wf.path hpath
        obtain ⟨-, out, rfl⟩ := hz
        exact ready_of_not_leader hwz h.applied_le h.commit_le (by simp [resetElectionDeadline])

/-! ## Compacting -/

theorem run_maybeCompactLog (hw : Wf x) (ha : x.lastApplied ≤ x.commitIndex) (hc : Calm x) :
    Run (NodeStep J inp) (maybeCompactLog : Act σ Unit) x fun _ y => Calm y := by
  unfold maybeCompactLog
  refine run_get_bind (run_ite (fun _ => run_pure hc) fun _ => ?_)
  refine run_ite (fun _ => run_pure hc) fun _ => ?_
  refine run_ite (fun _ => run_pure hc) fun _ => ?_
  refine run_ite (fun _ => run_pure hc) fun htgt => ?_
  refine run_lift_bind (fun _ _ => hc) fun entry hentry => ?_
  cases hinst : x.logStore.installSnapshot ⟨x.lastApplied, entry.term⟩ with
  | error e =>
    exact run_of_eq (p := throw e) (bind_apply_error (writeLog_error hinst))
      Relation.ReflTransGen.refl (run_throw hc)
  | ok store =>
    have hlt : x.lastIncludedIndex < x.lastApplied := by omega
    refine run_of_eq (p := pure ()) (bind_apply_ok (writeLog_ok hinst))
      (single (.compact x entry store hlt hentry hinst)) (run_pure ?_)
    -- the median, if it exceeds the commit index, lies above the new boundary
    intro hl
    obtain ⟨hs, hreads⟩ := hc hl
    refine ⟨?_, hreads⟩
    have hlast : x.lastApplied ≤ x.lastLogIndex := (hw.entryAt_range hentry).2.1
    rcases hs with hs | hs | hs
    · exact Or.inl hs
    · exact Or.inr (Or.inl hs)
    · rcases Nat.lt_or_ge x.commitIndex x.quorumMatchIndex with hgt | hle
      · refine Or.inr (Or.inr fun e he => hs e ?_)
        rw [← hw.store.entryAt_installSnapshot (hw.index ▸ hlt.le) hinst
          (show x.lastApplied < x.quorumMatchIndex by omega)]
        exact he
      · exact Or.inl hle

/-! ## The public operations -/

theorem run_recordApply (h : Ready x) :
    Run (NodeStep J inp) (recording applyCommitted : Act σ Unit) x fun r y => r = .ok () ∧ Ready y :=
  run_recording ((run_applyCommitted h.wf fun hl => (h.calm hl).1).weaken
    fun _ _ hpath hy => hy.1.ready h (h.wf.path hpath) (hy.2 h.commit_le)) fun _ e hy => hy.recordError e

theorem run_tickTimers (h : Ready x) :
    Run (NodeStep J inp) (tickTimers : Act σ Unit) x fun r y => r = .ok () ∧ Ready y := by
  unfold tickTimers
  refine run_get_bind (run_ite (fun hl => ?_) fun hl => ?_)
  · refine run_ite (fun _ => ?_) fun _ => run_pure ⟨rfl, h⟩
    refine run_seq (run_sendHeartbeats h.wf hl) fun y hy => ?_
    have hy' : Ready y := (hy.lead (h.lead hl)).ready (hy.settled h.applied_le (h.calm hl).1)
    exact run_modify (single (.quiet rfl))
      ⟨rfl, { hy'.wf with }, hy'.applied_le, hy'.commit_le, hy'.calm⟩
  · refine run_ite (fun _ => ?_) fun _ => run_pure ⟨rfl, h⟩
    exact run_recording (run_startElection h hl) fun _ e hy => hy.recordError e

theorem run_tick (h : Ready x) :
    Run (NodeStep J inp) (tick : Act σ Unit) x fun _ y => Calm y := by
  unfold tick
  refine run_seq (run_tickTimers h) fun y hy => run_seq (run_recordApply hy) fun z hz => ?_
  exact (run_recording (run_maybeCompactLog hz.wf hz.applied_le hz.calm)
    fun _ e hy => hy).weaken fun _ _ _ hy => hy.2

/-- A proposal has been made: the leader has stored it, and has gone on from there. -/
def Proposes (J : Prop) (inp : Option (NodeId × Message)) (x : RaftNode σ) (data : Bytes)
    (proposal : Proposal) (y : RaftNode σ) : Prop :=
  x.role = .leader ∧ proposal.index = x.lastLogIndex + 1 ∧ proposal.completion = x.nextCompletion ∧
    ∃ store, x.logStore.append ⟨x.lastLogIndex + 1, x.hardState.term, data⟩ = .ok store ∧
      Relation.ReflTransGen (NodeStep J inp)
        (x.appendOwn store ⟨x.lastLogIndex + 1, x.hardState.term, data⟩) y

theorem run_propose (h : Ready x) (data : Bytes) :
    Run (NodeStep J inp) (propose data : Act σ Proposal) x fun r y =>
      Calm y ∧ ∀ proposal, r = .ok proposal → Proposes J inp x data proposal y := by
  unfold propose
  refine run_get_bind (run_ite (fun _ => run_throw ⟨h.calm, by simp⟩) fun hl => ?_)
  rw [not_not] at hl
  refine run_lift_bind (fun _ _ => ⟨h.calm, by simp⟩) fun store happ => ?_
  have hstep : NodeStep J inp x
      (x.appendOwn store ⟨x.lastLogIndex + 1, x.hardState.term, data⟩) :=
    .appendOwn x store data hl happ
  refine run_modify_bind (single hstep) ?_
  have hlead : Lead (x.appendOwn store ⟨x.lastLogIndex + 1, x.hardState.term, data⟩) :=
    ⟨hstep.wf h.wf, hl, h.applied_le, Nat.le_succ_of_le h.commit_le, (h.calm hl).2⟩
  refine Run.weaken (Q := fun r y => Calm y ∧ ∀ proposal, r = .ok proposal →
    proposal.index = x.lastLogIndex + 1 ∧ proposal.completion = x.nextCompletion) ?_
    fun r y hpath hy => ⟨hy.1, fun proposal hr =>
      ⟨hl, (hy.2 proposal hr).1, (hy.2 proposal hr).2, store, happ, hpath⟩⟩
  refine run_seq (run_recording (P := fun y => Lead y ∧ y.Settled) (run_advanceCommit hlead)
    fun y e hy => ⟨{ hy.1 with wf := { hy.1.wf with } }, hy.2⟩) ?_
  rintro y ⟨hly, hsy⟩
  refine run_seq (run_sendHeartbeats hly.wf hly.role) fun z hz => ?_
  refine run_get_bind (run_pure
    ⟨((hz.lead hly).ready (hz.settled hly.applied_le hsy)).calm, fun proposal hr => ?_⟩)
  cases hr
  exact ⟨rfl, rfl⟩

/-- The last statement of `read_barrier`. -/
theorem openBarrier_step (J : Prop) (inp : Option (NodeId × Message)) {y : RaftNode σ}
    {b : PendingReadBarrier} (hl : Lead y) (hs : y.Settled) (hid : b.completion = y.nextCompletion)
    (htgt : b.targetIndex = y.commitIndex) :
    NodeStep J inp y (openBarrier b y) ∧ Calm (openBarrier b y) := by
  unfold openBarrier
  by_cases hready : y.barrierReady b = true
  · simp only [if_pos hready]
    have hall : y.commitIndex ≤ y.lastApplied := by
      have := hready
      unfold barrierReady at this
      simp only [Bool.and_eq_true, decide_eq_true_eq] at this
      omega
    exact ⟨.answerRead y b hl.role hid hready hall hs, fun _ => ⟨hs, hl.reads⟩⟩
  · simp only [if_neg hready]
    refine ⟨.openRead y b hl.role hid, fun _ => ⟨hs, fun b' hb' => ?_⟩⟩
    rcases mem_snoc.mp hb' with hb' | rfl
    · exact hl.reads b' hb'
    · show y.commitIndex ≤ y.lastApplied ∨ y.lastApplied < b'.targetIndex
      omega

/-- What a successful `read_barrier` leaves behind: a leader has sent a round of heartbeats, and the
    barrier waits for that round and for the commit index of the call. -/
structure BarrierCalled (x : RaftNode σ) (read : ReadIndex) (y : RaftNode σ) : Prop where
  role : x.role = .leader
  completion : read.completion = x.nextCompletion
  opened : ∃ z, BeatsOnly { x with readBarrierCount := x.readBarrierCount + 1 } z ∧ z.Settled ∧
    y = openBarrier ⟨x.heartbeatRound + 1, x.commitIndex, x.nextCompletion⟩ z

theorem run_readBarrier (h : Ready x) :
    Run (NodeStep J inp) (readBarrier : Act σ ReadIndex) x fun r y => Calm y ∧
      ∀ read, r = .ok read → BarrierCalled x read y := by
  unfold readBarrier
  refine run_modify_bind (single (.quiet rfl)) (run_get_bind (run_ite
    (fun _ => run_throw ⟨h.calm, by simp⟩) fun hl => ?_))
  rw [not_not] at hl
  have hlead : Lead { x with readBarrierCount := x.readBarrierCount + 1 } :=
    ⟨{ h.wf with }, hl, h.applied_le, h.commit_le, (h.calm hl).2⟩
  refine run_seq (run_sendHeartbeats hlead.wf hlead.role) fun y hbeats => ?_
  have hly := hbeats.lead hlead
  have hsy := hbeats.settled hlead.applied_le (h.calm hl).1
  obtain ⟨out, next, mtch, err, rfl, -⟩ := id hbeats
  obtain ⟨hstep, hcalm⟩ := openBarrier_step J inp hly hsy
    (b := ⟨x.heartbeatRound + 1, x.commitIndex, x.nextCompletion⟩) rfl rfl
  refine run_get_bind (run_modify_bind (single hstep) (run_pure ⟨hcalm, fun read hread => ?_⟩))
  cases hread
  exact ⟨hl, rfl, _, hbeats, hsy, rfl⟩

end Walk

end SqlDb.Raft.RaftNode
