/-
  WHICH APPEND REQUESTS A FOLLOWER ACCEPTS.

  A leader builds its requests from its own log, so a follower that holds the entry before the first
  carried one should be able to take them all.  It is not: the loop of `handle_append_entries`
  refuses every entry whose term is not the REQUEST's term.  A leader that inherited entries of
  earlier terms can never replicate them to a follower that lacks them
  (`inherited_entries_are_refused`).

  `append_accepted_iff` is the exact condition, for every message ever sent in any run: nothing
  below the follower's snapshot boundary is asked for, every carried entry is of the leader's own
  term, and the state machine rejects none of the entries it is given meanwhile.

  The handlers were walked through in `HandlerRun.lean` for what they cannot do; here they are
  EXECUTED, on a log store whose device accepts every write: `LoopOk q k x` is the state after `k` of
  the carried entries have been dealt with.
-/
import SqlDb.Raft.LogMatching

namespace SqlDb.Raft

open EpochLog RaftNode Prog

variable {σ : Type} {g : Group} {a : History} {n m : NodeId} {q : AppendEntriesRequest} {k : Nat}
  {x y : RaftNode σ} {e : LogEntry}

/-! ## A device that accepts every write -/

def LogStore.Sound (s : LogStore) : Prop := ∀ op, s.faults op = none

theorem LogStore.Sound.write {s : LogStore} (h : s.Sound) (op : WriteOp) (r : LogStore) :
    s.write op r = .ok r := by
  unfold LogStore.write
  rw [h op]

theorem LogStore.Sound.append {s : LogStore} (h : s.Sound) (hidx : e.index = s.lastIndex + 1)
    (hterm : e.term ≠ 0) : ∃ s', s.append e = .ok s' ∧ s'.Sound := by
  unfold LogStore.append
  rw [if_neg (by omega), if_neg (by omega), h.write]
  exact ⟨_, rfl, h⟩

theorem LogStore.Sound.truncateSuffix {s : LogStore} (h : s.Sound) (start : Nat)
    (hlo : s.snapshotMeta.lastIncludedIndex < start) (hhi : start ≤ s.lastIndex + 1) :
    ∃ s', s.truncateSuffix start = .ok s' ∧ s'.Sound := by
  unfold LogStore.truncateSuffix
  rw [if_neg (by omega), h.write]
  exact ⟨_, rfl, h⟩

/-! ## What the loop leaves alone -/

/-- The state machine has rejected nothing. -/
def NoneRejected (events : List Event) : Prop :=
  ∀ T entry error, Event.applied T entry (some error) ∉ events

/-- `y` differs from `x` in its log and in the completions it finished. -/
structure Stays (x y : RaftNode σ) : Prop where
  outbox : y.outbox = x.outbox
  hard : y.hardState = x.hardState
  role : y.role = x.role
  commit : y.commitIndex = x.commitIndex
  applied : y.lastApplied = x.lastApplied
  index : y.lastIncludedIndex = x.lastIncludedIndex
  rejected : NoneRejected x.events → NoneRejected y.events

theorem Stays.refl (x : RaftNode σ) : Stays x x := ⟨rfl, rfl, rfl, rfl, rfl, rfl, id⟩

theorem Stays.trans {z : RaftNode σ} (h : Stays x y) (h' : Stays y z) : Stays x z where
  outbox := h'.outbox.trans h.outbox
  hard := h'.hard.trans h.hard
  role := h'.role.trans h.role
  commit := h'.commit.trans h.commit
  applied := h'.applied.trans h.applied
  index := h'.index.trans h.index
  rejected := fun hx => h'.rejected (h.rejected hx)

/-- Finishing completions rejects nothing. -/
theorem NoneRejected.append_finished {events : List Event} (h : NoneRejected events)
    {ids : List CompletionId} {error : Option Error} {lastApplied : Nat} :
    NoneRejected (events ++ ids.map fun id => .finished id error lastApplied) := by
  intro T entry error hmem
  rcases List.mem_append.mp hmem with hmem | hmem
  · exact h T entry error hmem
  · simp at hmem

/-! ## The loop over the carried entries -/

/-- The first `k` carried entries are held; an entry of the log that has the term of a carried one
    at its place is that carried one. -/
structure LoopOk (q : AppendEntriesRequest) (k : Nat) (x : RaftNode σ) : Prop where
  wf : x.Wf
  sound : x.logStore.Sound
  above : x.lastIncludedIndex ≤ q.prevLogIndex
  reach : q.prevLogIndex + k ≤ x.lastLogIndex
  held : ∀ j e, j < k → q.entries[j]? = some e →
    x.logStore.entryAt (q.prevLogIndex + j + 1) = .ok e
  alike : ∀ j e e', k ≤ j → q.entries[j]? = some e →
    x.logStore.entryAt (q.prevLogIndex + j + 1) = .ok e' → e'.term = e.term → e' = e
  commit_le : x.commitIndex ≤ x.lastLogIndex
  /-- What is committed does not conflict. -/
  settled : ∀ j e e', k ≤ j → q.entries[j]? = some e → q.prevLogIndex + j + 1 ≤ x.commitIndex →
    x.logStore.entryAt (q.prevLogIndex + j + 1) = .ok e' → e'.term = e.term

theorem resolveConflict_ok (h : LoopOk q k x) (he : q.entries[k]? = some e) :
    ∃ y, (resolveConflict e (q.prevLogIndex + k + 1) : Act σ Unit) x = (.ok (), y) ∧
      LoopOk q k y ∧ Stays x y ∧
      (y.lastLogIndex = q.prevLogIndex + k ∨
        y.logStore.entryAt (q.prevLogIndex + k + 1) = .ok e) := by
  have habove := h.above
  have hreach := h.reach
  unfold resolveConflict
  rw [get_bind_apply]
  split
  · rename_i hle
    obtain ⟨existing, hex⟩ := h.wf.entryAt_exists (Nat.succ_pos _) (by omega) hle
    rw [hex, lift_ok_bind]
    split
    · -- a conflict: the log is cut and ends right before the carried entry
      rename_i hconflict
      have hcommit : x.commitIndex ≤ q.prevLogIndex + k := by
        by_contra hgt
        exact hconflict (h.settled k e existing le_rfl he (by omega) hex)
      obtain ⟨s, hs, hsound⟩ := h.sound.truncateSuffix (q.prevLogIndex + k + 1)
        (by rw [← h.wf.index]; omega) (by rw [← h.wf.last]; omega)
      rw [hs, lift_ok_bind]
      have hw := h.wf.store.truncateSuffix hs
      have hlow : ∀ i, i < q.prevLogIndex + k + 1 → s.entryAt i = x.logStore.entryAt i :=
        fun i hi => LogStore.entryAt_truncateSuffix hs hi
      obtain ⟨-, -, hseq⟩ := LogStore.truncateSuffix_ok hs
      refine ⟨_, rfl, ?_, ?_, Or.inl rfl⟩
      · exact {
          wf := { h.wf with
            store := hw
            last := by rw [hseq]; rfl
            index := by rw [hseq]; exact h.wf.index
            term := by rw [hseq]; exact h.wf.term
            hard := by rw [hseq]; exact h.wf.hard
            idle := fun hr => ⟨filter_nil_of_nil (h.wf.idle hr).1, (h.wf.idle hr).2⟩ }
          sound := hsound
          above := habove
          reach := le_rfl
          held := fun j f hj hf => by
            show s.entryAt _ = _
            rw [hlow _ (by omega)]
            exact h.held j f hj hf
          alike := fun j f f' hj hf hf' => by
            -- nothing is left above the cut
            have hr : q.prevLogIndex + j + 1 ≤ s.lastIndex := (LogStore.entryAt_range hf').2.1
            rw [hseq] at hr
            simp only at hr
            omega
          commit_le := hcommit
          settled := fun j f f' hj _ hc => by
            have hc : q.prevLogIndex + j + 1 ≤ x.commitIndex := hc
            omega }
      · exact ⟨rfl, rfl, rfl, rfl, rfl, rfl, fun hx => hx.append_finished⟩
    · rename_i hterm
      rw [not_not] at hterm
      obtain rfl := h.alike k e existing le_rfl he hex hterm
      rw [if_neg (by simp)]
      exact ⟨x, rfl, h, Stays.refl x, Or.inr hex⟩
  · rename_i hgt
    exact ⟨x, rfl, h, Stays.refl x, Or.inl (by omega)⟩

theorem appendMissing_ok (h : LoopOk q k x) (he : q.entries[k]? = some e)
    (hidx : e.index = q.prevLogIndex + k + 1) (hterm : e.term ≠ 0)
    (hnext : x.lastLogIndex = q.prevLogIndex + k ∨
      x.logStore.entryAt (q.prevLogIndex + k + 1) = .ok e) :
    ∃ y, (appendMissing e (q.prevLogIndex + k + 1) : Act σ Unit) x = (.ok (), y) ∧
      LoopOk q (k + 1) y ∧ Stays x y := by
  have hreach := h.reach
  unfold appendMissing
  rw [get_bind_apply]
  split_ifs with hge
  · have hlast : x.lastLogIndex = q.prevLogIndex + k := by omega
    obtain ⟨s, hs, hsound⟩ := h.sound.append (e := e) (by rw [← h.wf.last]; omega) hterm
    rw [hs, lift_ok_bind]
    have hw := h.wf.store.append hs
    have hat := h.wf.store.entryAt_append hs
    rw [hidx] at hat
    obtain ⟨-, -, hseq⟩ := LogStore.append_ok hs
    refine ⟨_, rfl, ?_, ⟨rfl, rfl, rfl, rfl, rfl, rfl, id⟩⟩
    exact {
      wf := { h.wf with
        store := hw
        last := by rw [hseq]; exact hidx.symm
        index := by rw [hseq]; exact h.wf.index
        term := by rw [hseq]; exact h.wf.term
        hard := by rw [hseq]; exact h.wf.hard }
      sound := hsound
      above := h.above
      reach := le_rfl
      held := fun j f hj hf => by
        show s.entryAt _ = _
        rw [hat]
        rcases Nat.lt_succ_iff_lt_or_eq.mp hj with hj | rfl
        · rw [if_neg (by omega)]
          exact h.held j f hj hf
        · rw [if_pos rfl]
          rw [he] at hf
          exact congrArg Except.ok (Option.some.inj hf)
      alike := fun j f f' hj hf hf' => by
        have hr : q.prevLogIndex + j + 1 ≤ s.lastIndex := (LogStore.entryAt_range hf').2.1
        rw [hseq] at hr
        simp only at hr
        omega
      commit_le := by
        have := h.commit_le
        show x.commitIndex ≤ q.prevLogIndex + k + 1
        omega
      settled := fun j f f' hj _ hc => by
        have := h.commit_le
        have hc : q.prevLogIndex + j + 1 ≤ x.commitIndex := hc
        omega }
  · have hheld := hnext.resolve_left (by omega)
    refine ⟨x, rfl, ?_, Stays.refl x⟩
    refine { h with
      reach := by omega
      held := fun j f hj hf => ?_
      alike := fun j f f' hj hf hf' => h.alike j f f' (by omega) hf hf'
      settled := fun j f f' hj hf hc hf' => h.settled j f f' (by omega) hf hc hf' }
    rcases Nat.lt_succ_iff_lt_or_eq.mp hj with hj | rfl
    · exact h.held j f hj hf
    · rw [he] at hf
      rw [hheld, Option.some.inj hf]

/-- The loop takes all entries of the request's own term. -/
theorem appendLoop_ok (hterm : q.term ≠ 0)
    (hidx : ∀ (j : Nat) e, q.entries[j]? = some e → e.index = q.prevLogIndex + j + 1)
    (hown : ∀ e ∈ q.entries, e.term = q.term) (rest : List LogEntry) :
    ∀ {k : Nat} {x : RaftNode σ}, q.entries.drop k = rest → k ≤ q.entries.length → LoopOk q k x →
      ∃ y, (appendLoop q.term rest (q.prevLogIndex + k) : Act σ Nat) x = (.ok q.lastIndex, y) ∧
        LoopOk q q.entries.length y ∧ Stays x y := by
  induction rest with
  | nil =>
    intro k x hdrop hk h
    obtain rfl : k = q.entries.length := Nat.le_antisymm hk (List.drop_eq_nil_iff.mp hdrop)
    exact ⟨x, rfl, h, Stays.refl x⟩
  | cons entry rest ih =>
    intro k x hdrop hk h
    have he : q.entries[k]? = some entry := by
      rw [← List.head?_drop, hdrop]
      rfl
    have hdrop' : q.entries.drop (k + 1) = rest := by
      rw [← List.tail_drop, hdrop]
      rfl
    have hlt : k < q.entries.length := lt_of_getElem? he
    have hentry := hown entry (List.mem_of_getElem? he)
    obtain ⟨y, hy, hly, hsy, hnext⟩ := resolveConflict_ok h he
    obtain ⟨z, hz, hlz, hsz⟩ := appendMissing_ok hly he (hidx k entry he) (by omega) hnext
    obtain ⟨u, hu, hlu, hsu⟩ := ih hdrop' hlt hlz
    refine ⟨u, ?_, hlu, (hsy.trans hsz).trans hsu⟩
    rw [appendLoop, if_neg (by rw [hidx k entry he]; simp [hentry]), bind_apply_ok hy,
      bind_apply_ok hz]
    exact hu

/-- The loop takes no others. -/
theorem appendLoop_own (T : Nat) (rest : List LogEntry) : ∀ {i r : Nat} {x y : RaftNode σ},
    (appendLoop T rest i : Act σ Nat) x = (.ok r, y) → ∀ e ∈ rest, e.term = T := by
  induction rest with
  | nil => intro i r x y _ e he; simp at he
  | cons entry rest ih =>
    intro i r x y h e he
    rw [appendLoop] at h
    split_ifs at h with hcheck
    · simp at h
    · obtain ⟨_, _, -, h⟩ := bind_eq_ok.mp h
      obtain ⟨_, _, -, h⟩ := bind_eq_ok.mp h
      rcases List.mem_cons.mp he with rfl | he
      · omega
      · exact ih h e he

/-! ## Applying what the request commits -/

section Apply

variable [StateMachine σ]

/-- The loop fails exactly if the state machine rejects an entry. -/
theorem applyLoop_ok_iff (fuel : Nat) : ∀ {x : RaftNode σ}, x.Wf → x.commitIndex ≤ x.lastLogIndex →
    NoneRejected x.events →
    ((applyLoop fuel x).1 = .ok () ↔ NoneRejected (applyLoop fuel x).2.events) := by
  induction fuel with
  | zero =>
    intro x _ _ hx
    exact ⟨fun _ => hx, fun _ => rfl⟩
  | succ fuel ih =>
    intro x hw hc hx
    by_cases hlt : x.lastApplied < x.commitIndex
    · obtain ⟨entry, hentry⟩ := hw.entryAt_exists (Nat.succ_pos x.lastApplied)
        (by have := hw.applied_ge; omega) (show x.lastApplied + 1 ≤ x.lastLogIndex by omega)
      rcases happ : StateMachine.apply x.stateMachine entry with ⟨result, machine⟩
      cases result with
      | error e =>
        rw [applyLoop_error hlt hentry happ]
        constructor
        · intro h
          simp at h
        · intro h
          refine absurd ?_ (h x.hardState.term entry e)
          simp [applyFailed, failReadBarriers, failPendingProposals, finish, emit]
      | ok res =>
        rw [applyLoop_ok hlt hentry happ]
        obtain ⟨⟨_, _, _, _, _, _, heq, -⟩, -⟩ := applied_appliesOnly machine entry hlt
        have hstep : NodeStep False none x (x.applied machine entry) :=
          .applied x machine entry res hlt hentry happ
        have hwy := hstep.wf hw
        refine ih hwy (by rw [heq]; exact hc) ?_
        have hev := (completeAppliedProposal_client (x.lastApplied + 1)
          { emit (.applied x.hardState.term entry none)
              { x with stateMachine := machine, applyCount := x.applyCount + 1 } with
            lastApplied := x.lastApplied + 1 }).1
        have hev : (x.applied machine entry).events = _ := hev
        rw [hev]
        refine NoneRejected.append_finished fun T f err hmem => ?_
        rcases List.mem_append.mp hmem with hmem | hmem
        · exact hx T f err hmem
        · simp at hmem
    · rw [applyLoop, get_bind_apply, if_neg hlt]
      exact ⟨fun _ => hx, fun _ => rfl⟩

theorem applyCommitted_ok_iff (hw : x.Wf) (hc : x.commitIndex ≤ x.lastLogIndex)
    (hx : NoneRejected x.events) :
    ((applyCommitted x).1 = .ok () ↔ NoneRejected (applyCommitted x).2.events) := by
  have hloop := applyLoop_ok_iff (x.commitIndex - x.lastApplied) hw hc hx
  unfold applyCommitted
  rw [get_bind_apply]
  rcases hr : applyLoop (x.commitIndex - x.lastApplied) x with ⟨_ | _, y⟩
  · rw [bind_apply_error hr]
    rw [hr] at hloop
    exact hloop
  · rw [bind_apply_ok hr]
    rw [hr] at hloop
    exact ⟨fun h => (hloop.mp rfl).append_finished, fun _ => rfl⟩

theorem applyCommitted_log (hw : x.Wf) (hrole : x.role = .follower) :
    (applyCommitted x).2.logStore = x.logStore ∧ (applyCommitted x).2.outbox = x.outbox := by
  have hrun : Prog.Run (NodeStep False none) applyCommitted x fun _ y => AppliesOnly x y ∧ _ :=
    run_applyCommitted hw fun hl => by rw [hrole] at hl; simp at hl
  obtain ⟨⟨_, _, _, _, _, _, heq, -⟩, -⟩ := hrun.post
  rw [heq]
  exact ⟨rfl, rfl⟩

/-! ## Handling the request -/

/-- The request is accepted: the handler returns without an error, the log holds all carried
    entries, and the sender is told so. -/
def Accepted (src : NodeId) (q : AppendEntriesRequest) (outcome : Except Error Unit × RaftNode σ) :
    Prop :=
  outcome.1 = .ok () ∧ (∀ e ∈ q.entries, outcome.2.logStore.entryAt e.index = .ok e) ∧
    ∃ r, (src, .appendEntriesResponse r) ∈ outcome.2.outbox ∧ r.success = true ∧
      r.matchIndex = q.lastIndex

/-- A follower whose log was compacted beyond the request rejects it. -/
theorem acceptEntries_below (src : NodeId) (hout : x.outbox = [])
    (hlt : q.prevLogIndex < x.lastIncludedIndex) : ¬ Accepted src q (acceptEntries src q x) := by
  rintro ⟨-, -, r, hr, hsucc, -⟩
  unfold acceptEntries at hr
  rw [get_bind_apply] at hr
  have hmem : ∀ response : AppendEntriesResponse, response.success = false →
      (src, Message.appendEntriesResponse r) ∈
        (send src (.appendEntriesResponse response) x).outbox → False := by
    intro response hfalse hmem
    unfold send at hmem
    rw [hout] at hmem
    simp only [List.nil_append, List.mem_singleton, Prod.mk.injEq, true_and,
      Message.appendEntriesResponse.injEq] at hmem
    rw [hmem, hfalse] at hsucc
    simp at hsucc
  split at hr
  · exact hmem _ rfl hr
  · exact hmem _ rfl hr

/-- What `acceptEntries` does once the carried entries are in the log. -/
def commitAndReply (src : NodeId) (q : AppendEntriesRequest) (matched : Nat) : Act σ Unit := do
  Prog.modify fun x =>
    if x.commitIndex < q.leaderCommit then
      { x with commitIndex := min q.leaderCommit x.lastLogIndex }
    else x
  let result ← Prog.attempt applyCommitted
  let y ← Prog.get
  Prog.modify (send src (.appendEntriesResponse
    { term := y.hardState.term, success := true, matchIndex := matched, round := q.round }))
  Prog.lift result

theorem acceptEntries_eq (src : NodeId) (hw : x.Wf) (hlo : x.lastIncludedIndex ≤ q.prevLogIndex)
    (hprev : q.prevLogIndex = 0 ∨
      ∃ e, x.logStore.entryAt q.prevLogIndex = .ok e ∧ e.term = q.prevLogTerm) :
    acceptEntries src q x =
      (appendLoop q.term q.entries q.prevLogIndex >>= commitAndReply src q) x := by
  have hhi : q.prevLogIndex ≤ x.lastLogIndex := by
    rcases hprev with h0 | ⟨e, he, -⟩
    · omega
    · exact (hw.entryAt_range he).2.1
  have hcheck : (if q.prevLogIndex = 0 then .ok q.prevLogTerm
      else x.termForCheck q.prevLogIndex : Except Error Nat) = .ok q.prevLogTerm := by
    split_ifs with h0
    · rfl
    · exact (hw.termForCheck_iff (by omega)).mpr (hprev.resolve_left h0)
  unfold acceptEntries
  rw [get_bind_apply, if_neg (by omega), if_neg (by omega), hcheck, lift_ok_bind,
    if_neg (by simp)]
  rfl

/-- The reply is positive in any case; the handler fails if the state machine rejects an entry. -/
theorem commitAndReply_spec (src : NodeId) (hw : x.Wf) (hrole : x.role = .follower)
    (hc : x.commitIndex ≤ x.lastLogIndex) (hx : NoneRejected x.events) (matched : Nat) :
    ((commitAndReply src q matched x).1 = .ok () ↔
        NoneRejected (commitAndReply src q matched x).2.events) ∧
      (commitAndReply src q matched x).2.logStore = x.logStore ∧
      ∃ r, (src, .appendEntriesResponse r) ∈ (commitAndReply src q matched x).2.outbox ∧
        r.success = true ∧ r.matchIndex = matched := by
  unfold commitAndReply
  rw [modify_bind_apply]
  generalize hz : (if x.commitIndex < q.leaderCommit then
    { x with commitIndex := min q.leaderCommit x.lastLogIndex } else x) = z
  have hzw : z.Wf ∧ z.role = .follower ∧ z.commitIndex ≤ z.lastLogIndex ∧
      z.logStore = x.logStore ∧ NoneRejected z.events := by
    subst hz
    split
    · exact ⟨{ hw with }, hrole, Nat.min_le_right _ _, rfl, hx⟩
    · exact ⟨hw, hrole, hc, rfl, hx⟩
  obtain ⟨hzw, hzr, hzc, hlog, hev⟩ := hzw
  have hiff := applyCommitted_ok_iff hzw hzc hev
  obtain ⟨hlog', -⟩ := applyCommitted_log hzw hzr
  rcases happly : applyCommitted z with ⟨result, u⟩
  rw [happly] at hiff hlog'
  have hattempt : (attempt applyCommitted : Act σ (Except Error Unit)) z = (.ok result, u) := by
    unfold attempt
    rw [happly]
  rw [bind_apply_ok hattempt, get_bind_apply, modify_bind_apply]
  have hreply : ∀ r, (src, r) ∈ (send src r u).outbox := fun r =>
    List.mem_append_right _ (List.mem_singleton.mpr rfl)
  cases result with
  | ok | error => exact ⟨hiff, hlog'.trans hlog, _, hreply _, rfl, rfl⟩

/-- A follower that can check the request takes it exactly if all entries are of the request's own
    term and the state machine rejects nothing. -/
theorem acceptEntries_iff (src : NodeId) (h : LoopOk q 0 x) (hrole : x.role = .follower)
    (hx : NoneRejected x.events) (hterm : q.term ≠ 0)
    (hprev : q.prevLogIndex = 0 ∨
      ∃ e, x.logStore.entryAt q.prevLogIndex = .ok e ∧ e.term = q.prevLogTerm)
    (hidx : ∀ (j : Nat) e, q.entries[j]? = some e → e.index = q.prevLogIndex + j + 1) :
    Accepted src q (acceptEntries src q x) ↔
      (∀ e ∈ q.entries, e.term = q.term) ∧ NoneRejected (acceptEntries src q x).2.events := by
  rw [acceptEntries_eq src h.wf h.above hprev]
  by_cases hown : ∀ e ∈ q.entries, e.term = q.term
  · obtain ⟨y, hloop, hy, hstays⟩ := appendLoop_ok (k := 0) hterm hidx hown q.entries rfl
      (Nat.zero_le _) h
    rw [Nat.add_zero] at hloop
    rw [bind_apply_ok hloop]
    obtain ⟨hiff, hlog, hreply⟩ := commitAndReply_spec (q := q) src hy.wf
      (hstays.role.trans hrole) hy.commit_le (hstays.rejected hx) q.lastIndex
    constructor
    · rintro ⟨hok, -, -⟩
      exact ⟨hown, hiff.mp hok⟩
    · rintro ⟨-, hnone⟩
      refine ⟨hiff.mpr hnone, fun e he => ?_, hreply⟩
      obtain ⟨j, hj⟩ := List.getElem?_of_mem he
      rw [hlog, hidx j e hj]
      exact hy.held j e (lt_of_getElem? hj) hj
  · constructor
    · rintro ⟨hok, -, -⟩
      exfalso
      -- the loop stops at the first entry of another term, and the handler with it
      obtain ⟨_, _, hloop, -⟩ := bind_eq_ok.mp (Prod.ext hok rfl)
      exact hown (appendLoop_own _ _ hloop)
    · rintro ⟨h', -⟩
      exact absurd h' hown

end Apply

/-! ## Requests of a run -/

/-- A log and a true request that have one term at one index have one entry there. -/
theorem NodeOk.alike (h : NodeOk g a m x) (hinv : Inv g.quorums a) (hq : AppendOk a n q) {j : Nat}
    {e e' : LogEntry} (hlo : x.lastIncludedIndex ≤ q.prevLogIndex) (he : q.entries[j]? = some e)
    (he' : x.logStore.entryAt (q.prevLogIndex + j + 1) = .ok e') (hterm : e'.term = e.term) :
    e' = e := by
  obtain ⟨f, hf, ht, hd⟩ := h.log.entry _ _ he'
  have hd := hd (by omega)
  rw [Nat.add_sub_cancel] at hf
  have hleader := hq.entries j e he
  have hgraft := h.graft
  -- above its graft point a log follows the leader log of each entry's term
  have hseg := hinv.seg m _ f (by omega) hf _ (by omega) le_rfl
  rw [hf, ← ht, hterm, ← (hinv.tree _ _ _ hleader).2 _ (Nat.lt_succ_self _), hleader] at hseg
  cases hseg
  have hidx := h.wf.store.entryAt_index he'
  rw [← hq.index j e he] at hidx
  cases e
  cases e'
  simp_all

/-- What a node has committed agrees with a true request of its term or a later one. -/
theorem NodeOk.commit_alike (h : NodeOk g a m x) (hinv : Inv g.quorums a) (hq : AppendOk a n q)
    (hterm : x.hardState.term ≤ q.term) {j : Nat} {e e' : LogEntry} (he : q.entries[j]? = some e)
    (hc : q.prevLogIndex + j + 1 ≤ x.commitIndex)
    (he' : x.logStore.entryAt (q.prevLogIndex + j + 1) = .ok e') : e'.term = e.term := by
  obtain ⟨f, hf, ht, -⟩ := h.log.entry _ _ he'
  rw [Nat.add_sub_cancel] at hf
  obtain ⟨v, hv, hcv, hag⟩ := h.commit
  have hlead := leader_holds hinv (hv.trans hterm) (by rw [hq.leader]; simp)
  have hleader := hq.entries j e he
  rw [hlead _ (by omega), ← hag _ (by omega), hf] at hleader
  rw [ht, Option.some.inj hleader]

/-- Following the leader of a later term succeeds on a sound log store. -/
theorem followLeader_ok (hs : x.logStore.Sound) (T : Nat) (li : NodeId)
    (hx : NoneRejected x.events) :
    ∃ y, (followLeader T li : Act σ Unit) x = (.ok (), y) ∧ NoneRejected y.events := by
  have hrel : ∀ z : RaftNode σ, NoneRejected z.events →
      NoneRejected (relinquish (some li) z).events := by
    intro z hz
    unfold relinquish
    split
    · exact hz.append_finished.append_finished
    · exact hz
  unfold followLeader
  rw [get_bind_apply]
  split
  · unfold becomeFollower
    rw [get_bind_apply]
    split
    · have hsave : x.logStore.saveHardState ⟨T, none⟩ = .ok _ := hs.write _ _
      rw [bind_apply_ok (writeLog_ok hsave)]
      exact ⟨_, rfl, hrel _ hx⟩
    · exact ⟨_, rfl, hrel _ hx⟩
  · exact ⟨_, rfl, hx⟩

variable [StateMachine σ]

omit [StateMachine σ] in
/-- The receiver of a true request, once it follows the sender. -/
theorem loopOk_start (h : NodeOk g a m x) (hinv : Inv g.quorums a) (hq : AppendOk a n q)
    (hterm : x.hardState.term ≤ q.term) (hs : x.logStore.Sound) (hw : y.Wf) (hlog : SameLog x y)
    (hlo : x.lastIncludedIndex ≤ q.prevLogIndex) (hhi : q.prevLogIndex ≤ x.lastLogIndex) :
    LoopOk q 0 y where
  wf := hw
  sound := fun op => by rw [hlog.faults]; exact hs op
  above := by rw [hlog.index]; exact hlo
  reach := by rw [hlog.last]; exact hhi
  held := fun j e hj => absurd hj (Nat.not_lt_zero j)
  alike := fun j e e' _ he he' => h.alike hinv hq hlo he (hlog.entry _ ▸ he')
  commit_le := by rw [hlog.commit, hlog.last]; exact h.commit_le
  settled := fun j e e' _ he hc he' =>
    h.commit_alike hinv hq hterm he (hlog.commit ▸ hc) (hlog.entry _ ▸ he')

theorem handleAppendEntries_iff {w : World σ} (h : Sim g a w) (hcalm : AllCalm g w)
    (hm : m ∈ g.peers) (hq : AppendOk a n q) (hterm : (w.nodes m).hardState.term ≤ q.term)
    (hprev : q.prevLogIndex = 0 ∨
      ∃ e, w.HasEntry m q.prevLogIndex e ∧ e.term = q.prevLogTerm) (now : Nat) :
    Accepted n q (handleAppendEntries n q (w.enter m now fun _ => none)) ↔
      (w.nodes m).lastIncludedIndex ≤ q.prevLogIndex ∧ (∀ e ∈ q.entries, e.term = q.term) ∧
      NoneRejected (handleAppendEntries n q (w.enter m now fun _ => none)).2.events := by
  have hx := (h.node m hm).enter now fun _ => none
  have hquiet := h.quiet m
  have hready : Calm (w.enter m now fun _ => none) := hcalm m hm
  have hs : (w.enter m now fun _ => none).logStore.Sound := fun _ => rfl
  have hnone : NoneRejected (w.enter m now fun _ => none).events := by
    intro T e err hmem
    have hmem : _ ∈ (w.nodes m).events := hmem
    rw [hquiet.2] at hmem
    simp at hmem
  have hle : ¬ q.term < (w.enter m now fun _ => none).hardState.term := Nat.not_lt.mpr hterm
  obtain ⟨y, hfollow, hny⟩ := followLeader_ok hs q.term q.leaderId hnone
  have hlog : SameLog (w.enter m now fun _ => none) y := by
    have := followLeader_sameLog q.term q.leaderId (w.enter m now fun _ => none)
    rwa [hfollow] at this
  have hrun : Run (NodeStep False none) (followLeader q.term q.leaderId : Act σ Unit)
      (w.enter m now fun _ => none) _ := run_followLeader hready q.leaderId hle
  have hpath := hrun.path
  have hpost := hrun.post
  rw [hfollow] at hpath hpost
  have hwy := hx.wf.path hpath
  obtain ⟨hrole, -⟩ := hpost.2 rfl
  have heq : handleAppendEntries n q (w.enter m now fun _ => none) = acceptEntries n q y := by
    unfold handleAppendEntries
    rw [get_bind_apply, if_neg hle, bind_apply_ok hfollow]
  rw [heq]
  by_cases hlo : (w.nodes m).lastIncludedIndex ≤ q.prevLogIndex
  · have hhi : q.prevLogIndex ≤ (w.nodes m).lastLogIndex := by
      rcases hprev with h0 | ⟨e, he, -⟩
      · omega
      · exact (hx.wf.entryAt_range he).2.1
    have hloop := loopOk_start hx h.inv hq hterm hs hwy hlog hlo hhi
    have hzero : q.term ≠ 0 := by
      intro h0
      have := hq.leader
      rw [h0, h.inv.leader_pos] at this
      simp at this
    rw [acceptEntries_iff n hloop hrole hny hzero ?_ hq.index]
    · exact ⟨fun h => ⟨hlo, h⟩, fun h => h.2⟩
    · refine hprev.imp id fun ⟨e, he, het⟩ => ⟨e, ?_, het⟩
      rw [hlog.entry]
      exact he
  · constructor
    · intro hacc
      exact absurd hacc (acceptEntries_below n (hlog.outbox.trans hquiet.1)
        (by rw [hlog.index]; exact Nat.lt_of_not_le hlo))
    · rintro ⟨h', -⟩
      exact absurd h' hlo

/-- **Acceptance of append requests.**  Take any append request ever sent in a run, at any later
    moment, and ANY node of the group in a term up to the request's whose log holds the entry before
    the first carried one.  It accepts exactly if its log is not compacted beyond that entry, all
    carried entries are of the request's own term, and its state machine answers none of the entries
    that it is given with an error. -/
theorem append_accepted_iff (g : Group) (machine : NodeId → σ) (inputs : List (Input σ)) (now : Nat)
    (env : Envelope) (q : AppendEntriesRequest) (n : NodeId)
    (hsent : env ∈ (World.run g machine inputs).sent) (hq : env.message = .appendEntries q)
    (hn : n ∈ g.peers) (hterm : ((World.run g machine inputs).nodes n).hardState.term ≤ q.term)
    (hprev : q.prevLogIndex = 0 ∨
      ∃ e, (World.run g machine inputs).HasEntry n q.prevLogIndex e ∧ e.term = q.prevLogTerm) :
    Accepted env.src q (handleAppendEntries env.src q
        ((World.run g machine inputs).enter n now fun _ => none)) ↔
      ((World.run g machine inputs).nodes n).lastIncludedIndex ≤ q.prevLogIndex ∧
      (∀ e ∈ q.entries, e.term = q.term) ∧
      NoneRejected (handleAppendEntries env.src q
        ((World.run g machine inputs).enter n now fun _ => none)).2.events := by
  obtain ⟨a, h, hcalm⟩ := World.run_sim g machine inputs
  generalize World.run g machine inputs = w at *
  obtain ⟨src, dst, message⟩ := env
  obtain rfl : message = .appendEntries q := hq
  have hqok : AppendOk a src q := (h.sent _ hsent).1
  exact handleAppendEntries_iff h hcalm hn hqok hterm hprev now

/-- Node 1 leads in term 1 and node 2 takes its first entry; node 2 leads in term 2 and finds out
    that node 3 has nothing yet. -/
def inherited : List (Input NullMachine) :=
  [.tick 1 5000, .deliver 0, .deliver 2, .deliver 3, .tick 2 20000, .deliver 7, .deliver 8,
    .deliver 10, .deliver 11]

/-- The first request of node 1 carries its no-op entry. -/
def firstRequest : AppendEntriesRequest :=
  { term := 1, leaderId := 1, prevLogIndex := 0, prevLogTerm := 0, entries := [⟨1, 1, []⟩],
    leaderCommit := 0, round := 1 }

theorem append_accepted_iff_firstRequest :
    Accepted 1 firstRequest (handleAppendEntries 1 firstRequest
      ((World.run trio nullMachines (inherited.take 3)).enter 2 0 fun _ => none)) := by
  have hsent : ⟨1, 2, .appendEntries firstRequest⟩ ∈
      (World.run trio nullMachines (inherited.take 3)).sent := by
    decide +kernel
  have hterm : ((World.run trio nullMachines (inherited.take 3)).nodes 2).hardState.term
      ≤ firstRequest.term := by
    decide +kernel
  have hindex : ((World.run trio nullMachines (inherited.take 3)).nodes 2).lastIncludedIndex
      ≤ firstRequest.prevLogIndex := by
    decide +kernel
  have hevents : (handleAppendEntries 1 firstRequest
      ((World.run trio nullMachines (inherited.take 3)).enter 2 0 fun _ => none)).2.events
      = [] := by
    decide +kernel
  refine (append_accepted_iff trio nullMachines (inherited.take 3) 0
    ⟨1, 2, .appendEntries firstRequest⟩ firstRequest 2 hsent rfl (by decide) hterm
    (Or.inl rfl)).mpr ⟨hindex, by decide, ?_⟩
  rw [hevents]
  intro T e error h
  simp at h

/-- What the leader of term 2 sends to node 3, which has nothing: an entry of term 1, which it
    inherited, and its own first entry. -/
def inheritedRequest : AppendEntriesRequest :=
  { term := 2, leaderId := 2, prevLogIndex := 0, prevLogTerm := 0,
    entries := [⟨1, 1, []⟩, ⟨2, 2, []⟩], leaderCommit := 0, round := 1 }

/-- Node 3 refuses it with an error, stores nothing and does not reply. -/
theorem inherited_entries_are_refused :
    ⟨2, 3, .appendEntries inheritedRequest⟩ ∈ (World.run trio nullMachines inherited).sent ∧
    ((World.run trio nullMachines inherited).nodes 2).role = .leader ∧
    ((World.run trio nullMachines inherited).nodes 2).hardState.term = inheritedRequest.term ∧
    ((World.run trio nullMachines inherited).nodes 3).role = .follower ∧
    ((World.run trio nullMachines inherited).nodes 3).hardState.term = inheritedRequest.term ∧
    (handleAppendEntries 2 inheritedRequest
      ((World.run trio nullMachines inherited).enter 3 0 fun _ => none)).1
        = .error ⟨.invalidArgument, "append entries request has inconsistent index or term"⟩ ∧
    (handleAppendEntries 2 inheritedRequest
      ((World.run trio nullMachines inherited).enter 3 0 fun _ => none)).2.logStore.entries = [] ∧
    (handleAppendEntries 2 inheritedRequest
      ((World.run trio nullMachines inherited).enter 3 0 fun _ => none)).2.outbox = [] := by
  decide +kernel

end SqlDb.Raft
