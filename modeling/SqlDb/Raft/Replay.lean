/-
  REPLAY AFTER A RESTART.

  A restarted node begins again at its snapshot boundary and applies the entries above it once more,
  to a store that already contains them.  The request-result store is meant to make this harmless:
  an entry whose request is its client's latest one is answered without a write.

  But only the LATEST request of a client is kept, and an older one is an error.  So the replay goes
  through exactly if no client has two different requests above the boundary
  (`restart_replay_iff`).  When it goes through nothing at all is written; when it does not, the node
  stops at the first entry that is not its client's latest (`two_requests_stop_replay`) and never
  gets any further.
-/
import SqlDb.Raft.GroupRun
import SqlDb.Raft.KvStateMachine

namespace SqlDb.Raft

open RaftNode Prog

/-! ## Applying a list of entries -/

variable {e : LogEntry}

section ApplyAll

variable {σ : Type} [StateMachine σ]

/-- Apply entries in order, up to the first one that is rejected. -/
def applyAll : List LogEntry → σ → Except Error Unit × σ
  | [], m => (.ok (), m)
  | e :: es, m =>
    match StateMachine.apply m e with
    | (.ok _, m') => applyAll es m'
    | (.error err, m') => (.error err, m')

variable {es : List LogEntry}

theorem applyAll_cons_ok {m m' : σ} {result : String}
    (h : StateMachine.apply m e = (.ok result, m')) : applyAll (e :: es) m = applyAll es m' := by
  rw [applyAll, h]

theorem applyAll_cons_error {m m' : σ} {err : Error}
    (h : StateMachine.apply m e = (.error err, m')) : applyAll (e :: es) m = (.error err, m') := by
  rw [applyAll, h]

theorem applyAll_append {es fs : List LogEntry} {m m' : σ} :
    applyAll (es ++ fs) m = (.ok (), m') ↔
      ∃ m₁, applyAll es m = (.ok (), m₁) ∧ applyAll fs m₁ = (.ok (), m') := by
  induction es generalizing m with
  | nil => simp [applyAll]
  | cons e es ih =>
    rw [List.cons_append]
    rcases h : StateMachine.apply m e with ⟨_ | _, m₁⟩
    · rw [applyAll_cons_error h, applyAll_cons_error h]
      simp
    · rw [applyAll_cons_ok h, applyAll_cons_ok h]
      exact ih

/-- The loop of `apply_committed` applies the entries of the log in order. -/
theorem applyLoop_applyAll (es : List LogEntry) : ∀ {x : RaftNode σ},
    (∀ (j : Nat) e, es[j]? = some e → x.logStore.entryAt (x.lastApplied + j + 1) = .ok e) →
    x.commitIndex = x.lastApplied + es.length →
    (applyLoop es.length x).1 = (applyAll es x.stateMachine).1 ∧
      (applyLoop es.length x).2.stateMachine = (applyAll es x.stateMachine).2 ∧
      ((applyAll es x.stateMachine).1 = .ok () →
        (applyLoop es.length x).2.lastApplied = x.commitIndex) := by
  induction es with
  | nil =>
    intro x _ hc
    exact ⟨rfl, rfl, fun _ => hc.symm⟩
  | cons e es ih =>
    intro x hlog hc
    have hlt : x.lastApplied < x.commitIndex := by
      rw [hc, List.length_cons]
      omega
    have hentry := hlog 0 e rfl
    rw [List.length_cons]
    rcases happ : StateMachine.apply x.stateMachine e with ⟨err | result, m⟩
    · rw [applyLoop_error hlt hentry happ, applyAll_cons_error happ]
      refine ⟨rfl, ?_, by simp⟩
      simp [applyFailed, failReadBarriers, failPendingProposals, finish, emit]
    · rw [applyLoop_ok hlt hentry happ, applyAll_cons_ok happ]
      obtain ⟨_, _, heq, -⟩ := applied_eq m e x
      rw [heq]
      refine ih (fun j f hf => ?_) ?_
      · have := hlog (j + 1) f hf
        rw [show x.lastApplied + (j + 1) + 1 = x.lastApplied + 1 + j + 1 by omega] at this
        exact this
      · show x.commitIndex = x.lastApplied + 1 + es.length
        rw [hc, List.length_cons]
        omega

theorem applyCommitted_applyAll {x : RaftNode σ}
    (hlog : ∀ (j : Nat) e, es[j]? = some e → x.logStore.entryAt (x.lastApplied + j + 1) = .ok e)
    (hc : x.commitIndex = x.lastApplied + es.length) :
    (applyCommitted x).1 = (applyAll es x.stateMachine).1 ∧
      (applyCommitted x).2.stateMachine = (applyAll es x.stateMachine).2 ∧
      ((applyAll es x.stateMachine).1 = .ok () →
        (applyCommitted x).2.lastApplied = x.commitIndex) := by
  have hloop := applyLoop_applyAll es hlog hc
  unfold applyCommitted
  rw [get_bind_apply, show x.commitIndex - x.lastApplied = es.length by omega]
  rcases hr : applyLoop es.length x with ⟨err | _, y⟩
  · rw [bind_apply_error hr]
    rw [hr] at hloop
    exact hloop
  · rw [bind_apply_ok hr]
    rw [hr] at hloop
    exact hloop

end ApplyAll

/-! ## Request ids along a run of the state machine -/

namespace KvStateMachine

variable {m m' : KvStateMachine} {es : List LogEntry}

/-- What a successful run does to the latest request of a client: it only grows, it covers every
    entry of the client, and if it changed at all it is the request of one of the entries. -/
structure Covers (m : KvStateMachine) (es : List LogEntry) (m' : KvStateMachine) : Prop where
  entry : ∀ e ∈ es, ∀ c r, e.request = some (c, r) →
    (∃ l, m'.latest c = some l ∧ r ≤ l) ∧ ∀ l, m.latest c = some l → l ≤ r
  grows : ∀ c l, m.latest c = some l → ∃ l', m'.latest c = some l' ∧ l ≤ l'
  source : ∀ c, m'.latest c = m.latest c ∨
    ∃ e ∈ es, ∃ l, e.request = some (c, l) ∧ m'.latest c = some l

theorem covers_nil (m : KvStateMachine) : Covers m [] m where
  entry := by simp
  grows := fun c l hl => ⟨l, hl, Nat.le_refl l⟩
  source := fun c => Or.inl rfl

theorem Covers.cons {m₁ : KvStateMachine} (h : Applies m e m₁)
    (hrest : Covers m₁ es m') : Covers m (e :: es) m' := by
  -- the first step, for one client
  have hstep : ∀ c l, m.latest c = some l → ∃ l', m₁.latest c = some l' ∧ l ≤ l' := by
    intro c l hl
    by_cases hreq : ∃ r, e.request = some (c, r)
    · obtain ⟨r, hr⟩ := hreq
      obtain ⟨h1, h2⟩ := (h.latest c).1 r hr
      exact ⟨r, h1, h2 l hl⟩
    · rw [(h.latest c).2 fun r hr => hreq ⟨r, hr⟩]
      exact ⟨l, hl, Nat.le_refl l⟩
  constructor
  · intro f hf c r hr
    rcases List.mem_cons.mp hf with rfl | hf
    · obtain ⟨h1, h2⟩ := (h.latest c).1 r hr
      exact ⟨hrest.grows c r h1, h2⟩
    · obtain ⟨h1, h2⟩ := hrest.entry f hf c r hr
      refine ⟨h1, fun l hl => ?_⟩
      obtain ⟨l', hl', hle⟩ := hstep c l hl
      exact hle.trans (h2 l' hl')
  · intro c l hl
    obtain ⟨l₁, hl₁, hle₁⟩ := hstep c l hl
    obtain ⟨l', hl', hle'⟩ := hrest.grows c l₁ hl₁
    exact ⟨l', hl', hle₁.trans hle'⟩
  · intro c
    rcases hrest.source c with hsame | ⟨f, hf, l, hfl, hl⟩
    · by_cases hreq : ∃ r, e.request = some (c, r)
      · obtain ⟨r, hr⟩ := hreq
        refine Or.inr ⟨e, List.mem_cons_self .., r, hr, ?_⟩
        rw [hsame]
        exact ((h.latest c).1 r hr).1
      · rw [hsame]
        exact Or.inl ((h.latest c).2 fun r hr => hreq ⟨r, hr⟩)
    · exact Or.inr ⟨f, List.mem_cons_of_mem e hf, l, hfl, hl⟩

theorem covers_of_ok (h : applyAll es m = (.ok (), m')) : Covers m es m' := by
  induction es generalizing m with
  | nil =>
    obtain rfl : m = m' := (Prod.mk.inj h).2
    exact covers_nil m
  | cons e es ih =>
    rcases happ : StateMachine.apply m e with ⟨_ | _, m₁⟩
    · rw [applyAll_cons_error happ] at h
      simp at h
    · rw [applyAll_cons_ok happ] at h
      exact (ih h).cons (applies_of_ok happ)

/-! ## Applying entries again -/

/-- An entry that was applied before, to a machine that knows of a request of its client at least as
    late: it is answered if its request is the latest, and rejected otherwise.  Nothing is written
    in either case. -/
theorem apply_again {r l c : Nat} (hreq : e.request = some (c, r))
    (hl : m.latest c = some l) (hle : r ≤ l) :
    (r = l → ∃ result, m.apply e = (.ok result, m)) ∧ (r ≠ l → ∃ err, m.apply e = (.error err, m)) := by
  have hdata : e.data ≠ [] := by
    intro hnil
    rw [show e.request = none from if_pos hnil] at hreq
    simp at hreq
  unfold LogEntry.request at hreq
  rw [if_neg hdata] at hreq
  cases hdec : decodeProposalPayload e.data with
  | error err =>
    rw [hdec] at hreq
    simp at hreq
  | ok p =>
    rw [hdec] at hreq
    cases hreq
    have hl : m.requestResults.latest p.clientId = some l := hl
    unfold apply
    rw [if_neg hdata, hdec]
    dsimp only
    rcases m.requestResults.find_cases p.clientId p.requestId with
      ⟨result, hsame, hfind⟩ | ⟨l', err, hl', hlt, hfind⟩ | ⟨hnew, hfind⟩
    · rw [hl] at hsame
      rw [hfind]
      exact ⟨fun _ => ⟨result, rfl⟩, fun hne => absurd (Option.some.inj hsame).symm hne⟩
    · rw [hl] at hl'
      cases hl'
      rw [hfind]
      exact ⟨fun heq => absurd heq (Nat.ne_of_lt hlt), fun _ => ⟨err, rfl⟩⟩
    · exact absurd (hnew l hl) (Nat.not_lt.mpr hle)

/-- Entries that a machine has applied successfully can be told apart: no-op, or of some client. -/
theorem request_cases (h : Applies m e m') : e.data = [] ∨ ∃ c r, e.request = some (c, r) := by
  cases h with
  | noop hdata => exact Or.inl hdata
  | repeated p hdata hdecode hlatest | written p hdata hdecode hnew =>
    exact Or.inr ⟨_, _, LogEntry.request_eq hdata hdecode⟩

theorem forall_request_cases (h : applyAll es m = (.ok (), m')) :
    ∀ e ∈ es, e.data = [] ∨ ∃ c r, e.request = some (c, r) := by
  induction es generalizing m with
  | nil => simp
  | cons e es ih =>
    rcases happ : StateMachine.apply m e with ⟨_ | _, m₁⟩
    · rw [applyAll_cons_error happ] at h
      simp at h
    · rw [applyAll_cons_ok happ] at h
      exact List.forall_mem_cons.mpr ⟨request_cases (applies_of_ok happ), ih h⟩

/-- Going over known entries again either changes nothing, or fails — exactly when some entry is not
    its client's latest request. -/
theorem applyAll_again (hknown : ∀ e ∈ es, e.data = [] ∨ ∃ c r l, e.request = some (c, r) ∧
      m.latest c = some l ∧ r ≤ l) :
    (applyAll es m).2 = m ∧ ((applyAll es m).1 = .ok () ↔
      ∀ e ∈ es, ∀ c r, e.request = some (c, r) → m.latest c = some r) := by
  induction es with
  | nil => exact ⟨rfl, by simp [applyAll]⟩
  | cons e es ih =>
    obtain ⟨he, hes⟩ := List.forall_mem_cons.mp hknown
    obtain ⟨ih1, ih2⟩ := ih hes
    rw [List.forall_mem_cons]
    rcases he with hnil | ⟨c, r, l, hreq, hl, hle⟩
    · have happ : StateMachine.apply m e = (.ok "noop", m) := if_pos hnil
      have hnone : e.request = none := if_pos hnil
      rw [applyAll_cons_ok happ]
      refine ⟨ih1, ih2.trans ⟨fun h => ⟨?_, h⟩, fun h => h.2⟩⟩
      rw [hnone]
      simp
    · obtain ⟨hok, herr⟩ := apply_again hreq hl hle
      by_cases heq : r = l
      · obtain ⟨result, happ⟩ := hok heq
        rw [applyAll_cons_ok (show StateMachine.apply m e = _ from happ)]
        refine ⟨ih1, ih2.trans ⟨fun h => ⟨fun c' r' hr' => ?_, h⟩, fun h => h.2⟩⟩
        obtain ⟨rfl, rfl⟩ := Prod.mk.inj (Option.some.inj (hreq.symm.trans hr'))
        rw [hl, heq]
      · obtain ⟨err, happ⟩ := herr heq
        rw [applyAll_cons_error (show StateMachine.apply m e = _ from happ)]
        refine ⟨rfl, ⟨fun h => by simp at h, fun h => ?_⟩⟩
        have := h.1 c r hreq
        rw [hl] at this
        exact absurd (Option.some.inj this).symm heq

/-- No two requests of one client among the entries. -/
def OneRequestPerClient (es : List LogEntry) : Prop :=
  ∀ e ∈ es, ∀ f ∈ es, ∀ c r s, e.request = some (c, r) → f.request = some (c, s) → r = s

/-- **Replaying.**  Entries that have just been applied can be applied again exactly if no client has
    two different requests among them; nothing changes either way. -/
theorem applyAll_twice (h : applyAll es m = (.ok (), m')) :
    (applyAll es m').2 = m' ∧ ((applyAll es m').1 = .ok () ↔ OneRequestPerClient es) := by
  have hcov := covers_of_ok h
  have hknown : ∀ e ∈ es, e.data = [] ∨ ∃ c r l, e.request = some (c, r) ∧
      m'.latest c = some l ∧ r ≤ l := by
    intro e he
    rcases forall_request_cases h e he with hnil | ⟨c, r, hreq⟩
    · exact Or.inl hnil
    · obtain ⟨⟨l, hl, hle⟩, -⟩ := hcov.entry e he c r hreq
      exact Or.inr ⟨c, r, l, hreq, hl, hle⟩
  obtain ⟨hsame, hiff⟩ := applyAll_again hknown
  refine ⟨hsame, hiff.trans ?_⟩
  constructor
  · intro hall e he f hf c r s her hfs
    have h1 := hall e he c r her
    rw [hall f hf c s hfs] at h1
    exact (Option.some.inj h1).symm
  · intro hone e he c r her
    obtain ⟨⟨l, hl, hle⟩, hold⟩ := hcov.entry e he c r her
    rcases hcov.source c with hsrc | ⟨f, hf, l', hfl, hl'⟩
    · -- the latest request was there before: the entry is not older than it either
      rw [hsrc] at hl
      rw [hsrc, hl, Nat.le_antisymm hle (hold l hl)]
    · rw [hl', hone e he f hf c r l' her hfl]

end KvStateMachine

/-! ## The restarted node -/

/-- **Restart replay.**  A node whose state machine had applied `entries`, one after the other, is
    started again on its log store, with its key-value store and its request-result store as they
    were.  Applying the entries above the snapshot boundary again succeeds and leaves the content as
    it was, exactly if no client has two different requests among those entries. -/
theorem restart_replay_iff (g : Group) (n : NodeId) (hn : n ∈ g.peers)
    (old : RaftNode KvStateMachine) (now : Nat) (first : KvStateMachine) (entries : List LogEntry)
    (happlied : applyAll entries first = (.ok (), old.stateMachine))
    (hlength : entries.length = old.lastApplied)
    (hboundary : old.logStore.snapshotMeta.lastIncludedIndex ≤ old.lastApplied)
    (hlast : old.lastApplied ≤ old.logStore.lastIndex)
    (hlog : entries.drop old.logStore.snapshotMeta.lastIncludedIndex <+: old.logStore.entries) :
    let again := applyCommitted
      { World.reboot g old n old.stateMachine now with commitIndex := old.lastApplied }
    (again.1 = .ok () ∧ again.2.lastApplied = old.lastApplied ∧
      again.2.stateMachine.localStore.data = old.stateMachine.localStore.data) ↔
    KvStateMachine.OneRequestPerClient
      (entries.drop old.logStore.snapshotMeta.lastIncludedIndex) := by
  intro again
  -- the machine had reached some state at the boundary
  rw [← List.take_append_drop old.logStore.snapshotMeta.lastIncludedIndex entries,
    applyAll_append] at happlied
  obtain ⟨m₁, -, hmid⟩ := happlied
  obtain ⟨hsame, hiff⟩ := KvStateMachine.applyAll_twice hmid
  have hstart : (World.reboot g old n old.stateMachine now).lastApplied
        = old.logStore.snapshotMeta.lastIncludedIndex ∧
      (World.reboot g old n old.stateMachine now).logStore = old.logStore ∧
      (World.reboot g old n old.stateMachine now).stateMachine = old.stateMachine := by
    unfold World.reboot
    rw [start_eq hn]
    exact ⟨rfl, rfl, rfl⟩
  obtain ⟨hat, hstore, hmachine⟩ := hstart
  have hread : ∀ (j : Nat) e,
      (entries.drop old.logStore.snapshotMeta.lastIncludedIndex)[j]? = some e →
      old.logStore.entryAt (old.logStore.snapshotMeta.lastIncludedIndex + j + 1) = .ok e := by
    intro j e he
    have hlt := lt_of_getElem? he
    rw [List.length_drop] at hlt
    rw [LogStore.entryAt_above (by omega) (by omega), show old.logStore.snapshotMeta.lastIncludedIndex
      + j + 1 - 1 - old.logStore.snapshotMeta.lastIncludedIndex = j by omega]
    exact EpochLog.getElem?_of_pre hlog he
  obtain ⟨hres, hend, hindex⟩ : again.1 = _ ∧ again.2.stateMachine = _ ∧ (_ → again.2.lastApplied = _) :=
    applyCommitted_applyAll (by simpa only [hat, hstore] using hread)
      (by simp only [hat, List.length_drop]; omega)
  rw [← hiff, ← hmachine]
  constructor
  · rintro ⟨hok, -, -⟩
    exact hres.symm.trans hok
  · intro hok
    refine ⟨hres.trans hok, hindex hok, ?_⟩
    rw [hend]
    simp only [hmachine, hsame]

/-- A group of one node. -/
def solo : Group := Group.uniform [1] 0 (by decide) (by decide)

/-- A fresh replica on an open store. -/
def freshKv : NodeId → KvStateMachine := fun _ => { localStore := { isOpen := true } }

/-- The only node has been elected, and has applied two writes: one of `client`, and then the second
    request of client 1. -/
def afterTwoWrites (client : Nat) : RaftNode KvStateMachine :=
  (World.run solo freshKv
    [.tick 1 5000,
     .propose 1 (encodeProposalPayload ⟨client, 1, [.put [107] [97]]⟩),
     .propose 1 (encodeProposalPayload ⟨1, 2, [.put [107] [98]]⟩)]).nodes 1

/-- The node is started again and learns that everything it had applied is committed. -/
def restarted (old : RaftNode KvStateMachine) : Except Error Unit × RaftNode KvStateMachine :=
  applyCommitted { World.reboot solo old 1 old.stateMachine 0 with commitIndex := old.lastApplied }

theorem restart_replay_iff_two_clients :
    (afterTwoWrites 2).lastApplied = 3 ∧
    (((restarted (afterTwoWrites 2)).1 = .ok () ∧
      (restarted (afterTwoWrites 2)).2.lastApplied = (afterTwoWrites 2).lastApplied ∧
      (restarted (afterTwoWrites 2)).2.stateMachine.localStore.data
        = (afterTwoWrites 2).stateMachine.localStore.data) ↔
    KvStateMachine.OneRequestPerClient ((afterTwoWrites 2).logStore.entries.drop
      (afterTwoWrites 2).logStore.snapshotMeta.lastIncludedIndex)) := by
  have h3 : (afterTwoWrites 2).lastApplied = 3 := by decide +kernel
  have happlied : applyAll (afterTwoWrites 2).logStore.entries (freshKv 1)
      = (.ok (), (afterTwoWrites 2).stateMachine) := by
    decide +kernel
  have hlength : (afterTwoWrites 2).logStore.entries.length = (afterTwoWrites 2).lastApplied := by
    decide +kernel
  have hboundary : (afterTwoWrites 2).logStore.snapshotMeta.lastIncludedIndex
      ≤ (afterTwoWrites 2).lastApplied := by
    decide +kernel
  have hlast : (afterTwoWrites 2).lastApplied ≤ (afterTwoWrites 2).logStore.lastIndex := by
    decide +kernel
  have hlog : (afterTwoWrites 2).logStore.entries.drop
      (afterTwoWrites 2).logStore.snapshotMeta.lastIncludedIndex
      <+: (afterTwoWrites 2).logStore.entries := by
    decide +kernel
  generalize afterTwoWrites 2 = old at *
  exact ⟨h3, restart_replay_iff solo 1 (by decide) old 0 (freshKv 1) old.logStore.entries happlied
    hlength hboundary hlast hlog⟩

/-- One client with two requests: the node cannot get past the first of them again. -/
theorem two_requests_stop_replay :
    applyAll (afterTwoWrites 1).logStore.entries (freshKv 1)
      = (.ok (), (afterTwoWrites 1).stateMachine) ∧
    (afterTwoWrites 1).logStore.entries.map LogEntry.request = [none, some (1, 1), some (1, 2)] ∧
    (restarted (afterTwoWrites 1)).1 = .error ⟨.invalidArgument,
      "request id is older than the client's latest applied request"⟩ ∧
    (restarted (afterTwoWrites 1)).2.lastApplied = 1 := by
  decide +kernel

end SqlDb.Raft
