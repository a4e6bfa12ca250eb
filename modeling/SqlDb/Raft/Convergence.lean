/-
  REPLICA CONVERGENCE: nodes that have applied the same prefix of the log hold the same rows.

  There is one CANONICAL content for every index (`contentAt`): the entries are applied in order and
  every request counts once, at the first entry that carries it.  A node whose machine has seen all
  entries follows it, because its request-result store knows which entries are retries.  A node that
  was given a snapshot has the right ROWS, but the snapshot does not tell it which requests they came
  from: it takes a retry of an entry below the snapshot for a new request and writes its batch again.

    * `replicas_converge` — the replicas agree, at any two moments, in every run in which nobody
      applies a retry of a request that it has not applied itself (`RetriesKnown`);
    * `snapshot_forgets_requests` — a run with one unknown retry after which they do not.

  The invariant (`Replica`) is about one node: its rows are the canonical ones, its request-result
  store knows exactly the requests it applied, and the snapshot it is receiving is the beginning of
  the canonical snapshot of its index.  Every snapshot message in flight is a slice of one.
-/
import SqlDb.Raft.MachineStep
import SqlDb.Raft.LogMatching
import SqlDb.Raft.Replay

namespace SqlDb.Raft

open RaftNode Kv List

/-! ## Slices of a snapshot -/

theorem snapshotChunks_slice {header r : InstallSnapshotRequest} {blob : Bytes} {fuel offset : Nat}
    (h : r ∈ snapshotChunks header blob fuel offset) :
    (∃ k, r.data = (blob.drop r.offset).take k) ∧
      (r.done = true → r.offset + r.data.length = blob.length) := by
  induction fuel generalizing offset with
  | zero => simp [snapshotChunks] at h
  | succ fuel ih =>
    unfold snapshotChunks at h
    split_ifs at h with hlt
    · rcases mem_cons.mp h with rfl | h
      · refine ⟨⟨_, rfl⟩, fun hdone => ?_⟩
        have hdone : offset + min kSnapshotChunkBytes (blob.length - offset) = blob.length :=
          of_decide_eq_true hdone
        simp only [length_take, length_drop]
        omega
      · exact ih h
    · simp at h

/-- A snapshot message carries a slice of the snapshot, and the last one ends it. -/
theorem snapshotMessages_slice {header r : InstallSnapshotRequest} {blob : Bytes}
    (h : r ∈ snapshotMessages header blob) :
    (∃ k, r.data = (blob.drop r.offset).take k) ∧
      (r.done = true → r.offset + r.data.length = blob.length) := by
  unfold snapshotMessages at h
  split_ifs at h with hblob
  · obtain rfl := mem_singleton.mp h
    exact ⟨⟨0, by simp⟩, fun _ => by simp [hblob]⟩
  · exact snapshotChunks_slice h

/-- A slice that begins where a beginning of the blob ends makes a longer beginning. -/
theorem prefix_append_slice {blob before data : Bytes} {k : Nat} (hbefore : before <+: blob)
    (hdata : data = (blob.drop before.length).take k) : before ++ data <+: blob := by
  obtain ⟨rest, rfl⟩ := hbefore
  rw [drop_left] at hdata
  rw [hdata, prefix_append_right_inj]
  exact take_prefix k rest

/-! ## The canonical content -/

variable (tr : List (NodeId × Event))

/-- All entries that anybody has applied. -/
def appliedAnywhere : List LogEntry := appliedIn (tr.map Prod.snd)

/-- An entry below `e` belongs to the same request. -/
def Retry (e : LogEntry) : Prop :=
  e.request ≠ none ∧ ∃ f ∈ appliedAnywhere tr, f.index < e.index ∧ f.request = e.request

instance (tr : List (NodeId × Event)) (e : LogEntry) : Decidable (Retry tr e) :=
  inferInstanceAs (Decidable (_ ∧ _))

/-- Whoever applies a retry has applied the request before. -/
def RetriesKnown : Prop :=
  ∀ k (hk : k < tr.length), ∀ e ∈ tr[k].2.entry, Retry tr e →
    ∃ f ∈ entriesOf tr[k].1 (tr.take k), f.request = e.request

instance (tr : List (NodeId × Event)) : Decidable (RetriesKnown tr) :=
  inferInstanceAs (Decidable (∀ k (hk : k < tr.length), ∀ e ∈ tr[k].2.entry, Retry tr e →
    ∃ f ∈ entriesOf tr[k].1 (tr.take k), f.request = e.request))

/-- The rows after an entry that is not a retry. -/
def LogEntry.effect (e : LogEntry) (data : Data) : Data :=
  if e.data = [] then data
  else
    match decodeProposalPayload e.data with
    | .ok p => applyOps p.batch data
    | .error _ => data

/-- The rows of the range after the first `i` entries, starting from `start`. -/
def contentAt (tr : List (NodeId × Event)) (range : KeyRange) (start : Data) : Nat → Data
  | 0 => start.inside range
  | i + 1 =>
    match (appliedAnywhere tr).find? fun e => e.index = i + 1 with
    | none => contentAt tr range start i
    | some e =>
      if Retry tr e then contentAt tr range start i
      else (e.effect (contentAt tr range start i)).inside range

theorem mem_appliedAnywhere {n : NodeId} {tr : List (NodeId × Event)} {e : LogEntry}
    (h : e ∈ entriesOf n tr) : e ∈ appliedAnywhere tr := by
  obtain ⟨T, hmem⟩ := mem_entriesOf.mp h
  unfold appliedAnywhere appliedIn
  rw [mem_filterMap]
  exact ⟨_, mem_map_of_mem hmem, rfl⟩

/-- One entry for each index. -/
def OneEntryPerIndex : Prop :=
  ∀ e ∈ appliedAnywhere tr, ∀ f ∈ appliedAnywhere tr, e.index = f.index → e = f

section Content

variable {tr : List (NodeId × Event)} {range : KeyRange} {start : Data}

variable (tr range start) in
theorem contentAt_inside (i : Nat) :
    ∀ p ∈ (contentAt tr range start i).entries, range.contains p.1 = true := by
  induction i with
  | zero => exact fun p hp => (SortedMap.mem_keep.mp hp).2
  | succ i ih =>
    unfold contentAt
    split
    · exact ih
    · split
      · exact ih
      · exact fun p hp => (SortedMap.mem_keep.mp hp).2

variable (range start) in
theorem contentAt_succ (huniq : OneEntryPerIndex tr) {e : LogEntry} (he : e ∈ appliedAnywhere tr)
    {i : Nat} (hi : e.index = i + 1) : contentAt tr range start (i + 1)
      = if Retry tr e then contentAt tr range start i
        else (e.effect (contentAt tr range start i)).inside range := by
  have hfind : (appliedAnywhere tr).find? (fun e => e.index = i + 1) = some e := by
    cases hf : (appliedAnywhere tr).find? fun e => e.index = i + 1 with
    | none => exact absurd (find?_eq_none.mp hf e he) (by simp [hi])
    | some f =>
      have hfi : f.index = i + 1 := by simpa using find?_some hf
      rw [huniq f (mem_of_find?_eq_some hf) e he (hfi.trans hi.symm)]
  rw [contentAt, hfind]

/-- The content of a range is settled by what lies in it. -/
theorem inside_of_inside {data : Data} (h : ∀ p ∈ data.entries, range.contains p.1 = true) :
    data.inside range = data := by
  refine SortedMap.ext_mem fun p => ?_
  unfold Data.inside
  rw [SortedMap.mem_keep]
  exact ⟨fun hp => hp.1, fun hp => ⟨hp, h p hp⟩⟩

end Content

/-- The snapshot of the canonical content. -/
def canonicalBlob (range : KeyRange) (start : Data) (i : Nat) : Bytes :=
  snapshotBlob (contentAt tr range start i).entries

/-- A snapshot message is a slice of the canonical snapshot of its index. -/
def SnapshotTrue (range : KeyRange) (start : Data) : Message → Prop
  | .installSnapshot q => q ∈ snapshotMessages q (canonicalBlob tr range start q.lastIncludedIndex)
  | _ => True

/-! ## One replica -/

/-- A node that follows the canonical content; `mine` are the entries it has applied itself. -/
structure Replica (tr : List (NodeId × Event)) (range : KeyRange) (start : Data)
    (mine : List LogEntry) (x : RaftNode KvStateMachine) : Prop where
  range_eq : x.config.groupRange = range
  content : x.stateMachine.localStore.data.inside range = contentAt tr range start x.lastApplied
  known : ∀ c r, x.stateMachine.latest c = some r → ∃ f ∈ mine, f.request = some (c, r)
  recorded : ∀ f ∈ mine, ∀ c r, f.request = some (c, r) →
    ∃ l, x.stateMachine.latest c = some l ∧ r ≤ l
  below : ∀ f ∈ mine, f.index ≤ x.lastApplied
  pending : ∀ p, x.pendingSnapshot = some p →
    p.buffer <+: canonicalBlob tr range start p.lastIncludedIndex

theorem snapshotRange_contains {σ : Type} (x : RaftNode σ) :
    x.snapshotRange.contains = x.config.groupRange.contains := by
  funext k
  unfold snapshotRange KeyRange.contains
  cases x.config.groupRange.start with
  | some _ => rfl
  | none =>
    have : ¬ k < ([] : Bytes) := by simp
    simp [this]

section Steps

variable {tr : List (NodeId × Event)} {range : KeyRange} {start : Data} {mine : List LogEntry}
  {x y : RaftNode KvStateMachine}

theorem Replica.inside_snapshotRange (h : Replica tr range start mine x) (data : Data) :
    data.inside x.snapshotRange = data.inside range := by
  unfold Data.inside
  rw [snapshotRange_contains, h.range_eq]

/-- Nothing the replica is about has changed. -/
theorem Replica.congr (h : Replica tr range start mine x) (hcfg : y.config = x.config)
    (hm : y.stateMachine = x.stateMachine) (ha : y.lastApplied = x.lastApplied)
    (hp : ∀ p, y.pendingSnapshot = some p →
      p.buffer <+: canonicalBlob tr range start p.lastIncludedIndex) :
    Replica tr range start mine y where
  range_eq := hcfg ▸ h.range_eq
  content := by rw [hm, ha]; exact h.content
  known := by rw [hm]; exact h.known
  recorded := by rw [hm]; exact h.recorded
  below := by rw [ha]; exact h.below
  pending := hp

/-- **Applying the next entry** keeps a node on the canonical content, if it knows the request of
    every retry. -/
theorem Replica.applied (h : Replica tr range start mine x) (huniq : OneEntryPerIndex tr)
    (hmine : ∀ f ∈ mine, f ∈ appliedAnywhere tr) {entry : LogEntry} {result : String}
    (hentry : entry ∈ appliedAnywhere tr) (hindex : entry.index = x.lastApplied + 1)
    (hknown : Retry tr entry → ∃ f ∈ mine, f.request = entry.request)
    (happly : StateMachine.apply x.stateMachine entry = (.ok result, y.stateMachine))
    (hcfg : y.config = x.config) (ha : y.lastApplied = x.lastApplied + 1)
    (hp : y.pendingSnapshot = x.pendingSnapshot) :
    Replica tr range start (mine ++ [entry]) y := by
  have happ : KvStateMachine.Applies x.stateMachine entry y.stateMachine :=
    KvStateMachine.applies_of_ok happly
  -- an entry that this node has applied under the same request makes it a retry
  have hretry : ∀ f ∈ mine, entry.request ≠ none → f.request = entry.request → Retry tr entry :=
    fun f hf hne heq => ⟨hne, f, hmine f hf, by have := h.below f hf; omega, heq⟩
  have hsucc := contentAt_succ range start huniq hentry hindex
  refine { range_eq := hcfg ▸ h.range_eq, content := ?_, known := fun c r hl => ?_,
           recorded := fun f hf c r hr => ?_, below := fun f hf => ?_, pending := hp ▸ h.pending }
  · rw [ha, hsucc]
    clear happly
    generalize y.stateMachine = machine at happ ⊢
    cases happ with
    | noop hdata =>
      have hnone : entry.request = none := if_pos hdata
      rw [if_neg fun hr => hr.1 hnone, LogEntry.effect, if_pos hdata,
        inside_of_inside (contentAt_inside _ _ _ _)]
      exact h.content
    | repeated p hdata hdecode hlatest =>
      have hreq := LogEntry.request_eq hdata hdecode
      obtain ⟨f, hf, hfr⟩ := h.known _ _ hlatest
      rw [if_pos (hretry f hf (by simp [hreq]) (hfr.trans hreq.symm))]
      exact h.content
    | written p hdata hdecode hnew =>
      have hreq := LogEntry.request_eq hdata hdecode
      have hfirst : ¬ Retry tr entry := by
        intro hr
        obtain ⟨f, hf, hfr⟩ := hknown hr
        obtain ⟨l, hl, hle⟩ := h.recorded f hf _ _ (hfr.trans hreq)
        exact absurd (hnew l hl) (by omega)
      rw [if_neg hfirst, LogEntry.effect, if_neg hdata, hdecode, ← h.content]
      exact applyOps_keep _ _ _
  · obtain ⟨hown, hother⟩ := happ.latest c
    by_cases hc : ∃ r', entry.request = some (c, r')
    · obtain ⟨r', hr'⟩ := hc
      rw [(hown r' hr').1] at hl
      exact ⟨entry, by simp, hr'.trans (by rw [Option.some.inj hl])⟩
    · rw [hother fun r' hr' => hc ⟨r', hr'⟩] at hl
      obtain ⟨f, hf, hfr⟩ := h.known c r hl
      exact ⟨f, mem_append_left _ hf, hfr⟩
  · obtain ⟨hown, hother⟩ := happ.latest c
    rcases mem_snoc.mp hf with hf | rfl
    · obtain ⟨l, hl, hle⟩ := h.recorded f hf c r hr
      by_cases hc : ∃ r', entry.request = some (c, r')
      · obtain ⟨r', hr'⟩ := hc
        exact ⟨r', (hown r' hr').1, hle.trans ((hown r' hr').2 l hl)⟩
      · exact ⟨l, by rw [hother fun r' hr' => hc ⟨r', hr'⟩]; exact hl, hle⟩
    · exact ⟨r, (hown r hr).1, Nat.le_refl r⟩
  · rw [ha]
    rcases mem_snoc.mp hf with hf | rfl
    · exact Nat.le_succ_of_le (h.below f hf)
    · exact hindex.le

/-- **Installing a snapshot** whose last slice has arrived puts a node on the canonical content of
    the snapshot's index. -/
theorem Replica.install (h : Replica tr range start mine x) {q : InstallSnapshotRequest}
    {p : PendingSnapshot} (hq : SnapshotTrue tr range start (.installSnapshot q))
    (happlied : x.lastApplied ≤ q.lastIncludedIndex) (hpending : x.pendingSnapshot = some p)
    (hindex : p.lastIncludedIndex = q.lastIncludedIndex) (hdone : q.done = true)
    (hlast : p.buffer.length = q.offset + q.data.length)
    (hsize : p.buffer.length ≤ kMaxPendingSnapshotBytes)
    (hm : StateMachine.restore x.stateMachine x.snapshotRange p.buffer = (.ok (), y.stateMachine))
    (hcfg : y.config = x.config) (ha : y.lastApplied = q.lastIncludedIndex)
    (hp : y.pendingSnapshot = none) : Replica tr range start mine y := by
  have hpre := h.pending p hpending
  rw [hindex] at hpre
  have hbuffer : p.buffer = canonicalBlob tr range start q.lastIncludedIndex :=
    hpre.eq_of_length (hlast.trans ((snapshotMessages_slice hq).2 hdone))
  rw [hbuffer] at hm hsize
  have hin := contentAt_inside tr range start q.lastIncludedIndex
  obtain ⟨hresults, hcontent, -⟩ := KvStateMachine.restore_snapshotBlob
    (hsize.trans_lt (by decide)) (by rw [snapshotRange_contains, h.range_eq]; exact hin) hm
  rw [h.inside_snapshotRange] at hcontent
  have hlatest : y.stateMachine.latest = x.stateMachine.latest := by
    funext c
    unfold KvStateMachine.latest
    rw [hresults]
  exact {
    range_eq := hcfg ▸ h.range_eq
    content := by rw [hcontent, ha]
    known := by rw [hlatest]; exact h.known
    recorded := by rw [hlatest]; exact h.recorded
    below := fun f hf => ha ▸ (h.below f hf).trans happlied
    pending := fun p' hp' => by rw [hp] at hp'; simp at hp' }

/-- What a replica sends is a slice of a canonical snapshot. -/
theorem Replica.sends (h : Replica tr range start mine x) {inp : Option (NodeId × Message)}
    {dst : NodeId} {message : Message} (hs : Sendable inp x dst message) :
    SnapshotTrue tr range start message := by
  cases message with
  | installSnapshot q =>
    obtain ⟨-, -, -, hindex, -, blob, hblob, hq⟩ := hs
    have hblob := KvStateMachine.snapshot_ok hblob
    rw [h.inside_snapshotRange, h.content, ← hindex] at hblob
    rw [hblob] at hq
    exact hq
  | _ => trivial

end Steps

/-! ## The replicas of a group -/

/-- All nodes follow the canonical content and all snapshots in flight are canonical, as long as the
    record is a beginning of `tr`. -/
def Converging (g : Group) (tr : List (NodeId × Event)) (range : KeyRange) (start : Data)
    (w : World KvStateMachine) : Prop :=
  w.trace <+: tr →
    (∀ n ∈ g.peers, Replica tr range start (entriesOf n w.trace) (w.nodes n)) ∧
      ∀ env ∈ w.sent, SnapshotTrue tr range start env.message

section World

variable {g : Group} {a : History} {J : Prop} {tr : List (NodeId × Event)} {range : KeyRange}
  {start : Data} {n : NodeId} {inp : Option (NodeId × Message)} {x y : RaftNode KvStateMachine}

theorem mem_appliedAnywhere_of_prefix {past : List (NodeId × Event)} (hpre : past <+: tr)
    {f : LogEntry} (hf : f ∈ entriesOf n past) : f ∈ appliedAnywhere tr := by
  obtain ⟨T, hmem⟩ := mem_entriesOf.mp hf
  exact mem_appliedAnywhere (mem_entriesOf.mpr ⟨T, hpre.subset hmem⟩)

/-- **Each step of a node keeps it a replica**, in a record without unrecorded snapshots in which
    retries are known. -/
theorem RaftNode.NodeStep.replica (hs : NodeStep J inp x y) (hw : x.Wf)
    (huniq : OneEntryPerIndex tr) (hknown : RetriesKnown tr)
    (hrecorded : ∀ n, (n, .unrecorded) ∉ tr) (w : World KvStateMachine)
    (hpre : (w.absorb n y).trace <+: tr)
    (hinp : ∀ src m, inp = some (src, m) → SnapshotTrue tr range start m)
    (h : Replica tr range start (entriesOf n (w.absorb n x).trace) x) :
    Replica tr range start (entriesOf n (w.absorb n y).trace) y := by
  obtain ⟨more, hmore, hnew⟩ := (hs.client hw).events
  -- no new entry, unless the applied index moves to it
  have hsame : y.lastApplied = x.lastApplied →
      entriesOf n (w.absorb n y).trace = entriesOf n (w.absorb n x).trace := by
    intro ha
    rcases hnew with hnew | ⟨ha', -⟩
    · rw [entriesOf_absorb, entriesOf_absorb, if_pos rfl, if_pos rfl, hmore, appliedIn_append, hnew,
        append_nil]
    · omega
  cases hs.machine with
  | same hm ha hp hout =>
    rw [hsame ha]
    exact h.congr hs.config hm ha fun p hp' => h.pending p (hp p hp')
  | send dst message hsend hy =>
    subst hy
    exact h.congr rfl rfl rfl h.pending
  | applied entry result hentry happly ha hp hout fin hfin hev =>
    have hindex := hw.store.entryAt_index hentry
    have hmine : entriesOf n (w.absorb n y).trace
        = entriesOf n (w.absorb n x).trace ++ [entry] := by
      rw [entriesOf_absorb, entriesOf_absorb, if_pos rfl, if_pos rfl, hev, appliedIn_append,
        append_assoc]
      show _ ++ (_ ++ entry :: appliedIn fin) = _
      rw [hfin]
    -- the event stands right after what the node has done before
    have hat : (w.absorb n x).trace ++ [(n, .applied x.hardState.term entry none)] <+: tr := by
      refine List.IsPrefix.trans ?_ hpre
      refine ⟨fin.map fun e => (n, e), ?_⟩
      simp only [World.absorb, hev, map_append, map_cons, append_assoc,
        cons_append, nil_append]
    obtain ⟨rest, hrest⟩ := hat
    have hmem : entry ∈ appliedAnywhere tr :=
      mem_appliedAnywhere (n := n) (mem_entriesOf.mpr ⟨x.hardState.term, by simp [← hrest]⟩)
    rw [hmine]
    refine h.applied huniq (fun f hf => mem_appliedAnywhere_of_prefix
      ((prefix_append _ _).trans ⟨_, hrest⟩) hf) hmem hindex (fun hr => ?_) happly hs.config ha hp
    subst hrest
    have hk := hknown (w.absorb n x).trace.length (by simp) entry
    simp only [append_assoc, getElem_append_right le_rfl, Nat.sub_self,
      take_left] at hk
    exact hk rfl (by simpa using hr)
  | failed hm ha hp hout =>
    rw [hsame ha]
    have hm : y.stateMachine = x.stateMachine := by
      rcases hm with ⟨entry, e, hm⟩ | ⟨blob, e, hm⟩
      · exact KvStateMachine.apply_error hm
      · exact KvStateMachine.restore_error hm
    exact h.congr hs.config hm ha (hp ▸ h.pending)
  | chunk src q p before hinp' hindex hbuffer hoffset hbefore hm ha hp hout =>
    rw [hsame ha]
    refine h.congr hs.config hm ha fun p' hp' => ?_
    obtain rfl : p = p' := Option.some.inj (hp.symm.trans hp')
    obtain ⟨⟨k, hdata⟩, -⟩ := snapshotMessages_slice (hinp src _ hinp')
    rw [hbuffer, hindex]
    refine prefix_append_slice ?_ (hoffset ▸ hdata)
    rcases hbefore with rfl | ⟨p', hp', rfl, hi'⟩
    · exact nil_prefix
    · rw [← hi']
      exact h.pending p' hp'
  | install src q p hinp' happlied hpending hindex hdone hlast hsize hm ha hp hout hev =>
    have hmine : entriesOf n (w.absorb n y).trace = entriesOf n (w.absorb n x).trace := by
      rw [entriesOf_absorb, entriesOf_absorb, hev]
    rw [hmine]
    exact h.install (hinp src _ hinp') happlied hpending hindex hdone hlast hsize hm hs.config ha hp
  | unrecorded hev =>
    refine absurd (hpre.subset ?_) (hrecorded n)
    exact mem_append_right _ (mem_map_of_mem hev)

/-- What a replica has not yet sent was canonical already, or is now. -/
theorem RaftNode.NodeStep.snapshotTrue (hs : NodeStep J inp x y) {mine : List LogEntry}
    (h : Replica tr range start mine x) (hrecorded : .unrecorded ∉ y.events)
    (hout : ∀ p ∈ x.outbox, SnapshotTrue tr range start p.2) :
    ∀ p ∈ y.outbox, SnapshotTrue tr range start p.2 := by
  cases hs.machine with
  | send dst message hsend hy =>
    subst hy
    intro p hp
    rcases mem_snoc.mp hp with hp | rfl
    · exact hout p hp
    · exact h.sends hsend
  | same hm ha hp ho | applied entry result hentry happly ha hp ho fin hfin hev
  | failed hm ha hp ho | chunk src q p before hinp' hindex hbuffer hoffset hbefore hm ha hp ho =>
    rw [ho]; exact hout
  | install src q p hinp' happlied hpending hindex hdone hlast hsize hm ha hp ho hev =>
    rw [ho]
    exact hout
  | unrecorded hev => exact absurd hev hrecorded

/-- **Each step of the group keeps the replicas converging.** -/
theorem WorldStep.converging {w w' : World KvStateMachine} (hs : WorldStep J g w w') (hsim : Sim g a w)
    (huniq : OneEntryPerIndex tr) (hknown : RetriesKnown tr) (hup : ∀ n, (n, .restarted) ∉ tr)
    (hrecorded : ∀ n, (n, .unrecorded) ∉ tr) (h : Converging g tr range start w) :
    Converging g tr range start w' := by
  intro hpre
  obtain ⟨hnodes, hsent⟩ := h ((hs.trace_mono hsim).trans hpre)
  cases hs with
  | node w n inp x y hn hinp hs =>
    have hx : Replica tr range start (entriesOf n (w.absorb n x).trace) x := by
      have := hnodes n hn
      rw [absorb_nodes_self] at this
      exact this.congr rfl rfl rfl this.pending
    have hy := hs.replica (hsim.accounted hn).1.wf huniq hknown hrecorded w hpre
      (fun src m hm => hsent _ (mem_append_left _ (hinp src m hm))) hx
    refine ⟨fun m hm => ?_, fun env henv => ?_⟩
    · by_cases hmn : m = n
      · subst hmn
        rw [absorb_nodes_self]
        exact hy.congr rfl rfl rfl hy.pending
      · have := hnodes m hm
        rw [absorb_nodes_ne _ _ hmn, entriesOf_absorb, if_neg (Ne.symm hmn)] at this ⊢
        exact this
    · rcases mem_append.mp henv with henv | henv
      · exact hsent env (mem_append_left _ henv)
      · obtain ⟨p, hp, rfl⟩ := mem_map.mp henv
        refine hs.snapshotTrue hx (fun hev => ?_) (fun p hp => ?_) p hp
        · exact hrecorded n (hpre.subset (mem_append_right _ (mem_map_of_mem hev)))
        · exact hsent ⟨n, p.1, p.2⟩ (mem_append_right _ (mem_map.mpr ⟨p, hp, rfl⟩))
  | enter w n now faults hn =>
    have hquiet : (w.enter n now faults).events = [] ∧ (w.enter n now faults).outbox = [] :=
      (hsim.quiet n).symm
    refine ⟨fun m hm => ?_, fun env henv => ?_⟩
    · rw [entriesOf_absorb, hquiet.1]
      have hm' := hnodes m hm
      by_cases hmn : m = n
      · subst hmn
        rw [absorb_nodes_self]
        simpa [appliedIn] using hm'.congr (y := { w.enter m now faults with outbox := [], events := [] })
          rfl rfl rfl hm'.pending
      · rw [absorb_nodes_ne _ _ hmn]
        simpa [appliedIn] using hm'
    · rcases mem_append.mp henv with henv | henv
      · exact hsent env henv
      · rw [hquiet.2] at henv
        simp at henv
  | restart w n machine now hn =>
    refine absurd (hpre.subset ?_) (hup n)
    exact mem_append_right _ (by simp [World.reboot])

theorem converging_init {machine : NodeId → KvStateMachine}
    (hrange : ∀ n ∈ g.peers, (g.config n).groupRange = range)
    (hstart : ∀ n ∈ g.peers, (machine n).localStore.data.inside range = start.inside range)
    (hfresh : ∀ n ∈ g.peers, (machine n).requestResults = {}) :
    Converging g tr range start (World.init g machine) := by
  intro _
  refine ⟨fun n hn => ?_, by simp [World.init]⟩
  show Replica tr range start (entriesOf n []) (RaftNode.start (create (g.config n) {} (machine n) 0)).2
  rw [start_eq hn]
  refine { range_eq := hrange n hn, content := hstart n hn, known := fun c r hl => ?_,
           recorded := by simp [entriesOf], below := by simp [entriesOf],
           pending := fun p hp => by simp [resetElectionDeadline, create] at hp }
  have hnone : (machine n).latest c = none := by
    unfold KvStateMachine.latest
    rw [hfresh n hn]
    rfl
  have hl : (machine n).latest c = some r := hl
  rw [hnone] at hl
  simp at hl

/-- **Replica convergence.**  In a run without restarts and unrecorded snapshots in which retries are
    known to whoever applies them, nodes with one applied index hold the same rows of the range, at
    any two moments `i` and `j`. -/
theorem replicas_converge (g : Group) (machine : NodeId → KvStateMachine) (range : KeyRange)
    (start : Data) (inputs : List (Input KvStateMachine))
    (hrange : ∀ n ∈ g.peers, (g.config n).groupRange = range)
    (hstart : ∀ n ∈ g.peers, (machine n).localStore.data.inside range = start.inside range)
    (hfresh : ∀ n ∈ g.peers, (machine n).requestResults = {})
    (hup : ∀ n, (n, .restarted) ∉ (World.run g machine inputs).trace)
    (hrecorded : ∀ n, (n, .unrecorded) ∉ (World.run g machine inputs).trace)
    (hknown : RetriesKnown (World.run g machine inputs).trace)
    (i j : Nat) (n m : NodeId) (hn : n ∈ g.peers) (hm : m ∈ g.peers)
    (hsame : ((World.run g machine (inputs.take i)).nodes n).lastApplied
      = ((World.run g machine (inputs.take j)).nodes m).lastApplied) :
    ((World.run g machine (inputs.take i)).nodes n).stateMachine.localStore.data.inside range
      = ((World.run g machine (inputs.take j)).nodes m).stateMachine.localStore.data.inside range := by
  obtain ⟨a, hsim, happ⟩ := World.run_applied g machine inputs
  have huniq : OneEntryPerIndex (World.run g machine inputs).trace := by
    have hof : ∀ e ∈ appliedAnywhere (World.run g machine inputs).trace,
        ∃ T, CommittedEntry a T e := by
      intro e he
      obtain ⟨ev, hev, hee⟩ := mem_filterMap.mp he
      obtain ⟨⟨k, ev'⟩, hmem, rfl⟩ := mem_map.mp hev
      obtain ⟨T, hT⟩ := mem_entriesOf.mp (show e ∈ entriesOf k (World.run g machine inputs).trace from
        mem_filterMap.mpr ⟨_, hmem, by simpa using hee⟩)
      exact ⟨T, happ k T e ⟨none, hT⟩⟩
    intro e he f hf hidx
    obtain ⟨T, he⟩ := hof e he
    obtain ⟨U, hf⟩ := hof f hf
    exact he.unique hsim.inv hf hidx
  -- the whole run's record decides what is canonical; its beginnings follow
  have hall : ∀ i, ∀ n ∈ g.peers,
      ((World.run g machine (inputs.take i)).nodes n).stateMachine.localStore.data.inside range
        = contentAt (World.run g machine inputs).trace range start
          ((World.run g machine (inputs.take i)).nodes n).lastApplied := by
    intro i n hn
    obtain ⟨-, -, -, hP⟩ := World.run_rule (J := False)
      (P := fun _ => Converging g (World.run g machine inputs).trace range start) machine
      (converging_init hrange hstart hfresh)
      (fun a a' m w w' hsim h hs _ _ => hs.converging hsim huniq hknown hup hrecorded h)
      (inputs.take i) fun h => h.elim
    have hpre := World.run_trace g machine inputs (Nat.le_max_left i inputs.length)
    rw [take_of_length_le (Nat.le_max_right i inputs.length)] at hpre
    exact ((hP hpre).1 n hn).content
  rw [hall i n hn, hall j m hm, hsame]

end World

/-- Client `client` writes `value` to the key `k`, as its first request. -/
def firstWrite (client : Nat) (value : UInt8) : Bytes :=
  encodeProposalPayload ⟨client, 1, [.put [107] [value]]⟩

/-- Node 3 applies the first request of client 1, misses the one of client 2 and is given a snapshot;
    then client 1 retries. -/
def knownRetry : List (Input KvStateMachine) :=
  [.tick 1 5000, .deliver 0, .deliver 2, .propose 1 (firstWrite 1 97), .deliver 5, .deliver 7,
    .deliver 9, .propose 1 (firstWrite 2 98), .deliver 12, .deliver 14, .tick 1 5200, .tick 1 5400,
    .deliver 21, .propose 1 (firstWrite 1 97), .deliver 24, .deliver 25, .deliver 27]

theorem replicas_converge_knownRetry :
    ((World.run compactingTrio freshKv knownRetry).nodes 3).lastIncludedIndex = 3 ∧
    ((World.run compactingTrio freshKv knownRetry).nodes 3).lastApplied = 4 ∧
    ((World.run compactingTrio freshKv knownRetry).nodes 1).stateMachine.localStore.data.inside {}
      = ((World.run compactingTrio freshKv knownRetry).nodes 3).stateMachine.localStore.data.inside
        {} := by
  have hmeta : ((World.run compactingTrio freshKv knownRetry).nodes 3).lastIncludedIndex = 3 ∧
      ((World.run compactingTrio freshKv knownRetry).nodes 3).lastApplied = 4 := by decide +kernel
  have hplain : ∀ p ∈ (World.run compactingTrio freshKv knownRetry).trace,
      p.2 ≠ .restarted ∧ p.2 ≠ .unrecorded := by decide +kernel
  have hknown : RetriesKnown (World.run compactingTrio freshKv knownRetry).trace := by
    decide +kernel
  have hsame : ((World.run compactingTrio freshKv (knownRetry.take 17)).nodes 1).lastApplied
      = ((World.run compactingTrio freshKv (knownRetry.take 17)).nodes 3).lastApplied := by
    decide +kernel
  have htake : knownRetry.take 17 = knownRetry := rfl
  refine ⟨hmeta.1, hmeta.2, ?_⟩
  have hall := replicas_converge compactingTrio freshKv {} default knownRetry (fun _ _ => rfl)
    (fun _ _ => rfl) (fun _ _ => rfl) (fun n hn => (hplain _ hn).1 rfl)
    (fun n hn => (hplain _ hn).2 rfl) hknown 17 17 1 3 (by decide) (by decide) hsame
  rw [htake] at hall
  exact hall

/-- The same, but node 3 has not applied the first request of client 1 itself. -/
def unknownRetry : List (Input KvStateMachine) :=
  [.tick 1 5000, .deliver 0, .deliver 2, .propose 1 (firstWrite 1 97), .propose 1 (firstWrite 2 98),
    .deliver 7, .deliver 9, .tick 1 5200, .tick 1 5400, .deliver 16, .propose 1 (firstWrite 1 97),
    .deliver 19, .deliver 20, .deliver 22]

/-- Nodes 1 and 3 have applied the same four entries, nobody was restarted and every snapshot was
    recorded; node 1 holds the value of client 2, node 3 that of the retried request. -/
theorem snapshot_forgets_requests :
    (∀ p ∈ (World.run compactingTrio freshKv unknownRetry).trace,
      p.2 ≠ .restarted ∧ p.2 ≠ .unrecorded) ∧
    ((World.run compactingTrio freshKv unknownRetry).nodes 1).lastApplied = 4 ∧
    ((World.run compactingTrio freshKv unknownRetry).nodes 3).lastApplied = 4 ∧
    (((World.run compactingTrio freshKv unknownRetry).nodes 1).stateMachine.localStore.data.inside
      {}).entries = [([107], [98])] ∧
    (((World.run compactingTrio freshKv unknownRetry).nodes 3).stateMachine.localStore.data.inside
      {}).entries = [([107], [97])] := by
  decide +kernel

end SqlDb.Raft
