/-
  WHAT CLIENTS CAN RELY ON: every completion is finished at most once, a proposal is acknowledged
  only after its entry has been applied, and nobody waits at a node that does not lead.

  The argument has two halves.

    * ON THE TRACE of one node (`TraceOk`): ids are handed out in increasing order; an id waits as a
      proposal (`P`), waits as a read (`R`), or is finished, and leaves that state never to return.
      Each kind of event has one lemma.
    * ON THE NODE (`ClientsOk`): a proposal that waits under index `i` still has its entry at `i`,
      not yet applied.  Only a leader has clients, a leader never truncates, and a snapshot boundary
      never passes the applied index, so no step takes the entry away before it is applied.

  Indices are reused after a truncation, but no completion survives one: leadership was lost before.
-/
import SqlDb.Raft.Safety

namespace SqlDb.Raft

open EpochLog RaftNode List

/-! ## Traces of one node -/

/-- The completion an event finishes. -/
def Event.finishedId : Event → Option CompletionId
  | .finished id _ _ => some id
  | _ => none

/-- The completions finished so far, in order. -/
def finishedIds (tr : List Event) : List CompletionId := tr.filterMap Event.finishedId

@[simp] theorem finishedIds_append (tr tr' : List Event) :
    finishedIds (tr ++ tr') = finishedIds tr ++ finishedIds tr' := filterMap_append

theorem mem_finishedIds {tr : List Event} {id : CompletionId} :
    id ∈ finishedIds tr ↔ ∃ error lastApplied, .finished id error lastApplied ∈ tr := by
  unfold finishedIds
  rw [mem_filterMap]
  constructor
  · rintro ⟨ev, hev, hid⟩
    cases ev with
    | finished id' error la =>
      cases hid
      exact ⟨error, la, hev⟩
    | _ => simp [Event.finishedId] at hid
  · rintro ⟨error, la, hev⟩
    exact ⟨_, hev, rfl⟩

/-- A trace, the next id to hand out, and the ids that wait as proposals and as reads. -/
structure TraceOk (tr : List Event) (next : CompletionId) (P R : CompletionId → Prop) : Prop where
  below : ∀ id, P id ∨ R id → id < next
  apart : ∀ id, P id → ¬ R id
  unfinished : ∀ id, P id ∨ R id → id ∉ finishedIds tr
  reads : ∀ id e, R id → .proposed id e ∉ tr
  proposed_below : ∀ id e, .proposed id e ∈ tr → id < next
  finished_below : ∀ id ∈ finishedIds tr, id < next
  unique : ∀ id e e', .proposed id e ∈ tr → .proposed id e' ∈ tr → e = e'
  once : (finishedIds tr).Nodup
  /-- A proposal is acknowledged after its entry has been applied. -/
  acked : ∀ k id e la, tr[k]? = some (.finished id none la) → .proposed id e ∈ tr →
    ∃ T, .applied T e none ∈ tr.take k
  /-- A proposal of the current process waits or is finished. -/
  settled : ∀ k id e, tr[k]? = some (.proposed id e) → .restarted ∉ tr.drop k →
    P id ∨ id ∈ finishedIds tr

section Trace

variable {tr : List Event} {next : CompletionId} {P R P' R' : CompletionId → Prop}

theorem traceOk_nil : TraceOk [] 0 (fun _ => False) (fun _ => False) where
  below := by simp
  apart := by simp
  unfinished := by simp
  reads := by simp
  proposed_below := by simp
  finished_below := by simp [finishedIds]
  unique := by simp
  once := nodup_nil
  acked := by simp
  settled := by simp

variable (h : TraceOk tr next P R)
include h

theorem TraceOk.congr (hP : ∀ id, P' id ↔ P id)
    (hR : ∀ id, R' id ↔ R id) : TraceOk tr next P' R' := by
  obtain rfl : P' = P := funext fun id => propext (hP id)
  obtain rfl : R' = R := funext fun id => propext (hR id)
  exact h

/-- One more event.  A new proposal takes the next id; a finished completion has waited and waits no
    longer; nobody else begins to wait, and a proposal stops waiting only when it is finished or
    when the process is started again. -/
theorem TraceOk.concat {ev : Event} {next' : CompletionId}
    (hnext : next ≤ next')
    (hprop : ∀ id e, ev = .proposed id e → id = next ∧ next < next' ∧ P' id)
    (hfin : ∀ id error la, ev = .finished id error la → (P id ∨ R id) ∧ ¬ (P' id ∨ R' id) ∧
      (error = none → ∀ e, .proposed id e ∈ tr → ∃ T, .applied T e none ∈ tr))
    (hP : ∀ id, P' id → P id ∨ ∃ e, ev = .proposed id e) (hR : ∀ id, R' id → R id)
    (hleft : ∀ id, P id → P' id ∨ (∃ error la, ev = .finished id error la) ∨ ev = .restarted) :
    TraceOk (tr ++ [ev]) next' P' R' := by
  have hmem : ∀ {id e}, .proposed id e ∈ tr ++ [ev] → .proposed id e ∈ tr ∨ ev = .proposed id e := by
    intro id e hm
    rw [mem_append, mem_singleton] at hm
    exact hm.imp_right Eq.symm
  have hids : ∀ {id}, id ∈ finishedIds (tr ++ [ev]) ↔
      id ∈ finishedIds tr ∨ ∃ error la, ev = .finished id error la := by
    intro id
    rw [finishedIds_append, mem_append, @mem_finishedIds [ev]]
    simp only [mem_singleton, eq_comm]
  have hwait : ∀ {id}, P' id ∨ R' id → (P id ∨ R id) ∨ (id = next ∧ next < next') := by
    rintro id (hid | hid)
    · rcases hP id hid with hid | ⟨e, he⟩
      · exact Or.inl (Or.inl hid)
      · exact Or.inr ⟨(hprop id e he).1, (hprop id e he).2.1⟩
    · exact Or.inl (Or.inr (hR id hid))
  constructor
  · intro id hid
    rcases hwait hid with hid | ⟨rfl, hlt⟩
    · exact (h.below id hid).trans_le hnext
    · exact hlt
  · intro id hid hr
    have hlt := h.below id (Or.inr (hR id hr))
    rcases hP id hid with hid | ⟨e, he⟩
    · exact h.apart id hid (hR id hr)
    · exact Nat.ne_of_lt hlt (hprop id e he).1
  · intro id hid hm
    rcases hids.mp hm with hm | ⟨error, la, he⟩
    · rcases hwait hid with hid | ⟨rfl, -⟩
      · exact h.unfinished id hid hm
      · exact Nat.lt_irrefl _ (h.finished_below _ hm)
    · exact (hfin id error la he).2.1 hid
  · intro id e hr hm
    rcases hmem hm with hm | he
    · exact h.reads id e (hR id hr) hm
    · exact Nat.ne_of_lt (h.below id (Or.inr (hR id hr))) (hprop id e he).1
  · intro id e hm
    rcases hmem hm with hm | he
    · exact (h.proposed_below id e hm).trans_le hnext
    · rw [(hprop id e he).1]
      exact (hprop id e he).2.1
  · intro id hm
    rcases hids.mp hm with hm | ⟨error, la, he⟩
    · exact (h.finished_below id hm).trans_le hnext
    · exact (h.below id (hfin id error la he).1).trans_le hnext
  · intro id e e' hm hm'
    rcases hmem hm with hm | he <;> rcases hmem hm' with hm' | he'
    · exact h.unique id e e' hm hm'
    · exact absurd (hprop id e' he').1 (Nat.ne_of_lt (h.proposed_below id e hm))
    · exact absurd (hprop id e he).1 (Nat.ne_of_lt (h.proposed_below id e' hm'))
    · exact (Event.proposed.inj (he.symm.trans he')).2
  · rw [finishedIds_append]
    refine h.once.append (by cases hev : ev.finishedId <;> simp [finishedIds, hev]) ?_
    intro id hm hm'
    obtain ⟨error, la, he⟩ := mem_finishedIds.mp hm'
    exact h.unfinished id (hfin id error la (mem_singleton.mp he).symm).1 hm
  · intro k id e la hk hm
    rcases getElem?_snoc.mp hk with hk | ⟨rfl, hev⟩
    · have hlt := lt_of_getElem? hk
      rw [take_append_of_le_length hlt.le]
      rcases hmem hm with hm | he
      · exact h.acked k id e la hk hm
      · -- the new id has not been finished
        have := h.finished_below id (mem_finishedIds.mpr ⟨_, _, mem_of_getElem? hk⟩)
        exact absurd (hprop id e he).1 (Nat.ne_of_lt this)
    · rw [take_left]
      rcases hmem hm with hm | he
      · exact (hfin id none la hev.symm).2.2 rfl e hm
      · simp [← hev] at he
  · intro k id e hk hr
    rw [hids]
    rcases getElem?_snoc.mp hk with hk | ⟨-, hev⟩
    · have hlt := lt_of_getElem? hk
      rw [drop_append_of_le_length hlt.le, mem_append, not_or] at hr
      rcases h.settled k id e hk hr.1 with hid | hid
      · rcases hleft id hid with hid | hid | rfl
        · exact Or.inl hid
        · exact Or.inr (Or.inr hid)
        · simp at hr
      · exact Or.inr (Or.inl hid)
    · exact Or.inl (hprop id e hev.symm).2.2

/-- An event that neither creates nor finishes a completion. -/
theorem TraceOk.note {f : Event} (hp : ∀ id e, f ≠ .proposed id e)
    (hf : f.finishedId = none) : TraceOk (tr ++ [f]) next P R := by
  refine h.concat le_rfl (fun id e he => absurd he (hp id e)) ?_ (fun _ => Or.inl)
    (fun _ hr => hr) (fun _ => Or.inl)
  rintro id error la rfl
  simp [Event.finishedId] at hf

/-- A proposal gets the next id. -/
theorem TraceOk.propose (e : LogEntry) :
    TraceOk (tr ++ [.proposed next e]) (next + 1) (fun id => P id ∨ id = next) R := by
  refine h.concat (Nat.le_succ _) ?_ (by simp) ?_ (fun _ hr => hr) (fun _ hid => Or.inl (Or.inl hid))
  · intro id f he
    obtain ⟨rfl, -⟩ := Event.proposed.inj he
    exact ⟨rfl, Nat.lt_succ_self _, Or.inr rfl⟩
  · rintro id (hid | rfl)
    · exact Or.inl hid
    · exact Or.inr ⟨e, rfl⟩

/-- A read gets the next id. -/
theorem TraceOk.openRead :
    TraceOk tr (next + 1) P (fun id => R id ∨ id = next) where
  below := by
    rintro id (hid | hid | rfl)
    · exact Nat.lt_succ_of_lt (h.below id (Or.inl hid))
    · exact Nat.lt_succ_of_lt (h.below id (Or.inr hid))
    · exact Nat.lt_succ_self _
  apart := by
    rintro id hid (hr | rfl)
    · exact h.apart id hid hr
    · exact Nat.lt_irrefl _ (h.below _ (Or.inl hid))
  unfinished := by
    rintro id (hid | hid | rfl)
    · exact h.unfinished id (Or.inl hid)
    · exact h.unfinished id (Or.inr hid)
    · exact fun hm => Nat.lt_irrefl _ (h.finished_below _ hm)
  reads := by
    rintro id e (hr | rfl) hm
    · exact h.reads id e hr hm
    · exact Nat.lt_irrefl _ (h.proposed_below _ e hm)
  proposed_below := fun id e hm => Nat.lt_succ_of_lt (h.proposed_below id e hm)
  finished_below := fun id hm => Nat.lt_succ_of_lt (h.finished_below id hm)
  unique := h.unique
  once := h.once
  acked := h.acked
  settled := h.settled

/-- A completion that waits is finished; a proposal is acknowledged only if its entry is applied. -/
theorem TraceOk.finish {id : CompletionId} (error : Option Error)
    (lastApplied : Nat) (hid : P id ∨ R id)
    (hack : error = none → ∀ e, .proposed id e ∈ tr → ∃ T, .applied T e none ∈ tr) :
    TraceOk (tr ++ [.finished id error lastApplied]) next (fun i => P i ∧ i ≠ id)
      (fun i => R i ∧ i ≠ id) := by
  refine h.concat le_rfl (by simp) ?_ (fun _ hp => Or.inl hp.1) (fun _ hr => hr.1) ?_
  · intro i error' la he
    obtain ⟨rfl, rfl, -⟩ := Event.finished.inj he
    exact ⟨hid, by simp, hack⟩
  · intro i hp
    by_cases hi : i = id
    · exact Or.inr (Or.inl ⟨error, lastApplied, by rw [hi]⟩)
    · exact Or.inl ⟨hp, hi⟩

omit h in
/-- Several completions that wait are finished. -/
theorem TraceOk.finishAll (error : Option Error) (lastApplied : Nat) (ids : List CompletionId) :
    ∀ {tr : List Event} {P R : CompletionId → Prop}, TraceOk tr next P R → ids.Nodup →
      (∀ id ∈ ids, P id ∨ R id) →
      (error = none → ∀ id ∈ ids, ∀ e, .proposed id e ∈ tr → ∃ T, .applied T e none ∈ tr) →
      TraceOk (tr ++ finishes ids error lastApplied) next (fun i => P i ∧ i ∉ ids)
        (fun i => R i ∧ i ∉ ids) := by
  induction ids with
  | nil =>
    intro tr P R h _ _ _
    have : tr ++ finishes [] error lastApplied = tr := append_nil _
    rw [this]
    exact h.congr (by simp) (by simp)
  | cons id ids ih =>
    intro tr P R h hnd hwait hack
    obtain ⟨hnot, hnd⟩ := nodup_cons.mp hnd
    have h1 := h.finish error lastApplied (hwait id (mem_cons_self ..))
      fun he => hack he id (mem_cons_self ..)
    have h2 := ih h1 hnd ?_ ?_
    · have hcons : tr ++ finishes (id :: ids) error lastApplied
          = tr ++ [.finished id error lastApplied] ++ finishes ids error lastApplied := by
        simp [finishes]
      rw [hcons]
      exact h2.congr (by simp [and_assoc]) (by simp [and_assoc])
    · intro i hi
      have hne : i ≠ id := fun h => hnot (h ▸ hi)
      exact (hwait i (mem_cons_of_mem _ hi)).imp (fun h => ⟨h, hne⟩) fun h => ⟨h, hne⟩
    · intro he i hi e hm
      have hm : .proposed i e ∈ tr := by
        rcases mem_append.mp hm with hm | hm
        · exact hm
        · simp at hm
      obtain ⟨T, hT⟩ := hack he i (mem_cons_of_mem _ hi) e hm
      exact ⟨T, mem_append_left _ hT⟩

/-- The process is started again: nobody waits any more. -/
theorem TraceOk.restart :
    TraceOk (tr ++ [.restarted]) next (fun _ => False) (fun _ => False) :=
  h.concat le_rfl (by simp) (by simp) (fun _ => False.elim) (fun _ => False.elim) (by simp)

end Trace

/-! ## The completions of a node -/

variable {σ : Type}

/-- The node's completions are those that wait in its trace, and a proposal that waits has its entry
    in the log, not yet applied. -/
structure ClientsOk (tr : List Event) (x : RaftNode σ) : Prop where
  trace : TraceOk tr x.nextCompletion (· ∈ x.pendingProposals.map Prod.snd)
    (· ∈ x.pendingReadBarriers.map PendingReadBarrier.completion)
  keys : (x.pendingProposals.map Prod.fst).Nodup
  props : (x.pendingProposals.map Prod.snd).Nodup
  reads : (x.pendingReadBarriers.map PendingReadBarrier.completion).Nodup
  pending : ∀ p ∈ x.pendingProposals, ∃ e, .proposed p.2 e ∈ tr ∧ e.index = p.1 ∧
    x.lastApplied < p.1 ∧ x.logStore.entryAt p.1 = .ok e

/-- What is kept by a filter is what is not dropped by it. -/
theorem mem_map_filter_iff {A B : Type} {l : List A} {f : A → B} (hnd : (l.map f).Nodup)
    (p : A → Bool) (b : B) :
    b ∈ (l.filter p).map f ↔ b ∈ l.map f ∧ b ∉ (l.filter fun a => !p a).map f := by
  have hinj : ∀ a ∈ l, ∀ a' ∈ l, f a = f a' → a = a' := fun a ha a' ha' =>
    inj_on_of_nodup_map hnd ha ha'
  constructor
  · intro h
    obtain ⟨a, ha, rfl⟩ := mem_map.mp h
    obtain ⟨hal, hpa⟩ := mem_filter.mp ha
    refine ⟨mem_map_of_mem hal, fun h' => ?_⟩
    obtain ⟨a', ha', heq⟩ := mem_map.mp h'
    obtain ⟨hal', hpa'⟩ := mem_filter.mp ha'
    obtain rfl := hinj a' hal' a hal heq
    simp [hpa] at hpa'
  · rintro ⟨h, h'⟩
    obtain ⟨a, ha, rfl⟩ := mem_map.mp h
    refine mem_map_of_mem (mem_filter.mpr ⟨ha, ?_⟩)
    by_contra hpa
    exact h' (mem_map_of_mem (mem_filter.mpr ⟨ha, by simpa using hpa⟩))

theorem nodup_map_filter {A B : Type} {l : List A} {f : A → B} (hnd : (l.map f).Nodup)
    (p : A → Bool) : ((l.filter p).map f).Nodup :=
  hnd.sublist (filter_sublist.map f)

/-- With distinct keys and values, erasing a key removes the value found under it. -/
theorem mem_erase_iff {m : OrdMap CompletionId} (hkeys : (m.map Prod.fst).Nodup)
    (hvals : (m.map Prod.snd).Nodup) (k : Nat) (id : CompletionId) :
    id ∈ (m.erase k).map Prod.snd ↔ id ∈ m.map Prod.snd ∧ id ∉ (m.find k).toList := by
  unfold OrdMap.erase
  rw [mem_map_filter_iff hvals, Option.mem_toList]
  refine and_congr_right fun _ => not_congr ?_
  constructor
  · intro h
    obtain ⟨⟨i, v⟩, hp, rfl⟩ := mem_map.mp h
    obtain ⟨hmem, hk⟩ := mem_filter.mp hp
    obtain rfl : i = k := by simpa using hk
    exact OrdMap.find_of_mem hkeys hmem
  · intro h
    exact mem_map.mpr ⟨(k, id), mem_filter.mpr ⟨OrdMap.mem_of_find h, by simp⟩, rfl⟩

section Steps

variable {tr : List Event} {x y : RaftNode σ}

/-- Some proposals are gone; those that remain are where they were. -/
theorem ClientsOk.keep (h : ClientsOk tr x) {tr' : List Event}
    (hpp : y.pendingProposals.Sublist x.pendingProposals)
    (hrd : (y.pendingReadBarriers.map PendingReadBarrier.completion).Nodup)
    (hpre : ∀ ev ∈ tr, ev ∈ tr')
    (htrace : TraceOk tr' y.nextCompletion (· ∈ y.pendingProposals.map Prod.snd)
      (· ∈ y.pendingReadBarriers.map PendingReadBarrier.completion))
    (hkept : ∀ p ∈ x.pendingProposals, ∀ e, x.logStore.entryAt p.1 = .ok e →
      y.logStore.entryAt p.1 = .ok e)
    (happlied : ∀ p ∈ y.pendingProposals, x.lastApplied < p.1 → y.lastApplied < p.1) :
    ClientsOk tr' y where
  trace := htrace
  keys := h.keys.sublist (hpp.map _)
  props := h.props.sublist (hpp.map _)
  reads := hrd
  pending := by
    intro p hp
    obtain ⟨e, he, hidx, hlt, hat⟩ := h.pending p (hpp.subset hp)
    exact ⟨e, hpre _ he, hidx, happlied p hp hlt, hkept p (hpp.subset hp) e hat⟩

/-- A proposal is stored under a new index. -/
theorem ClientsOk.propose (h : ClientsOk tr x) (hw : x.Wf) {entry : LogEntry}
    (hindex : entry.index = x.lastLogIndex + 1)
    (hentry : y.logStore.entryAt entry.index = .ok entry)
    (hkept : ∀ p ∈ x.pendingProposals, ∀ e, x.logStore.entryAt p.1 = .ok e →
      y.logStore.entryAt p.1 = .ok e)
    (happlied : y.lastApplied = x.lastApplied) (hbelow : x.lastApplied ≤ x.lastLogIndex)
    (hpp : y.pendingProposals = x.pendingProposals.insert entry.index x.nextCompletion)
    (hrd : y.pendingReadBarriers = x.pendingReadBarriers)
    (hid : y.nextCompletion = x.nextCompletion + 1) :
    ClientsOk (tr ++ [.proposed x.nextCompletion entry]) y := by
  -- the index is new: what waits has an entry in the log already
  have hnew : ∀ p ∈ x.pendingProposals, p.1 ≠ entry.index := by
    intro p hp heq
    obtain ⟨e, -, -, -, hat⟩ := h.pending p hp
    have := (hw.entryAt_range hat).2.1
    omega
  have hperm := OrdMap.insert_perm (v := x.nextCompletion) hnew
  rw [← hpp] at hperm
  have hfst := hperm.map Prod.fst
  have hsnd := hperm.map Prod.snd
  constructor
  · rw [hid, hrd]
    refine (h.trace.propose entry).congr (fun id => ?_) fun id => Iff.rfl
    rw [hsnd.mem_iff, map_cons, mem_cons, or_comm]
  · rw [hfst.nodup_iff, map_cons, nodup_cons]
    refine ⟨fun hm => ?_, h.keys⟩
    obtain ⟨p, hp, heq⟩ := mem_map.mp hm
    exact hnew p hp heq
  · rw [hsnd.nodup_iff, map_cons, nodup_cons]
    exact ⟨fun hm => Nat.lt_irrefl _ (h.trace.below _ (Or.inl hm)), h.props⟩
  · rw [hrd]
    exact h.reads
  · intro p hp
    rcases mem_cons.mp (hperm.mem_iff.mp hp) with rfl | hp
    · exact ⟨entry, by simp, rfl, by simp only; omega, hentry⟩
    · obtain ⟨e, he, hidx, hlt, hat⟩ := h.pending p hp
      exact ⟨e, mem_append_left _ he, hidx, by omega, hkept p hp e hat⟩

/-- The next entry is applied, and whoever waits for it is told. -/
theorem ClientsOk.applied (h : ClientsOk tr x) {entry : LogEntry}
    (hentry : x.logStore.entryAt (x.lastApplied + 1) = .ok entry)
    (hkept : ∀ p ∈ x.pendingProposals, ∀ e, x.logStore.entryAt p.1 = .ok e →
      y.logStore.entryAt p.1 = .ok e)
    (happlied : y.lastApplied = x.lastApplied + 1)
    (hpp : y.pendingProposals = x.pendingProposals.erase (x.lastApplied + 1))
    (hrd : y.pendingReadBarriers = x.pendingReadBarriers)
    (hid : y.nextCompletion = x.nextCompletion) :
    ClientsOk (tr ++ .applied x.hardState.term entry none ::
      finishes (x.pendingProposals.find (x.lastApplied + 1)).toList none (x.lastApplied + 1)) y := by
  have hnote := h.trace.note (f := .applied x.hardState.term entry none) (by simp) rfl
  have hfound : ∀ id ∈ (x.pendingProposals.find (x.lastApplied + 1)).toList,
      (x.lastApplied + 1, id) ∈ x.pendingProposals := by
    intro id hm
    exact OrdMap.mem_of_find (Option.mem_toList.mp hm)
  have hall := TraceOk.finishAll none (x.lastApplied + 1)
    (x.pendingProposals.find (x.lastApplied + 1)).toList hnote
    (by cases x.pendingProposals.find (x.lastApplied + 1) <;> simp) ?_ ?_
  · rw [append_cons]
    refine h.keep (by rw [hpp]; exact filter_sublist) (by rw [hrd]; exact h.reads)
      (fun ev hev => by simp [hev]) ?_ hkept fun p hp hlt => ?_
    · rw [hid, hrd]
      refine hall.congr (fun id => ?_) fun id => ?_
      · rw [hpp]
        exact mem_erase_iff h.keys h.props _ id
      · refine ⟨fun hr => ⟨hr, fun hm => ?_⟩, fun hr => hr.1⟩
        exact h.trace.apart id (mem_map.mpr ⟨_, hfound id hm, rfl⟩) hr
    · rw [hpp] at hp
      have := (OrdMap.mem_erase.mp hp).2
      omega
  · intro id hm
    exact Or.inl (mem_map.mpr ⟨_, hfound id hm, rfl⟩)
  · intro _ id hm e he
    obtain ⟨e', he', -, -, hat⟩ := h.pending _ (hfound id hm)
    rw [hentry] at hat
    cases hat
    obtain rfl := hnote.unique id e entry he (mem_append_left _ he')
    exact ⟨x.hardState.term, by simp⟩

/-- Some proposals and all reads are told of an error. -/
theorem ClientsOk.failed (h : ClientsOk tr x) (e e' : Error) (la : Nat)
    {f : Nat × CompletionId → Bool}
    (hkept : ∀ p ∈ x.pendingProposals, ∀ e, x.logStore.entryAt p.1 = .ok e →
      y.logStore.entryAt p.1 = .ok e)
    (happlied : ∀ p ∈ y.pendingProposals, y.lastApplied = x.lastApplied)
    (hpp : y.pendingProposals = x.pendingProposals.filter f)
    (hrd : y.pendingReadBarriers = []) (hid : y.nextCompletion = x.nextCompletion) :
    ClientsOk (tr ++ finishes ((x.pendingProposals.filter fun p => !f p).map Prod.snd) (some e) la ++
      finishes (x.pendingReadBarriers.map PendingReadBarrier.completion) (some e') la) y := by
  have hdropped : ∀ id ∈ (x.pendingProposals.filter fun p => !f p).map Prod.snd,
      id ∈ x.pendingProposals.map Prod.snd := fun id hm =>
    (filter_sublist.map Prod.snd).subset hm
  have hprops := TraceOk.finishAll (some e) la _ h.trace (nodup_map_filter h.props fun p => !f p)
    (fun id hm => Or.inl (hdropped id hm)) (fun h => by simp at h)
  have hall := TraceOk.finishAll (some e') la _ hprops h.reads
    (fun id hm => Or.inr ⟨hm, fun hp => h.trace.apart id (hdropped id hp) hm⟩)
    (fun h => by simp at h)
  refine h.keep (by rw [hpp]; exact filter_sublist) (by rw [hrd]; exact nodup_nil)
    (fun ev hev => by simp [hev]) ?_ hkept fun p hp hlt => by rw [happlied p hp]; exact hlt
  rw [hid, hpp, hrd]
  refine hall.congr (fun id => ?_) fun id => ?_
  · rw [mem_map_filter_iff h.props]
    exact ⟨fun hp => ⟨hp, h.trace.apart id hp.1⟩, fun hp => hp.1⟩
  · simp only [map_nil, not_mem_nil, false_iff]
    rintro ⟨⟨hr, -⟩, hnot⟩
    exact hnot hr

/-- Some reads are answered. -/
theorem ClientsOk.answered (h : ClientsOk tr x) (la : Nat) {f : PendingReadBarrier → Bool}
    (hkept : ∀ p ∈ x.pendingProposals, ∀ e, x.logStore.entryAt p.1 = .ok e →
      y.logStore.entryAt p.1 = .ok e)
    (happlied : y.lastApplied = x.lastApplied)
    (hpp : y.pendingProposals = x.pendingProposals)
    (hrd : y.pendingReadBarriers = x.pendingReadBarriers.filter fun b => !f b)
    (hid : y.nextCompletion = x.nextCompletion) :
    ClientsOk (tr ++ finishes ((x.pendingReadBarriers.filter f).map PendingReadBarrier.completion)
      none la) y := by
  have hread : ∀ id ∈ (x.pendingReadBarriers.filter f).map PendingReadBarrier.completion,
      id ∈ x.pendingReadBarriers.map PendingReadBarrier.completion := fun id hm =>
    (filter_sublist.map _).subset hm
  have hall := TraceOk.finishAll none la _ h.trace (nodup_map_filter h.reads f)
    (fun id hm => Or.inr (hread id hm))
    fun _ id hm e he => absurd he (h.trace.reads id e (hread id hm))
  refine h.keep (by rw [hpp]) (by rw [hrd]; exact nodup_map_filter h.reads _)
    (fun ev hev => mem_append_left _ hev) ?_ hkept fun p hp hlt => by rw [happlied]; exact hlt
  rw [hid, hpp, hrd]
  refine hall.congr (fun id => ?_) fun id => ?_
  · refine ⟨fun hp => ⟨hp, fun hm => h.trace.apart id hp (hread id hm)⟩, fun hp => hp.1⟩
  · rw [mem_map_filter_iff h.reads]
    simp only [Bool.not_not]

variable [StateMachine σ] {J : Prop} {inp : Option (NodeId × Message)}

/-- **Each step of a node keeps its clients in order.** -/
theorem RaftNode.NodeStep.clients (hs : NodeStep J inp x y) (hw : x.Wf)
    (hle : x.lastApplied ≤ x.lastLogIndex) {past : List Event}
    (h : ClientsOk (past ++ x.events) x) : ClientsOk (past ++ y.events) y := by
  have hlead : ∀ p ∈ x.pendingProposals, x.role = .leader := by
    intro p hp
    by_contra hr
    rw [(hw.idle hr).1] at hp
    simp at hp
  have hkept : ∀ p ∈ x.pendingProposals, ∀ e, x.logStore.entryAt p.1 = .ok e →
      y.logStore.entryAt p.1 = .ok e := by
    intro p hp e he
    obtain ⟨_, -, -, hlt, -⟩ := h.pending p hp
    exact hs.entry_kept hw (hlead p hp) hlt he
  cases hs.client hw with
  | same happlied hev hpp hrd hid =>
    refine h.keep (by rw [hpp]) (by rw [hrd]; exact h.reads) (by rw [hev]; exact fun _ h => h)
      (by rw [hev, hid, hpp, hrd]; exact h.trace) hkept fun p hp hlt => ?_
    rw [happlied (hlead p (hpp ▸ hp))]
    exact hlt
  | unrecorded happlied hev hpp hrd hid =>
    rw [hev, ← append_assoc]
    refine h.keep (by rw [hpp]) (by rw [hrd]; exact h.reads) (fun _ h => mem_append_left _ h)
      (by rw [hid, hpp, hrd]; exact h.trace.note (by simp) rfl) hkept
      fun p hp hlt => by rw [happlied]; exact hlt
  | propose entry hindex hentry happlied hev hpp hrd hid =>
    rw [hev, ← append_assoc]
    exact h.propose hw hindex hentry hkept happlied hle hpp hrd hid
  | openRead b hb hrole happlied hev hpp hrd hid =>
    have hmap : y.pendingReadBarriers.map PendingReadBarrier.completion
        = x.pendingReadBarriers.map PendingReadBarrier.completion ++ [x.nextCompletion] := by
      rw [hrd, map_append, map_singleton, hb]
    have hnew : x.nextCompletion ∉ x.pendingReadBarriers.map PendingReadBarrier.completion :=
      fun hm => Nat.lt_irrefl _ (h.trace.below _ (Or.inr hm))
    refine h.keep (by rw [hpp]) ?_ (by rw [hev]; exact fun _ h => h) ?_ hkept
      fun p hp hlt => by rw [happlied]; exact hlt
    · rw [hmap]
      exact h.reads.append (nodup_singleton _) (by simpa using hnew)
    · rw [hev, hid, hpp, hmap]
      exact h.trace.openRead.congr (fun _ => Iff.rfl) (by simp)
  | answerRead b hb hrole happlied hready hall hsettled hev hpp hrd hid =>
    rw [hev, ← append_assoc, hb]
    have hfin := h.trace.openRead.finish none x.lastApplied (Or.inr (Or.inr rfl))
      fun _ e he => absurd (h.trace.proposed_below _ e he) (Nat.lt_irrefl _)
    refine h.keep (by rw [hpp]) (by rw [hrd]; exact h.reads) (fun _ h => mem_append_left _ h) ?_
      hkept fun p hp hlt => by rw [happlied]; exact hlt
    rw [hid, hpp, hrd]
    refine hfin.congr (fun id => ?_) fun id => ?_
    · exact ⟨fun hp => ⟨hp, Nat.ne_of_lt (h.trace.below id (Or.inl hp))⟩, fun hp => hp.1⟩
    · exact ⟨fun hr => ⟨Or.inl hr, Nat.ne_of_lt (h.trace.below id (Or.inr hr))⟩,
        fun hr => hr.1.resolve_right hr.2⟩
  | applied entry hlt hentry happlied hev hpp hrd hid =>
    rw [hev, ← append_assoc]
    exact h.applied hentry hkept happlied hpp hrd hid
  | applyFailed entry e keep happlied hlt hentry hev hpp hrd hid =>
    have hnote : ClientsOk (past ++ x.events ++ [.applied x.hardState.term entry (some e)]) x :=
      h.keep (List.Sublist.refl _) h.reads (fun _ h => mem_append_left _ h)
        (h.trace.note (by simp) rfl) (fun _ _ _ h => h) fun _ _ h => h
    have := hnote.failed e e x.lastApplied hkept (fun _ _ => happlied) hpp hrd hid
    rw [hev]
    simpa [finishes] using this
  | lost e e' hrole hev hpp hrd hid =>
    have := h.failed (f := fun _ => false) e e' x.lastApplied hkept (by simp [hpp]) (by simp [hpp])
      hrd hid
    rw [hev]
    simpa [finishes] using this
  | finishReads happlied hready hev hpp hrd hid =>
    rw [hev, ← append_assoc]
    exact h.answered x.lastApplied hkept happlied hpp hrd hid

end Steps

/-! ## The clients of a group -/

/-- The events of node `n`, in order. -/
def World.eventsOf (w : World σ) (n : NodeId) : List Event :=
  (w.trace.filter fun p => p.1 == n).map Prod.snd

section World

variable {g : Group} {a : History} {J : Prop}

theorem mem_eventsOf {w : World σ} {m : NodeId} {e : Event} : e ∈ w.eventsOf m ↔ (m, e) ∈ w.trace := by
  unfold World.eventsOf
  rw [mem_map]
  constructor
  · rintro ⟨p, hp, rfl⟩
    obtain ⟨hmem, heq⟩ := mem_filter.mp hp
    rw [beq_iff_eq] at heq
    rw [← heq]
    exact hmem
  · intro h
    exact ⟨(m, e), mem_filter.mpr ⟨h, beq_self_eq_true m⟩, rfl⟩

theorem eventsOf_absorb_self (w : World σ) (n : NodeId) (x : RaftNode σ) :
    (w.absorb n x).eventsOf n = w.eventsOf n ++ x.events := by
  have hall : (x.events.map fun e => (n, e)).filter (fun p => p.1 == n)
      = x.events.map fun e => (n, e) := by
    rw [filter_eq_self]
    intro p hp
    obtain ⟨e, -, rfl⟩ := mem_map.mp hp
    simp
  unfold World.eventsOf World.absorb
  rw [filter_append, map_append, hall, map_map]
  simp [Function.comp_def]

theorem eventsOf_absorb_ne (w : World σ) (x : RaftNode σ) {n m : NodeId} (h : m ≠ n) :
    (w.absorb n x).eventsOf m = w.eventsOf m := by
  have hnone : (x.events.map fun e => (n, e)).filter (fun p => p.1 == m) = [] := by
    rw [filter_eq_nil_iff]
    intro p hp
    obtain ⟨e, -, rfl⟩ := mem_map.mp hp
    simp [Ne.symm h]
  unfold World.eventsOf World.absorb
  rw [filter_append, map_append, hnone, map_nil, append_nil]

/-- One node has moved; the clients of all others see nothing. -/
theorem clients_absorb {w w₀ : World σ} {n : NodeId} {x : RaftNode σ}
    (h : ∀ m ∈ g.peers, ClientsOk (w₀.eventsOf m) (w₀.nodes m))
    (hnodes : ∀ m, m ≠ n → w.nodes m = w₀.nodes m)
    (hevents : ∀ m, m ≠ n → w.eventsOf m = w₀.eventsOf m)
    (hx : ClientsOk (w.eventsOf n ++ x.events) x) :
    ∀ m ∈ g.peers, ClientsOk ((w.absorb n x).eventsOf m) ((w.absorb n x).nodes m) := by
  intro m hm
  by_cases hmn : m = n
  · subst hmn
    rw [eventsOf_absorb_self, absorb_nodes_self]
    exact { hx with }
  · rw [eventsOf_absorb_ne w x hmn, absorb_nodes_ne w x hmn, hnodes m hmn, hevents m hmn]
    exact h m hm

variable [StateMachine σ]

theorem WorldStep.clients {w w' : World σ} (hs : WorldStep J g w w') (hsim : Sim g a w)
    (h : ∀ n ∈ g.peers, ClientsOk (w.eventsOf n) (w.nodes n)) :
    ∀ n ∈ g.peers, ClientsOk (w'.eventsOf n) (w'.nodes n) := by
  cases hs with
  | node w n inp x y hn hinp hs =>
    have hx := (hsim.accounted hn).1
    have hc := h n hn
    rw [eventsOf_absorb_self, absorb_nodes_self] at hc
    have hc : ClientsOk (w.eventsOf n ++ x.events) x := { hc with }
    have hy := hs.clients hx.wf (hx.applied_le.trans hx.commit_le) hc
    exact clients_absorb h (fun m hm => (absorb_nodes_ne w x hm).symm)
      (fun m hm => (eventsOf_absorb_ne w x hm).symm) hy
  | enter w n now faults hn =>
    refine clients_absorb h (fun _ _ => rfl) (fun _ _ => rfl) ?_
    have hev : (w.enter n now faults).events = [] := (hsim.quiet n).2
    rw [hev, append_nil]
    exact { h n hn with }
  | restart w n machine now hn =>
    refine clients_absorb h (fun _ _ => rfl) (fun _ _ => rfl) ?_
    have hc := h n hn
    unfold World.reboot
    rw [start_eq hn]
    exact {
      trace := hc.trace.restart.congr (by simp [resetElectionDeadline, create])
        (by simp [resetElectionDeadline, create])
      keys := nodup_nil
      props := nodup_nil
      reads := nodup_nil
      pending := by simp [resetElectionDeadline, create] }

/-- Nothing has been asked of a node that has just been started for the first time. -/
theorem clients_init (machine : NodeId → σ) :
    ∀ n ∈ g.peers, ClientsOk ((World.init g machine).eventsOf n) ((World.init g machine).nodes n) := by
  intro n hn
  show ClientsOk [] (start (create (g.config n) {} (machine n) 0)).2
  rw [start_eq hn]
  exact {
    trace := traceOk_nil.congr (by simp [resetElectionDeadline, create])
      (by simp [resetElectionDeadline, create])
    keys := nodup_nil
    props := nodup_nil
    reads := nodup_nil
    pending := by simp [resetElectionDeadline, create] }

/-- In every run the clients of every node are in order. -/
theorem World.run_clients (g : Group) (machine : NodeId → σ) (inputs : List (Input σ)) :
    ∃ a, Sim g a (World.run g machine inputs) ∧
      ∀ n ∈ g.peers, ClientsOk ((World.run g machine inputs).eventsOf n)
        ((World.run g machine inputs).nodes n) := by
  obtain ⟨a, h, -, hP⟩ := World.run_rule (g := g) (J := False)
    (P := fun _ w => ∀ n ∈ g.peers, ClientsOk (w.eventsOf n) (w.nodes n)) machine
    (clients_init machine) (fun a a' m w w' h hP hs _ _ => hs.clients h hP) inputs
    fun h => h.elim
  exact ⟨a, h, hP⟩

/-- **Acknowledged proposals.**  In every run, for every node: a proposal's completion finishes
    without error only after the node's state machine has applied exactly the proposed entry; no
    completion is finished twice; and a node that does not lead keeps no proposal waiting — every
    proposal made since the process was started has been finished. -/
theorem proposals_acknowledged (g : Group) (machine : NodeId → σ) (inputs : List (Input σ))
    (n : NodeId) (hn : n ∈ g.peers) :
    (∀ k id e la, ((World.run g machine inputs).eventsOf n)[k]? = some (.finished id none la) →
      .proposed id e ∈ (World.run g machine inputs).eventsOf n →
      ∃ T, .applied T e none ∈ ((World.run g machine inputs).eventsOf n).take k) ∧
    (finishedIds ((World.run g machine inputs).eventsOf n)).Nodup ∧
    (((World.run g machine inputs).nodes n).role ≠ .leader →
      ((World.run g machine inputs).nodes n).pendingProposals = [] ∧
      ∀ k id e, ((World.run g machine inputs).eventsOf n)[k]? = some (.proposed id e) →
        .restarted ∉ ((World.run g machine inputs).eventsOf n).drop k →
        id ∈ finishedIds ((World.run g machine inputs).eventsOf n)) := by
  obtain ⟨a, h, hclients⟩ := World.run_clients g machine inputs
  have hc := hclients n hn
  refine ⟨hc.trace.acked, hc.trace.once, fun hr => ?_⟩
  have hidle := ((h.node n hn).wf.idle hr).1
  refine ⟨hidle, fun k id e hk hrestart => ?_⟩
  refine (hc.trace.settled k id e hk hrestart).resolve_left ?_
  rw [hidle]
  simp

/-- Node 1 leads in term 1; its first proposal is acknowledged, and the second one still waits when
    it hears of term 2. -/
def handover : List (Input NullMachine) :=
  [.tick 1 5000, .deliver 0, .deliver 2, .propose 1 [97], .deliver 5, .deliver 7, .propose 1 [98],
    .tick 2 20000, .deliver 13]

theorem proposals_acknowledged_handover :
    (∃ T, .applied T ⟨2, 1, [97]⟩ none
      ∈ ((World.run trio nullMachines handover).eventsOf 1).take 3) ∧
    ((World.run trio nullMachines handover).nodes 1).role ≠ .leader ∧
    ((World.run trio nullMachines handover).nodes 1).pendingProposals = [] ∧
    1 ∈ finishedIds ((World.run trio nullMachines handover).eventsOf 1) := by
  have hrole : ((World.run trio nullMachines handover).nodes 1).role ≠ .leader := by
    decide +kernel
  have hfirst : ((World.run trio nullMachines handover).eventsOf 1)[3]?
      = some (.finished 0 none 2) := by
    decide +kernel
  have hproposed : .proposed 0 ⟨2, 1, [97]⟩ ∈ (World.run trio nullMachines handover).eventsOf 1 := by
    decide +kernel
  have hsecond : ((World.run trio nullMachines handover).eventsOf 1)[4]?
      = some (.proposed 1 ⟨3, 1, [98]⟩) := by
    decide +kernel
  have hup : .restarted ∉ ((World.run trio nullMachines handover).eventsOf 1).drop 4 := by
    decide +kernel
  obtain ⟨hacked, -, hidle⟩ :=
    proposals_acknowledged trio nullMachines handover 1 (by decide)
  obtain ⟨hnone, hsettled⟩ := hidle hrole
  exact ⟨hacked 3 0 _ 2 hfirst hproposed, hrole, hnone, hsettled 4 1 _ hsecond hup⟩

end World

end SqlDb.Raft
