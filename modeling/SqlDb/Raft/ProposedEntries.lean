/-
  WHAT BECOMES OF A PROPOSAL  (`propose_batch`, raft/raft_kv_store.cpp; `KVStateMachine::apply`,
  raft/kv_state_machine.cpp).

  A connection numbers its proposals, one after the other; a commit that is tried again is a NEW
  proposal with a new number.  The state machine remembers the last number of every client: the same
  number again is answered without a write, a lower one is an error that stops the replica for good.

  * An entry can be applied EXACTLY IF no range removal in it is empty and its number is not lower than
    its client's last one (`apply_isOk_iff`).  Nothing in the write path looks at the bounds of a range
    removal, so a connection can propose an entry at which every replica stops (`no_poison_iff`).
  * Since every attempt to commit has a number of its own, the batch of a transaction is executed once
    for EACH attempt that is applied (`commit_retries_iff`).
-/
import SqlDb.Raft.CrossGroup
import SqlDb.Raft.Replay

namespace SqlDb.Raft

open Kv (Op WriteBatch Status MockStore)
open History List

/-! ## The numbers of the proposals -/

namespace RaftKvEngine

/-- The event has used up a number. -/
def EngineEvent.isRequest : EngineEvent → Bool
  | .proposed _ _ _ => true
  | .unrouted _ => true
  | _ => false

/-- How many numbers have been used up. -/
def requests (history : List EngineEvent) : Nat := history.countP EngineEvent.isRequest

theorem requests_snoc (history : List EngineEvent) (e : EngineEvent) :
    requests (history ++ [e]) = requests history + if EngineEvent.isRequest e then 1 else 0 := by
  unfold requests
  rw [countP_append, countP_singleton]

/-- A proposal carries the client's id and the next number. -/
def Numbered (clientId : Nat) (before : List EngineEvent) : EngineEvent → Prop
  | .proposed _ _ payload =>
    payload.clientId = clientId ∧ payload.requestId = (requests before + 1) % 2 ^ 64
  | _ => True

/-- The counter of a connection. -/
structure Counts (clientId : Nat) (s : RaftKvEngine) : Prop where
  client : s.clientId = clientId
  next : s.nextRequestId = (requests s.trace + 1) % 2 ^ 64
  numbered : Always (Numbered clientId) s.trace

theorem counts_step {router : GroupRouter} {clientId : Nat} {s s' : RaftKvEngine}
    (h : EngineStep router s s') (hs : Counts clientId s) : Counts clientId s' := by
  obtain ⟨hclient, hnext, hnumbered⟩ := hs
  -- an event that is no request
  have hother : ∀ {t : RaftKvEngine} {e : EngineEvent}, t.trace = s.trace ++ [e] →
      t.clientId = s.clientId → t.nextRequestId = s.nextRequestId →
      EngineEvent.isRequest e = false → Numbered clientId s.trace e → Counts clientId t := by
    intro t e htrace hc hn hreq hnum
    refine ⟨hc.trans hclient, ?_, htrace ▸ always_snoc.mpr ⟨hnumbered, hnum⟩⟩
    rw [hn, hnext, htrace, requests_snoc, hreq]
    rfl
  -- the counter goes on
  have hcount : ∀ e, EngineEvent.isRequest e = true →
      (s.nextRequestId + 1) % 2 ^ 64 = (requests (s.trace ++ [e]) + 1) % 2 ^ 64 := by
    intro e hreq
    rw [hnext, requests_snoc, hreq, if_pos rfl]
    omega
  cases h with
  | noted | bound | crossed => exact ⟨hclient, hnext, hnumbered⟩
  | acquired | released | looked | scanned | buffered | began | ended =>
    exact hother rfl rfl rfl rfl trivial
  | unrouted group =>
    exact ⟨hclient, hcount _ rfl, always_snoc.mpr ⟨hnumbered, trivial⟩⟩
  | proposed batch group hheld hbatch =>
    exact ⟨hclient, hcount _ rfl, always_snoc.mpr ⟨hnumbered, hclient, hnext⟩⟩

theorem counts_run (router : GroupRouter) (clientId : Nat) (loose : Bool)
    (calls : List (NodeView × Call)) :
    Counts clientId (runCalls router (fresh clientId loose) calls) := by
  have hfresh : Counts clientId (fresh clientId loose) := ⟨rfl, rfl, always_nil⟩
  exact runCalls_induction counts_step (fun _ => rfl) hfresh calls

/-- The payloads of the proposals among some events, oldest first. -/
def proposals (events : List EngineEvent) : List ProposalPayload :=
  events.filterMap fun e => match e with
    | .proposed _ _ payload => some payload
    | _ => none

theorem proposals_append (events more : List EngineEvent) :
    proposals (events ++ more) = proposals events ++ proposals more := filterMap_append

/-- **Every proposal has a number of its own**: a connection that has not used up the 64-bit numbers
    counts upwards. -/
theorem proposals_increase {clientId : Nat} {history : List EngineEvent}
    (hnumbered : Always (Numbered clientId) history) (hlimit : requests history < 2 ^ 64) :
    (proposals history).Pairwise (fun p q => p.requestId < q.requestId) ∧
      ∀ p ∈ proposals history, p.clientId = clientId ∧ p.requestId ≤ requests history := by
  induction history using List.reverseRecOn with
  | nil => exact ⟨List.Pairwise.nil, by simp [proposals]⟩
  | append_singleton history e ih =>
    obtain ⟨hold, hnew⟩ := always_snoc.mp hnumbered
    have hcount := requests_snoc history e
    obtain ⟨hpairs, hbound⟩ := ih hold (by omega)
    have hle : requests history ≤ requests (history ++ [e]) := by omega
    rw [proposals_append]
    cases e with
    | proposed group bound payload =>
      have hone : proposals [.proposed group bound payload] = [payload] := rfl
      obtain ⟨hclient, hnumber⟩ := hnew
      have hreq : EngineEvent.isRequest (.proposed group bound payload) = true := rfl
      rw [hreq, if_pos rfl] at hcount
      rw [Nat.mod_eq_of_lt (by omega)] at hnumber
      rw [hone]
      constructor
      · refine pairwise_append.mpr ⟨hpairs, pairwise_singleton _ _, fun p hp q hq => ?_⟩
        obtain rfl := mem_singleton.mp hq
        have := (hbound p hp).2
        omega
      · intro p hp
        rcases mem_snoc.mp hp with hp | rfl
        · exact ⟨(hbound p hp).1, (hbound p hp).2.trans hle⟩
        · exact ⟨hclient, by omega⟩
    | _ =>
      refine ⟨by simpa [proposals] using hpairs, fun p hp => ?_⟩
      have hp : p ∈ proposals history := by simpa [proposals] using hp
      exact ⟨(hbound p hp).1, (hbound p hp).2.trans hle⟩

end RaftKvEngine

/-! ## Applying what was proposed -/

/-- The entry is the one of a new leader, or carries a payload that a connection has proposed. -/
def Proposed (router : GroupRouter) (e : LogEntry) (p : ProposalPayload) : Prop :=
  e.data = encodeProposalPayload p ∧ p.Fits ∧ ∃ clientId loose calls,
    p ∈ RaftKvEngine.proposals
      (RaftKvEngine.runCalls router (RaftKvEngine.fresh clientId loose) calls).trace

variable {e : LogEntry} {m : KvStateMachine}

namespace KvStateMachine

/-- The local storage does what it is asked. -/
structure Healthy (m : KvStateMachine) : Prop where
  isOpen : m.localStore.isOpen = true
  works : m.localStore.failWrites = false

theorem Applies.healthy {m m' : KvStateMachine} (h : Applies m e m')
    (hm : m.Healthy) : m'.Healthy := by
  cases h with
  | noop | repeated => exact hm
  | written => exact ⟨hm.isOpen, hm.works⟩

theorem encode_ne_nil (p : ProposalPayload) : encodeProposalPayload p ≠ [] := by
  intro hnil
  have hlength := congrArg List.length hnil
  simp [encodeProposalPayload, kMagic, ascii] at hlength

/-- The request of a payload that can be read. -/
theorem request_encode {p : ProposalPayload} (he : e.data = encodeProposalPayload p)
    (hp : p.Fits) : e.request =
      if p.batch.all Op.valid then some (p.clientId, p.requestId) else none := by
  unfold LogEntry.request
  rw [if_neg (he ▸ encode_ne_nil p), he, decodeProposalPayload_encode hp]
  cases p.batch.all Op.valid <;> rfl

/-- **One entry** can be applied exactly if it can be read and is not behind its client's last one. -/
theorem apply_isOk_iff (hm : m.Healthy) {p : ProposalPayload}
    (he : e.data = encodeProposalPayload p) (hp : p.Fits) :
    (m.apply e).1.isOk = true ↔ p.batch.all Op.valid = true ∧
      ∀ l, m.latest p.clientId = some l → l ≤ p.requestId := by
  have hdata : e.data ≠ [] := he ▸ encode_ne_nil p
  have hdecode := decodeProposalPayload_encode hp
  unfold apply
  rw [if_neg hdata, he, hdecode]
  cases hvalid : p.batch.all Op.valid with
  | false => simp [Except.isOk, Except.toBool]
  | true =>
    rw [if_pos rfl]
    dsimp only
    rcases m.requestResults.find_cases p.clientId p.requestId with
      ⟨result, hlatest, hfind⟩ | ⟨l, error, hlatest, hlt, hfind⟩ | ⟨hnew, hfind⟩
    · rw [hfind]
      refine iff_of_true rfl ⟨rfl, fun l hl => ?_⟩
      have hl : m.requestResults.latest p.clientId = some l := hl
      rw [hlatest] at hl
      exact Nat.le_of_eq (Option.some.inj hl).symm
    · rw [hfind]
      refine iff_of_false (by simp [Except.isOk, Except.toBool]) fun h => ?_
      have := h.2 l hlatest
      omega
    · rw [hfind]
      have hwrite : m.localStore.writeBatch p.batch
          = (.ok, { m.localStore with data := Kv.applyOps p.batch m.localStore.data }) := by
        unfold MockStore.writeBatch
        rw [if_neg (by simp [hm.isOpen]), if_neg (by simp [hm.works]), if_neg (by simp [hvalid])]
      rw [hwrite]
      exact iff_of_true rfl ⟨rfl, fun l hl => Nat.le_of_lt (hnew l hl)⟩

end KvStateMachine

/-- No entry is behind an earlier one of its client. -/
def InOrder (log : List LogEntry) : Prop :=
  log.Pairwise fun e f => ∀ c r r', e.request = some (c, r) → f.request = some (c, r') → r ≤ r'

/-- Every range removal of the entry is of a range that is not empty. -/
def NoEmptyRange (router : GroupRouter) (e : LogEntry) : Prop :=
  ∀ p, Proposed router e p → p.batch.all Op.valid = true

namespace KvStateMachine

/-- What a machine that has applied an entry asks of the next ones is what the entry asks of them,
    together with what the machine asked before. -/
theorem latest_after {m m' : KvStateMachine} {e f : LogEntry} (happ : Applies m e m') :
    (∀ c r, f.request = some (c, r) → ∀ l, m'.latest c = some l → l ≤ r) ↔
      (∀ c r r', e.request = some (c, r) → f.request = some (c, r') → r ≤ r') ∧
        ∀ c r, f.request = some (c, r) → (∀ r', e.request ≠ some (c, r')) →
          ∀ l, m.latest c = some l → l ≤ r := by
  constructor
  · intro hall
    refine ⟨fun c r r' he hf => ?_, fun c r hf hother l hl => ?_⟩
    · exact hall c r' hf r ((happ.latest c).1 r he).1
    · exact hall c r hf l (((happ.latest c).2 hother).trans hl)
  · rintro ⟨hsame, hother⟩ c r hf l hl
    by_cases he : ∃ r', e.request = some (c, r')
    · obtain ⟨r', he⟩ := he
      rw [((happ.latest c).1 r' he).1] at hl
      rw [← Option.some.inj hl]
      exact hsame c r' r he hf
    · have hno : ∀ r', e.request ≠ some (c, r') := fun r' h => he ⟨r', h⟩
      rw [(happ.latest c).2 hno] at hl
      exact hother c r hf hno l hl

/-- A log of proposals, on a machine that knows some requests already. -/
theorem applyAll_isOk_iff {router : GroupRouter} (log : List LogEntry)
    (hm : m.Healthy) (hlog : ∀ e ∈ log, e.data = [] ∨ ∃ p, Proposed router e p) :
    (applyAll log m).1 = .ok () ↔ (∀ e ∈ log, NoEmptyRange router e) ∧ InOrder log ∧
      ∀ e ∈ log, ∀ c r, e.request = some (c, r) → ∀ l, m.latest c = some l → l ≤ r := by
  induction log generalizing m with
  | nil => exact iff_of_true rfl ⟨by simp, List.Pairwise.nil, by simp⟩
  | cons e rest ih =>
    obtain ⟨he, hrest⟩ := forall_mem_cons.mp hlog
    unfold InOrder at ih ⊢
    rw [forall_mem_cons, pairwise_cons, forall_mem_cons]
    rcases happ : StateMachine.apply m e with ⟨error | result, m'⟩
    · -- the first entry is rejected
      rw [applyAll_cons_error happ]
      refine iff_of_false (by simp) fun hall => ?_
      rcases he with hnil | ⟨p, hp⟩
      · have hnoop : StateMachine.apply m e = (.ok "noop", m) := if_pos hnil
        rw [hnoop] at happ
        simp at happ
      · have hvalid := hall.1.1 p hp
        have hrequest := request_encode hp.1 hp.2.1
        rw [hvalid, if_pos rfl] at hrequest
        have hok := (apply_isOk_iff hm hp.1 hp.2.1).mpr ⟨hvalid, hall.2.2.1 _ _ hrequest⟩
        rw [show m.apply e = (.error error, m') from happ] at hok
        simp [Except.isOk, Except.toBool] at hok
    · rw [applyAll_cons_ok happ]
      have happlies : Applies m e m' := applies_of_ok happ
      rw [ih (happlies.healthy hm) hrest]
      -- what the first entry has to satisfy, it does
      have hempty : NoEmptyRange router e := by
        intro p hp
        refine ((apply_isOk_iff hm hp.1 hp.2.1).mp ?_).1
        rw [show m.apply e = (.ok result, m') from happ]
        rfl
      have hfirst : ∀ c r, e.request = some (c, r) → ∀ l, m.latest c = some l → l ≤ r :=
        fun c r hr => ((happlies.latest c).1 r hr).2
      constructor
      · rintro ⟨hvalid, horder, hlatest⟩
        have hsplit := fun f hf => (latest_after happlies).mp (hlatest f hf)
        refine ⟨⟨hempty, hvalid⟩, ⟨fun f hf => (hsplit f hf).1, horder⟩, hfirst, ?_⟩
        intro f hf c r hr l hl
        by_cases hsame : ∃ r', e.request = some (c, r')
        · obtain ⟨r', hr'⟩ := hsame
          exact (hfirst c r' hr' l hl).trans ((hsplit f hf).1 c r' r hr' hr)
        · exact (hsplit f hf).2 c r hr (fun r' h => hsame ⟨r', h⟩) l hl
      · rintro ⟨⟨_, hvalid⟩, ⟨hbefore, horder⟩, _, hlatest⟩
        refine ⟨hvalid, horder, fun f hf => (latest_after happlies).mpr ⟨hbefore f hf, ?_⟩⟩
        exact fun c r hr _ => hlatest f hf c r hr

/-- A machine at the start of its log. -/
def initial (store : MockStore) : KvStateMachine := { localStore := store }

end KvStateMachine

/-- **No poison entries**: a replica whose storage works gets through a log of proposals EXACTLY IF no
    entry removes an empty range and no entry is behind an earlier one of its client; and a connection
    that has not used up its numbers proposes in the order of the numbers. -/
theorem no_poison_iff (router : GroupRouter) (log : List LogEntry) (store : MockStore)
    (hopen : store.isOpen = true) (hworks : store.failWrites = false)
    (hlog : ∀ e ∈ log, e.data = [] ∨ ∃ p, Proposed router e p) :
    ((applyAll log (KvStateMachine.initial store)).1 = .ok () ↔
      (∀ e ∈ log, NoEmptyRange router e) ∧ InOrder log) ∧
    ∀ clientId loose calls, RaftKvEngine.requests
        (RaftKvEngine.runCalls router (RaftKvEngine.fresh clientId loose) calls).trace < 2 ^ 64 →
      (RaftKvEngine.proposals
        (RaftKvEngine.runCalls router (RaftKvEngine.fresh clientId loose) calls).trace).Pairwise
        fun p q => p.requestId < q.requestId := by
  constructor
  · have hiff := KvStateMachine.applyAll_isOk_iff log
      (m := KvStateMachine.initial store) ⟨hopen, hworks⟩ hlog
    rw [hiff]
    constructor
    · rintro ⟨hvalid, horder, _⟩
      exact ⟨hvalid, horder⟩
    · rintro ⟨hvalid, horder⟩
      refine ⟨hvalid, horder, fun e _ c r _ l hl => ?_⟩
      -- nothing is known of any client
      have hnone : (KvStateMachine.initial store).latest c = none := rfl
      rw [hnone] at hl
      simp at hl
  · intro clientId loose calls hlimit
    exact (RaftKvEngine.proposals_increase
      (RaftKvEngine.counts_run router clientId loose calls).numbered hlimit).1

/-! ### An empty range -/

open RaftKvEngine in
/-- A batch that removes the keys from "b" to "b". -/
def emptyRemoval : List (NodeView × Call) := [({}, .writeBatch [.removeRange (ascii "b") (ascii "b")])]

/-- The entry that is proposed. -/
def poison : LogEntry :=
  ⟨1, 1, encodeProposalPayload ⟨7, 1, [.removeRange (ascii "b") (ascii "b")]⟩⟩

/-- A connection proposes the entry, and no replica gets past it. -/
theorem empty_removal_stops : Proposed {} poison ⟨7, 1, [.removeRange (ascii "b") (ascii "b")]⟩ ∧
    (applyAll [poison] (KvStateMachine.initial { isOpen := true })).1
      = .error ⟨.invalidArgument, "invalid remove_range bounds"⟩ := by
  refine ⟨⟨rfl, ⟨by decide, by decide, by decide, ?_⟩, 7, false, emptyRemoval, ?_⟩, by decide +kernel⟩
  · intro op hop
    obtain rfl := mem_singleton.mp hop
    exact ⟨by decide, by decide⟩
  · have hproposals : RaftKvEngine.proposals (RaftKvEngine.runCalls {} (RaftKvEngine.fresh 7 false)
        emptyRemoval).trace = [⟨7, 1, [.removeRange (ascii "b") (ascii "b")]⟩] := rfl
    rw [hproposals]
    exact mem_cons_self

open RaftKvEngine in
/-- A put, outside a transaction. -/
def onePut : List (NodeView × Call) := [({}, .put (ascii "b") [1])]

def onePutEntry : LogEntry := ⟨2, 1, encodeProposalPayload ⟨7, 1, [.put (ascii "b") [1]]⟩⟩

theorem proposed_put : Proposed {} onePutEntry ⟨7, 1, [.put (ascii "b") [1]]⟩ := by
  refine ⟨rfl, ⟨by decide, by decide, by decide, ?_⟩, 7, false, onePut, ?_⟩
  · intro op hop
    obtain rfl := mem_singleton.mp hop
    exact ⟨by decide, by decide⟩
  · have hproposals : RaftKvEngine.proposals (RaftKvEngine.runCalls {} (RaftKvEngine.fresh 7 false)
        onePut).trace = [⟨7, 1, [.put (ascii "b") [1]]⟩] := rfl
    rw [hproposals]
    exact mem_cons_self

/-- A log with the entry of a new leader and a put. -/
theorem no_poison_put :
    (applyAll [⟨1, 1, []⟩, onePutEntry] (KvStateMachine.initial { isOpen := true })).1 = .ok () := by
  refine (no_poison_iff {} [⟨1, 1, []⟩, onePutEntry] { isOpen := true } rfl rfl ?_).1.mpr ⟨?_, ?_⟩
  · intro e he
    rcases mem_cons.mp he with rfl | he
    · exact Or.inl rfl
    · obtain rfl := mem_singleton.mp he
      exact Or.inr ⟨_, proposed_put⟩
  · intro e he p hp
    rcases mem_cons.mp he with rfl | he
    · exact absurd hp.1.symm (KvStateMachine.encode_ne_nil p)
    · obtain rfl := mem_singleton.mp he
      -- both payloads are read from the same bytes
      by_contra hinvalid
      have hread := decodeProposalPayload_encode hp.2.1
      rw [if_neg hinvalid, ← hp.1, proposed_put.1,
        decodeProposalPayload_encode proposed_put.2.1] at hread
      simp [Kv.Op.valid] at hread
  · refine pairwise_pair.mpr fun c r r' he _ => ?_
    simp [LogEntry.request] at he

/-! ## Commits that are tried again -/

namespace KvStateMachine

/-- The entries that are applied, up to the first one that is rejected. -/
def applied : List LogEntry → KvStateMachine → List LogEntry
  | [], _ => []
  | e :: rest, m =>
    match m.apply e with
    | (.ok _, m') => e :: applied rest m'
    | (.error _, _) => []

/-- Applying the entry writes its batch: its request is not the client's last one. -/
def isNew (m : KvStateMachine) (e : LogEntry) : Bool :=
  match e.request with
  | some (c, r) => decide (m.latest c ≠ some r)
  | none => false

/-- The entries whose batches are executed. -/
def executions : List LogEntry → KvStateMachine → List LogEntry
  | [], _ => []
  | e :: rest, m =>
    match m.apply e with
    | (.ok _, m') => if m.isNew e then e :: executions rest m' else executions rest m'
    | (.error _, _) => []

/-- The entries of a client that are still to be executed are behind its last request. -/
theorem latest_lt_of_mem_executions {log : List LogEntry}
    (he : e ∈ executions log m) {c r : Nat} (hr : e.request = some (c, r)) :
    ∀ l, m.latest c = some l → l < r := by
  induction log generalizing m with
  | nil => simp [executions] at he
  | cons f rest ih =>
    intro l hl
    unfold executions at he
    split at he
    · rename_i result m' happ
      have happlies := applies_of_ok happ
      -- what is executed later is behind the last request after the first entry
      have hlater : e ∈ executions rest m' → l < r := by
        intro he
        by_cases hreq : ∃ r', f.request = some (c, r')
        · obtain ⟨r', hr'⟩ := hreq
          obtain ⟨hlast, hle⟩ := (happlies.latest c).1 r' hr'
          exact (hle l hl).trans_lt (ih he r' hlast)
        · have hno : ∀ r', f.request ≠ some (c, r') := fun r' h => hreq ⟨r', h⟩
          exact ih he l (((happlies.latest c).2 hno).trans hl)
      split_ifs at he with hnew
      · rcases mem_cons.mp he with rfl | he
        · have hle := ((happlies.latest c).1 r hr).2 l hl
          unfold isNew at hnew
          rw [hr] at hnew
          have hne : m.latest c ≠ some r := by simpa using hnew
          rw [hl] at hne
          exact Nat.lt_of_le_of_ne hle fun h => hne (congrArg some h)
        · exact hlater he
      · exact hlater he
    · simp at he

/-- No request is executed twice. -/
theorem executions_distinct (log : List LogEntry) (m : KvStateMachine) :
    (executions log m).Pairwise fun e f => e.request ≠ f.request := by
  induction log generalizing m with
  | nil => exact List.Pairwise.nil
  | cons e rest ih =>
    unfold executions
    split
    · rename_i result m' happ
      split_ifs with hnew
      · refine pairwise_cons.mpr ⟨fun f hf heq => ?_, ih m'⟩
        unfold isNew at hnew
        cases hr : e.request with
        | none =>
          rw [hr] at hnew
          simp at hnew
        | some req =>
          obtain ⟨c, r⟩ := req
          have hlast := (((applies_of_ok happ).latest c).1 r hr).1
          have := latest_lt_of_mem_executions hf (heq ▸ hr) r hlast
          omega
      · exact ih m'
    · exact List.Pairwise.nil

theorem executions_subset (log : List LogEntry) (m : KvStateMachine) :
    ∀ e ∈ executions log m, e ∈ applied log m := by
  induction log generalizing m with
  | nil => simp [executions]
  | cons e rest ih =>
    intro f hf
    unfold executions at hf
    unfold applied
    split at hf
    · rename_i result m' happ
      split at hf
      · rcases mem_cons.mp hf with rfl | hf
        · exact mem_cons_self
        · exact mem_cons_of_mem _ (ih m' f hf)
      · exact mem_cons_of_mem _ (ih m' f hf)
    · simp at hf

/-- Every request that is applied and was not known before has been executed. -/
theorem exists_execution {log : List LogEntry}
    (he : e ∈ applied log m) {c r : Nat} (hr : e.request = some (c, r)) (hnew : m.latest c ≠ some r) :
    ∃ f ∈ executions log m, f.request = some (c, r) := by
  induction log generalizing m with
  | nil => simp [applied] at he
  | cons g rest ih =>
    unfold applied at he
    unfold executions
    split at he
    · rename_i result m' happ
      have happlies := applies_of_ok happ
      by_cases hfirst : g.request = some (c, r)
      · have hisNew : m.isNew g = true := by
          unfold isNew
          rw [hfirst]
          simpa using hnew
        rw [if_pos hisNew]
        exact ⟨g, mem_cons_self, hfirst⟩
      · have hrest : e ∈ applied rest m' := by
          rcases mem_cons.mp he with rfl | he
          · exact absurd hr hfirst
          · exact he
        have hnew' : m'.latest c ≠ some r := by
          by_cases hreq : ∃ r', g.request = some (c, r')
          · obtain ⟨r', hr'⟩ := hreq
            rw [((happlies.latest c).1 r' hr').1]
            intro heq
            rw [Option.some.inj heq] at hr'
            exact hfirst hr'
          · rw [(happlies.latest c).2 fun r' h => hreq ⟨r', h⟩]
            exact hnew
        obtain ⟨f, hf, hfr⟩ := ih hrest hnew'
        refine ⟨f, ?_, hfr⟩
        split
        · exact mem_cons_of_mem _ hf
        · exact hf
    · simp at he

end KvStateMachine

/-- The entry carries one of the payloads' requests. -/
def IsAttempt (payloads : List ProposalPayload) (e : LogEntry) : Bool :=
  payloads.any fun p => e.request = some (p.clientId, p.requestId)

/-- A list without repetitions in which all members agree has at most one. -/
theorem length_le_one_iff {A B : Type} {f : A → B} {l : List A}
    (h : l.Pairwise fun a b => f a ≠ f b) :
    l.length ≤ 1 ↔ ∀ a ∈ l, ∀ b ∈ l, f a = f b := by
  match l with
  | [] => simp
  | [a] => simp
  | a :: b :: rest =>
    refine iff_of_false (by simp) fun hall => ?_
    have hne := (pairwise_cons.mp h).1 b mem_cons_self
    exact hne (hall a mem_cons_self b (mem_cons_of_mem _ mem_cons_self))

/-- What happens in a transaction happens after its beginning. -/
theorem RaftKvEngine.eq_of_inTx {history events : List EngineEvent}
    (h : RaftKvEngine.inTx history = some events) : ∃ before, history = before ++ .began :: events := by
  induction history using List.reverseRecOn generalizing events with
  | nil => simp [RaftKvEngine.inTx] at h
  | append_singleton history e ih =>
    rw [RaftKvEngine.inTx_snoc] at h
    -- every event but the beginning and the end is added to what has happened
    have hadd : (RaftKvEngine.inTx history).map (· ++ [e]) = some events →
        ∃ before, history ++ [e] = before ++ .began :: events := by
      intro hmap
      obtain ⟨old, hold, rfl⟩ := Option.map_eq_some_iff.mp hmap
      obtain ⟨before, rfl⟩ := ih hold
      exact ⟨before, by simp⟩
    cases e with
    | began =>
      cases h
      exact ⟨history, rfl⟩
    | ended => simp at h
    | _ => exact hadd h

/-- The attempts to commit that have been made in a transaction have numbers of their own. -/
theorem RaftKvEngine.attempts_increase (router : GroupRouter) (clientId : Nat) (loose : Bool)
    (calls : List (NodeView × RaftKvEngine.Call)) {before after events : List EngineEvent}
    (htrace : (runCalls router (fresh clientId loose) calls).trace = before ++ after)
    (htx : inTx before = some events)
    (hlimit : requests (runCalls router (fresh clientId loose) calls).trace < 2 ^ 64) :
    (proposals events).Pairwise fun p q => p.requestId < q.requestId := by
  have hall := (proposals_increase (counts_run router clientId loose calls).numbered hlimit).1
  obtain ⟨first, rfl⟩ := eq_of_inTx htx
  have hsplit : first ++ EngineEvent.began :: events ++ after
      = (first ++ [.began]) ++ (events ++ after) := by simp
  rw [htrace, hsplit, proposals_append, proposals_append events] at hall
  exact (pairwise_append.mp (pairwise_append.mp hall).2.1).1

/-- **At-most-once commit**: for every transaction of every connection and every log, the batch of the
    transaction is executed at most once EXACTLY IF all its attempts that are applied carry one request
    number; and a connection that has not used up its numbers gives each attempt a number of its own. -/
theorem commit_retries_iff (router : GroupRouter) (clientId : Nat) (loose : Bool)
    (calls : List (NodeView × RaftKvEngine.Call)) (before after events : List EngineEvent)
    (htrace : (RaftKvEngine.runCalls router (RaftKvEngine.fresh clientId loose) calls).trace
      = before ++ after)
    (htx : RaftKvEngine.inTx before = some events) (log : List LogEntry) (store : MockStore) :
    (((KvStateMachine.executions log (.initial store)).filter
        (IsAttempt (RaftKvEngine.proposals events))).length ≤ 1 ↔
      ∀ e ∈ KvStateMachine.applied log (.initial store),
        ∀ f ∈ KvStateMachine.applied log (.initial store),
          IsAttempt (RaftKvEngine.proposals events) e = true →
          IsAttempt (RaftKvEngine.proposals events) f = true → e.request = f.request) ∧
    (RaftKvEngine.requests
        (RaftKvEngine.runCalls router (RaftKvEngine.fresh clientId loose) calls).trace < 2 ^ 64 →
      (RaftKvEngine.proposals events).Pairwise fun p q => p.requestId < q.requestId) := by
  refine ⟨?_, RaftKvEngine.attempts_increase router clientId loose calls htrace htx⟩
  have hdistinct := (KvStateMachine.executions_distinct log (.initial store)).filter
    (IsAttempt (RaftKvEngine.proposals events))
  rw [length_le_one_iff hdistinct]
  constructor
  · intro hall e he f hf hattempt hattempt'
    -- each of the two requests has been executed
    have hexecuted : ∀ g ∈ KvStateMachine.applied log (.initial store),
        IsAttempt (RaftKvEngine.proposals events) g = true →
        ∃ x ∈ (KvStateMachine.executions log (.initial store)).filter
          (IsAttempt (RaftKvEngine.proposals events)), x.request = g.request := by
      intro g hg hgattempt
      obtain ⟨p, hp, hreq⟩ := any_eq_true.mp hgattempt
      have hreq : g.request = some (p.clientId, p.requestId) := of_decide_eq_true hreq
      obtain ⟨x, hx, hxr⟩ := KvStateMachine.exists_execution hg hreq (by simp [
        KvStateMachine.latest, KvStateMachine.initial, RequestResultStore.latest, OrdMap.find])
      refine ⟨x, mem_filter.mpr ⟨hx, ?_⟩, hxr.trans hreq.symm⟩
      exact any_eq_true.mpr ⟨p, hp, decide_eq_true hxr⟩
    obtain ⟨x, hx, hxe⟩ := hexecuted e he hattempt
    obtain ⟨y, hy, hyf⟩ := hexecuted f hf hattempt'
    rw [← hxe, ← hyf]
    exact hall x hx y hy
  · intro hall x hx y hy
    obtain ⟨hx, hxa⟩ := mem_filter.mp hx
    obtain ⟨hy, hya⟩ := mem_filter.mp hy
    exact hall x (KvStateMachine.executions_subset log _ x hx) y
      (KvStateMachine.executions_subset log _ y hy) hxa hya

/-! ### Two attempts -/

/-- A commit that times out, and is tried again. -/
def twoAttempts : List (NodeView × RaftKvEngine.Call) :=
  [({}, .beginTransaction), ({}, .put (ascii "b") [1]), ({ proposal := .timeout }, .commitTransaction),
    ({ proposal := .timeout }, .commitTransaction)]

def attempt (number : Nat) : ProposalPayload := ⟨7, number, [.put (ascii "b") [1]]⟩

/-- What has happened in the transaction. -/
def attemptEvents : List EngineEvent :=
  [.acquired 0, .buffered [.put (ascii "b") [1]], .proposed 0 (some 0) (attempt 1),
    .proposed 0 (some 0) (attempt 2)]

/-- Both entries are committed after all. -/
def bothCommitted : List LogEntry :=
  [⟨1, 1, encodeProposalPayload (attempt 1)⟩, ⟨2, 1, encodeProposalPayload (attempt 2)⟩]

/-- The batch of the transaction is executed twice. -/
theorem two_attempts_executed :
    RaftKvEngine.inTx (RaftKvEngine.runCalls {} (RaftKvEngine.fresh 7 false) twoAttempts).trace
      = some attemptEvents ∧
    ((KvStateMachine.executions bothCommitted (.initial { isOpen := true })).filter
      (IsAttempt (RaftKvEngine.proposals attemptEvents))).length = 2 :=
  ⟨rfl, by decide +kernel⟩

/-- If only the second entry is committed, the batch is executed once. -/
theorem second_attempt_executed_once :
    ((KvStateMachine.executions bothCommitted.tail (.initial { isOpen := true })).filter
      (IsAttempt (RaftKvEngine.proposals attemptEvents))).length ≤ 1 := by
  refine (commit_retries_iff {} 7 false twoAttempts (.began :: attemptEvents) [] attemptEvents rfl rfl
    bothCommitted.tail { isOpen := true }).1.mpr ?_
  intro e he f hf _ _
  have happlied : KvStateMachine.applied bothCommitted.tail (.initial { isOpen := true })
      = bothCommitted.tail := by decide +kernel
  rw [happlied] at he hf
  rw [mem_singleton.mp he, mem_singleton.mp hf]

end SqlDb.Raft
