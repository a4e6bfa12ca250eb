/-
  THE PAYLOAD OF A LOG ENTRY  (raft/proposal_payload.{h,cpp}).

  A proposal names its client and the client's request, and carries a batch of writes:

      magic "SQRA" · version u32 · client u64 · request u64 · count u64 · operations
      operation = type u8 · key block · presence u8 · [value block] · range end block

  `decodeProposalPayload` makes the checks of the source in the order of the source.
-/
import SqlDb.Lib.Codec
import SqlDb.Raft.Types
import SqlDb.Storage.MockEngine

namespace SqlDb.Raft

open Codec

/-- Client and request ids are 64-bit numbers. -/
structure ProposalPayload where
  clientId : Nat
  requestId : Nat
  batch : Kv.WriteBatch
deriving DecidableEq, Repr

def kMagic : Bytes := ascii "SQRA"

def kPayloadVersion : Nat := 1

/-- Magic, version, and three 64-bit numbers. -/
def kFixedHeaderSize : Nat := kMagic.length + 4 + 8 * 3

/-! ## Writing -/

def encodeOp : Kv.Op → Bytes
  | .put key value => 1 :: block key ++ 1 :: block value ++ block []
  | .remove key => 2 :: block key ++ 0 :: block []
  | .removeRange start stop => 3 :: block start ++ 0 :: block stop

def encodeProposalPayload (p : ProposalPayload) : Bytes :=
  kMagic ++ bigEndian 4 kPayloadVersion ++ bigEndian 8 p.clientId ++ bigEndian 8 p.requestId ++
    bigEndian 8 p.batch.length ++ p.batch.flatMap encodeOp

/-! ## Reading -/

def truncatedPayload : Error := ⟨.invalidArgument, "truncated proposal payload"⟩

/-- One operation.  The type is looked at last, after everything has been read. -/
def decodeOp : Reader Error Kv.Op := do
  let type ← readNumber truncatedPayload 1
  let key ← readBlock truncatedPayload
  let hasValue ← readNumber truncatedPayload 1
  if hasValue ≠ 0 ∧ hasValue ≠ 1 then
    Prog.throw ⟨.invalidArgument, "invalid value presence flag"⟩
  else
    let value ← if hasValue = 1 then some <$> readBlock truncatedPayload else pure none
    let rangeEnd ← readBlock truncatedPayload
    match type with
    | 1 =>
      match value with
      | none => Prog.throw ⟨.invalidArgument, "put operation has no value"⟩
      | some value => pure (.put key value)
    | 2 => pure (.remove key)
    | 3 =>
      if key < rangeEnd then pure (.removeRange key rangeEnd)
      else Prog.throw ⟨.invalidArgument, "invalid remove_range bounds"⟩
    | _ => Prog.throw ⟨.invalidArgument, "unknown proposal operation type"⟩

/-- What follows the magic; `size` is the size of the whole payload. -/
def decodeBody (size : Nat) : Reader Error ProposalPayload := do
  let version ← readNumber truncatedPayload 4
  if version ≠ kPayloadVersion then
    Prog.throw ⟨.invalidArgument, "unsupported proposal payload version"⟩
  else
    let clientId ← readNumber truncatedPayload 8
    let requestId ← readNumber truncatedPayload 8
    let opCount ← readNumber truncatedPayload 8
    if size < opCount then
      Prog.throw ⟨.invalidArgument, "invalid proposal payload op count"⟩
    else
      let batch ← readMany decodeOp opCount
      let left ← Prog.get
      if left ≠ [] then Prog.throw ⟨.invalidArgument, "trailing bytes in proposal payload"⟩
      else pure { clientId, requestId, batch }

def decodeProposalPayload (data : Bytes) : Except Error ProposalPayload :=
  if data.length < kFixedHeaderSize ∨ data.take kMagic.length ≠ kMagic then
    .error ⟨.invalidArgument, "invalid proposal payload magic"⟩
  else (decodeBody data.length (data.drop kMagic.length)).1

/-! ## Round trip -/

/-- Lengths fit their 64-bit fields. -/
def opFits : Kv.Op → Prop
  | .put key value => key.length < 256 ^ 8 ∧ value.length < 256 ^ 8
  | .remove key => key.length < 256 ^ 8
  | .removeRange start stop => start.length < 256 ^ 8 ∧ stop.length < 256 ^ 8

structure ProposalPayload.Fits (p : ProposalPayload) : Prop where
  clientId : p.clientId < 256 ^ 8
  requestId : p.requestId < 256 ^ 8
  count : p.batch.length < 256 ^ 8
  ops : ∀ op ∈ p.batch, opFits op

/-- An operation comes back, unless it removes an empty range: then the payload is refused. -/
theorem decodeOp_encodeOp {op : Kv.Op} (hfits : opFits op) (rest : Bytes) :
    decodeOp (encodeOp op ++ rest) = if op.valid then (.ok op, rest)
      else (.error ⟨.invalidArgument, "invalid remove_range bounds"⟩, rest) := by
  have hbyte : ∀ (b : UInt8) (rest : Bytes),
      readNumber truncatedPayload 1 (b :: rest) = (.ok b.toNat, rest) := by
    intro b rest
    have htake : takeBytes truncatedPayload 1 (b :: rest) = (.ok [b], rest) :=
      takeBytes_append truncatedPayload rest [b]
    unfold readNumber
    rw [Prog.bind_apply_ok htake, Prog.pure_apply]
    simp [ofBigEndian]
  have hblock : ∀ {b : Bytes}, b.length < 256 ^ 8 → ∀ rest,
      readBlock truncatedPayload (block b ++ rest) = (.ok b, rest) :=
    fun h rest => readBlock_append truncatedPayload rest h
  have hnil := hblock (b := []) (by decide)
  unfold decodeOp
  cases op with
  | put key value =>
    obtain ⟨hkey, hvalue⟩ := hfits
    simp only [encodeOp, List.cons_append, List.append_assoc]
    rw [Prog.bind_apply_ok (hbyte 1 _), Prog.bind_apply_ok (hblock hkey _),
      Prog.bind_apply_ok (hbyte 1 _), if_neg (by decide)]
    have hsome : (some <$> readBlock truncatedPayload) (block value ++ (block [] ++ rest))
        = (Except.ok (some value), block [] ++ rest) := by
      show (readBlock truncatedPayload >>= fun v => pure (some v)) _ = _
      rw [Prog.bind_apply_ok (hblock hvalue _)]
      rfl
    rw [if_pos (by decide), Prog.bind_apply_ok hsome, Prog.bind_apply_ok (hnil rest)]
    rfl
  | remove key =>
    simp only [encodeOp, List.cons_append, List.append_assoc]
    rw [Prog.bind_apply_ok (hbyte 2 _), Prog.bind_apply_ok (hblock hfits _),
      Prog.bind_apply_ok (hbyte 0 _), if_neg (by decide), if_neg (by decide),
      Prog.bind_apply_ok (Prog.pure_apply _ _), Prog.bind_apply_ok (hnil rest)]
    rfl
  | removeRange start stop =>
    obtain ⟨hstart, hstop⟩ := hfits
    simp only [encodeOp, List.cons_append, List.append_assoc]
    rw [Prog.bind_apply_ok (hbyte 3 _), Prog.bind_apply_ok (hblock hstart _),
      Prog.bind_apply_ok (hbyte 0 _), if_neg (by decide), if_neg (by decide),
      Prog.bind_apply_ok (Prog.pure_apply _ _), Prog.bind_apply_ok (hblock hstop rest)]
    by_cases hlt : start < stop
    · simp [Kv.Op.valid, hlt]
    · simp [Kv.Op.valid, hlt]

theorem encodeOp_pos (op : Kv.Op) : 0 < (encodeOp op).length := by
  cases op <;> simp [encodeOp]

/-- The operations of a batch whose ranges are not empty come back. -/
theorem readMany_encodeOp {batch : Kv.WriteBatch} (hops : ∀ op ∈ batch, opFits op)
    (hvalid : batch.all Kv.Op.valid = true) (rest : Bytes) :
    readMany decodeOp batch.length (batch.flatMap encodeOp ++ rest) = (.ok batch, rest) := by
  refine readMany_append rest encodeOp batch fun op hop more => ?_
  rw [decodeOp_encodeOp (hops op hop), if_pos (List.all_eq_true.mp hvalid op hop)]

/-- The first empty range stops the reader. -/
theorem readMany_encodeOp_invalid {batch : Kv.WriteBatch} (hops : ∀ op ∈ batch, opFits op)
    (hinvalid : batch.all Kv.Op.valid = false) (rest : Bytes) :
    (readMany decodeOp batch.length (batch.flatMap encodeOp ++ rest)).1
      = .error ⟨.invalidArgument, "invalid remove_range bounds"⟩ := by
  induction batch with
  | nil => simp at hinvalid
  | cons op batch ih =>
    obtain ⟨hop, hops⟩ := List.forall_mem_cons.mp hops
    have hfirst := decodeOp_encodeOp hop (batch.flatMap encodeOp ++ rest)
    rw [List.flatMap_cons, List.append_assoc, List.length_cons, readMany]
    cases hv : op.valid with
    | false =>
      rw [hv] at hfirst
      rw [Prog.bind_apply_error hfirst]
    | true =>
      rw [hv] at hfirst
      rw [Prog.bind_apply_ok hfirst]
      have hrest := ih hops (by simpa [hv] using hinvalid)
      rcases hread : readMany decodeOp batch.length (batch.flatMap encodeOp ++ rest) with ⟨x, left⟩
      rw [hread] at hrest
      obtain rfl := hrest
      rw [Prog.bind_apply_error hread]

/-- What is read after the header of a written payload. -/
theorem decodeProposalPayload_encode {p : ProposalPayload} (h : p.Fits) :
    decodeProposalPayload (encodeProposalPayload p) = if p.batch.all Kv.Op.valid then .ok p
      else .error ⟨.invalidArgument, "invalid remove_range bounds"⟩ := by
  have hcount := length_le_length_flatMap encodeOp_pos p.batch
  have hsize : (encodeProposalPayload p).length
      = kFixedHeaderSize + (p.batch.flatMap encodeOp).length := by
    simp only [encodeProposalPayload, List.length_append, length_bigEndian, kFixedHeaderSize]
  have htake : (encodeProposalPayload p).take kMagic.length = kMagic := by
    simp only [encodeProposalPayload, List.append_assoc]
    exact List.take_left
  have hdrop : (encodeProposalPayload p).drop kMagic.length
      = bigEndian 4 kPayloadVersion ++ (bigEndian 8 p.clientId ++ (bigEndian 8 p.requestId ++
        (bigEndian 8 p.batch.length ++ (p.batch.flatMap encodeOp ++ [])))) := by
    simp only [encodeProposalPayload, List.append_assoc, List.append_nil]
    exact List.drop_left
  unfold decodeProposalPayload
  rw [if_neg (by rw [hsize, htake]; simp), hdrop]
  unfold decodeBody
  rw [Prog.bind_apply_ok (readNumber_append _ _ (by decide)), if_neg (by simp),
    Prog.bind_apply_ok (readNumber_append _ _ h.clientId),
    Prog.bind_apply_ok (readNumber_append _ _ h.requestId),
    Prog.bind_apply_ok (readNumber_append _ _ h.count), if_neg (by rw [hsize]; omega)]
  cases hvalid : p.batch.all Kv.Op.valid with
  | true =>
    rw [Prog.bind_apply_ok (readMany_encodeOp h.ops hvalid [])]
    rfl
  | false =>
    have hread := readMany_encodeOp_invalid h.ops hvalid []
    rcases hr : readMany decodeOp p.batch.length (p.batch.flatMap encodeOp ++ []) with ⟨x, left⟩
    rw [hr] at hread
    obtain rfl := hread
    rw [Prog.bind_apply_error hr]
    rfl

end SqlDb.Raft
