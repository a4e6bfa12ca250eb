/-
  BINARY FORMATS: numbers of a fixed width, length-prefixed blocks, and readers.

  A reader is a program (`Prog`) whose state is what is LEFT of the input, so that "offset" and
  "remaining size" need no bookkeeping.  Every reader here either takes what it reads off the front
  or fails with the error it was given; each has one lemma that says it undoes its writer, whatever
  follows.

  A reader is LOCAL if it does not look beyond what it takes.  A local reader that must reach the
  end of its input accepts neither a proper prefix nor a proper extension of what it accepts
  (`Local.whole_unique`): truncated and padded data need no analysis of their own.
-/
import SqlDb.Lib.Prog
import Mathlib.Algebra.Order.Ring.Nat

namespace Codec

open List

/-- A reader: what it returns, or an error; the state is the unread input. -/
abbrev Reader (E A : Type) := Prog (List UInt8) E A

/-! ## Writing -/

/-- The `w` low bytes of `n`, most significant first. -/
def bigEndian : Nat → Nat → List UInt8
  | 0, _ => []
  | w + 1, n => UInt8.ofNat (n / 256 ^ w) :: bigEndian w n

/-- A block: its length as a 64-bit number, then its bytes. -/
def block (bytes : List UInt8) : List UInt8 := bigEndian 8 bytes.length ++ bytes

/-- A block whose length is a number of `w` bytes. -/
def frame (w : Nat) (bytes : List UInt8) : List UInt8 := bigEndian w bytes.length ++ bytes

/-- The `w` low bytes of `n`, least significant first. -/
def littleEndian : Nat → Nat → List UInt8
  | 0, _ => []
  | w + 1, n => UInt8.ofNat n :: littleEndian w (n / 256)

/-! ## Reading -/

/-- The number a list of bytes stands for, most significant first. -/
def ofBigEndian (bytes : List UInt8) : Nat := bytes.foldl (fun n b => n * 256 + b.toNat) 0

/-- The number a list of bytes stands for, least significant first. -/
def ofLittleEndian : List UInt8 → Nat
  | [] => 0
  | b :: bytes => b.toNat + 256 * ofLittleEndian bytes

section Readers

variable {E : Type} (e : E)

/-- Take `n` bytes off the front, or fail with `e`. -/
def takeBytes (n : Nat) : Reader E (List UInt8) := do
  let input ← Prog.get
  if input.length < n then Prog.throw e
  else
    Prog.modify (List.drop n)
    pure (input.take n)

/-- A number of `w` bytes. -/
def readNumber (w : Nat) : Reader E Nat := do
  let bytes ← takeBytes e w
  pure (ofBigEndian bytes)

/-- A number of `w` bytes, least significant first. -/
def readLittle (w : Nat) : Reader E Nat := do
  let bytes ← takeBytes e w
  pure (ofLittleEndian bytes)

def readBlock : Reader E (List UInt8) := do
  let size ← readNumber e 8
  takeBytes e size

def readFrame (w : Nat) : Reader E (List UInt8) := do
  let size ← readNumber e w
  takeBytes e size

/-- `n` items, one after the other. -/
def readMany {A : Type} (item : Reader E A) : Nat → Reader E (List A)
  | 0 => pure []
  | n + 1 => do
    let a ← item
    let rest ← readMany item n
    pure (a :: rest)

/-- Items as long as there is input and they can be read, at most `fuel` of them. -/
def readSome {A : Type} (item : Reader E A) : Nat → List UInt8 → List A
  | 0, _ => []
  | fuel + 1, input =>
    if input = [] then []
    else
      match item input with
      | (.ok a, rest) => a :: readSome item fuel rest
      | (.error _, _) => []

/-- A reader that has to reach the end of the input, or it fails with `e`. -/
def whole {A : Type} (item : Reader E A) (input : List UInt8) : Except E A :=
  match item input with
  | (.ok a, []) => .ok a
  | (.ok _, _ :: _) => .error e
  | (.error err, _) => .error err

end Readers

/-- Items that take at least one byte each are no more than the bytes they take. -/
theorem length_le_length_flatMap {A : Type} {write : A → List UInt8}
    (h : ∀ a, 0 < (write a).length) (l : List A) : l.length ≤ (l.flatMap write).length := by
  induction l with
  | nil => simp
  | cons a l ih =>
    have ha := h a
    rw [flatMap_cons, length_append, length_cons]
    omega

/-! ## Readers undo writers -/

@[simp] theorem length_bigEndian (w n : Nat) : (bigEndian w n).length = w := by
  induction w with
  | zero => rfl
  | succ w ih => simp [bigEndian, ih]

theorem foldl_bigEndian (w n acc : Nat) :
    (bigEndian w n).foldl (fun n b => n * 256 + b.toNat) acc = acc * 256 ^ w + n % 256 ^ w := by
  induction w generalizing acc with
  | zero => simp [bigEndian, Nat.mod_one]
  | succ w ih =>
    have hdigit : (UInt8.ofNat (n / 256 ^ w)).toNat = n / 256 ^ w % 256 := by simp
    -- the leading digit, then the rest
    have hsplit : n % 256 ^ (w + 1) = n / 256 ^ w % 256 * 256 ^ w + n % 256 ^ w := by
      rw [Nat.pow_succ, Nat.mod_mul, Nat.mul_comm (256 ^ w), Nat.add_comm]
    rw [bigEndian, foldl_cons, ih, hdigit, hsplit, Nat.pow_succ, Nat.add_mul, Nat.mul_assoc,
      Nat.mul_comm 256, Nat.add_assoc]

/-- A number that does not fit is cut down to its low bytes. -/
theorem ofBigEndian_bigEndian_mod (w n : Nat) : ofBigEndian (bigEndian w n) = n % 256 ^ w := by
  unfold ofBigEndian
  rw [foldl_bigEndian, Nat.zero_mul, Nat.zero_add]

theorem ofBigEndian_bigEndian {w n : Nat} (h : n < 256 ^ w) : ofBigEndian (bigEndian w n) = n := by
  rw [ofBigEndian_bigEndian_mod, Nat.mod_eq_of_lt h]

theorem foldl_bytes (bytes : List UInt8) (acc : Nat) :
    bytes.foldl (fun n b => n * 256 + b.toNat) acc
      = acc * 256 ^ bytes.length + ofBigEndian bytes := by
  unfold ofBigEndian
  induction bytes generalizing acc with
  | nil => simp
  | cons b bytes ih =>
    rw [foldl_cons, foldl_cons, ih, ih (0 * 256 + b.toNat), length_cons,
      Nat.pow_succ, Nat.add_mul, Nat.zero_mul, Nat.zero_add, Nat.mul_assoc, Nat.mul_comm 256,
      Nat.add_assoc]

theorem ofBigEndian_cons (b : UInt8) (bytes : List UInt8) :
    ofBigEndian (b :: bytes) = b.toNat * 256 ^ bytes.length + ofBigEndian bytes := by
  show bytes.foldl _ (0 * 256 + b.toNat) = _
  rw [foldl_bytes, Nat.zero_mul, Nat.zero_add]

theorem ofBigEndian_lt (bytes : List UInt8) : ofBigEndian bytes < 256 ^ bytes.length := by
  induction bytes with
  | nil => simp [ofBigEndian]
  | cons b bytes ih =>
    have hb := Nat.mul_le_mul_right (256 ^ bytes.length) (Nat.succ_le_of_lt b.toNat_lt)
    rw [ofBigEndian_cons, length_cons, Nat.pow_succ, Nat.mul_comm _ 256]
    rw [Nat.succ_mul] at hb
    omega

/-- The bytes of a number are determined by it, once their count is. -/
theorem ofBigEndian_inj {s t : List UInt8} (hlen : s.length = t.length)
    (h : ofBigEndian s = ofBigEndian t) : s = t := by
  induction s generalizing t with
  | nil => exact (eq_nil_of_length_eq_zero hlen.symm).symm
  | cons a s ih =>
    obtain ⟨b, t, rfl⟩ := exists_cons_of_length_eq_add_one hlen.symm
    have hlen : s.length = t.length := Nat.succ.inj hlen
    have hs := ofBigEndian_lt s
    have ht := ofBigEndian_lt t
    rw [ofBigEndian_cons, ofBigEndian_cons, ← hlen] at h
    rw [← hlen] at ht
    -- the leading digits are the quotients, the rest are the remainders
    have hdiv : a.toNat = b.toNat := by
      have hpos : 0 < 256 ^ s.length := (Nat.zero_le _).trans_lt hs
      have hquot := congrArg (· / 256 ^ s.length) h
      simpa [Nat.add_comm (_ * _), Nat.add_mul_div_right _ _ hpos, Nat.div_eq_of_lt hs,
        Nat.div_eq_of_lt ht] using hquot
    rw [hdiv] at h
    rw [UInt8.toNat_inj.mp hdiv, ih hlen (Nat.add_left_cancel h)]

theorem bigEndian_ofBigEndian (bytes : List UInt8) :
    bigEndian bytes.length (ofBigEndian bytes) = bytes := by
  refine ofBigEndian_inj (length_bigEndian _ _) ?_
  exact ofBigEndian_bigEndian (ofBigEndian_lt bytes)

@[simp] theorem length_littleEndian (w n : Nat) : (littleEndian w n).length = w := by
  induction w generalizing n with
  | zero => rfl
  | succ w ih => rw [littleEndian, length_cons, ih]

theorem ofLittleEndian_littleEndian (w n : Nat) :
    ofLittleEndian (littleEndian w n) = n % 256 ^ w := by
  induction w generalizing n with
  | zero => rw [Nat.pow_zero, Nat.mod_one]; rfl
  | succ w ih =>
    have hdigit : (UInt8.ofNat n).toNat = n % 256 := by simp
    rw [littleEndian, ofLittleEndian, ih, hdigit, Nat.pow_succ, Nat.mul_comm (256 ^ w), Nat.mod_mul]

section Undo

variable {E A B : Type} (e : E) (rest : List UInt8)

theorem takeBytes_append (bytes : List UInt8) :
    takeBytes e bytes.length (bytes ++ rest) = (.ok bytes, rest) := by
  unfold takeBytes
  rw [Prog.get_bind_apply, if_neg (by simp), Prog.modify_bind_apply]
  simp

theorem readNumber_append_mod (w n : Nat) :
    readNumber e w (bigEndian w n ++ rest) = (.ok (n % 256 ^ w), rest) := by
  have htake := takeBytes_append e rest (bigEndian w n)
  rw [length_bigEndian] at htake
  unfold readNumber
  rw [Prog.bind_apply_ok htake, Prog.pure_apply, ofBigEndian_bigEndian_mod]

theorem readNumber_append {w n : Nat} (h : n < 256 ^ w) :
    readNumber e w (bigEndian w n ++ rest) = (.ok n, rest) := by
  rw [readNumber_append_mod, Nat.mod_eq_of_lt h]

theorem readBlock_append {bytes : List UInt8} (h : bytes.length < 256 ^ 8) :
    readBlock e (block bytes ++ rest) = (.ok bytes, rest) := by
  unfold readBlock block
  rw [append_assoc, Prog.bind_apply_ok (readNumber_append e _ h)]
  exact takeBytes_append e rest bytes

theorem readLittle_append_mod (w n : Nat) :
    readLittle e w (littleEndian w n ++ rest) = (.ok (n % 256 ^ w), rest) := by
  have htake := takeBytes_append e rest (littleEndian w n)
  rw [length_littleEndian] at htake
  unfold readLittle
  rw [Prog.bind_apply_ok htake, Prog.pure_apply, ofLittleEndian_littleEndian]

/-- A block whose length was cut down gives its first bytes, and the others are left to read. -/
theorem takeBytes_cut {n : Nat} {bytes : List UInt8} (h : n ≤ bytes.length) :
    takeBytes e n (bytes ++ rest) = (.ok (bytes.take n), bytes.drop n ++ rest) := by
  have hcut := takeBytes_append e (bytes.drop n ++ rest) (bytes.take n)
  rwa [length_take, Nat.min_eq_left h, ← append_assoc, take_append_drop] at hcut

theorem readFrame_append_mod (w : Nat) (bytes : List UInt8) :
    readFrame e w (frame w bytes ++ rest)
      = (.ok (bytes.take (bytes.length % 256 ^ w)),
          bytes.drop (bytes.length % 256 ^ w) ++ rest) := by
  unfold readFrame frame
  rw [append_assoc, Prog.bind_apply_ok (readNumber_append_mod e _ w bytes.length)]
  exact takeBytes_cut e rest (Nat.mod_le _ _)

theorem readFrame_append {w : Nat} {bytes : List UInt8} (h : bytes.length < 256 ^ w) :
    readFrame e w (frame w bytes ++ rest) = (.ok bytes, rest) := by
  rw [readFrame_append_mod, Nat.mod_eq_of_lt h, take_length, drop_length]
  rfl

/-- Reading while there is input: one item, then the others. -/
theorem readSome_cons {item : Reader E A} {input : List UInt8} {a : A} {fuel : Nat}
    (hne : input ≠ []) (h : item input = (.ok a, rest)) :
    readSome item (fuel + 1) input = a :: readSome item fuel rest := by
  rw [readSome, if_neg hne, h]

/-- Reading many items undoes writing them one after the other; `f` is what reading an item makes of
    it. -/
theorem readMany_append_map {item : Reader E B} (write : A → List UInt8) (f : A → B)
    (items : List A) (h : ∀ a ∈ items, ∀ rest, item (write a ++ rest) = (.ok (f a), rest)) :
    readMany item items.length (items.flatMap write ++ rest) = (.ok (items.map f), rest) := by
  induction items with
  | nil => rfl
  | cons a items ih =>
    rw [flatMap_cons, append_assoc, length_cons, readMany,
      Prog.bind_apply_ok (h a (mem_cons_self ..) _),
      Prog.bind_apply_ok (ih fun b hb => h b (mem_cons_of_mem a hb))]
    rfl

theorem readMany_append {item : Reader E A} (write : A → List UInt8) (items : List A)
    (h : ∀ a ∈ items, ∀ rest, item (write a ++ rest) = (.ok a, rest)) :
    readMany item items.length (items.flatMap write ++ rest) = (.ok items, rest) := by
  have hmap := readMany_append_map rest write id items h
  rwa [map_id] at hmap

end Undo

/-! ## Local readers -/

section Local

variable {E A B : Type} {e : E}

/-- The reader does not look beyond what it takes. -/
def Local (item : Reader E A) : Prop :=
  ∀ input rest a, item input = (.ok a, rest) →
    ∀ more, item (input ++ more) = (.ok a, rest ++ more)

theorem local_pure (a : A) : Local (pure a : Reader E A) := by
  intro input rest a' h more
  obtain ⟨ha, hr⟩ := Prod.mk.inj h
  rw [← hr, ← ha]
  rfl

theorem local_throw : Local (Prog.throw e : Reader E A) := by
  intro input rest a h
  simp at h

theorem Local.bind {item : Reader E A} {next : A → Reader E B} (h : Local item)
    (hnext : ∀ a, Local (next a)) : Local (item >>= next) := by
  intro input rest b hb more
  obtain ⟨a, rest', ha, hb⟩ := Prog.bind_eq_ok.mp hb
  rw [Prog.bind_apply_ok (h input rest' a ha more)]
  exact hnext a rest' rest b hb more

theorem local_takeBytes (n : Nat) : Local (takeBytes e n) := by
  intro input rest a h more
  unfold takeBytes at h ⊢
  rw [Prog.get_bind_apply] at h ⊢
  by_cases hlen : input.length < n
  · rw [if_pos hlen] at h
    simp at h
  · rw [if_neg hlen] at h
    obtain ⟨ha, hr⟩ := Prod.mk.inj h
    have hle : n ≤ input.length := Nat.not_lt.mp hlen
    rw [if_neg (by rw [length_append]; omega), ← hr, ← ha]
    show (Except.ok ((input ++ more).take n), (input ++ more).drop n) = _
    rw [take_append_of_le_length hle, drop_append_of_le_length hle]

theorem local_readNumber (w : Nat) : Local (readNumber e w) :=
  (local_takeBytes w).bind fun _ => local_pure _

theorem local_readFrame (w : Nat) : Local (readFrame e w) :=
  (local_readNumber w).bind local_takeBytes

theorem Local.ite {c : Prop} [Decidable c] {item item' : Reader E A} (h : Local item)
    (h' : Local item') : Local (if c then item else item') := by
  split
  · exact h
  · exact h'

theorem whole_eq_ok {item : Reader E A} {input : List UInt8} {a : A} :
    whole e item input = .ok a ↔ item input = (.ok a, []) := by
  unfold whole
  split <;> simp_all

/-- **Cut or padded input.**  Of an input and a longer one that starts with it, a local reader that
    has to reach the end accepts at most one. -/
theorem Local.whole_unique {item : Reader E A} (h : Local item) {input more : List UInt8} {a b : A}
    (hin : whole e item input = .ok a) (hmore : whole e item (input ++ more) = .ok b) :
    more = [] := by
  have hlong := h input [] a (whole_eq_ok.mp hin) more
  rw [whole_eq_ok.mp hmore] at hlong
  exact (Prod.mk.inj hlong).2.symm

end Local

end Codec
