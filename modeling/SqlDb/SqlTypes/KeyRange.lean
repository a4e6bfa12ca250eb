/-
  RANGES OF KEYS  (`KeyRange`, sql_types/key_range.h).

  A range has two optional bounds, each a value with a flag for open or closed.  NULL is a bound like
  any other: it has a key, below all values of its family, and "above NULL" is how a range says that
  it leaves NULL out.  All decisions are made on keys; a closed upper bound, and an open lower one,
  stand for the string right after the key (`boundKey`).

  The source writes the key of a NULL bound with the range's OWN type, which may be unknown.  The
  proofs look at all ranges of a family with one tag instead (`lowAt`, `highAt`): comparing two bounds
  of ranges with different tags never contradicts the order the bounds have there
  (`not_boundKey_lt`), and a range contains exactly what lies between its two bounds
  (`contains_iff`).
-/
import SqlDb.Lib.HalfOpen
import SqlDb.SqlTypes.KeyCodec

namespace SqlDb.Sql

open KeyCodecs HalfOpen

/-- `low = none` is −∞ and `high = none` is +∞. -/
structure KeyRange where
  type : DataType := .unknownType
  low : Option Value := none
  high : Option Value := none
  /-- The lower bound does not belong to the range. -/
  lowExclusive : Bool := false
  /-- The upper bound belongs to the range. -/
  highInclusive : Bool := false
deriving DecidableEq

namespace KeyRange

variable (r : KeyRange)

/-- NULL as a closed lower bound is no bound. -/
def normalize : KeyRange :=
  if r.low = some .null ∧ r.lowExclusive = false then { r with low := none } else r

/-- A known type wins. -/
def mergeType (a b : DataType) : DataType := if a ≠ .unknownType then a else b

/-! ## Factories -/

def all (type : DataType) : KeyRange := { type := type }

def nonNull (type : DataType) : KeyRange := { type := type, low := some .null, lowExclusive := true }

def nullOnly (type : DataType) : KeyRange :=
  normalize { type := type, high := some .null, highInclusive := true }

def empty (type : DataType) : KeyRange :=
  { type := type, low := some .null, high := some .null, lowExclusive := true }

/-- `[start, +∞)`; the source calls it `from`. -/
def fromValue (start : Value) : KeyRange :=
  if start.isNull then {} else { low := some start, type := start.type }

/-- `(-∞, stop)`; the source calls it `to`. -/
def toValue (stop : Value) : KeyRange :=
  if stop.isNull then empty .unknownType else { high := some stop, type := stop.type }

def gt (v : Value) : KeyRange :=
  if v.isNull then empty .unknownType else { fromValue v with lowExclusive := true }

def ge (v : Value) : KeyRange := if v.isNull then empty .unknownType else fromValue v

def lt (v : Value) : KeyRange :=
  if v.isNull then empty .unknownType
  else { nonNull v.type with high := some v, highInclusive := false }

def le (v : Value) : KeyRange :=
  if v.isNull then empty .unknownType
  else { nonNull v.type with high := some v, highInclusive := true }

def range (start stop : Value) : KeyRange :=
  normalize
    { low := some start, high := some stop,
      type := if !start.isNull then start.type else stop.type }

def closed (low high : Value) : KeyRange :=
  if low.isNull || high.isNull then empty .unknownType
  else { low := some low, high := some high, highInclusive := true, type := low.type }

def point (v : Value) : KeyRange := if v.isNull then empty .unknownType else closed v v

def eq (v : Value) (type : DataType) : KeyRange := if v.isNull then nullOnly type else point v

/-! ## Bounds as keys -/

/-- The key of a bound, or of the string right after it; NULL has the tag of the range's type. -/
def keyOfBound (type : DataType) (v : Value) (after : Bool) : Option Key :=
  if v.isNull then
    let k := nullKeyForType type
    some (if after then inclusiveUpperBound k else k)
  else
    let k := toKeyUntyped v
    if k = [] then none else some (if after then inclusiveUpperBound k else k)

def lowKey : Option Key :=
  match r.low with
  | none => none
  | some v => keyOfBound r.type v r.lowExclusive

def highKey : Option Key :=
  match r.high with
  | none => none
  | some v => keyOfBound r.type v r.highInclusive

/-- No value is below NULL, so a range up to NULL without NULL is empty. -/
def endsBeforeNull : Bool := r.high = some .null && !r.highInclusive

def isEmpty : Bool :=
  if r.endsBeforeNull then true
  else
    match r.lowKey, r.highKey with
    | some lk, some hk => !decide (lk < hk)
    | _, _ => false

def isAll : Bool := r.low = none && r.high = none

/-- What the two bounds say about NULL. -/
def lowOk : Bool := r.low = none || (r.low = some .null && !r.lowExclusive)

def highOk : Bool := r.high = none || r.high ≠ some .null || r.highInclusive

def contains (v : Value) : Bool :=
  if r.isEmpty then false
  else if v.isNull then r.lowOk && r.highOk
  else
    let k := toKeyUntyped v
    if k = [] then false
    else
      (match r.lowKey with
        | some lk => !decide (k < lk)
        | none => true) &&
      (match r.highKey with
        | some hk => decide (k < hk)
        | none => true)

/-! ## Comparing ranges -/

def overlaps (r other : KeyRange) : Bool :=
  if r.isEmpty || other.isEmpty then false
  else
    (match r.lowKey, other.highKey with
      | some lk, some ohk => decide (lk < ohk)
      | _, _ => true) &&
    (match other.lowKey, r.highKey with
      | some olk, some hk => decide (olk < hk)
      | _, _ => true)

def isAdjacent (r other : KeyRange) : Bool :=
  if r.isEmpty || other.isEmpty then false
  else
    (match r.highKey, other.lowKey with
      | some hk, some olk => hk = olk
      | _, _ => false) ||
    (match r.lowKey, other.highKey with
      | some lk, some ohk => lk = ohk
      | _, _ => false)

def covers (r other : KeyRange) : Bool :=
  if r.isEmpty then other.isEmpty
  else if other.isEmpty then true
  else
    (match r.lowKey, other.lowKey with
      | some _, none => false
      | some lk, some olk => !decide (olk < lk)
      | none, _ => true) &&
    (match r.highKey, other.highKey with
      | some _, none => false
      | some hk, some ohk => !decide (hk < ohk)
      | none, _ => true)

/-! ## Set operations -/

/-- The range of the two that has the larger lower bound. -/
def largerLow (r other : KeyRange) : KeyRange :=
  match r.lowKey, other.lowKey with
  | none, _ => other
  | some _, none => r
  | some lk, some olk => if lk < olk then other else r

def smallerHigh (r other : KeyRange) : KeyRange :=
  match r.highKey, other.highKey with
  | none, _ => other
  | some _, none => r
  | some hk, some ohk => if ohk < hk then other else r

def smallerLow (r other : KeyRange) : KeyRange :=
  match r.lowKey, other.lowKey with
  | none, _ => r
  | some _, none => other
  | some lk, some olk => if lk < olk then r else other

def largerHigh (r other : KeyRange) : KeyRange :=
  match r.highKey, other.highKey with
  | none, _ => r
  | some _, none => other
  | some hk, some ohk => if hk < ohk then other else r

/-- The range with the lower bound of `a` and the upper bound of `b`. -/
def between (type : DataType) (a b : KeyRange) : KeyRange :=
  { type := type, low := a.low, lowExclusive := a.lowExclusive, high := b.high,
    highInclusive := b.highInclusive }

def intersect (r other : KeyRange) : KeyRange :=
  if r.isEmpty || other.isEmpty then empty .unknownType
  else normalize (between (mergeType r.type other.type) (r.largerLow other) (r.smallerHigh other))

def unite (r other : KeyRange) : List KeyRange :=
  if r.isEmpty then [other]
  else if other.isEmpty then [r]
  else if !r.overlaps other && !r.isAdjacent other then [r, other]
  else [normalize (between (mergeType r.type other.type) (r.smallerLow other) (r.largerHigh other))]

/-- The part of `r` below the lower bound of `other`. -/
def leftPart (r other : KeyRange) : KeyRange :=
  normalize
    { type := mergeType r.type other.type, low := r.low, lowExclusive := r.lowExclusive,
      high := other.low, highInclusive := other.lowExclusive }

/-- The part of `r` above the upper bound of `other`. -/
def rightPart (r other : KeyRange) : KeyRange :=
  normalize
    { type := mergeType r.type other.type, low := other.high, lowExclusive := other.highInclusive,
      high := r.high, highInclusive := r.highInclusive }

/-- What `other` leaves of `r` on its two sides. -/
def parts (r other : KeyRange) : List KeyRange :=
  (if other.low ≠ none then [r.leftPart other] else []) ++
    (if other.high ≠ none then [r.rightPart other] else [])

def subtract (r other : KeyRange) : List KeyRange :=
  if r.isEmpty then [empty .unknownType]
  else if other.isEmpty || !r.overlaps other then [r]
  else if other.covers r then [empty .unknownType]
  else
    let result := (r.parts other).filter fun p => !p.isEmpty && !p.isAll
    if result = [] then [empty .unknownType] else result

/-- What lies below the lower bound of `r`. -/
def leftSide : KeyRange :=
  normalize { type := r.type, high := r.low, highInclusive := r.lowExclusive }

/-- What lies above the upper bound of `r`. -/
def rightSide : KeyRange :=
  normalize { type := r.type, low := r.high, lowExclusive := r.highInclusive }

def complement : List KeyRange :=
  if r.isEmpty then [all r.type]
  else if r.isAll then [empty .unknownType]
  else
    ((if r.low ≠ none then [r.leftSide] else []) ++
      (if r.high ≠ none then [r.rightSide] else [])).filter fun p => !p.isEmpty

/-! ## Bounds of a family -/

/-- The key a bound stands for in a family: the value's own, or the string right after it. -/
def boundKey (tag : UInt8) (v : Value) (after : Bool) : Key :=
  let k := if v.isNull then makeNullKey tag else encodeValue v
  if after then inclusiveUpperBound k else k

def lowAt (tag : UInt8) (r : KeyRange) : Option Key :=
  r.low.map fun v => boundKey tag v r.lowExclusive

def highAt (tag : UInt8) (r : KeyRange) : Option Key :=
  r.high.map fun v => boundKey tag v r.highInclusive

theorem keyOfBound_eq (type : DataType) (v : Value) (after : Bool) :
    keyOfBound type v after = some (boundKey (tagOf type) v after) := by
  cases v <;> rfl

theorem lowKey_eq : r.lowKey = r.lowAt (tagOf r.type) := by
  unfold lowKey lowAt
  cases r.low with
  | none => rfl
  | some v => exact keyOfBound_eq r.type v r.lowExclusive

theorem highKey_eq : r.highKey = r.highAt (tagOf r.type) := by
  unfold highKey highAt
  cases r.high with
  | none => rfl
  | some v => exact keyOfBound_eq r.type v r.highInclusive

/-- The value NULL, or a value of the family. -/
def InFamily (tag : UInt8) (v : Value) : Prop := v = .null ∨ OfFamily tag v

/-- A range all of whose bounds are in a family.  Its type is of the family or of none. -/
structure Wf (tag : UInt8) (r : KeyRange) : Prop where
  low : ∀ v ∈ r.low, InFamily tag v
  high : ∀ v ∈ r.high, InFamily tag v
  type : tagOf r.type = tag ∨ tagOf r.type = kTagNull
  normal : r.low = some .null → r.lowExclusive = true

section Bounds

variable {tag τ σ : UInt8} {v w : Value} {after after' : Bool}

theorem boundKey_value (h : OfFamily tag v) (τ σ : UInt8) (after : Bool) :
    boundKey τ v after = boundKey σ v after := by
  unfold boundKey
  rw [h.1]
  rfl

/-- A value's key is above everything that stands for NULL. -/
theorem null_lt_value (h : OfFamily tag v) (hτ : τ = tag ∨ τ = kTagNull) (htag : tag ≠ kTagNull)
    (after after' : Bool) : boundKey τ .null after < boundKey σ v after' := by
  have hkey : ∃ rest, boundKey σ v after' = tag :: kValueFlag :: rest := by
    unfold boundKey encodeValue
    rw [h.1, h.2]
    cases after' <;> exact ⟨_, rfl⟩
  have hnull : ∃ rest, boundKey τ .null after = τ :: kNullFlag :: rest := by
    cases after <;> exact ⟨_, rfl⟩
  obtain ⟨rest, hrest⟩ := hkey
  obtain ⟨rest', hrest'⟩ := hnull
  rw [hrest, hrest', List.cons_lt_cons_iff]
  rcases hτ with rfl | rfl
  · exact Or.inr ⟨rfl, List.cons_lt_cons_iff.mpr (Or.inl (by decide))⟩
  · refine Or.inl (UInt8.lt_of_le_of_ne ?_ (Ne.symm htag))
    exact UInt8.zero_le

/-- A bound other than "up to NULL, without it" and "from NULL on". -/
def Proper (v : Value) (after : Bool) : Prop := v = .null → after = true

variable (htag : tag ≠ kTagNull) (hτ : τ = tag ∨ τ = kTagNull)
  (hv : InFamily tag v) (hw : InFamily tag w) (hpv : Proper v after) (hpw : Proper w after')

include htag hτ hv hw hpv hpw

/-- Comparing bounds of ranges with and without a known type does not contradict their order in the
    family. -/
theorem not_boundKey_lt (h : ¬ boundKey τ v after < boundKey σ w after') :
    ¬ boundKey tag v after < boundKey tag w after' := by
  rcases hv with rfl | hv
  · rcases hw with rfl | hw
    · rw [hpv rfl, hpw rfl]
      exact irrefl_of (fun s t : Key => s < t) _
    · exact absurd (null_lt_value hw hτ htag _ _) h
  · rcases hw with rfl | hw
    · exact asymm_of (fun s t : Key => s < t) (null_lt_value hv (Or.inl rfl) htag _ _)
    · rwa [boundKey_value hv tag τ, boundKey_value hw tag σ]

end Bounds

/-! ## What a range contains -/

section Contains

variable {tag : UInt8} {r : KeyRange}

theorem mem_lowKey {k : Key} :
    k ∈ r.lowKey ↔ ∃ v ∈ r.low, boundKey (tagOf r.type) v r.lowExclusive = k := by
  rw [lowKey_eq]
  exact Option.map_eq_some_iff

theorem mem_highKey {k : Key} :
    k ∈ r.highKey ↔ ∃ v ∈ r.high, boundKey (tagOf r.type) v r.highInclusive = k := by
  rw [highKey_eq]
  exact Option.map_eq_some_iff

theorem Wf.low_proper (h : Wf tag r) {v : Value} (hv : v ∈ r.low) : Proper v r.lowExclusive := by
  rintro rfl
  exact h.normal hv

theorem high_proper (h : r.endsBeforeNull = false) {v : Value} (hv : v ∈ r.high) :
    Proper v r.highInclusive := by
  rintro rfl
  have hhigh : r.high = some .null := hv
  simpa [endsBeforeNull, hhigh] using h

theorem isEmpty_eq_true : r.isEmpty = true ↔
    r.endsBeforeNull = true ∨ ∃ lk ∈ r.lowKey, ∃ hk ∈ r.highKey, ¬ lk < hk := by
  unfold isEmpty
  split_ifs with h
  · exact ⟨fun _ => Or.inl h, fun _ => rfl⟩
  · cases r.lowKey <;> cases r.highKey <;> simp [h]

theorem isEmpty_eq_false : r.isEmpty = false ↔
    r.endsBeforeNull = false ∧ ∀ lk ∈ r.lowKey, ∀ hk ∈ r.highKey, lk < hk := by
  have h := (isEmpty_eq_true (r := r)).not
  simpa only [Bool.not_eq_true, not_or, not_exists, not_and, not_not] using h

variable (htag : tag ≠ kTagNull) (h : Wf tag r)

include htag h

/-- Nothing lies between the bounds of an empty range. -/
theorem not_inside_of_isEmpty (he : r.isEmpty = true) {v : Value} (hv : InFamily tag v) :
    ¬ Inside (r.lowAt tag) (r.highAt tag) (boundKey tag v false) := by
  cases hends : r.endsBeforeNull with
  | true =>
    -- there is nothing below NULL
    rintro ⟨-, hbelow⟩
    simp only [endsBeforeNull, Bool.and_eq_true, decide_eq_true_eq, Bool.not_eq_true'] at hends
    unfold highAt at hbelow
    rw [hends.1, hends.2] at hbelow
    have hlt : boundKey tag v false < boundKey tag .null false := hbelow _ rfl
    rcases hv with rfl | hv
    · exact irrefl_of (fun s t : Key => s < t) _ hlt
    · exact asymm_of (fun s t : Key => s < t) hlt (null_lt_value hv (Or.inl rfl) htag _ _)
  | false =>
    obtain ⟨lk, hlk, hk, hhk, hnot⟩ := (isEmpty_eq_true.mp he).resolve_left (by simp [hends])
    obtain ⟨a, ha, rfl⟩ := mem_lowKey.mp hlk
    obtain ⟨b, hb, rfl⟩ := mem_highKey.mp hhk
    have hcmp := not_boundKey_lt htag h.type (h.low a ha) (h.high b hb) (h.low_proper ha)
      (high_proper hends hb) hnot
    unfold lowAt highAt
    rw [Option.mem_def.mp ha, Option.mem_def.mp hb]
    exact not_inside hcmp _

/-- **A range contains what lies between its bounds.** -/
theorem contains_iff {v : Value} (hv : InFamily tag v) : r.contains v = true ↔
    Inside (r.lowAt tag) (r.highAt tag) (boundKey tag v false) := by
  cases he : r.isEmpty with
  | true =>
    have hnot := not_inside_of_isEmpty htag h he hv
    simp [contains, he, hnot]
  | false =>
    obtain ⟨hends, -⟩ := isEmpty_eq_false.mp he
    unfold contains Inside
    rw [he]
    rcases hv with rfl | hv
    · -- NULL: what the two bounds say about it
      have hlow : r.lowOk = true ↔ Above (r.lowAt tag) (boundKey tag .null false) := by
        unfold lowOk lowAt
        cases hl : r.low with
        | none => simp
        | some a =>
          rcases h.low a hl with rfl | ha
          · have hlt : boundKey tag .null false < boundKey tag .null true :=
              OrderedBytes.lt_append _ _ (by simp)
            simp [h.normal hl, hlt]
          · have hne : a ≠ .null := by
              rintro rfl
              exact absurd ha.1 (by simp [Value.isNull])
            have hlt := null_lt_value (σ := tag) ha (Or.inl rfl) htag false r.lowExclusive
            simp [hne, hlt]
      have hhigh : r.highOk = true ↔ Below (r.highAt tag) (boundKey tag .null false) := by
        unfold highOk highAt
        cases hh : r.high with
        | none => simp
        | some b =>
          rcases h.high b hh with rfl | hb
          · have hlt : boundKey tag .null false < boundKey tag .null true :=
              OrderedBytes.lt_append _ _ (by simp)
            simp [high_proper hends hh rfl, hlt]
          · have hne : b ≠ .null := by
              rintro rfl
              exact absurd hb.1 (by simp [Value.isNull])
            have hlt := null_lt_value (σ := tag) hb (Or.inl rfl) htag false r.highInclusive
            simp [hne, hlt]
      simp only [Value.isNull, Bool.false_eq_true, if_false, if_true, Bool.and_eq_true]
      exact and_congr hlow hhigh
    · -- a value: its key against the keys of the bounds
      have hkey : toKeyUntyped v = boundKey tag v false := by
        unfold toKeyUntyped boundKey
        rw [hv.1]
        rfl
      have hsame : ∀ (w : Value) (after : Bool), InFamily tag w →
          (boundKey tag v false < boundKey (tagOf r.type) w after ↔
            boundKey tag v false < boundKey tag w after) := by
        rintro w after (rfl | hw)
        · exact iff_of_false
            (asymm_of (fun s t : Key => s < t) (null_lt_value hv h.type htag _ _))
            (asymm_of (fun s t : Key => s < t) (null_lt_value hv (Or.inl rfl) htag _ _))
        · rw [boundKey_value hw (tagOf r.type) tag]
      have hne : boundKey tag v false ≠ [] := by
        unfold boundKey encodeValue
        rw [hv.1]
        simp
      simp only [hv.1, Bool.false_eq_true, if_false, hkey, hne, Bool.and_eq_true]
      refine and_congr ?_ ?_
      · rw [lowKey_eq]
        unfold lowAt
        cases hl : r.low with
        | none => simp
        | some a => simp [hsame a r.lowExclusive (h.low a hl)]
      · rw [highKey_eq]
        unfold highAt
        cases hh : r.high with
        | none => simp
        | some b => simp [hsame b r.highInclusive (h.high b hh)]

end Contains

end KeyRange

end SqlDb.Sql
