/-
  COMPARISON IN SQL  (sql_types/sql_truth.h, sql_types/compare_op.cpp).

  A comparison is TRUE, FALSE or UNKNOWN; anything compared with NULL is UNKNOWN, and so is a pair
  of values that cannot be compared.  Values of one family are compared as numbers, strings or
  seconds; a string against a number or a date is parsed first.

  Two facts carry everything that rewrites conditions: a flipped operator gives the NEGATED truth
  (`sqlCompareOp_flip`), and values that `operator==` takes for equal compare alike with everything
  (`sqlCompareOp_of_eq`).
-/
import Mathlib.Data.List.Infix
import SqlDb.SqlTypes.Temporal
import SqlDb.SqlTypes.Value

namespace SqlDb.Sql

/-! ## Truth -/

inductive Truth
  | false | true | unknown
deriving DecidableEq, Repr

def truthFromBool (b : Bool) : Truth := if b then .true else .false

def truthNot : Truth → Truth
  | .true => .false
  | .false => .true
  | .unknown => .unknown

def truthAnd (a b : Truth) : Truth :=
  if a = .false ∨ b = .false then .false
  else if a = .unknown ∨ b = .unknown then .unknown
  else .true

def truthOr (a b : Truth) : Truth :=
  if a = .true ∨ b = .true then .true
  else if a = .unknown ∨ b = .unknown then .unknown
  else .false

/-- A WHERE keeps a row only if its condition is TRUE. -/
def whereKeeps (t : Truth) : Bool := t = .true

@[simp] theorem truthNot_truthNot (t : Truth) : truthNot (truthNot t) = t := by
  cases t <;> rfl

theorem truthNot_and (a b : Truth) : truthNot (truthAnd a b) = truthOr (truthNot a) (truthNot b) := by
  cases a <;> cases b <;> rfl

theorem truthNot_or (a b : Truth) : truthNot (truthOr a b) = truthAnd (truthNot a) (truthNot b) := by
  cases a <;> cases b <;> rfl

theorem truthNot_fromBool (b : Bool) : truthNot (truthFromBool b) = truthFromBool (!b) := by
  cases b <;> rfl

/-! ## Operators -/

inductive CompareOp
  | eq | ne | gt | ge | lt | le | like | notLike | isNull | isNotNull | unknown
deriving DecidableEq, Repr

namespace CompareOp

def isNullOp (op : CompareOp) : Bool := op = .isNull || op = .isNotNull

def toText : CompareOp → Bytes
  | eq => ascii "="
  | ne => ascii "!="
  | gt => ascii ">"
  | ge => ascii ">="
  | lt => ascii "<"
  | le => ascii "<="
  | like => ascii "LIKE"
  | notLike => ascii "NOT LIKE"
  | isNull => ascii "IS NULL"
  | isNotNull => ascii "IS NOT NULL"
  | unknown => ascii "UNKNOWN"

/-- The operator that holds where `op` does not. -/
def flip : CompareOp → CompareOp
  | eq => ne
  | ne => eq
  | gt => le
  | ge => lt
  | lt => ge
  | le => gt
  | like => notLike
  | notLike => like
  | isNull => isNotNull
  | isNotNull => isNull
  | unknown => unknown

end CompareOp

/-! ## LIKE -/

/-- `%` stands for any text, `_` for one byte, and a backslash takes the next byte literally. -/
def likeMatch (text pattern : Bytes) : Bool :=
  match pattern with
  | [] => text = []
  | c :: rest =>
    if c = kBackslash ∧ rest ≠ [] then
      text.head? = rest.head? && likeMatch text.tail rest.tail
    else if c = byte '%' then
      let rest := rest.dropWhile (· = byte '%')
      if rest = [] then true else text.tails.any fun t => likeMatch t rest
    else if c = byte '_' then text ≠ [] && likeMatch text.tail rest
    else text.head? = some c && likeMatch text.tail rest
termination_by pattern.length
decreasing_by
  · simp only [List.length_cons, List.length_tail]
    omega
  · exact Nat.lt_succ_of_le (List.dropWhile_suffix _).length_le
  · simp
  · simp

/-- What a part of a pattern stands for. -/
inductive LikeToken
  | anyText
  | anyByte
  | literal (b : UInt8)

def LikeToken.Matches : LikeToken → Bytes → Prop
  | .anyText, _ => True
  | .anyByte, piece => piece.length = 1
  | .literal b, piece => piece = [b]

/-- A byte that is not escaped. -/
def likeToken (c : UInt8) : LikeToken :=
  if c = byte '%' then .anyText else if c = byte '_' then .anyByte else .literal c

/-- The tokens of a pattern; a backslash at its end is a byte like others. -/
def likeTokens : Bytes → List LikeToken
  | [] => []
  | [c] => [likeToken c]
  | c :: next :: rest =>
    if c = kBackslash then .literal next :: likeTokens rest
    else likeToken c :: likeTokens (next :: rest)

/-- The text can be split into pieces that the tokens match, in order. -/
def Splits (tokens : List LikeToken) (text : Bytes) : Prop :=
  ∃ pieces : List Bytes, List.Forall₂ LikeToken.Matches tokens pieces ∧ pieces.flatten = text

theorem splits_nil {text : Bytes} : Splits [] text ↔ text = [] := by
  constructor
  · rintro ⟨pieces, hpieces, rfl⟩
    cases hpieces
    rfl
  · rintro rfl
    exact ⟨[], .nil, rfl⟩

section Splits

variable {tokens : List LikeToken} {token : LikeToken} {text : Bytes}

theorem splits_cons : Splits (token :: tokens) text ↔
    ∃ piece rest, token.Matches piece ∧ text = piece ++ rest ∧ Splits tokens rest := by
  constructor
  · rintro ⟨pieces, hpieces, rfl⟩
    cases hpieces with
    | @cons _ piece _ rest hfirst hrest => exact ⟨piece, _, hfirst, rfl, rest, hrest, rfl⟩
  · rintro ⟨piece, rest, hfirst, rfl, pieces, hrest, rfl⟩
    exact ⟨piece :: pieces, .cons hfirst hrest, rfl⟩

theorem splits_anyText : Splits (.anyText :: tokens) text ↔ ∃ t ∈ text.tails, Splits tokens t := by
  rw [splits_cons]
  constructor
  · rintro ⟨piece, rest, -, rfl, hrest⟩
    exact ⟨rest, (List.mem_tails ..).mpr (List.suffix_append piece rest), hrest⟩
  · rintro ⟨t, ht, hrest⟩
    obtain ⟨piece, rfl⟩ := (List.mem_tails ..).mp ht
    exact ⟨piece, t, trivial, rfl, hrest⟩

theorem splits_anyByte : Splits (.anyByte :: tokens) text ↔ text ≠ [] ∧ Splits tokens text.tail := by
  rw [splits_cons]
  constructor
  · rintro ⟨piece, rest, hone, rfl, hrest⟩
    obtain ⟨b, rfl⟩ := List.length_eq_one_iff.mp hone
    exact ⟨List.cons_ne_nil _ _, hrest⟩
  · rintro ⟨hne, hrest⟩
    obtain ⟨b, rest, rfl⟩ := List.exists_cons_of_ne_nil hne
    exact ⟨[b], rest, rfl, rfl, hrest⟩

theorem splits_literal {b : UInt8} :
    Splits (.literal b :: tokens) text ↔ text.head? = some b ∧ Splits tokens text.tail := by
  rw [splits_cons]
  constructor
  · rintro ⟨piece, rest, rfl, rfl, hrest⟩
    exact ⟨rfl, hrest⟩
  · rintro ⟨hhead, hrest⟩
    obtain ⟨rest, rfl⟩ := List.head?_eq_some_iff.mp hhead
    exact ⟨[b], rest, rfl, rfl, hrest⟩

/-- A run of `%` is as good as one. -/
theorem splits_anyText_dropWhile (pattern : Bytes) : Splits (.anyText :: likeTokens pattern) text ↔
    Splits (.anyText :: likeTokens (pattern.dropWhile (· = byte '%'))) text := by
  induction pattern with
  | nil => rfl
  | cons c rest ih =>
    by_cases hc : c = byte '%'
    · subst hc
      have htokens : likeTokens (byte '%' :: rest) = .anyText :: likeTokens rest := by
        cases rest <;> rfl
      rw [List.dropWhile_cons_of_pos (by simp), ← ih, htokens, splits_anyText]
      simp only [splits_anyText, List.mem_tails]
      constructor
      · rintro ⟨t, ht, u, hu, hsplit⟩
        exact ⟨u, hu.trans ht, hsplit⟩
      · rintro ⟨t, ht, hsplit⟩
        exact ⟨t, ht, t, List.suffix_refl t, hsplit⟩
    · rw [List.dropWhile_cons_of_neg (by simpa using hc)]

end Splits

theorem likeTokens_cons {c : UInt8} {rest : Bytes} (h : ¬ (c = kBackslash ∧ rest ≠ [])) :
    likeTokens (c :: rest) = likeToken c :: likeTokens rest := by
  cases rest with
  | nil => rfl
  | cons next rest => rw [likeTokens, if_neg fun hc => h ⟨hc, List.cons_ne_nil _ _⟩]

/-- **LIKE**: the matcher, which always comes to an end, says yes exactly if the text can be split. -/
theorem likeMatch_iff (text pattern : Bytes) :
    likeMatch text pattern = true ↔ Splits (likeTokens pattern) text := by
  fun_induction likeMatch text pattern with
  | case1 text => simp [likeTokens, splits_nil]
  | case2 text c rest hescape ih =>
    obtain ⟨next, rest, rfl⟩ := List.exists_cons_of_ne_nil hescape.2
    rw [likeTokens, if_pos hescape.1, splits_literal, Bool.and_eq_true, decide_eq_true_eq, ih]
    rfl
  | case3 text rest tail hempty hescape =>
    rw [likeTokens_cons hescape, likeToken, if_pos rfl, splits_anyText_dropWhile]
    show true = true ↔ Splits (.anyText :: likeTokens tail) text
    rw [hempty, splits_anyText]
    exact iff_of_true rfl ⟨[], (List.mem_tails ..).mpr (List.nil_suffix ..), splits_nil.mpr rfl⟩
  | case4 text rest tail _ hescape ih =>
    rw [likeTokens_cons hescape, likeToken, if_pos rfl, splits_anyText_dropWhile, splits_anyText,
      List.any_eq_true]
    exact exists_congr fun t => and_congr_right fun _ => ih t
  | case5 text rest hescape hpercent ih =>
    rw [likeTokens_cons hescape, likeToken, if_neg hpercent, if_pos rfl, splits_anyByte,
      Bool.and_eq_true, decide_eq_true_eq, ih]
  | case6 text c rest hescape hpercent hunderscore ih =>
    rw [likeTokens_cons hescape, likeToken, if_neg hpercent, if_neg hunderscore, splits_literal,
      Bool.and_eq_true, decide_eq_true_eq, ih]

/-! ## Order -/

namespace DataType

def integerBytes : DataType → Nat
  | .tinyInt => 1
  | .smallInt => 2
  | .int => 4
  | .bigInt => 8
  | _ => 0

/-- The type in which two types are compared; UNKNOWN if they are of different families. -/
def commonType (a b : DataType) : DataType :=
  if a = b then a
  else if a.isInteger && b.isInteger then if a.integerBytes ≥ b.integerBytes then a else b
  else if a.isBoolean && b.isInteger then b
  else if a.isInteger && b.isBoolean then a
  else if a.isBoolean && b.isBoolean then .boolean
  else if a.isString && b.isString then if a = .text || b = .text then .text else .varchar
  else if a.isTemporal && b.isTemporal then
    if a = .time || b = .time then .unknownType else .datetime
  else .unknownType

end DataType

namespace Value

def int64Of : Value → Option Int64
  | .bool b => some (if b then 1 else 0)
  | .int n t _ => if t.isInteger then some n else none
  | _ => none

def temporalSeconds : Value → Option Int64
  | .int n t _ =>
    if t = .date then some (n * kSecondsPerDay)
    else if t = .time || t = .datetime then some n
    else none
  | _ => none

/-- The text of a string; the source throws for any other value. -/
def asStr : Value → Option Bytes
  | .str s _ _ => some s
  | _ => none

@[simp] theorem isNull_int (n : Int64) (t : DataType) (h) : (Value.int n t h).isNull = false := rfl

@[simp] theorem isNull_str (s : Bytes) (t : DataType) (h) : (Value.str s t h).isNull = false := rfl

@[simp] theorem type_int (n : Int64) (t : DataType) (h) : (Value.int n t h).type = t := rfl

@[simp] theorem type_str (s : Bytes) (t : DataType) (h) : (Value.str s t h).type = t := rfl

@[simp] theorem asStr_int (n : Int64) (t : DataType) (h) : (Value.int n t h).asStr = none := rfl

@[simp] theorem asStr_str (s : Bytes) (t : DataType) (h) : (Value.str s t h).asStr = some s := rfl

end Value

def parseTemporal (type : DataType) (text : Bytes) : Option Int64 :=
  if type = .date then Temporal.parseDate text
  else if type = .time then Temporal.parseTime text
  else if type = .datetime then Temporal.parseDatetime text
  else none

def cmpInt64 (a b : Int64) : Ordering := if a = b then .eq else if a < b then .lt else .gt

/-- `std::string::compare`. -/
def cmpBytes (a b : Bytes) : Ordering := if a = b then .eq else if a < b then .lt else .gt

/-- Both numbers, if there are two. -/
def cmpOptional (a b : Option Int64) : Option Ordering :=
  match a, b with
  | some a, some b => some (cmpInt64 a b)
  | _, _ => none

/-- A number or a date against a text. -/
def orderAgainstText (other : Value) (text : Bytes) : Option Ordering :=
  if other.type.isNumeric then cmpOptional other.int64Of (parseInt64Strict text)
  else if other.type.isTemporal then
    -- the text of a date counts days
    let parsed := (parseTemporal other.type text).map fun n =>
      if other.type = .date then n * kSecondsPerDay else n
    cmpOptional other.temporalSeconds parsed
  else none

def sqlOrder (a b : Value) : Option Ordering :=
  if a.isNull || b.isNull then none
  else
    let common := DataType.commonType a.type b.type
    if common.isInteger || common.isBoolean then cmpOptional a.int64Of b.int64Of
    else if common.isString then
      match a.asStr, b.asStr with
      | some s, some t => some (cmpBytes s t)
      | _, _ => none
    else if common.isTemporal then cmpOptional a.temporalSeconds b.temporalSeconds
    else
      match a.asStr, b.asStr with
      | none, some text => orderAgainstText a text
      | some text, none => (orderAgainstText b text).map Ordering.swap
      | _, _ => none

/-- What an operator says about an order. -/
def truthOfOrder (op : CompareOp) (o : Ordering) : Truth :=
  match op with
  | .eq => truthFromBool (o = .eq)
  | .ne => truthFromBool (o ≠ .eq)
  | .gt => truthFromBool (o = .gt)
  | .ge => truthFromBool (o ≠ .lt)
  | .lt => truthFromBool (o = .lt)
  | .le => truthFromBool (o ≠ .gt)
  | _ => .unknown

def sqlLike (a b : Value) (negated : Bool) : Truth :=
  match a.asStr, b.asStr with
  | some text, some pattern => truthFromBool (likeMatch text pattern != negated)
  | _, _ => .unknown

def sqlCompareOp (op : CompareOp) (a b : Value) : Truth :=
  match op with
  | .isNull => truthFromBool a.isNull
  | .isNotNull => truthFromBool (!a.isNull)
  | .like => sqlLike a b false
  | .notLike => sqlLike a b true
  | op =>
    match sqlOrder a b with
    | none => .unknown
    | some o => truthOfOrder op o

/-! ## Flipped operators -/

theorem truthOfOrder_flip (op : CompareOp) (o : Ordering) :
    truthOfOrder op.flip o = truthNot (truthOfOrder op o) := by
  cases op <;> cases o <;> rfl

theorem sqlLike_not (a b : Value) (negated : Bool) :
    sqlLike a b (!negated) = truthNot (sqlLike a b negated) := by
  unfold sqlLike
  split
  · rw [truthNot_fromBool]
    congr 1
    cases likeMatch _ _ <;> cases negated <;> rfl
  · rfl

/-- **A flipped operator gives the negated truth.** -/
theorem sqlCompareOp_flip (op : CompareOp) (a b : Value) :
    sqlCompareOp op.flip a b = truthNot (sqlCompareOp op a b) := by
  have horder : ∀ op : CompareOp, (match sqlOrder a b with
      | none => Truth.unknown
      | some o => truthOfOrder op.flip o) = truthNot (match sqlOrder a b with
      | none => Truth.unknown
      | some o => truthOfOrder op o) := by
    intro op
    cases sqlOrder a b with
    | none => rfl
    | some o => exact truthOfOrder_flip op o
  cases op with
  | isNull => exact (truthNot_fromBool a.isNull).symm
  | isNotNull =>
    show truthFromBool a.isNull = truthNot (truthFromBool (!a.isNull))
    rw [truthNot_fromBool, Bool.not_not]
  | like => exact sqlLike_not a b false
  | notLike => exact sqlLike_not a b true
  | eq => exact horder .eq
  | ne => exact horder .ne
  | gt => exact horder .gt
  | ge => exact horder .ge
  | lt => exact horder .lt
  | le => exact horder .le
  | unknown => exact horder .unknown

/-! ## Values that are equal -/

/-- Values that are equal are the same, or two numbers or two strings that differ in their width. -/
theorem Value.eq_cases {v w : Value} (h : v.eq w = true) :
    v = w ∨ (∃ n s t hs ht, v = .int n s hs ∧ w = .int n t ht ∧ s.isInteger = true ∧ t.isInteger = true)
      ∨ ∃ x s t hs ht, v = .str x s hs ∧ w = .str x t ht := by
  cases v with
  | null | bool => cases w <;> simp_all [Value.eq]
  | str x s hs =>
    cases w with
    | str y t ht =>
      have hxy : x = y := by simpa [Value.eq] using h
      subst hxy
      exact Or.inr (Or.inr ⟨x, s, t, hs, ht, rfl, rfl⟩)
    | _ => simp [Value.eq] at h
  | int n s hs =>
    cases w with
    | int m t ht =>
      simp only [Value.eq] at h
      split_ifs at h with htemporal
      · obtain ⟨rfl, rfl⟩ : s = t ∧ n = m := by simpa using h
        exact Or.inl rfl
      · simp only [Bool.or_eq_true, not_or, Bool.not_eq_true] at htemporal
        obtain rfl : n = m := by simpa using h
        refine Or.inr (Or.inl ⟨n, s, t, hs, ht, rfl, rfl, ?_, ?_⟩)
        · simpa [DataType.holdsInt64, htemporal.1] using hs
        · simpa [DataType.holdsInt64, htemporal.2] using ht
    | _ => simp [Value.eq] at h

/-- Integers are compared with what is a number. -/
theorem commonType_integer (a : DataType) {s : DataType} (hs : s.isInteger = true) :
    ((DataType.commonType a s).isInteger || (DataType.commonType a s).isBoolean) = a.isNumeric ∧
      (DataType.commonType a s).isString = false ∧ (DataType.commonType a s).isTemporal = false := by
  cases s <;> first | exact absurd hs (by decide) | cases a <;> decide

/-- Strings are compared with strings. -/
theorem commonType_string (a : DataType) {s : DataType} (hs : s.isString = true) :
    ((DataType.commonType a s).isInteger || (DataType.commonType a s).isBoolean) = false ∧
      (DataType.commonType a s).isString = a.isString ∧
      (DataType.commonType a s).isTemporal = false := by
  cases s <;> first | exact absurd hs (by decide) | cases a <;> decide

/-- A value against an integer; the width does not matter. -/
theorem sqlOrder_integer (a : Value) (n : Int64) {s : DataType} (h) (hs : s.isInteger = true) :
    sqlOrder a (.int n s h) =
      if a.isNull then none
      else if a.type.isNumeric then cmpOptional a.int64Of (some n)
      else a.asStr.bind fun text => (cmpOptional (some n) (parseInt64Strict text)).map Ordering.swap := by
  obtain ⟨hnumber, hstring, htemporal⟩ := commonType_integer a.type hs
  have hnumeric : s.isNumeric = true := by simp [DataType.isNumeric, hs]
  have hvalue : (Value.int n s h).int64Of = some n := by simp [Value.int64Of, hs]
  have htext : ∀ text, orderAgainstText (.int n s h) text =
      cmpOptional (some n) (parseInt64Strict text) := by
    intro text
    unfold orderAgainstText
    rw [Value.type_int, if_pos hnumeric, hvalue]
  unfold sqlOrder
  rw [Value.isNull_int, Value.type_int, Value.asStr_int, Bool.or_false]
  dsimp only
  rw [hnumber, hstring, htemporal, hvalue]
  cases a.asStr with
  | none => rfl
  | some text =>
    dsimp only [Option.bind_some]
    rw [htext]
    rfl

/-- A value against a string, of whichever type. -/
theorem sqlOrder_string (a : Value) (x : Bytes) {s : DataType} (hs : s.isString = true) :
    sqlOrder a (.str x s hs) =
      if a.isNull then none
      else if a.type.isString then a.asStr.map fun text => cmpBytes text x
      else if a.asStr = none then orderAgainstText a x
      else none := by
  obtain ⟨hnumber, hstring, htemporal⟩ := commonType_string a.type hs
  unfold sqlOrder
  rw [Value.isNull_str, Value.type_str, Value.asStr_str, Bool.or_false]
  dsimp only
  rw [hnumber, hstring, htemporal]
  cases a.asStr <;> rfl

/-- **Values that are equal compare alike.** -/
theorem sqlCompareOp_of_eq {v w : Value} (h : v.eq w = true) (op : CompareOp) (a : Value) :
    sqlCompareOp op a v = sqlCompareOp op a w := by
  rcases Value.eq_cases h with rfl | ⟨n, s, t, hs, ht, rfl, rfl, hs', ht'⟩ | ⟨x, s, t, hs, ht, rfl, rfl⟩
  · rfl
  · have horder : sqlOrder a (.int n s hs) = sqlOrder a (.int n t ht) := by
      rw [sqlOrder_integer a n hs hs', sqlOrder_integer a n ht ht']
    cases op <;> simp only [sqlCompareOp, horder] <;> rfl
  · have horder : sqlOrder a (.str x s hs) = sqlOrder a (.str x t ht) := by
      rw [sqlOrder_string a x hs, sqlOrder_string a x ht]
    cases op <;> simp only [sqlCompareOp, horder] <;> rfl

end SqlDb.Sql
