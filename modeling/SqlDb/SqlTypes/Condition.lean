/-
  CONDITION TREES  (sql_types/condition_types.h, sql_types/identifier.h; `ConditionEvaluator`,
  sql_types/sql_truth.h; `Value::to_string`, sql_types/value.cpp).

  A WHERE is a tree of comparisons and IN lists under AND, OR and NOT.  AND and OR are one
  constructor here, with the connective as a parameter: the source treats the two nodes alike
  wherever it walks over a tree.  A tree of this type is well-formed; a missing child cannot be built.

  Besides its TRUTH on a row a tree has a TEXT (`to_string`), by which the planner compares trees.
  Nothing in the text tells a string from a number or from NULL.
-/
import SqlDb.SqlTypes.Truth

namespace SqlDb.Sql

/-! ## Identifiers -/

/-- A name, and whether it was written in quotes. -/
structure Identifier where
  name : Bytes
  quoted : Bool := false
deriving DecidableEq

namespace Identifier

/-- Quotes around the text are taken off. -/
def ofText (raw : Bytes) : Identifier :=
  let within (q : UInt8) := raw.head? = some q ∧ raw.getLast? = some q
  if raw.length ≥ 2 ∧ (within kDoubleQuote ∨ within kQuote) then ⟨raw.tail.dropLast, true⟩ else ⟨raw, false⟩

/-- `std::tolower` of every byte. -/
def lower (id : Identifier) : Bytes :=
  id.name.map fun c => if byte 'A' ≤ c ∧ c ≤ byte 'Z' then c + 32 else c

/-- `operator==`: upper and lower case are the same. -/
def eq (a b : Identifier) : Bool := a.lower = b.lower

def displayName (id : Identifier) : Bytes :=
  if id.quoted then [kDoubleQuote] ++ id.name ++ [kDoubleQuote] else id.name

end Identifier

def Value.toText : Value → Bytes
  | .null => ascii "NULL"
  | .str s _ _ => s
  | .bool b => if b then ascii "true" else ascii "false"
  | .int n t _ =>
    match t with
    | .date => Temporal.formatDate n
    | .time => Temporal.formatTime n
    | .datetime => Temporal.formatDatetime n
    | _ => decimal n

/-! ## Trees -/

/-- The two connectives with any number of terms. -/
inductive Junction
  | and | or
deriving DecidableEq, Repr

inductive Condition
  | compare (column : Identifier) (op : CompareOp) (value : Value)
  | inList (column : Identifier) (isNotIn : Bool) (values : List Value)
  | junction (op : Junction) (left right : Condition)
  | not (child : Condition)
deriving DecidableEq

inductive ConditionType
  | compare | inList | junction (op : Junction) | not
deriving DecidableEq

namespace Junction

def toText : Junction → Bytes
  | and => ascii " AND "
  | or => ascii " OR "

/-- The other connective. -/
def dual : Junction → Junction
  | and => or
  | or => and

def truth : Junction → Truth → Truth → Truth
  | and => truthAnd
  | or => truthOr

/-- The truth of no terms. -/
def unit : Junction → Truth
  | and => .true
  | or => .false

end Junction

namespace Condition

def type : Condition → ConditionType
  | .compare .. => .compare
  | .inList .. => .inList
  | .junction op .. => .junction op
  | .not _ => .not

/-- `to_string`. -/
def toText : Condition → Bytes
  | .compare column op value =>
    column.displayName ++ ascii " " ++ op.toText
      ++ (if op.isNullOp then [] else ascii " " ++ value.toText)
  | .inList column isNotIn values =>
    column.displayName ++ (if isNotIn then ascii " NOT IN (" else ascii " IN (")
      ++ (ascii ", ").intercalate (values.map Value.toText) ++ ascii ")"
  | .junction op left right => ascii "(" ++ left.toText ++ op.toText ++ right.toText ++ ascii ")"
  | .not child => ascii "NOT (" ++ child.toText ++ ascii ")"

/-! ## Evaluation -/

/-- The value of a column in a row; nothing for a column that does not exist. -/
abbrev Lookup := Identifier → Option Value

/-- `x IN (a, b)` is `x = a OR x = b`. -/
def evaluateIn (lhs : Value) (values : List Value) : Truth :=
  values.foldl (fun acc candidate => truthOr acc (sqlCompareOp .eq lhs candidate)) .false

def evaluate (lookup : Lookup) : Condition → Truth
  | .compare column op value =>
    match lookup column with
    | none => .unknown
    | some lhs => sqlCompareOp op lhs value
  | .inList column isNotIn values =>
    match lookup column with
    | none => .unknown
    | some lhs =>
      let acc := evaluateIn lhs values
      if isNotIn then truthNot acc else acc
  | .junction op left right =>
    let acc := op.truth op.unit (left.evaluate lookup)
    -- FALSE decides an AND, TRUE decides an OR
    if acc = op.dual.unit then acc else op.truth acc (right.evaluate lookup)
  | .not child => truthNot (child.evaluate lookup)

/-- The row is kept. -/
def keeps (lookup : Lookup) (c : Condition) : Bool := whereKeeps (c.evaluate lookup)

end Condition

/-! ## Connectives with any number of terms -/

namespace Junction

variable (op : Junction)

@[simp] theorem unit_truth (t : Truth) : op.truth op.unit t = t := by
  cases op <;> cases t <;> rfl

@[simp] theorem truth_unit (t : Truth) : op.truth t op.unit = t := by
  cases op <;> cases t <;> rfl

theorem truth_assoc (a b c : Truth) :
    op.truth (op.truth a b) c = op.truth a (op.truth b c) := by
  cases op <;> cases a <;> cases b <;> cases c <;> rfl

theorem truth_comm (a b : Truth) : op.truth a b = op.truth b a := by
  cases op <;> cases a <;> cases b <;> rfl

theorem truth_self (t : Truth) : op.truth t t = t := by
  cases op <;> cases t <;> rfl

theorem truth_decided (t : Truth) : op.truth op.dual.unit t = op.dual.unit := by
  cases op <;> cases t <;> rfl

theorem truthNot_truth (a b : Truth) :
    truthNot (op.truth a b) = op.dual.truth (truthNot a) (truthNot b) := by
  cases op
  · exact truthNot_and a b
  · exact truthNot_or a b

/-- The truth of a list of terms. -/
def truthOf (ts : List Truth) : Truth := ts.foldr op.truth op.unit

@[simp] theorem truthOf_nil : op.truthOf [] = op.unit := rfl

@[simp] theorem truthOf_cons (t : Truth) (ts : List Truth) :
    op.truthOf (t :: ts) = op.truth t (op.truthOf ts) := rfl

theorem truthOf_append (ts us : List Truth) :
    op.truthOf (ts ++ us) = op.truth (op.truthOf ts) (op.truthOf us) := by
  induction ts with
  | nil => simp
  | cons t ts ih => rw [List.cons_append, truthOf_cons, ih, truthOf_cons, truth_assoc]

/-- A term once more changes nothing. -/
theorem truthOf_of_mem {op : Junction} {t : Truth} {ts : List Truth} (h : t ∈ ts) :
    op.truth (op.truthOf ts) t = op.truthOf ts := by
  induction ts with
  | nil => simp at h
  | cons u us ih =>
    rw [truthOf_cons, truth_assoc]
    rcases List.mem_cons.mp h with rfl | h
    · rw [truth_comm, truth_assoc, truth_self, truth_comm]
    · rw [ih h]

theorem foldl_truth (t : Truth) (ts : List Truth) :
    ts.foldl op.truth t = op.truth t (op.truthOf ts) := by
  induction ts generalizing t with
  | nil => simp
  | cons u us ih => rw [List.foldl_cons, ih, truthOf_cons, truth_assoc]

/-- Which rows a junction keeps: those that all of its terms keep, or that one of them keeps. -/
def keepsOf (ks : List Bool) : Bool :=
  match op with
  | and => ks.all id
  | or => ks.any id

theorem keeps_truthOf (ts : List Truth) :
    whereKeeps (op.truthOf ts) = op.keepsOf (ts.map whereKeeps) := by
  induction ts with
  | nil => cases op <;> rfl
  | cons t ts ih =>
    have hstep : ∀ u, whereKeeps (op.truth t u) = op.keepsOf [whereKeeps t, whereKeeps u] := by
      intro u
      cases op <;> cases t <;> cases u <;> rfl
    rw [truthOf_cons, hstep, ih]
    cases op <;> simp [keepsOf]

end Junction

namespace Condition

@[simp] theorem evaluate_junction (lookup : Lookup) (op : Junction) (left right : Condition) :
    (junction op left right).evaluate lookup
      = op.truth (left.evaluate lookup) (right.evaluate lookup) := by
  simp only [evaluate, Junction.unit_truth]
  split_ifs with h
  · rw [h, Junction.truth_decided]
  · rfl

theorem evaluateIn_eq (lhs : Value) (values : List Value) :
    evaluateIn lhs values = Junction.or.truthOf (values.map (sqlCompareOp .eq lhs)) := by
  have h := Junction.foldl_truth .or .false (values.map (sqlCompareOp .eq lhs))
  rw [List.foldl_map] at h
  exact h.trans (Junction.unit_truth .or _)

end Condition

end SqlDb.Sql
