/-
  ITERATORS  (`Iterator`, storage/kv_engine/kv_engine.h, and `MockIterator`,
  storage/mock_engine/mock_engine.cpp).

  An iterator stands on a row or is invalid.  `Yields it rows` says what a loop
  `while (it.valid()) { …; it.next(); }` visits: exactly `rows`, and then the iterator is invalid.

  The mock iterator walks a list of rows that was copied when it was created; a reverse scan walks
  the same list from its end.
-/
import SqlDb.Storage.MockEngine

namespace SqlDb.Kv

class Iterator (I : Type) where
  valid : I → Bool
  key : I → Bytes
  value : I → Bytes
  /-- Move on in scan direction. -/
  next : I → I

/-- From `it` on, `next` visits exactly `rows`. -/
def Yields {I : Type} [Iterator I] : I → List (Bytes × Bytes) → Prop
  | it, [] => Iterator.valid it = false
  | it, p :: rows => Iterator.valid it = true ∧ Iterator.key it = p.1 ∧ Iterator.value it = p.2 ∧
    Yields (Iterator.next it) rows

theorem Yields.unique {I : Type} [Iterator I] {it : I} {rows rows' : List (Bytes × Bytes)}
    (h : Yields it rows) (h' : Yields it rows') : rows = rows' := by
  induction rows generalizing it rows' with
  | nil =>
    cases rows' with
    | nil => rfl
    | cons p rows' =>
      have hv : Iterator.valid it = false := h
      rw [h'.1] at hv
      simp at hv
  | cons p rows ih =>
    obtain ⟨hv, hk, hval, hrest⟩ := h
    cases rows' with
    | nil =>
      have hv' : Iterator.valid it = false := h'
      rw [hv] at hv'
      simp at hv'
    | cons p' rows' =>
      obtain ⟨-, hk', hval', hrest'⟩ := h'
      rw [ih hrest hrest', Prod.ext (hk.symm.trans hk') (hval.symm.trans hval')]

/-- An iterator that hands every call on visits what the one inside visits. -/
theorem yields_wrap {I J : Type} [Iterator I] [Iterator J] (f : I → J)
    (hvalid : ∀ it, Iterator.valid (f it) = Iterator.valid it)
    (hkey : ∀ it, Iterator.key (f it) = Iterator.key it)
    (hvalue : ∀ it, Iterator.value (f it) = Iterator.value it)
    (hnext : ∀ it, Iterator.next (f it) = f (Iterator.next it)) {it : I}
    {rows : List (Bytes × Bytes)} : Yields (f it) rows ↔ Yields it rows := by
  induction rows generalizing it with
  | nil => exact Eq.congr_left (hvalid it)
  | cons p rows ih => rw [Yields, Yields, hvalid, hkey, hvalue, hnext, ih]

/-- Rows in the order a scan visits them; they are given in increasing order of keys. -/
def ScanDirection.order {A : Type} : ScanDirection → List A → List A
  | .forward, l => l
  | .reverse, l => l.reverse

/-- `a` comes before `b` in scan direction. -/
def ScanDirection.before : ScanDirection → Bytes → Bytes → Prop
  | .forward, a, b => a < b
  | .reverse, a, b => b < a

instance (d : ScanDirection) : DecidableRel d.before := fun a b =>
  match d with
  | .forward => inferInstanceAs (Decidable (a < b))
  | .reverse => inferInstanceAs (Decidable (b < a))

instance (d : ScanDirection) : IsStrictTotalOrder Bytes d.before :=
  match d with
  | .forward => inferInstanceAs (IsStrictTotalOrder Bytes (· < ·))
  | .reverse => inferInstanceAs (IsStrictTotalOrder Bytes (Function.swap (· < ·)))

theorem ScanDirection.mem_order {A : Type} (d : ScanDirection) {l : List A} {a : A} :
    a ∈ d.order l ↔ a ∈ l := by
  cases d with
  | forward => exact Iff.rfl
  | reverse => exact List.mem_reverse

/-- Sorted rows come in scan order. -/
theorem ScanDirection.order_sorted {A : Type} (d : ScanDirection) {key : A → Bytes} {l : List A}
    (h : l.Pairwise fun p q => key p < key q) :
    (d.order l).Pairwise fun p q => d.before (key p) (key q) := by
  cases d with
  | forward => exact h
  | reverse => exact List.pairwise_reverse.mpr h

/-! ## The mock iterator -/

/-- `index = rows.length` is the end. -/
structure MockIterator where
  rows : List (Bytes × Bytes)
  range : KeyRange
  index : Nat := 0

namespace MockIterator

variable (it : MockIterator)

def inRange (index : Nat) : Bool :=
  match it.rows[index]? with
  | none => false
  | some p => it.range.contains p.1

def valid : Bool := it.inRange it.index

def key : Bytes :=
  if it.valid then (it.rows[it.index]?.map Prod.fst).getD [] else []

def value : Bytes :=
  if it.valid then (it.rows[it.index]?.map Prod.snd).getD [] else []

/-- The first row in scan direction. -/
def seekToFirst : MockIterator :=
  if it.rows = [] then { it with index := 0 }
  else
    { it with index := match it.range.direction with
        | .forward => 0
        | .reverse => it.rows.length - 1 }

def next : MockIterator :=
  if !it.valid then it
  else
    { it with index := match it.range.direction with
        | .forward => it.index + 1
        | .reverse => if it.index = 0 then it.rows.length else it.index - 1 }

/-- The last row in scan direction. -/
def seekToLast : MockIterator :=
  if it.rows = [] then { it with index := 0 }
  else
    { it with index := match it.range.direction with
        | .forward => it.rows.length - 1
        | .reverse => 0 }

/-- The number of rows below `key`. -/
def lowerBoundIndex (rows : List (Bytes × Bytes)) (key : Bytes) : Nat :=
  (rows.takeWhile fun p => decide (p.1 < key)).length

/-- The number of rows that are not above `key`. -/
def upperBoundIndex (rows : List (Bytes × Bytes)) (key : Bytes) : Nat :=
  (rows.takeWhile fun p => !decide (key < p.1)).length

/-- The key, or the start of the range if that comes later. -/
def seekTarget (range : KeyRange) (key : Bytes) : Bytes :=
  match range.start with
  | some start => if key < start then start else key
  | none => key

/-- Forwards the first row that is not below `key`, backwards the last one that is not above it. -/
def seek (key : Bytes) : MockIterator :=
  { it with index := match it.range.direction with
      | .forward => lowerBoundIndex it.rows (seekTarget it.range key)
      | .reverse =>
        let after := upperBoundIndex it.rows key
        if after = 0 then it.rows.length else after - 1 }

def prev : MockIterator :=
  if !it.valid then it
  else
    { it with index := match it.range.direction with
        | .forward => if it.index = 0 then it.rows.length else it.index - 1
        | .reverse => it.index + 1 }

/-- A new iterator stands on its first row. -/
def create (rows : List (Bytes × Bytes)) (range : KeyRange) : MockIterator :=
  seekToFirst { rows, range }

instance : Iterator MockIterator where
  valid := valid
  key := key
  value := value
  next := next

variable {rows : List (Bytes × Bytes)} {range : KeyRange}

section

variable (h : ∀ p ∈ rows, range.contains p.1 = true)
include h

theorem valid_at (i : Nat) :
    valid ⟨rows, range, i⟩ = decide (i < rows.length) := by
  unfold valid inRange
  cases hi : rows[i]? with
  | none =>
    have hle := List.getElem?_eq_none_iff.mp hi
    exact (decide_eq_false (Nat.not_lt.mpr hle)).symm
  | some p =>
    have hlt := lt_of_getElem? hi
    rw [decide_eq_true hlt]
    exact h p (List.mem_of_getElem? hi)

/-- On row `p` the iterator shows `p`. -/
theorem yields_cons {i : Nat} {p : Bytes × Bytes}
    (hi : rows[i]? = some p) {rest : List (Bytes × Bytes)} (j : Nat)
    (hnext : next ⟨rows, range, i⟩ = ⟨rows, range, j⟩) (hrest : Yields (⟨rows, range, j⟩ : MockIterator) rest) :
    Yields (⟨rows, range, i⟩ : MockIterator) (p :: rest) := by
  have hv : valid ⟨rows, range, i⟩ = true := by
    rw [valid_at h]
    exact decide_eq_true (lt_of_getElem? hi)
  refine ⟨hv, ?_, ?_, ?_⟩
  · show key _ = _
    unfold key
    rw [if_pos hv, hi]
    rfl
  · show value _ = _
    unfold value
    rw [if_pos hv, hi]
    rfl
  · show Yields (next _) rest
    rw [hnext]
    exact hrest

theorem yields_end {i : Nat} (hi : rows.length ≤ i) :
    Yields (⟨rows, range, i⟩ : MockIterator) [] := by
  show valid _ = false
  rw [valid_at h]
  exact decide_eq_false (Nat.not_lt.mpr hi)

theorem next_of_lt {i : Nat} (hi : i < rows.length) :
    next ⟨rows, range, i⟩ = ⟨rows, range, match range.direction with
      | .forward => i + 1
      | .reverse => if i = 0 then rows.length else i - 1⟩ := by
  unfold next
  rw [if_neg]
  rw [valid_at h, decide_eq_true hi]
  simp

theorem yields_forward
    (hdir : range.direction = .forward) (n : Nat) {i : Nat} (hn : rows.length ≤ i + n) :
    Yields (⟨rows, range, i⟩ : MockIterator) (rows.drop i) := by
  induction n generalizing i with
  | zero =>
    have hn : rows.length ≤ i := hn
    rw [List.drop_eq_nil_of_le hn]
    exact yields_end h hn
  | succ n ih =>
    rcases Nat.lt_or_ge i rows.length with hlt | hge
    · rw [List.drop_eq_getElem_cons hlt]
      refine yields_cons h (List.getElem?_eq_getElem hlt) (i + 1) ?_ (ih (by omega))
      rw [next_of_lt h hlt, hdir]
    · rw [List.drop_eq_nil_of_le hge]
      exact yields_end h hge

theorem yields_reverse (hdir : range.direction = .reverse) {i : Nat} (hi : i < rows.length) :
    Yields (⟨rows, range, i⟩ : MockIterator) (rows.take (i + 1)).reverse := by
  have htake : (rows.take (i + 1)).reverse = rows[i] :: (rows.take i).reverse := by
    rw [List.take_succ_eq_append_getElem hi, List.reverse_append]
    rfl
  induction i with
  | zero =>
    rw [htake]
    refine yields_cons h (List.getElem?_eq_getElem hi) rows.length ?_ (yields_end h le_rfl)
    rw [next_of_lt h hi, hdir]
    rfl
  | succ i ih =>
    have hi' : i < rows.length := by omega
    rw [htake]
    refine yields_cons h (List.getElem?_eq_getElem hi) i ?_ (ih hi' ?_)
    · rw [next_of_lt h hi, hdir]
      rfl
    · rw [List.take_succ_eq_append_getElem hi', List.reverse_append]
      rfl

/-- **A mock scan** visits the rows it was given, in scan order. -/
theorem yields_create :
    Yields (create rows range) (range.direction.order rows) := by
  unfold create seekToFirst
  by_cases hnil : rows = []
  · subst hnil
    rw [if_pos rfl]
    cases range.direction with
    | forward | reverse => exact yields_end h le_rfl
  · rw [if_neg hnil]
    cases hdir : range.direction with
    | forward =>
      have := yields_forward h hdir rows.length (i := 0) (by omega)
      rwa [List.drop_zero] at this
    | reverse =>
      have hpos : 0 < rows.length := List.length_pos_iff.mpr hnil
      have := yields_reverse h hdir (i := rows.length - 1) (by omega)
      rwa [show rows.length - 1 + 1 = rows.length by omega, List.take_length] at this

end

end MockIterator

end SqlDb.Kv
