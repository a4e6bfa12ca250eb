/-
  HALF-OPEN INTERVALS over a strict total order, with optional ends.

  A lower end that is missing is −∞ and an upper end that is missing is +∞, so the two kinds of ends
  are ordered differently (`LowLe`, `HighLe`).  What set operations on intervals need of their ends is
  little: a larger lower end lets less through, and an upper end that reaches a lower end leaves NO
  GAP (`below_or_above`).
-/
import Mathlib.Order.RelClasses

namespace HalfOpen

variable {A : Type} [LT A]

/-- `x` is not below the lower end. -/
def Above (low : Option A) (x : A) : Prop := ∀ a ∈ low, ¬ x < a

/-- `x` is below the upper end. -/
def Below (high : Option A) (x : A) : Prop := ∀ b ∈ high, x < b

def Inside (low high : Option A) (x : A) : Prop := Above low x ∧ Below high x

/-- The order of lower ends. -/
def LowLe (l m : Option A) : Prop := ∀ a ∈ l, ∃ b ∈ m, ¬ b < a

/-- The order of upper ends. -/
def HighLe (h k : Option A) : Prop := ∀ b ∈ k, ∃ a ∈ h, ¬ b < a

/-- The upper end `high` reaches the lower end `low`. -/
def Reaches (high low : Option A) : Prop := ∀ b ∈ high, ∀ a ∈ low, ¬ b < a

@[simp] theorem above_none (x : A) : Above none x := by simp [Above]

@[simp] theorem below_none (x : A) : Below none x := by simp [Below]

@[simp] theorem above_some {a x : A} : Above (some a) x ↔ ¬ x < a := by simp [Above]

@[simp] theorem below_some {b x : A} : Below (some b) x ↔ x < b := by simp [Below]

variable {l m h k : Option A} {x : A}

theorem not_above_iff : ¬ Above l x ↔ l ≠ none ∧ Below l x := by
  cases l <;> simp

theorem not_below_iff : ¬ Below h x ↔ h ≠ none ∧ Above h x := by
  cases h <;> simp

variable [IsStrictTotalOrder A (· < ·)]

theorem lt_of_not_lt_of_lt {a b c : A} (hba : ¬ b < a) (hbc : b < c) : a < c := by
  rcases trichotomous_of (fun a b : A => a < b) a c with hac | rfl | hca
  · exact hac
  · exact absurd hbc hba
  · exact absurd (trans_of (fun a b : A => a < b) hbc hca) hba

theorem lt_of_lt_of_not_lt {a b c : A} (hab : a < b) (hcb : ¬ c < b) : a < c := by
  rcases trichotomous_of (fun a b : A => a < b) a c with hac | rfl | hca
  · exact hac
  · exact absurd hab hcb
  · exact absurd (trans_of (fun a b : A => a < b) hca hab) hcb

theorem Above.of_le (hle : LowLe l m) (hx : Above m x) : Above l x := by
  intro a ha hlt
  obtain ⟨b, hb, hba⟩ := hle a ha
  exact hx b hb (lt_of_lt_of_not_lt hlt hba)

theorem Below.of_le (hle : HighLe h k) (hx : Below h x) : Below k x := by
  intro b hb
  obtain ⟨a, ha, hba⟩ := hle b hb
  exact lt_of_lt_of_not_lt (hx a ha) hba

/-- There is no gap between an upper end and a lower end that it reaches. -/
theorem below_or_above (hr : Reaches h l) (x : A) : Below h x ∨ Above l x := by
  by_cases hx : Below h x
  · exact Or.inl hx
  · refine Or.inr fun a ha hlt => hx fun b hb => ?_
    exact lt_of_lt_of_not_lt hlt (hr b hb a ha)

theorem below_of_reaches (hr : Reaches h l) (hl : l ≠ none) (hx : Below l x) : Below h x :=
  (below_or_above hr x).resolve_right (not_above_iff.mpr ⟨hl, hx⟩)

theorem above_of_reaches (hr : Reaches h l) (hh : h ≠ none) (hx : Above h x) : Above l x :=
  (below_or_above hr x).resolve_left (not_below_iff.mpr ⟨hh, hx⟩)

/-- Two intervals that reach each other cover what lies between their outer ends. -/
theorem inside_or_inside {l m h k : Option A} (hm : Reaches h m) (hl : Reaches k l)
    (hlow : Above l x ∨ Above m x) (hhigh : Below h x ∨ Below k x) :
    Inside l h x ∨ Inside m k x := by
  rcases hlow with hlow | hlow
  · rcases hhigh with hhigh | hhigh
    · exact Or.inl ⟨hlow, hhigh⟩
    · exact (below_or_above hm x).imp (fun h => ⟨hlow, h⟩) fun h => ⟨h, hhigh⟩
  · rcases hhigh with hhigh | hhigh
    · exact ((below_or_above hl x).imp (fun h => ⟨hlow, h⟩) fun h => ⟨h, hhigh⟩).symm
    · exact Or.inr ⟨hlow, hhigh⟩

/-- An interval whose lower end is not below its upper end is empty. -/
theorem not_inside {a b : A} (hab : ¬ a < b) (x : A) : ¬ Inside (some a) (some b) x := by
  rintro ⟨hlow, hhigh⟩
  exact hab (lt_of_not_lt_of_lt (above_some.mp hlow) (below_some.mp hhigh))

end HalfOpen
