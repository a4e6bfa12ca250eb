/-
  HISTORIES.

  A history is the list of what has happened, oldest first; it only grows at its end.  `Always Q h`
  says of every event of `h` something about the event AND WHAT CAME BEFORE IT.  A history with one
  more event satisfies it if the old one did and the new event does (`always_snoc`): this is the step
  of every induction over a run that keeps a history.
-/
import Mathlib.Data.List.Basic

/-! ## Positions -/

section Positions

variable {A : Type} {l : List A} {a b : A} {i : Nat}

theorem lt_of_getElem? (h : l[i]? = some a) : i < l.length :=
  (List.getElem?_eq_some_iff.mp h).1

/-- What is in a history with one more event at its end. -/
theorem mem_snoc : a ∈ l ++ [b] ↔ a ∈ l ∨ a = b := by simp

/-- An old event at its old position, or the new one at the end. -/
theorem getElem?_snoc : (l ++ [b])[i]? = some a ↔ l[i]? = some a ∨ (i = l.length ∧ a = b) := by
  rcases Nat.lt_trichotomy i l.length with hlt | rfl | hgt
  · rw [List.getElem?_append_left hlt]
    exact (or_iff_left fun h => Nat.ne_of_lt hlt h.1).symm
  · simp [eq_comm]
  · rw [List.getElem?_eq_none (by simp; omega), List.getElem?_eq_none (by omega)]
    simp
    omega

end Positions

/-! ## Events and what came before -/

namespace History

variable {E : Type} {Q R : List E → E → Prop} {h : List E} {e : E}

/-- Each event, with what came before it, satisfies `Q`. -/
def Always (Q : List E → E → Prop) (h : List E) : Prop :=
  ∀ before e after, h = before ++ e :: after → Q before e

theorem always_nil : Always Q [] := by
  intro before e after heq
  simp at heq

theorem always_snoc : Always Q (h ++ [e]) ↔ Always Q h ∧ Q h e := by
  constructor
  · intro hall
    refine ⟨fun before x after heq => ?_, hall h e [] rfl⟩
    apply hall before x (after ++ [e])
    rw [heq, List.append_assoc, List.cons_append]
  · rintro ⟨hold, hnew⟩ before x after heq
    -- the event is the last one, or an event of the old history
    rcases List.eq_nil_or_concat after with rfl | ⟨init, last, rfl⟩
    · obtain ⟨rfl, hlast⟩ := List.append_inj' heq rfl
      obtain rfl : e = x := by simpa using hlast
      exact hnew
    · have hassoc : h ++ [e] = (before ++ x :: init) ++ [last] := by
        rw [heq]
        simp
      exact hold before x init (List.append_inj' hassoc rfl).1

end History
