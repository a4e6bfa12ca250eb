/-
  COMPUTATIONS THAT MAY FAIL: a sequence of them succeeds exactly if each one does.
-/
import Mathlib.Data.List.Forall2

namespace Fallible

variable {A B E : Type}

theorem bind_eq_ok {m : Except E A} {f : A → Except E B} {b : B} :
    (m >>= f) = .ok b ↔ ∃ a, m = .ok a ∧ f a = .ok b := by
  cases m <;> simp [bind, Except.bind]

theorem pure_eq_ok {a b : A} : (pure a : Except E A) = .ok b ↔ a = b := Except.ok.injEq a b ▸ Iff.rfl

theorem forM_eq_ok {f : A → Except E Unit} {l : List A} :
    l.forM f = .ok () ↔ ∀ a ∈ l, f a = .ok () := by
  induction l with
  | nil => exact iff_of_true rfl (by simp)
  | cons a l ih =>
    show (f a >>= fun _ => l.forM f) = .ok () ↔ _
    rw [List.forall_mem_cons, ← ih, bind_eq_ok]
    exact ⟨fun ⟨_, h⟩ => h, fun h => ⟨(), h⟩⟩

theorem mapM_eq_ok {f : A → Except E B} {l : List A} {r : List B} :
    l.mapM f = .ok r ↔ List.Forall₂ (fun a b => f a = .ok b) l r := by
  induction l generalizing r with
  | nil => rw [List.mapM_nil, pure_eq_ok, List.forall₂_nil_left_iff, eq_comm]
  | cons a l ih =>
    rw [List.mapM_cons, List.forall₂_cons_left_iff]
    simp only [bind_eq_ok, pure_eq_ok, ih]
    constructor
    · rintro ⟨b, hb, bs, hbs, rfl⟩
      exact ⟨b, bs, hb, hbs, rfl⟩
    · rintro ⟨b, bs, hb, hbs, rfl⟩
      exact ⟨b, hb, bs, hbs, rfl⟩

/-- What succeeds on some arguments, and only on those, succeeds on a list of them. -/
theorem mapM_eq_ok_map {f : A → Except E B} {g : B → A} (hf : ∀ a b, f a = .ok b ↔ a = g b)
    {l : List A} {r : List B} : l.mapM f = .ok r ↔ l = r.map g := by
  simp only [mapM_eq_ok, hf]
  rw [← List.forall₂_eq_eq_eq, List.forall₂_map_right_iff]

end Fallible
