/-
  PROGRAMS WITH STATE AND ERRORS, and how to reason about their runs.

  `Prog S E A` is a program over the state `S` that ends with a result or an error.  Unlike the
  usual stack of transformers it keeps the state it reached IN BOTH CASES: this is how a C++ method
  behaves that returns `std::expected` after having written some of its fields.

  `Run r m s Q` is the one judgement used about programs.  It says two things at once:
    * the run of `m` from `s` is a PATH of `r`-steps (`r` is the transition relation the caller
      chose; whatever every `r`-step preserves, the whole run preserves);
    * the outcome and the final state satisfy `Q`.
  So a program is walked through ONCE, to justify each of its writes as a step, and any number of
  invariants can then be proved by looking at the steps only.
-/
import Mathlib.Logic.Relation
import SqlDb.Lib.History

/-- A program over the state `S`: a result or an error, and in both cases the state it reached. -/
def Prog (S E A : Type) : Type := S → Except E A × S

namespace Prog

open Relation (ReflTransGen)

variable {S E A B : Type}

instance : Monad (Prog S E) where
  pure a := fun s => (.ok a, s)
  bind m f := fun s =>
    match m s with
    | (.ok a, s') => f a s'
    | (.error e, s') => (.error e, s')

/-- Read the state. -/
def get : Prog S E S := fun s => (.ok s, s)

/-- Change the state. -/
def modify (f : S → S) : Prog S E Unit := fun s => (.ok (), f s)

/-- Stop with an error; the state stays as it is. -/
def throw (e : E) : Prog S E A := fun s => (.error e, s)

/-- A computation that does not touch the state. -/
def lift : Except E A → Prog S E A
  | .ok a => pure a
  | .error e => throw e

/-- Run `m`; if it fails, handle the error and go on. -/
def orElse (m : Prog S E Unit) (handle : E → S → S) : Prog S E Unit := fun s =>
  match m s with
  | (.ok _, s') => (.ok (), s')
  | (.error e, s') => (.ok (), handle e s')

/-- Run `m` if the condition holds. -/
def when (c : Prop) [Decidable c] (m : Prog S E Unit) : Prog S E Unit := if c then m else pure ()

/-- Run `m` and hand its outcome to the caller. -/
def attempt (m : Prog S E A) : Prog S E (Except E A) := fun s => (.ok (m s).1, (m s).2)

/-! ## Evaluation -/

@[simp] theorem pure_apply (a : A) (s : S) : (pure a : Prog S E A) s = (.ok a, s) := rfl

@[simp] theorem get_bind_apply (f : S → Prog S E B) (s : S) : (get >>= f) s = f s s := rfl

@[simp] theorem modify_bind_apply (g : S → S) (f : Unit → Prog S E B) (s : S) :
    (modify g >>= f) s = f () (g s) := rfl

@[simp] theorem modify_apply (g : S → S) (s : S) :
    (modify g : Prog S E Unit) s = (.ok (), g s) := rfl

@[simp] theorem throw_apply (e : E) (s : S) : (throw e : Prog S E A) s = (.error e, s) := rfl

/-- A program followed by another one, when the outcome of the first is known. -/
theorem bind_apply_ok {m : Prog S E A} {f : A → Prog S E B} {s s' : S} {a : A}
    (h : m s = (.ok a, s')) : (m >>= f) s = f a s' := by
  show (match m s with
    | (.ok a, s') => f a s'
    | (.error e, s') => (.error e, s')) = f a s'
  rw [h]

theorem bind_apply_error {m : Prog S E A} {f : A → Prog S E B} {s s' : S} {e : E}
    (h : m s = (.error e, s')) : (m >>= f) s = (.error e, s') := by
  show (match m s with
    | (.ok a, s') => f a s'
    | (.error e, s') => (.error e, s')) = (.error e, s')
  rw [h]

/-- A program that returns a result has returned one from each of its parts. -/
theorem bind_eq_ok {m : Prog S E A} {f : A → Prog S E B} {s t : S} {b : B} :
    (m >>= f) s = (.ok b, t) ↔ ∃ a s', m s = (.ok a, s') ∧ f a s' = (.ok b, t) := by
  constructor
  · intro h
    rcases hm : m s with ⟨x, s'⟩
    cases x with
    | ok a => exact ⟨a, s', rfl, (bind_apply_ok hm).symm.trans h⟩
    | error e =>
      rw [bind_apply_error hm] at h
      simp at h
  · rintro ⟨a, s', hm, hf⟩
    rw [bind_apply_ok hm, hf]

@[simp] theorem lift_ok_bind (a : A) (f : A → Prog S E B) : (lift (.ok a) >>= f) = f a := rfl

@[simp] theorem lift_error_bind_apply (e : E) (f : A → Prog S E B) (s : S) :
    (lift (.error e) >>= f) s = (.error e, s) := rfl

/-- What comes after a program and changes nothing. -/
theorem bind_pure_state (m : Prog S E A) (s : S) : ((m >>= fun _ => pure ()) s).2 = (m s).2 := by
  show (match m s with
    | (.ok _, s') => ((.ok () : Except E Unit), s')
    | (.error e, s') => (.error e, s')).2 = (m s).2
  rcases m s with ⟨_ | _, _⟩ <;> rfl

/-! ## Runs -/

/-- The run of `m` from `s` is a path of `r`-steps that ends in `Q`. -/
def Run (r : S → S → Prop) (m : Prog S E A) (s : S) (Q : Except E A → S → Prop) : Prop :=
  ReflTransGen r s (m s).2 ∧ Q (m s).1 (m s).2

variable {r : S → S → Prop} {s : S} {m : Prog S E A} {f : A → Prog S E B}
  {Q : Except E A → S → Prop} {Q' : Except E B → S → Prop}

theorem Run.path (h : Run r m s Q) : ReflTransGen r s (m s).2 := h.1

theorem Run.post (h : Run r m s Q) : Q (m s).1 (m s).2 := h.2

theorem Run.weaken {P : Except E A → S → Prop} (h : Run r m s Q)
    (himp : ∀ x s', ReflTransGen r s s' → Q x s' → P x s') : Run r m s P :=
  ⟨h.1, himp _ _ h.1 h.2⟩

/-- A run may keep the equation of its program. -/
theorem Run.self (h : Run r m s Q) : Run r m s fun x s' => Q x s' ∧ m s = (x, s') :=
  ⟨h.1, h.2, rfl⟩

theorem run_pure {a : A} (h : Q (.ok a) s) : Run r (pure a) s Q :=
  ⟨ReflTransGen.refl, h⟩

theorem run_throw {e : E} (h : Q (.error e) s) : Run r (throw e) s Q :=
  ⟨ReflTransGen.refl, h⟩

theorem run_modify {g : S → S} {Q : Except E Unit → S → Prop}
    (hr : ReflTransGen r s (g s)) (h : Q (.ok ()) (g s)) : Run r (modify g) s Q :=
  ⟨hr, h⟩

/-- **Sequencing.**  The second program starts where the first one ended, on the same path. -/
theorem run_bind (hm : Run r m s Q)
    (hok : ∀ a s', ReflTransGen r s s' → Q (.ok a) s' → Run r (f a) s' Q')
    (herr : ∀ e s', ReflTransGen r s s' → Q (.error e) s' → Q' (.error e) s') :
    Run r (m >>= f) s Q' := by
  obtain ⟨hpath, hq⟩ := hm
  show ReflTransGen r s ((m >>= f) s).2 ∧ Q' ((m >>= f) s).1 ((m >>= f) s).2
  have hb : (m >>= f) s = match m s with
    | (.ok a, s') => f a s'
    | (.error e, s') => (.error e, s') := rfl
  rw [hb]
  rcases hms : m s with ⟨x, s'⟩
  rw [hms] at hpath hq
  cases x with
  | ok a =>
    obtain ⟨hp, hq'⟩ := hok a s' hpath hq
    exact ⟨hpath.trans hp, hq'⟩
  | error e => exact ⟨hpath, herr e s' hpath hq⟩

/-- A first program that does not fail. -/
theorem run_seq {m : Prog S E Unit} {f : Unit → Prog S E B} {P : S → Prop}
    (hm : Run r m s fun x s' => x = .ok () ∧ P s')
    (hf : ∀ s', P s' → Run r (f ()) s' Q') : Run r (m >>= f) s Q' :=
  run_bind hm (fun _ s' _ h => hf s' h.2) fun _ _ _ h => absurd h.1 (by simp)

theorem run_get_bind {f : S → Prog S E B} (h : Run r (f s) s Q') : Run r (get >>= f) s Q' := h

theorem run_modify_bind {g : S → S} {f : Unit → Prog S E B}
    (hr : ReflTransGen r s (g s)) (h : Run r (f ()) (g s) Q') :
    Run r (modify g >>= f) s Q' :=
  ⟨hr.trans h.1, h.2⟩

/-- A prefix of the program that is one step of `r` although its single writes are not. -/
theorem run_of_eq {p : Prog S E A} {t : S} (heq : m s = p t)
    (hr : ReflTransGen r s t) (h : Run r p t Q) : Run r m s Q := by
  unfold Run at h ⊢
  rw [heq]
  exact ⟨hr.trans h.1, h.2⟩

theorem run_ite {c : Prop} [Decidable c] {m' : Prog S E A} (ht : c → Run r m s Q)
    (hf : ¬ c → Run r m' s Q) : Run r (if c then m else m') s Q := by
  split
  · exact ht ‹_›
  · exact hf ‹_›

theorem run_lift {x : Except E A} (h : Q x s) : Run r (lift x) s Q := by
  cases x with
  | ok a => exact run_pure h
  | error e => exact run_throw h

theorem run_orElse {m : Prog S E Unit} {handle : E → S → S} {Q : Except E Unit → S → Prop}
    {P : Except E Unit → S → Prop} (hm : Run r m s Q)
    (hok : ∀ s', ReflTransGen r s s' → Q (.ok ()) s' → P (.ok ()) s')
    (herr : ∀ e s', ReflTransGen r s s' → Q (.error e) s' →
      ReflTransGen r s' (handle e s') ∧ P (.ok ()) (handle e s')) :
    Run r (orElse m handle) s P := by
  obtain ⟨hpath, hq⟩ := hm
  show ReflTransGen r s (orElse m handle s).2 ∧ P (orElse m handle s).1 _
  unfold orElse
  rcases hms : m s with ⟨x, s'⟩
  rw [hms] at hpath hq
  cases x with
  | ok _ => exact ⟨hpath, hok s' hpath hq⟩
  | error e =>
    obtain ⟨hp, hP⟩ := herr e s' hpath hq
    exact ⟨hpath.trans hp, hP⟩

theorem run_attempt {P : Except E (Except E A) → S → Prop} (hm : Run r m s Q)
    (h : ∀ x s', ReflTransGen r s s' → Q x s' → P (.ok x) s') :
    Run r (attempt m) s P :=
  ⟨hm.1, h _ _ hm.1 hm.2⟩

/-- Running a `body` that never fails on each element of a list keeps what `body` keeps. -/
theorem run_forM {body : A → Prog S E Unit} {I : S → Prop} (l : List A)
    (hbody : ∀ a ∈ l, ∀ s, I s → Run r (body a) s fun x s' => x = .ok () ∧ I s') (hI : I s) :
    Run r (l.forM body) s fun x s' => x = .ok () ∧ I s' := by
  induction l generalizing s with
  | nil => exact run_pure ⟨rfl, hI⟩
  | cons a l ih =>
    refine run_seq (f := fun _ => l.forM body) (hbody a (List.mem_cons_self ..) s hI) fun s' hs' => ?_
    exact ih (fun b hb => hbody b (List.mem_cons_of_mem _ hb)) hs'

end Prog
