/-
  PROGRAMS THAT ASK, and whoever answers.

  An `Interaction` is a program that computes by itself and asks questions of a service; it says
  nothing about the service.  A HANDLER answers the questions, with a state of its own, and `run` lets
  the two work together.  So one program can be run against several services: an abstract one that the
  program is understood with, the real one, one that fails now and then.

  Three rules lift what is known about single answers to whole runs, each by one induction on the
  program:

  * `run_inv` — what no answer breaks, no run breaks.  If only some questions keep the invariant, it
    is enough that the program asks no others (`Asks`);
  * `run_simulate` — two services that answer alike, as long as their states are related, make the
    program do the same.  If they answer alike only under a condition, it must hold of the questions
    that are asked in this very run (`Meets`);
  * `run_bind` — the runs of a program's parts are put together.

  What is true of every result and of what has been seen of the answers, whoever answers, is `Ends`.

  A program that may fail is an `ExceptT` over interactions: what it throws ends it.  That it does not
  fail, and what then is true, is `Succeeds`, which has a rule for each way of putting programs together.
-/
import Mathlib.Logic.Basic

/-- A program that asks questions `r : R`, the answers of which are in `Ans r`. -/
inductive Interaction (R : Type) (Ans : R → Type) (A : Type) : Type
  | done (a : A)
  | ask (r : R) (next : Ans r → Interaction R Ans A)

namespace Interaction

variable {R : Type} {Ans : R → Type} {A B S T : Type}

def bind (m : Interaction R Ans A) (f : A → Interaction R Ans B) : Interaction R Ans B :=
  match m with
  | .done a => f a
  | .ask r next => .ask r fun answer => (next answer).bind f

instance : Monad (Interaction R Ans) where
  pure := .done
  bind := bind

/-- One question. -/
def query (r : R) : Interaction R Ans (Ans r) := .ask r .done

/-- A result that needs no question. -/
def ofExcept {E : Type} (result : Except E A) : ExceptT E (Interaction R Ans) A :=
  ExceptT.mk (pure result)

/-- What answers: the answer, and the state after it. -/
abbrev Handler (R : Type) (Ans : R → Type) (S : Type) := (r : R) → S → Ans r × S

def run (h : Handler R Ans S) : Interaction R Ans A → S → A × S
  | .done a, s => (a, s)
  | .ask r next, s => run h (next (h r s).1) (h r s).2

/-! ## Parts of a program -/

variable {E E' : Type}

section Run

variable (h : Handler R Ans S) (s : S)

@[simp] theorem run_pure (a : A) : run h (pure a : Interaction R Ans A) s = (a, s) := rfl

@[simp] theorem run_query (r : R) : run h (query r) s = h r s := rfl

@[simp] theorem run_bind (m : Interaction R Ans A) (f : A → Interaction R Ans B) :
    run h (m >>= f) s = run h (f (run h m s).1) (run h m s).2 := by
  induction m generalizing s with
  | done a => rfl
  | ask r next ih => exact ih _ _

/-! A program that may fail. -/

theorem run_bind_except (m : ExceptT E (Interaction R Ans) A)
    (f : A → ExceptT E (Interaction R Ans) B) :
    run h (m >>= f).run s = match run h m.run s with
      | (.ok a, s') => run h (f a).run s'
      | (.error e, s') => (.error e, s') := by
  have hbind : (m >>= f).run = m.run >>= ExceptT.bindCont f := rfl
  rw [hbind, run_bind]
  rcases run h m.run s with ⟨a | e, s'⟩ <;> rfl

/-- A program in two parts ends without an error if both do. -/
theorem run_bind_eq_ok {m : ExceptT E (Interaction R Ans) A}
    {f : A → ExceptT E (Interaction R Ans) B} {b : B} {s'' : S} :
    run h (m >>= f).run s = (.ok b, s'') ↔
      ∃ a s', run h m.run s = (.ok a, s') ∧ run h (f a).run s' = (.ok b, s'') := by
  rw [run_bind_except]
  rcases run h m.run s with ⟨e | a, s'⟩
  · simp
  · constructor
    · exact fun hf => ⟨a, s', rfl, hf⟩
    · rintro ⟨a', s'', hrun, hf⟩
      cases hrun
      exact hf

@[simp] theorem run_pure_except (a : A) :
    run h (pure a : ExceptT E (Interaction R Ans) A).run s = (.ok a, s) := rfl

@[simp] theorem run_throw (e : E) :
    run h (throw e : ExceptT E (Interaction R Ans) A).run s = (.error e, s) := rfl

@[simp] theorem run_ofExcept (result : Except E A) :
    run h (ofExcept result : ExceptT E (Interaction R Ans) A).run s = (result, s) := rfl

@[simp] theorem run_lift (m : Interaction R Ans A) :
    run h (liftM m : ExceptT E (Interaction R Ans) A).run s
      = (.ok (run h m s).1, (run h m s).2) := by
  have hlift : (liftM m : ExceptT E (Interaction R Ans) A).run = m >>= fun a => pure (.ok a) := rfl
  rw [hlift, run_bind]
  rfl

@[simp] theorem run_adapt (f : E → E') (m : ExceptT E (Interaction R Ans) A) :
    run h (m.adapt f).run s = ((run h m.run s).1.mapError f, (run h m.run s).2) := by
  have hadapt : (m.adapt f).run = m.run >>= fun result => pure (result.mapError f) := rfl
  rw [hadapt, run_bind]
  rfl

end Run

/-! ## Success -/

/-- The program ends without an error, and this is true then. -/
def Succeeds {E : Type} (h : Handler R Ans S) (m : ExceptT E (Interaction R Ans) A) (s : S)
    (Q : A → S → Prop) : Prop :=
  ∃ a s', run h m.run s = (.ok a, s') ∧ Q a s'

section Success

variable {h : Handler R Ans S} {s : S} {Q : A → S → Prop} {Q' : B → S → Prop}
  {f : A → ExceptT E (Interaction R Ans) B}

theorem succeeds_pure {a : A} (ha : Q a s) :
    Succeeds h (pure a : ExceptT E (Interaction R Ans) A) s Q :=
  ⟨a, s, rfl, ha⟩

theorem succeeds_ofExcept {result : Except E A} {a : A} (ha : result = .ok a) (hpost : Q a s) :
    Succeeds h (ofExcept result : ExceptT E (Interaction R Ans) A) s Q :=
  ⟨a, s, by rw [run_ofExcept, ha], hpost⟩

theorem succeeds_lift {m : Interaction R Ans A} (hpost : Q (run h m s).1 (run h m s).2) :
    Succeeds h (liftM m : ExceptT E (Interaction R Ans) A) s Q :=
  ⟨_, _, run_lift h s m, hpost⟩

theorem Succeeds.bind {m : ExceptT E (Interaction R Ans) A}
    (hm : Succeeds h m s Q) (hf : ∀ a s', Q a s' → Succeeds h (f a) s' Q') :
    Succeeds h (m >>= f) s Q' := by
  obtain ⟨a, s', hrun, ha⟩ := hm
  obtain ⟨b, s'', hrun', hb⟩ := hf a s' ha
  refine ⟨b, s'', ?_, hb⟩
  rw [run_bind_except, hrun]
  exact hrun'

/-- What asks first, and then goes on. -/
theorem succeeds_bind_lift {m : Interaction R Ans A}
    (hf : Succeeds h (f (run h m s).1) (run h m s).2 Q') :
    Succeeds h (liftM m >>= f) s Q' :=
  (succeeds_lift (Q := fun a s' => a = (run h m s).1 ∧ s' = (run h m s).2) ⟨rfl, rfl⟩).bind
    fun _ _ ha => by rw [ha.1, ha.2]; exact hf

theorem succeeds_bind_ofExcept {result : Except E A} {a : A}
    (ha : result = .ok a) (hf : Succeeds h (f a) s Q') :
    Succeeds h (ofExcept result >>= f) s Q' :=
  (succeeds_ofExcept (Q := fun a' s' => a' = a ∧ s' = s) ha ⟨rfl, rfl⟩).bind
    fun _ _ hs => by rw [hs.1, hs.2]; exact hf

end Success

/-! ## Invariants -/

/-- The program asks only questions in `P`, whatever the answers. -/
def Asks (P : R → Prop) : Interaction R Ans A → Prop
  | .done _ => True
  | .ask r next => P r ∧ ∀ answer, (next answer).Asks P

section Asks

variable {P : R → Prop} {m m' : Interaction R Ans A}

theorem asks_pure (a : A) : (pure a : Interaction R Ans A).Asks P := trivial

theorem asks_query {r : R} (h : P r) : (query r : Interaction R Ans (Ans r)).Asks P :=
  ⟨h, fun _ => trivial⟩

theorem Asks.bind {f : A → Interaction R Ans B} (hm : m.Asks P) (hf : ∀ a, (f a).Asks P) :
    (m >>= f).Asks P := by
  induction m with
  | done a => exact hf a
  | ask r next ih => exact ⟨hm.1, fun answer => ih answer (hm.2 answer)⟩

theorem Asks.ite {c : Prop} [Decidable c] (h : m.Asks P) (h' : m'.Asks P) :
    (if c then m else m').Asks P := by
  split
  · exact h
  · exact h'

theorem Asks.bind_except {m : ExceptT E (Interaction R Ans) A}
    {f : A → ExceptT E (Interaction R Ans) B} (hm : m.run.Asks P) (hf : ∀ a, (f a).run.Asks P) :
    (m >>= f).run.Asks P := by
  have hbind : (m >>= f).run = m.run >>= ExceptT.bindCont f := rfl
  rw [hbind]
  refine Asks.bind hm fun result => ?_
  cases result with
  | ok a => exact hf a
  | error e => exact asks_pure _

theorem asks_ofExcept (result : Except E A) :
    (ofExcept result : ExceptT E (Interaction R Ans) A).run.Asks P := trivial

theorem Asks.adapt {f : E → E'} {m : ExceptT E (Interaction R Ans) A} (hm : m.run.Asks P) : (m.adapt f).run.Asks P :=
  Asks.bind hm fun _ => asks_pure _

theorem asks_lift (hm : m.Asks P) :
    (liftM m : ExceptT E (Interaction R Ans) A).run.Asks P :=
  Asks.bind hm fun _ => asks_pure _

theorem Asks.mono {Q : R → Prop} (h : m.Asks P) (hpq : ∀ r, P r → Q r) : m.Asks Q := by
  induction m with
  | done a => trivial
  | ask r next ih => exact ⟨hpq r h.1, fun answer => ih answer (h.2 answer)⟩

/-- **Invariants.**  What the questions of the program keep, its run keeps. -/
theorem run_inv {h : Handler R Ans S} {I : S → Prop} (hstep : ∀ r s, P r → I s → I (h r s).2)
    (hm : m.Asks P) {s : S} (hs : I s) : I (run h m s).2 := by
  induction m generalizing s with
  | done a => exact hs
  | ask r next ih => exact ih _ (hm.2 _) (hstep r s hm.1 hs)

end Asks

/-! ## Results -/

section Ends

variable {O : Type} {see : (r : R) → Ans r → O → O} {Q : O → A → Prop} {Q' : O → B → Prop}
  {m : Interaction R Ans A} {f : A → Interaction R Ans B} {o : O}

/-- Who answers, and what is seen of the answers. -/
def watch (see : (r : R) → Ans r → O → O) (h : Handler R Ans S) : Handler R Ans (S × O) :=
  fun r s => ((h r s.1).1, (h r s.1).2, see r (h r s.1).1 s.2)

/-- Every result of the program is in `Q` together with what has been seen, whatever the answers. -/
def Ends (see : (r : R) → Ans r → O → O) (Q : O → A → Prop) : Interaction R Ans A → O → Prop
  | .done a, o => Q o a
  | .ask r next, o => ∀ answer, (next answer).Ends see Q (see r answer o)

theorem ends_query {r : R} {f : Ans r → Interaction R Ans B}
    (hf : ∀ answer, (f answer).Ends see Q' (see r answer o)) : (query r >>= f).Ends see Q' o := hf

theorem Ends.bind (hm : m.Ends see Q o) (hf : ∀ o a, Q o a → (f a).Ends see Q' o) :
    (m >>= f).Ends see Q' o := by
  induction m generalizing o with
  | done a => exact hf o a hm
  | ask r next ih => exact fun answer => ih answer (hm answer)

/-- A program of whose first part nothing is seen. -/
theorem Asks.ends_bind (hm : m.Asks fun r => ∀ answer o, see r answer o = o)
    (hf : ∀ a, (f a).Ends see Q' o) : (m >>= f).Ends see Q' o := by
  induction m with
  | done a => exact hf a
  | ask r next ih =>
    intro answer
    rw [hm.1]
    exact ih answer (hm.2 answer)

/-- If it does not matter what has been seen, it does not matter what is asked first. -/
theorem ends_bind (hf : ∀ a o, (f a).Ends see Q' o) : (m >>= f).Ends see Q' o := by
  induction m generalizing o with
  | done a => exact hf a o
  | ask r next ih => exact fun answer => ih answer

theorem Ends.run (hm : m.Ends see Q o) (h : Handler R Ans S) (s : S) :
    Q (run (watch see h) m (s, o)).2.2 (run h m s).1 := by
  induction m generalizing s o with
  | done a => exact hm
  | ask r next ih => exact ih _ (hm _) _

end Ends

/-! ## Simulation -/

/-- Every question that is asked in this run meets the condition in the state it is asked in. -/
def Meets (h : Handler R Ans S) (P : R → S → Prop) : Interaction R Ans A → S → Prop
  | .done _, _ => True
  | .ask r next, s => P r s ∧ Meets h P (next (h r s).1) (h r s).2

theorem Asks.meets {h : Handler R Ans S} {P : R → Prop} {Q : R → S → Prop} {m : Interaction R Ans A}
    (hm : m.Asks P) {s : S} (hQ : Meets h Q m s) : Meets h (fun r s => P r ∧ Q r s) m s := by
  induction m generalizing s with
  | done a => trivial
  | ask r next ih => exact ⟨⟨hm.1, hQ.1⟩, ih _ (hm.2 _) hQ.2⟩

/-- **Simulation.**  Related services that answer alike run the program alike, and stay related. -/
theorem run_simulate {h : Handler R Ans S} {g : Handler R Ans T} {Rel : S → T → Prop}
    {P : R → S → Prop}
    (hstep : ∀ r s t, Rel s t → P r s → (h r s).1 = (g r t).1 ∧ Rel (h r s).2 (g r t).2)
    {m : Interaction R Ans A} {s : S} {t : T} (hrel : Rel s t) (hm : Meets h P m s) :
    (run h m s).1 = (run g m t).1 ∧ Rel (run h m s).2 (run g m t).2 := by
  induction m generalizing s t with
  | done a => exact ⟨rfl, hrel⟩
  | ask r next ih =>
    obtain ⟨hsame, hnext⟩ := hstep r s t hrel hm.1
    have hih := ih (h r s).1 hnext hm.2
    rw [hsame] at hih
    show (run h (next (h r s).1) _).1 = _ ∧ Rel (run h (next (h r s).1) _).2 _
    rw [hsame]
    exact hih

end Interaction
