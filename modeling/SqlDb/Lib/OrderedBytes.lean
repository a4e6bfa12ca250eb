/-
  BYTE STRINGS IN ORDER.

  Byte strings are compared lexicographically, bytes as unsigned numbers.  Two ways to write data so
  that this order is the order of the data:

    * numbers of a fixed width, most significant byte first (`bigEndian_lt_iff`), signed ones with
      their top bit flipped (`xor_top_bit`);
    * strings, with their zero bytes escaped and a zero byte at the end (`escape_lt_iff`).  Here the
      string may be over any alphabet with a least letter `z`; which letter marks the escape does not
      matter for the order, and the strings so written are exactly those that can be read back
      (`unescape_eq_some`).

  `k ++ [0]` is the least string above `k` (`lt_iff_not_lt_succ`), so "at most `k`" and "below
  `k ++ [0]`" are the same.
-/
import SqlDb.Lib.Codec
import Mathlib.Order.Defs.Unbundled
import Mathlib.Order.RelClasses

instance bytesOrder : IsStrictTotalOrder (List UInt8) (· < ·) where
  irrefl := List.lt_irrefl
  trans := fun _ _ _ => List.lt_trans
  trichotomous := Std.Trichotomous.trichotomous

namespace OrderedBytes

open List

/-! ## Lexicographic order -/

section Lex

variable {A : Type} [LT A] [Std.Irrefl (α := A) (· < ·)]

@[simp] theorem cons_lt_cons_self (a : A) (s t : List A) : a :: s < a :: t ↔ s < t := by
  rw [cons_lt_cons_iff]
  constructor
  · rintro (h | ⟨-, h⟩)
    · exact absurd h (Std.Irrefl.irrefl a)
    · exact h
  · exact fun h => Or.inr ⟨rfl, h⟩

theorem append_lt_append_left (p s t : List A) : p ++ s < p ++ t ↔ s < t := by
  induction p with
  | nil => exact Iff.rfl
  | cons a p ih => rw [cons_append, cons_append, cons_lt_cons_self, ih]

end Lex

/-! ## Numbers -/

theorem bigEndian_lt_iff (w m n : Nat) :
    Codec.bigEndian w m < Codec.bigEndian w n ↔ m % 256 ^ w < n % 256 ^ w := by
  induction w with
  | zero => simp [Codec.bigEndian, Nat.mod_one]
  | succ w ih =>
    have hsplit : ∀ k, k % 256 ^ (w + 1) = k / 256 ^ w % 256 * 256 ^ w + k % 256 ^ w := by
      intro k
      rw [Nat.pow_succ, Nat.mod_mul, Nat.mul_comm (256 ^ w), Nat.add_comm]
    have hdigit : ∀ k, (UInt8.ofNat (k / 256 ^ w)).toNat = k / 256 ^ w % 256 := by simp
    have hm := Nat.mod_lt m (Nat.pow_pos (n := w) (show 0 < 256 by decide))
    have hn := Nat.mod_lt n (Nat.pow_pos (n := w) (show 0 < 256 by decide))
    rw [Codec.bigEndian, Codec.bigEndian, cons_lt_cons_iff, ih, UInt8.lt_iff_toNat_lt,
      ← UInt8.toNat_inj, hdigit, hdigit, hsplit m, hsplit n]
    generalize m / 256 ^ w % 256 = a, n / 256 ^ w % 256 = b, m % 256 ^ w = c, n % 256 ^ w = d
      at *
    generalize 256 ^ w = p at *
    -- the leading digit decides, and the rest does where the leading digits are equal
    constructor
    · rintro (h | ⟨rfl, h⟩)
      · have := Nat.mul_le_mul_right p (Nat.succ_le_of_lt h)
        rw [Nat.succ_mul] at this
        omega
      · omega
    · intro h
      rcases Nat.lt_trichotomy a b with hab | hab | hab
      · exact Or.inl hab
      · subst hab
        exact Or.inr ⟨rfl, by omega⟩
      · have := Nat.mul_le_mul_right p (Nat.succ_le_of_lt hab)
        rw [Nat.succ_mul] at this
        omega

/-- Flipping the top bit of a number of `w + 1` bits moves the upper half below the lower one. -/
theorem xor_top_bit {w n : Nat} (h : n < 2 ^ (w + 1)) :
    n ^^^ 2 ^ w = (n + 2 ^ w) % 2 ^ (w + 1) := by
  have hpos := Nat.two_pow_pos w
  have hdiv : (n ^^^ 2 ^ w) / 2 ^ w = n / 2 ^ w ^^^ 1 := by
    rw [Nat.xor_div_two_pow, Nat.div_self hpos]
  have hmod : (n ^^^ 2 ^ w) % 2 ^ w = n % 2 ^ w := by
    rw [Nat.xor_mod_two_pow, Nat.mod_self, Nat.xor_zero]
  have hx := Nat.div_add_mod (n ^^^ 2 ^ w) (2 ^ w)
  have hn := Nat.div_add_mod n (2 ^ w)
  have hr := Nat.mod_lt n hpos
  rw [hdiv, hmod] at hx
  rw [Nat.pow_succ] at h ⊢
  have hq : n / 2 ^ w < 2 := Nat.div_lt_of_lt_mul h
  generalize n ^^^ 2 ^ w = x at *
  generalize 2 ^ w = p at *
  generalize n / p = q at *
  obtain rfl | rfl : q = 0 ∨ q = 1 := by omega
  · rw [show 0 ^^^ 1 = 1 from rfl, Nat.mul_one] at hx
    rw [Nat.mul_zero] at hn
    rw [Nat.mod_eq_of_lt (by omega)]
    omega
  · rw [show 1 ^^^ 1 = 0 from rfl, Nat.mul_zero] at hx
    rw [Nat.mul_one] at hn
    rw [Nat.mod_eq_sub_mod (by omega), Nat.mod_eq_of_lt (by omega)]
    omega

/-! ## Strings -/

section Escape

variable {A : Type} [DecidableEq A]

/-- Every letter `z` becomes `z, f`, and a `z` ends the string. -/
def escape (z f : A) : List A → List A
  | [] => [z]
  | c :: s => if c = z then z :: f :: escape z f s else c :: escape z f s

/-- Undo `escape`: a `z` must be followed by `f`, or be the last letter. -/
def unescape (z f : A) : List A → Option (List A)
  | [] => none
  | c :: rest =>
    if c ≠ z then (unescape z f rest).map (c :: ·)
    else
      match rest with
      | [] => some []
      | d :: rest => if d = f then (unescape z f rest).map (z :: ·) else none

/-- **Exactly the escaped strings can be read back.** -/
theorem unescape_eq_some {z f : A} {k s : List A} : unescape z f k = some s ↔ k = escape z f s := by
  constructor
  · intro h
    fun_induction unescape z f k generalizing s with
    | case1 => simp at h
    | case2 c rest hc ih =>
      obtain ⟨s, hs, rfl⟩ := Option.map_eq_some_iff.mp h
      rw [escape, if_neg hc, ← ih hs]
    | case3 c hc =>
      cases h
      rw [not_ne_iff.mp hc]
      rfl
    | case4 c hc rest ih =>
      obtain ⟨s, hs, rfl⟩ := Option.map_eq_some_iff.mp h
      rw [escape, if_pos rfl, ← ih hs, not_ne_iff.mp hc]
    | case5 => simp at h
  · rintro rfl
    induction s with
    | nil => simp [escape, unescape]
    | cons c s ih =>
      by_cases hc : c = z
      · simp [escape, unescape, hc, ih]
      · rw [escape, if_neg hc, unescape.eq_def]
        simp only [ne_eq, hc, not_false_eq_true, if_true, ih]
        rfl

theorem length_escape (z f : A) (s : List A) : (escape z f s).length ≤ 2 * s.length + 1 := by
  induction s with
  | nil => simp [escape]
  | cons c s ih =>
    simp only [escape]
    split <;> simp only [length_cons] <;> omega

/-- An escaped string that goes on past another one goes on with `f`. -/
theorem escape_append_cons {z f a : A} {s t rest : List A}
    (h : escape z f s ++ a :: rest = escape z f t) : a = f := by
  induction s generalizing t with
  | nil =>
    cases t with
    | nil => simp [escape] at h
    | cons d t =>
      simp only [escape, singleton_append] at h
      split_ifs at h with hd
      · exact (List.cons.inj (List.cons.inj h).2).1
      · exact absurd (List.cons.inj h).1.symm hd
  | cons c s ih =>
    cases t with
    | nil =>
      -- `escape` of the empty string has one letter
      have hlen := congrArg List.length h
      simp only [escape, length_append, length_cons, length_nil] at hlen
      split at hlen <;> simp only [length_cons] at hlen <;> omega
    | cons d t =>
      simp only [escape] at h
      by_cases hc : c = z
      · rw [if_pos hc] at h
        by_cases hd : d = z
        · rw [if_pos hd] at h
          exact ih (List.cons.inj (List.cons.inj h).2).2
        · rw [if_neg hd] at h
          exact absurd (List.cons.inj h).1.symm hd
      · rw [if_neg hc] at h
        by_cases hd : d = z
        · rw [if_pos hd] at h
          exact absurd (List.cons.inj h).1 hc
        · rw [if_neg hd] at h
          exact ih (List.cons.inj h).2

variable [LT A] [IsStrictTotalOrder A (· < ·)]

theorem escape_lt_iff {z : A} (hz : ∀ c, ¬ c < z) (f : A) (s t : List A) :
    escape z f s < escape z f t ↔ s < t := by
  have habove : ∀ c, c ≠ z → z < c := fun c hc =>
    (trichotomous_of (fun a b : A => a < b) z c).resolve_right
      fun h => h.elim (fun h => hc h.symm) (hz c)
  induction s generalizing t with
  | nil =>
    cases t with
    | nil => simp [escape]
    | cons d t =>
      simp only [escape]
      split_ifs with hd
      · simp
      · simp [cons_lt_cons_iff, habove d hd]
  | cons c s ih =>
    cases t with
    | nil =>
      simp only [escape]
      split_ifs with hc
      · simp
      · simp [cons_lt_cons_iff, hz c, hc]
    | cons d t =>
      simp only [escape]
      split
      · rename_i hc
        subst hc
        split_ifs with hd
        · subst hd
          simp [ih]
        · simp [cons_lt_cons_iff, habove d hd]
      · rename_i hc
        split_ifs with hd
        · subst hd
          simp [cons_lt_cons_iff, hz c, hc]
        · simp only [cons_lt_cons_iff, ih]

end Escape

/-! ## The next string -/

theorem lt_append (k s : List UInt8) (hs : s ≠ []) : k < k ++ s := by
  cases s with
  | nil => exact absurd rfl hs
  | cons b s =>
    have h := (append_lt_append_left k [] (b :: s)).mpr (nil_lt_cons b s)
    rwa [append_nil] at h

/-- Nothing lies between a string and the string with a zero byte appended. -/
theorem lt_iff_not_lt_succ (k w : List UInt8) : k < w ↔ ¬ w < k ++ [0] := by
  constructor
  · intro h
    induction k generalizing w with
    | nil =>
      cases w with
      | nil => simp at h
      | cons b w => simp [cons_lt_cons_iff]
    | cons a k ih =>
      cases w with
      | nil => simp at h
      | cons b w =>
        rw [cons_append, cons_lt_cons_iff]
        rcases cons_lt_cons_iff.mp h with hab | ⟨rfl, hkw⟩
        · rintro (hba | ⟨rfl, -⟩)
          · exact absurd hab (Nat.lt_asymm hba)
          · exact Nat.lt_irrefl _ hab
        · rintro (hba | ⟨-, hlt⟩)
          · exact Nat.lt_irrefl _ hba
          · exact ih w hkw hlt
  · intro h
    by_contra hkw
    rcases trichotomous_of (fun s t : List UInt8 => s < t) k w with hlt | rfl | hlt
    · exact hkw hlt
    · exact h (lt_append k [0] (by simp))
    · exact h (List.lt_trans hlt (lt_append k [0] (by simp)))

end OrderedBytes
