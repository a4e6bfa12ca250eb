/-
  A FLAT KEY SPACE THAT SEVERAL OWNERS SHARE.

  The keys of an owner are those that start with the owner's prefix.  Two questions decide whether the
  owners are apart:

  * no prefix may be the beginning of another one.  An encoding with this property is a PREFIX CODE:
    it can be followed by anything and is still read off in one way (`PrefixCode.append_inj`), and
    prefix codes can be put one after the other (`PrefixCode.pair`).  A length in front makes a prefix
    code of any strings (`prefixCode_lengthPrefixed`);
  * the keys of a prefix have to be one interval of the order, for they are scanned and deleted as one.
    The interval ends where the prefix, counted up as a number is, begins (`mem_prefixEnd_iff`).
-/
import SqlDb.Lib.OrderedBytes

namespace KeySpace

open List

/-! ## Prefix codes -/

section Codes

variable {A B L : Type}

/-- No code is the beginning of another one. -/
def PrefixCode (enc : A → List L) : Prop := ∀ a b, enc a <+: enc b → a = b

/-- What follows a code does not matter for reading it. -/
theorem PrefixCode.append_inj {enc : A → List L} (h : PrefixCode enc) {a b : A} {s t : List L}
    (heq : enc a ++ s = enc b ++ t) : a = b ∧ s = t := by
  have hab : a = b := by
    rcases prefix_or_prefix_of_prefix (prefix_append (enc a) s)
      (heq ▸ prefix_append (enc b) t) with hpre | hpre
    · exact h a b hpre
    · exact (h b a hpre).symm
  subst hab
  exact ⟨rfl, append_cancel_left heq⟩

theorem PrefixCode.prefix_append_iff {enc : A → List L} (h : PrefixCode enc) {a b : A}
    {s t : List L} : enc a ++ s <+: enc b ++ t ↔ a = b ∧ s <+: t := by
  constructor
  · rintro ⟨r, hr⟩
    rw [append_assoc] at hr
    obtain ⟨hab, hst⟩ := h.append_inj hr
    exact ⟨hab, r, hst⟩
  · rintro ⟨rfl, r, hr⟩
    exact ⟨r, by rw [append_assoc, hr]⟩

/-- Up to the first separator two strings are the same. -/
theorem append_cons_inj {sep : L} {u v x y : List L} (hu : sep ∉ u) (hv : sep ∉ v)
    (h : u ++ sep :: x = v ++ sep :: y) : u = v ∧ x = y := by
  induction u generalizing v with
  | nil =>
    cases v with
    | nil => exact ⟨rfl, (List.cons.inj h).2⟩
    | cons c v =>
      rw [(List.cons.inj h).1] at hv
      exact absurd (mem_cons_self ..) hv
  | cons c u ih =>
    rw [mem_cons, not_or] at hu
    cases v with
    | nil => exact absurd (List.cons.inj h).1.symm hu.1
    | cons d v =>
      rw [mem_cons, not_or] at hv
      obtain ⟨hcd, hrest⟩ := List.cons.inj h
      obtain ⟨huv, hxy⟩ := ih hu.2 hv.2 hrest
      exact ⟨by rw [hcd, huv], hxy⟩

/-- **A length in front.**  The numerals need not have a fixed width if none has the separator. -/
theorem prefixCode_lengthPrefixed {numeral : Nat → List L} {sep : L}
    (hinj : ∀ m n, numeral m = numeral n → m = n) (hsep : ∀ n, sep ∉ numeral n) :
    PrefixCode fun s : List L => numeral s.length ++ sep :: s := by
  rintro s t ⟨r, hr⟩
  dsimp only at hr
  rw [append_assoc, cons_append] at hr
  obtain ⟨hlen, hst⟩ := append_cons_inj (hsep _) (hsep _) hr
  have hfits : s ++ r = t ++ [] := by rw [hst, append_nil]
  exact (append_inj hfits (hinj _ _ hlen)).1

end Codes

/-! ## The interval of a prefix -/

/-- Where the keys of a prefix end: its last byte is counted up, after bytes that cannot be.  Empty if
    there is no end. -/
def prefixEnd (p : List UInt8) : List UInt8 :=
  match p.reverse.dropWhile (· = 0xFF) with
  | [] => []
  | c :: rest => ((c + 1) :: rest).reverse

theorem prefixEnd_cons (a : UInt8) (p : List UInt8) : prefixEnd (a :: p) =
    if prefixEnd p = [] then if a = 0xFF then [] else [a + 1] else a :: prefixEnd p := by
  unfold prefixEnd
  rw [reverse_cons, dropWhile_append]
  cases p.reverse.dropWhile (· = 0xFF) with
  | nil =>
    by_cases ha : a = 0xFF
    · simp [ha]
    · simp [ha]
  | cons c rest => simp

theorem prefixEnd_append_singleton {c : UInt8} (hc : c ≠ 0xFF) (p : List UInt8) :
    prefixEnd (p ++ [c]) = p ++ [c + 1] := by
  simp [prefixEnd, hc]

/-- **The keys of a prefix are one interval.** -/
theorem mem_prefixEnd_iff (p k : List UInt8) :
    (¬ k < p ∧ (prefixEnd p = [] ∨ k < prefixEnd p)) ↔ p <+: k := by
  induction p generalizing k with
  | nil => simp [prefixEnd]
  | cons a p ih =>
    cases k with
    | nil => simp
    | cons b k =>
      have hb := b.toNat_lt
      rw [prefixEnd_cons, cons_prefix_cons, ← ih]
      by_cases hend : prefixEnd p = []
      · rw [if_pos hend]
        by_cases ha : a = 0xFF
        · -- no byte is above the first one
          rw [if_pos ha]
          simp only [cons_lt_cons_iff, UInt8.lt_iff_toNat_lt, ← UInt8.toNat_inj] at ha ⊢
          grind
        · have hup : (a + 1).toNat = a.toNat + 1 := by
            rw [← UInt8.toNat_inj] at ha
            have := a.toNat_lt
            simp [UInt8.toNat_add] at ha ⊢
            omega
          have hnil : ¬ k < [] := not_lt_nil k
          rw [if_neg ha]
          simp only [cons_lt_cons_iff, UInt8.lt_iff_toNat_lt, ← UInt8.toNat_inj, hup, hnil]
          grind
      · rw [if_neg hend]
        simp only [cons_lt_cons_iff, UInt8.lt_iff_toNat_lt, ← UInt8.toNat_inj]
        grind

/-- Between two keys of a prefix there are no others. -/
theorem prefix_of_between {p a b k : List UInt8} (hlow : ¬ k < p ++ a) (hhigh : k < p ++ b) :
    p <+: k := by
  induction p generalizing k with
  | nil => exact nil_prefix
  | cons c p ih =>
    cases k with
    | nil => exact absurd (nil_lt_cons c (p ++ a)) hlow
    | cons d k =>
      rw [cons_append, cons_lt_cons_iff, not_or, not_and] at hlow
      rw [cons_append, cons_lt_cons_iff] at hhigh
      rcases hhigh with hlt | ⟨rfl, hhigh⟩
      · exact absurd hlt hlow.1
      · exact cons_prefix_cons.mpr ⟨rfl, ih (hlow.2 rfl) hhigh⟩

end KeySpace
