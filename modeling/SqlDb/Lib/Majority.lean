/-
  MAJORITIES of a fixed list of voters, and the median that finds them.

  A leader commits with `(n - 1) / 2 + 1` confirmations and is elected with `n / 2 + 1` votes.  For
  an even number of voters the first is SMALLER than a strict majority; the two still meet, which is
  all `Quorums` asks.  `le_median_iff` reads a decreasingly sorted list of numbers: its element at
  `(n - 1) / 2` is at least `k` exactly when a commit quorum of the numbers is.
-/
import SqlDb.Lib.EpochLog
import Mathlib.Data.List.Sort
import Mathlib.Data.List.GetD
import Mathlib.Data.Finset.Card

namespace EpochLog

open List

/-! ## Counting voters -/

section Majority

variable {N : Type}

/-- At least `c` different voters satisfy `P`. -/
def AtLeast (peers : List N) (c : Nat) (P : N → Prop) : Prop :=
  ∃ l : List N, l.Nodup ∧ (∀ q ∈ l, q ∈ peers ∧ P q) ∧ c ≤ l.length

theorem AtLeast.mono {peers : List N} {c : Nat} {A B : N → Prop} (h : ∀ n, A n → B n)
    (ha : AtLeast peers c A) : AtLeast peers c B := by
  obtain ⟨l, hnd, hl, hc⟩ := ha
  exact ⟨l, hnd, fun q hq => ⟨(hl q hq).1, h q (hl q hq).2⟩, hc⟩

/-- The pigeonhole principle: two sets of voters that together outnumber them share one. -/
theorem AtLeast.meet [DecidableEq N] {peers : List N} {c d : Nat} {A B : N → Prop}
    (ha : AtLeast peers c A) (hb : AtLeast peers d B) (hcd : peers.length < c + d) :
    ∃ n, A n ∧ B n := by
  obtain ⟨l, hl, hlA, hlc⟩ := ha
  obtain ⟨m, hm, hmB, hmd⟩ := hb
  have hsubl : l.toFinset ⊆ peers.toFinset := fun q hq =>
    mem_toFinset.mpr (hlA q (mem_toFinset.mp hq)).1
  have hsubm : m.toFinset ⊆ peers.toFinset := fun q hq =>
    mem_toFinset.mpr (hmB q (mem_toFinset.mp hq)).1
  have hcard : peers.toFinset.card < l.toFinset.card + m.toFinset.card := by
    rw [toFinset_card_of_nodup hl, toFinset_card_of_nodup hm]
    have := toFinset_card_le peers
    omega
  obtain ⟨q, hq⟩ := Finset.inter_nonempty_of_card_lt_card_add_card hsubl hsubm hcard
  rw [Finset.mem_inter, mem_toFinset, mem_toFinset] at hq
  exact ⟨q, (hlA q hq.1).2, (hmB q hq.2).2⟩

/-- The quorums of a group of voters. -/
def majorities [DecidableEq N] (peers : List N) : Quorums N where
  commit := AtLeast peers ((peers.length - 1) / 2 + 1)
  vote := AtLeast peers (peers.length / 2 + 1)
  commit_mono := AtLeast.mono
  meet := fun ha hb => ha.meet hb (by omega)
  vote_meet := fun ha hb => ha.meet hb (by omega)

theorem atLeast_filter {peers : List N} (hnd : peers.Nodup) {c : Nat} (p : N → Bool)
    (h : c ≤ (peers.filter p).length) : AtLeast peers c fun q => p q = true :=
  ⟨peers.filter p, hnd.filter p,
    fun _ hq => ⟨(mem_filter.mp hq).1, (mem_filter.mp hq).2⟩, h⟩

theorem AtLeast.le_filter {peers : List N} {c : Nat} {P : N → Prop} {p : N → Bool}
    (h : AtLeast peers c P) (hp : ∀ q ∈ peers, P q → p q = true) :
    c ≤ (peers.filter p).length := by
  obtain ⟨l, hnd, hl, hc⟩ := h
  have hsub : l ⊆ peers.filter p := fun q hq =>
    mem_filter.mpr ⟨(hl q hq).1, hp q (hl q hq).1 (hl q hq).2⟩
  exact hc.trans (subperm_of_subset hnd hsub).length_le

theorem atLeast_perm {peers peers' : List N} (hp : peers.Perm peers') {c : Nat} {P : N → Prop}
    (h : AtLeast peers c P) : AtLeast peers' c P := by
  obtain ⟨l, hnd, hl, hc⟩ := h
  exact ⟨l, hnd, fun q hq => ⟨hp.subset (hl q hq).1, (hl q hq).2⟩, hc⟩

end Majority

/-! ## The median -/

section Median

/-- In a decreasing list, the element at `i` is at least `k` exactly when more than `i` are. -/
theorem le_getElem_iff_countP {s : List Nat} (hs : s.Pairwise (· ≥ ·)) {i k : Nat}
    (hi : i < s.length) : k ≤ s[i] ↔ i + 1 ≤ s.countP (k ≤ ·) := by
  induction s generalizing i with
  | nil => simp at hi
  | cons a s ih =>
    rw [pairwise_cons] at hs
    by_cases ha : k ≤ a
    · rw [countP_cons_of_pos (by simpa using ha)]
      cases i with
      | zero => simp [ha]
      | succ i =>
        rw [getElem_cons_succ, ih hs.2 (by simpa using hi)]
        omega
    · -- the list is decreasing, so nothing after `a` reaches `k` either
      have hnone : ∀ b ∈ a :: s, ¬ k ≤ b := by
        intro b hb
        rcases mem_cons.mp hb with rfl | hb
        · exact ha
        · have := hs.1 b hb
          omega
      have hz : (a :: s).countP (k ≤ ·) = 0 := by
        rw [countP_eq_zero]
        intro b hb
        simpa using hnone b hb
      rw [hz]
      constructor
      · intro h
        exact absurd h (hnone _ (getElem_mem hi))
      · omega

/-- The median of a list is at least `k` exactly when `(n - 1) / 2 + 1` of its elements are. -/
theorem le_median_iff {l : List Nat} (hl : l ≠ []) {k : Nat} :
    k ≤ (l.insertionSort (· ≥ ·)).getD (((l.insertionSort (· ≥ ·)).length - 1) / 2) 0 ↔
      (l.length - 1) / 2 + 1 ≤ l.countP (k ≤ ·) := by
  have hperm := perm_insertionSort (· ≥ ·) l
  have hlen : (l.insertionSort (· ≥ ·)).length = l.length := hperm.length_eq
  have hpos : 0 < l.length := length_pos_iff.mpr hl
  have hi : (l.length - 1) / 2 < (l.insertionSort (· ≥ ·)).length := by omega
  rw [hlen, getD_eq_getElem _ 0 hi,
    le_getElem_iff_countP (pairwise_insertionSort (· ≥ ·) l) hi, hperm.countP_eq]

end Median

end EpochLog
