/-
  SORTING BY A COMPARATOR, AND KEEPING THE BEST.

  A comparator `less` need not order a whole type: it is enough that it tells any two different
  members of the list apart (`TotalOn`).  Then there is exactly ONE way to sort a list without
  repetitions (`eq_sort`), whatever algorithm finds it, and to say that two ways of computing a list
  agree one shows that each is a sorted permutation.

  `keepBest` reads a list once and keeps at most `keep` members in a heap whose FRONT is the worst of
  them.  The invariant (`Best`) splits what has been read in two: everything kept comes before
  everything dropped, and nothing is dropped before the heap is full.  So what is kept, when sorted, is
  a first part of the sorted list (`sort_keepBest`).
-/
import Mathlib.Data.List.Sort
import Mathlib.Data.Set.List

namespace Sorting

open List

variable {A : Type}

/-- A comparator that orders all values with the property `P`. -/
structure TotalOn (P : A → Prop) (less : A → A → Bool) : Prop where
  irrefl : ∀ a, P a → less a a = false
  trans : ∀ a b c, P a → P b → P c → less a b = true → less b c = true → less a c = true
  total : ∀ a b, P a → P b → a ≠ b → less a b = true ∨ less b a = true

variable (less : A → A → Bool)

/-- A sorted permutation: a member goes before another one unless that one comes first. -/
def sort (l : List A) : List A := l.insertionSort fun a b => less b a = false

theorem sort_perm (l : List A) : (sort less l).Perm l :=
  perm_insertionSort _ l

/-! ## Relations that are total on the members -/

section Preorder

variable {P : A → Prop} {le : A → A → Prop} [DecidableRel le]
  (htrans : ∀ a b c, P a → P b → P c → le a b → le b c → le a c)
  (htotal : ∀ a b, P a → P b → le a b ∨ le b a)

include htrans htotal

theorem pairwise_orderedInsert {a : A} (ha : P a) {l : List A} (hl : ∀ b ∈ l, P b)
    (hs : l.Pairwise le) : (l.orderedInsert le a).Pairwise le := by
  -- as values of the subtype, where the relation is total
  lift l to List {a // P a} using hl
  lift a to {a // P a} using ha
  have : Std.Total fun x y : {a // P a} => le x y := ⟨fun x y => htotal x y x.2 y.2⟩
  have : IsTrans {a // P a} fun x y => le x y := ⟨fun x y z => htrans x y z x.2 y.2 z.2⟩
  rw [← map_orderedInsert (fun x y : {a // P a} => le x y) le _ l a (fun _ _ => Iff.rfl)
    fun _ _ => Iff.rfl]
  exact pairwise_map.mpr ((pairwise_map.mp hs).orderedInsert a _)

theorem pairwise_insertionSort {l : List A} (hl : ∀ a ∈ l, P a) :
    (l.insertionSort le).Pairwise le := by
  induction l with
  | nil => exact List.Pairwise.nil
  | cons a l ih =>
    obtain ⟨ha, hl⟩ := forall_mem_cons.mp hl
    refine pairwise_orderedInsert htrans htotal ha (fun b hb => ?_) (ih hl)
    exact hl b ((mem_insertionSort le).mp hb)

end Preorder

/-! ## The one sorted list -/

section Strict

variable {P : A → Prop} {less : A → A → Bool} (h : TotalOn P less)

include h

theorem TotalOn.asymm {a b : A} (ha : P a) (hb : P b) (hab : less a b = true) : less b a = false := by
  rw [← Bool.not_eq_true]
  intro hba
  have haa := h.trans a b a ha hb ha hab hba
  rw [h.irrefl a ha] at haa
  simp at haa

/-- Not to come first is transitive. -/
theorem TotalOn.not_trans {a b c : A} (ha : P a) (hb : P b) (hc : P c) (hab : less a b = false)
    (hbc : less b c = false) : less a c = false := by
  rw [← Bool.not_eq_true] at hab hbc ⊢
  intro hac
  by_cases heq : b = c
  · exact hab (heq ▸ hac)
  · exact hab (h.trans a c b ha hc hb hac ((h.total b c hb hc heq).resolve_left hbc))

theorem TotalOn.not_total {a b : A} (ha : P a) (hb : P b) : less a b = false ∨ less b a = false := by
  cases hab : less a b with
  | false => exact Or.inl rfl
  | true => exact Or.inr (h.asymm ha hb hab)

theorem pairwise_sort {l : List A} (hl : ∀ a ∈ l, P a) (hnodup : l.Nodup) :
    (sort less l).Pairwise fun a b => less a b = true := by
  have hsorted : (sort less l).Pairwise fun a b => less b a = false :=
    pairwise_insertionSort (P := P) (fun _ _ _ ha hb hc hba hcb => h.not_trans hc hb ha hcb hba)
      (fun _ _ ha hb => h.not_total hb ha) hl
  have hne : (sort less l).Pairwise (· ≠ ·) := (sort_perm less l).nodup_iff.mpr hnodup
  refine (hsorted.and hne).imp_of_mem ?_
  intro a b ha hb hab
  have hmem : ∀ c ∈ sort less l, P c := fun c hc => hl c ((sort_perm less l).subset hc)
  rcases h.total a b (hmem a ha) (hmem b hb) hab.2 with hlt | hlt
  · exact hlt
  · rw [hlt] at hab
    exact absurd hab.1 (by simp)

/-- A sorted permutation is THE sorted permutation. -/
theorem eq_sort {l s : List A} (hl : ∀ a ∈ l, P a) (hperm : s.Perm l)
    (hs : s.Pairwise fun a b => less a b = true) : s = sort less l := by
  have hPs : ∀ a ∈ s, P a := fun a ha => hl a (hperm.subset ha)
  have hnodup : l.Nodup := by
    refine hperm.nodup_iff.mp (hs.imp_of_mem ?_)
    rintro a b ha - hab rfl
    rw [h.irrefl a (hPs a ha)] at hab
    simp at hab
  refine List.Perm.eq_of_pairwise ?_ hs (pairwise_sort h hl hnodup)
    (hperm.trans (sort_perm less l).symm)
  intro a b ha hb hab hba
  rw [h.asymm (hPs a ha) (hl b ((sort_perm less l).subset hb)) hab] at hba
  simp at hba

end Strict

/-! ## Keeping the best -/

/-- `std::push_heap`: the member that comes last is in front. -/
def pushHeap (a : A) (heap : List A) : List A :=
  heap.orderedInsert (fun x y => less x y = false) a

/-- The loop of a bounded heap: a new member takes the place of the worst one if it is better. -/
def offer (keep : Nat) (heap : List A) (a : A) : List A :=
  if keep = 0 then heap
  else if heap.length < keep then pushHeap less a heap
  else
    match heap with
    | [] => []
    | worst :: others => if less a worst then pushHeap less a others else worst :: others

def keepBest (keep : Nat) (l : List A) : List A := l.foldl (offer less keep) []

/-- The heap holds the best of what has been read, and what has been dropped is `dropped`. -/
structure Best (less : A → A → Bool) (keep : Nat) (heap dropped : List A) : Prop where
  front : heap.Pairwise fun a b => less a b = false
  better : ∀ a ∈ heap, ∀ b ∈ dropped, less a b = true
  full : heap.length = keep ∨ (heap.length < keep ∧ dropped = [])

section Best

variable {P : A → Prop} {less : A → A → Bool} (h : TotalOn P less)

include h

theorem pairwise_pushHeap {a : A} (ha : P a) {heap : List A} (hP : ∀ b ∈ heap, P b)
    (hs : heap.Pairwise fun a b => less a b = false) :
    (pushHeap less a heap).Pairwise fun a b => less a b = false := by
  exact pairwise_orderedInsert (P := P) (fun _ _ _ => h.not_trans) (fun _ _ => h.not_total) ha hP hs

variable {keep : Nat} {heap dropped : List A} (hP : ∀ a ∈ heap ++ dropped, P a)
  (hnodup : (heap ++ dropped).Nodup) {a : A} (ha : P a) (hnew : a ∉ heap ++ dropped)
  (hbest : Best less keep heap dropped)

include hP hnodup ha hnew hbest

/-- One more member is read. -/
theorem best_offer : ∃ dropped', Best less keep (offer less keep heap a) dropped' ∧
    (offer less keep heap a ++ dropped').Perm (a :: (heap ++ dropped)) := by
  have hmem : ∀ b ∈ heap, P b := fun b hb => hP b (mem_append_left dropped hb)
  unfold offer
  split_ifs
  · -- nothing is to be kept
    rename_i hkeep
    have hnil : heap = [] := by
      rcases hbest.full with hlen | ⟨hlen, -⟩
      · exact eq_nil_of_length_eq_zero (hlen.trans hkeep)
      · omega
    subst hnil
    exact ⟨a :: dropped, ⟨List.Pairwise.nil, by simp, Or.inl hkeep.symm⟩, List.Perm.refl _⟩
  · -- there is room
    rename_i hroom
    obtain rfl : dropped = [] := by
      rcases hbest.full with hlen | ⟨-, hnil⟩
      · omega
      · exact hnil
    have hlen : (pushHeap less a heap).length = heap.length + 1 := orderedInsert_length _ _ _
    refine ⟨[], ⟨pairwise_pushHeap h ha hmem hbest.front, by simp, ?_⟩, ?_⟩
    · rcases Nat.lt_or_ge (heap.length + 1) keep with hlt | hge
      · exact Or.inr ⟨by omega, rfl⟩
      · exact Or.inl (by omega)
    · rw [append_nil, append_nil]
      exact perm_orderedInsert _ a heap
  · rename_i hkeep hroom
    have hfull : heap.length = keep := hbest.full.resolve_right fun h => hroom h.1
    cases heap with
    | nil => exact absurd hfull.symm hkeep
    | cons worst others =>
      obtain ⟨hworst, hothers⟩ := pairwise_cons.mp hbest.front
      have hPw := hmem worst (mem_cons_self ..)
      have hPo : ∀ b ∈ others, P b := fun b hb => hmem b (mem_cons_of_mem worst hb)
      have hPd : ∀ b ∈ dropped, P b := fun b hb => hP b (mem_append_right _ hb)
      have hbelow : ∀ b ∈ others, less b worst = true := by
        intro b hb
        have hne : b ≠ worst := by
          rintro rfl
          exact (nodup_cons.mp hnodup).1 (mem_append_left dropped hb)
        refine (h.total b worst (hPo b hb) hPw hne).resolve_right ?_
        rw [hworst b hb]
        simp
      dsimp only
      split
      · -- the worst one makes room
        rename_i hlt
        refine ⟨worst :: dropped, ⟨pairwise_pushHeap h ha hPo hothers, ?_, ?_⟩, ?_⟩
        · have hbetter : ∀ c, P c → less c worst = true → ∀ b ∈ worst :: dropped, less c b = true := by
            intro c hc hcw b hb
            rcases mem_cons.mp hb with rfl | hb
            · exact hcw
            · exact h.trans c worst b hc hPw (hPd b hb) hcw
                (hbest.better worst (mem_cons_self ..) b hb)
          intro c hc
          rcases (mem_orderedInsert _).mp hc with rfl | hc
          · exact hbetter c ha hlt
          · exact hbetter c (hPo c hc) (hbelow c hc)
        · exact Or.inl ((orderedInsert_length _ _ _).trans hfull)
        · refine ((perm_orderedInsert _ a others).append_right _).trans ?_
          exact List.Perm.cons a perm_middle
      · -- the new one is dropped
        rename_i hlt
        have hwa : less worst a = true := by
          refine (h.total worst a hPw ha ?_).resolve_right hlt
          rintro rfl
          exact hnew (by simp)
        refine ⟨a :: dropped, ⟨hbest.front, ?_, Or.inl hfull⟩, perm_middle⟩
        intro c hc b hb
        rcases mem_cons.mp hb with rfl | hb
        · rcases mem_cons.mp hc with rfl | hc
          · exact hwa
          · exact h.trans c worst b (hPo c hc) hPw ha (hbelow c hc) hwa
        · exact hbest.better c hc b hb

omit hP hnodup ha hnew hbest

/-- All members have been read. -/
theorem best_foldl {l : List A} (hP : ∀ a ∈ l ++ (heap ++ dropped), P a)
    (hnodup : (l ++ (heap ++ dropped)).Nodup) (hbest : Best less keep heap dropped) :
    ∃ dropped', Best less keep (l.foldl (offer less keep) heap) dropped' ∧
      (l.foldl (offer less keep) heap ++ dropped').Perm (l ++ (heap ++ dropped)) := by
  induction l generalizing heap dropped with
  | nil => exact ⟨dropped, hbest, List.Perm.refl _⟩
  | cons a l ih =>
    obtain ⟨hnew, hnodup⟩ := nodup_cons.mp hnodup
    obtain ⟨dropped', hbest', hperm⟩ := best_offer h
      (fun b hb => hP b (mem_cons_of_mem a (mem_append_right l hb)))
      (nodup_append.mp hnodup).2.1 (hP a (mem_cons_self ..))
      (fun hmem => hnew (mem_append_right l hmem)) hbest
    have hall : (l ++ (offer less keep heap a ++ dropped')).Perm (a :: (l ++ (heap ++ dropped))) :=
      (hperm.append_left l).trans perm_middle
    obtain ⟨dropped'', hbest'', hperm'⟩ := ih (fun b hb => hP b (hall.subset hb))
      (hall.nodup_iff.mpr (nodup_cons.mpr ⟨hnew, hnodup⟩)) hbest'
    exact ⟨dropped'', hbest'', hperm'.trans hall⟩

/-- **What a bounded heap keeps** is a first part of the sorted list. -/
theorem sort_keepBest {l : List A} (hl : ∀ a ∈ l, P a) (hnodup : l.Nodup) (keep : Nat) :
    sort less (keepBest less keep l) = (sort less l).take keep := by
  have hstart : Best less keep [] [] := by
    refine ⟨List.Pairwise.nil, by simp, ?_⟩
    rcases Nat.eq_zero_or_pos keep with rfl | hpos
    · exact Or.inl rfl
    · exact Or.inr ⟨hpos, rfl⟩
  obtain ⟨dropped, hbest, hperm⟩ := best_foldl h (by simpa using hl) (by simpa using hnodup) hstart
  rw [append_nil, append_nil] at hperm
  change (keepBest less keep l ++ dropped).Perm l at hperm
  generalize hheap : l.foldl (offer less keep) [] = heap at hbest
  change keepBest less keep l = heap at hheap
  rw [hheap] at hperm ⊢
  have hPall : ∀ a ∈ heap ++ dropped, P a := fun a ha => hl a (hperm.subset ha)
  have hnodup' := hperm.nodup_iff.mpr hnodup
  -- the sorted list is what is kept and then what is dropped, each sorted
  have hsplit : sort less heap ++ sort less dropped = sort less l := by
    refine eq_sort h hl (((sort_perm less heap).append (sort_perm less dropped)).trans hperm) ?_
    refine pairwise_append.mpr ⟨?_, ?_, ?_⟩
    · exact pairwise_sort h (fun a ha => hPall a (mem_append_left _ ha))
        (nodup_append.mp hnodup').1
    · exact pairwise_sort h (fun a ha => hPall a (mem_append_right _ ha))
        (nodup_append.mp hnodup').2.1
    · intro a ha b hb
      exact hbest.better a ((sort_perm less heap).subset ha) b ((sort_perm less dropped).subset hb)
  rw [← hsplit]
  have hlen : (sort less heap).length = heap.length := (sort_perm less heap).length_eq
  rcases hbest.full with hfull | ⟨hroom, rfl⟩
  · rw [take_left' (hlen.trans hfull)]
  · rw [show sort less ([] : List A) = [] from rfl, append_nil, take_of_length_le (by omega)]

end Best

theorem TotalOn.congr {P : A → Prop} {less less' : A → A → Bool} (h : TotalOn P less)
    (heq : ∀ a b, P a → P b → less' a b = less a b) : TotalOn P less' := by
  refine ⟨fun a ha => ?_, fun a b c ha hb hc => ?_, fun a b ha hb => ?_⟩
  · rw [heq a a ha ha]
    exact h.irrefl a ha
  · rw [heq a b ha hb, heq b c hb hc, heq a c ha hc]
    exact h.trans a b c ha hb hc
  · rw [heq a b ha hb, heq b a hb ha]
    exact h.total a b ha hb

/-- Comparators that agree on the members sort them alike. -/
theorem sort_congr {P : A → Prop} {less less' : A → A → Bool} (h : TotalOn P less)
    (heq : ∀ a b, P a → P b → less' a b = less a b) {l : List A} (hl : ∀ a ∈ l, P a)
    (hnodup : l.Nodup) : sort less' l = sort less l := by
  refine eq_sort h hl (sort_perm less' l) ?_
  refine (pairwise_sort (h.congr heq) hl hnodup).imp_of_mem fun {a b} ha hb hab => ?_
  rwa [← heq a b (hl a ((sort_perm less' l).subset ha)) (hl b ((sort_perm less' l).subset hb))]

/-! ## A sorted list in parts -/

section Parts

variable {before : A → A → Prop} (hasymm : ∀ a b, before a b → ¬ before b a)

include hasymm

theorem filter_append_filter {l : List A} (hl : l.Pairwise before) {p q : A → Bool}
    (hpq : ∀ a ∈ l, ∀ b ∈ l, p a = true → q b = true → before a b) :
    l.filter p ++ l.filter q = l.filter fun a => p a || q a := by
  induction l with
  | nil => rfl
  | cons a l ih =>
    obtain ⟨ha, hl⟩ := pairwise_cons.mp hl
    have hself := mem_cons_self (a := a) (l := l)
    have ih := ih hl fun b hb c hc => hpq b (mem_cons_of_mem a hb) c (mem_cons_of_mem a hc)
    cases hp : p a with
    | true =>
      have hq : q a = false := by
        rw [← Bool.not_eq_true]
        intro hq
        have haa := hpq a hself a hself hp hq
        exact hasymm a a haa haa
      simp [hp, hq, ih]
    | false =>
      cases hq : q a with
      | false => simp [hp, hq, ih]
      | true =>
        -- behind `a` there is nothing of the first part
        have hnone : l.filter p = [] := by
          refine filter_eq_nil_iff.mpr fun b hb hpb => ?_
          exact hasymm a b (ha b hb) (hpq b (mem_cons_of_mem a hb) a hself hpb hq)
        rw [hnone, nil_append] at ih
        simp [hp, hq, hnone, ih]

/-- The parts of a sorted list one after the other, if they come one after the other in it. -/
theorem flatMap_filter {l : List A} (hl : l.Pairwise before) {ps : List (A → Bool)}
    (hps : ps.Pairwise fun p q => ∀ a ∈ l, ∀ b ∈ l, p a = true → q b = true → before a b) :
    ps.flatMap (fun p => l.filter p) = l.filter fun a => ps.any fun p => p a := by
  induction ps with
  | nil => simp
  | cons p ps ih =>
    obtain ⟨hp, hps⟩ := pairwise_cons.mp hps
    rw [flatMap_cons, ih hps]
    refine filter_append_filter hasymm hl ?_
    intro a ha b hb hpa hany
    obtain ⟨q, hq, hqb⟩ := any_eq_true.mp hany
    exact hp q hq a ha b hb hpa hqb

end Parts

/-! ## Comparing by several criteria -/

/-- The first criterion that tells two values apart decides. -/
def lexLess : List (A → A → Ordering) → A → A → Bool
  | [], _, _ => false
  | cmp :: cmps, a, b =>
    match cmp a b with
    | .lt => true
    | .gt => false
    | .eq => lexLess cmps a b

/-- A three-way comparison that orders all values with the property `P`, up to ties. -/
structure LawfulOn (P : A → Prop) (cmp : A → A → Ordering) : Prop where
  swap : ∀ a b, P a → P b → cmp b a = (cmp a b).swap
  trans : ∀ a b c, P a → P b → P c → cmp a b ≠ .gt → cmp b c ≠ .gt → cmp a c ≠ .gt

section Lex

variable {P : A → Prop} {cmp : A → A → Ordering} {cmps : List (A → A → Ordering)} {a b c : A}

theorem LawfulOn.reverse (h : LawfulOn P cmp) : LawfulOn P fun a b => (cmp a b).swap := by
  refine ⟨fun a b ha hb => congrArg Ordering.swap (h.swap a b ha hb), ?_⟩
  intro a b c ha hb hc hab hbc
  rw [← h.swap _ _ ha hb] at hab
  rw [← h.swap _ _ hb hc] at hbc
  rw [← h.swap _ _ ha hc]
  exact h.trans c b a hc hb ha hbc hab

/-- On the values with the property it is a comparison in the library's sense. -/
theorem LawfulOn.transCmp (h : LawfulOn P cmp) : Std.TransCmp fun a b : {a // P a} => cmp a b where
  eq_swap {a b} := h.swap b a b.2 a.2
  isLE_trans {a b c} hab hbc := Ordering.isLE_iff_ne_gt.mpr (h.trans a b c a.2 b.2 c.2
    (Ordering.isLE_iff_ne_gt.mp hab) (Ordering.isLE_iff_ne_gt.mp hbc))

/-- All criteria as one. -/
def lexOrder (cmps : List (A → A → Ordering)) (a b : A) : Ordering :=
  cmps.foldr (fun cmp o => (cmp a b).then o) .eq

theorem lexLess_iff : lexLess cmps a b = true ↔ lexOrder cmps a b = .lt := by
  induction cmps with
  | nil => simp [lexLess, lexOrder]
  | cons cmp cmps ih =>
    rw [lexLess, lexOrder, foldr_cons]
    cases cmp a b with
    | lt | gt => simp
    | eq => exact ih

theorem lexOrder_eq_iff : lexOrder cmps a b = .eq ↔ ∀ cmp ∈ cmps, cmp a b = .eq := by
  induction cmps with
  | nil => simp [lexOrder]
  | cons cmp cmps ih =>
    rw [forall_mem_cons, ← ih]
    exact Ordering.then_eq_eq

theorem transCmp_lexOrder (h : ∀ cmp ∈ cmps, LawfulOn P cmp) :
    Std.TransCmp fun a b : {a // P a} => lexOrder cmps a b := by
  induction cmps with
  | nil => exact { eq_swap := rfl, isLE_trans := fun _ _ => rfl }
  | cons cmp cmps ih =>
    obtain ⟨hcmp, hcmps⟩ := forall_mem_cons.mp h
    have := hcmp.transCmp
    have := ih hcmps
    exact inferInstanceAs (Std.TransCmp (compareLex (fun a b : {a // P a} => cmp a b)
      fun a b => lexOrder cmps a b))

/-- Criteria of which one has no ties order all values. -/
theorem totalOn_lexLess (h : ∀ cmp ∈ cmps, LawfulOn P cmp)
    (hdecides : ∃ cmp ∈ cmps, ∀ a b, P a → P b → cmp a b = .eq → a = b) :
    TotalOn P (lexLess cmps) := by
  have hlex := transCmp_lexOrder h
  have hswap : ∀ a b, P a → P b → lexOrder cmps b a = (lexOrder cmps a b).swap := fun a b ha hb =>
    @Std.OrientedCmp.eq_swap _ _ hlex.toOrientedCmp ⟨b, hb⟩ ⟨a, ha⟩
  refine ⟨fun a ha => ?_, fun a b c ha hb hc hab hbc => ?_, fun a b ha hb hne => ?_⟩
  · rw [← Bool.not_eq_true, lexLess_iff]
    intro hlt
    simpa [hlt] using hswap a a ha ha
  · rw [lexLess_iff] at hab hbc ⊢
    exact @Std.TransCmp.lt_trans _ _ hlex ⟨a, ha⟩ ⟨b, hb⟩ ⟨c, hc⟩ hab hbc
  · rw [lexLess_iff, lexLess_iff, hswap a b ha hb]
    cases hx : lexOrder cmps a b with
    | lt => exact Or.inl rfl
    | gt => exact Or.inr rfl
    | eq =>
      obtain ⟨cmp, hcmp, hties⟩ := hdecides
      exact absurd (hties a b ha hb (lexOrder_eq_iff.mp hx cmp hcmp)) hne

theorem lexLess_congr {cmps' : List (A → A → Ordering)}
    (h : List.Forall₂ (fun cmp cmp' => cmp a b = cmp' a b) cmps cmps') :
    lexLess cmps a b = lexLess cmps' a b := by
  induction h with
  | nil => rfl
  | cons hcmp _ ih =>
    unfold lexLess
    rw [hcmp, ih]

/-- A last criterion that cannot decide may be left out. -/
theorem lexLess_append (h : (∀ cmp' ∈ cmps, cmp' a b = .eq) → cmp a b = .eq) :
    lexLess (cmps ++ [cmp]) a b = lexLess cmps a b := by
  induction cmps with
  | nil => simp [lexLess, h]
  | cons cmp' cmps ih =>
    rw [cons_append, lexLess, lexLess]
    cases hx : cmp' a b with
    | lt | gt => rfl
    | eq => exact ih fun hall => h (forall_mem_cons.mpr ⟨hx, hall⟩)

end Lex

end Sorting
