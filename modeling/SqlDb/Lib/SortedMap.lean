/-
  SORTED MAPS: finite maps over an ordered key type, kept as a strictly increasing list.

  This is `std::map` for code that also WALKS the map in key order.  The order is a field of the
  type, so a map is determined by its entries (`ext_mem`), and every operation is described by the
  entries it leaves:

    * `insert k v`  — the entry `(k, v)` replaces whatever `k` had;
    * `keep p`      — only the keys in `p` stay; erasing one key or a range of keys is a `keep`;
    * `insertAll`   — the entries of another map replace those under the same keys.

  The last section is about walking: in an increasing list the keys from `b` on, and the keys
  before `e`, are found by skipping and stopping.
-/
import Mathlib.Data.List.Pairwise
import Mathlib.Data.List.Perm.Basic
import Mathlib.Order.RelClasses
import SqlDb.Lib.History

/-- A finite map from `K` to `V`: its entries, in strictly increasing order of keys. -/
structure SortedMap (K V : Type) [LT K] where
  entries : List (K × V)
  sorted : entries.Pairwise fun p q => p.1 < q.1
deriving DecidableEq

namespace SortedMap

open List

variable {K V : Type}

/-- Entries in strict order, whichever it is, are determined by what they are. -/
theorem eq_of_mem_iff {r : K → K → Prop} [Std.Irrefl r] [IsTrans K r] {l l' : List (K × V)}
    (hl : l.Pairwise fun p q => r p.1 q.1) (hl' : l'.Pairwise fun p q => r p.1 q.1)
    (h : ∀ p, p ∈ l ↔ p ∈ l') : l = l' := by
  have hnodup : ∀ {s : List (K × V)}, (s.Pairwise fun p q => r p.1 q.1) → s.Nodup := by
    intro s hs
    refine hs.imp fun {p q} hpq heq => ?_
    rw [heq] at hpq
    exact Std.Irrefl.irrefl (r := r) q.1 hpq
  have hperm : l.Perm l' := (perm_ext_iff_of_nodup (hnodup hl) (hnodup hl')).mpr h
  exact hperm.eq_of_pairwise (fun p q _ _ hpq hqp => absurd (IsTrans.trans _ _ _ hpq hqp)
    (Std.Irrefl.irrefl (r := r) p.1)) hl hl'

variable [LT K]

instance : Inhabited (SortedMap K V) := ⟨⟨[], List.Pairwise.nil⟩⟩

/-- Put `(k, v)` at its place in an increasing list. -/
def insertEntry [DecidableLT K] [DecidableEq K] (k : K) (v : V) : List (K × V) → List (K × V)
  | [] => [(k, v)]
  | p :: ps =>
    if k < p.1 then (k, v) :: p :: ps
    else if k = p.1 then (k, v) :: ps
    else p :: insertEntry k v ps

variable (m : SortedMap K V)

section Order

variable [IsStrictTotalOrder K (· < ·)]

theorem key_irrefl (k : K) : ¬ k < k := Std.Irrefl.irrefl (r := (· < ·)) k

/-- A key has one entry. -/
theorem key_unique {m : SortedMap K V} {p q : K × V} (hp : p ∈ m.entries) (hq : q ∈ m.entries)
    (h : p.1 = q.1) : p = q := by
  have hpair : m.entries.Pairwise fun p q => p.1 = q.1 → p = q :=
    m.sorted.imp fun {p q} hlt heq => by
      rw [heq] at hlt
      exact absurd hlt (key_irrefl q.1)
  have hsymm : Std.Symm fun p q : K × V => p.1 = q.1 → p = q :=
    ⟨fun p q h heq => (h heq.symm).symm⟩
  exact List.Pairwise.forall_of_forall (fun _ _ _ => rfl) hpair hp hq h

theorem nodup_entries : m.entries.Nodup :=
  m.sorted.imp fun {p q} hlt heq => by
    rw [heq] at hlt
    exact key_irrefl q.1 hlt

/-- A map is determined by its entries. -/
theorem ext_mem {m m' : SortedMap K V} (h : ∀ p, p ∈ m.entries ↔ p ∈ m'.entries) : m = m' := by
  have heq : m.entries = m'.entries := eq_of_mem_iff m.sorted m'.sorted h
  cases m
  cases m'
  simp_all

variable [DecidableLT K] [DecidableEq K]

theorem mem_insertEntry {k : K} {v : V} {l : List (K × V)}
    (hs : l.Pairwise fun p q => p.1 < q.1) {p : K × V} :
    p ∈ insertEntry k v l ↔ p = (k, v) ∨ (p ∈ l ∧ p.1 ≠ k) := by
  induction l with
  | nil => simp [insertEntry]
  | cons a l ih =>
    obtain ⟨hhead, htail⟩ := pairwise_cons.mp hs
    -- `k` is below `a`, or is its key, or comes later
    unfold insertEntry
    split_ifs with hlt
    · have hne : ∀ q ∈ a :: l, q.1 ≠ k := by
        intro q hq heq
        rcases mem_cons.mp hq with rfl | hq
        · rw [heq] at hlt
          exact key_irrefl k hlt
        · have hlt' := IsTrans.trans _ _ _ hlt (hhead q hq)
          rw [heq] at hlt'
          exact key_irrefl k hlt'
      rw [mem_cons]
      exact or_congr_right (and_iff_left_of_imp (hne p)).symm
    · rename_i _ heq
      subst heq
      rw [mem_cons, mem_cons]
      refine or_congr_right ⟨fun hp => ⟨Or.inr hp, fun heq => ?_⟩, fun ⟨hp, hne⟩ => ?_⟩
      · have := hhead p hp
        rw [heq] at this
        exact key_irrefl a.1 this
      · exact hp.resolve_left fun heq => hne (heq ▸ rfl)
    · rename_i _ hka
      have ha : p = a ∧ p.1 ≠ k ↔ p = a := and_iff_left_of_imp fun h => h ▸ Ne.symm hka
      rw [mem_cons, ih htail, mem_cons, or_and_right, ha, or_left_comm]

theorem sorted_insertEntry {k : K} {v : V} {l : List (K × V)}
    (hs : l.Pairwise fun p q => p.1 < q.1) :
    (insertEntry k v l).Pairwise fun p q => p.1 < q.1 := by
  induction l with
  | nil => exact pairwise_singleton _ _
  | cons a l ih =>
    obtain ⟨hhead, htail⟩ := pairwise_cons.mp hs
    unfold insertEntry
    split
    · rename_i hlt
      refine pairwise_cons.mpr ⟨fun q hq => ?_, hs⟩
      rcases mem_cons.mp hq with rfl | hq
      · exact hlt
      · exact IsTrans.trans _ _ _ hlt (hhead q hq)
    · split
      · rename_i _ heq
        subst heq
        exact pairwise_cons.mpr ⟨hhead, htail⟩
      · rename_i hnlt hne
        refine pairwise_cons.mpr ⟨fun q hq => ?_, ih htail⟩
        rcases (mem_insertEntry htail).mp hq with rfl | ⟨hq, -⟩
        · by_contra hnot
          exact hne (Std.Trichotomous.trichotomous (r := (· < ·)) k a.1 hnlt hnot)
        · exact hhead q hq

/-- `map[k] = v`. -/
def insert (k : K) (v : V) : SortedMap K V :=
  ⟨insertEntry k v m.entries, sorted_insertEntry m.sorted⟩

/-- The map without the keys outside `p`. -/
def keep (p : K → Bool) (m : SortedMap K V) : SortedMap K V :=
  ⟨m.entries.filter fun e => p e.1, m.sorted.filter _⟩

/-- The map without the key `k`. -/
def erase (k : K) : SortedMap K V := m.keep fun q => q ≠ k

/-- All of `rows` are inserted, one after the other. -/
def insertAll (rows : List (K × V)) : SortedMap K V :=
  rows.foldl (fun m p => m.insert p.1 p.2) m

omit [IsStrictTotalOrder K (· < ·)] [DecidableLT K] [DecidableEq K] in
@[simp] theorem mem_keep {p : K → Bool} {m : SortedMap K V} {e : K × V} :
    e ∈ (m.keep p).entries ↔ e ∈ m.entries ∧ p e.1 = true := mem_filter

@[simp] theorem mem_insert {m : SortedMap K V} {k : K} {v : V} {e : K × V} :
    e ∈ (m.insert k v).entries ↔ e = (k, v) ∨ (e ∈ m.entries ∧ e.1 ≠ k) :=
  mem_insertEntry m.sorted

/-- Later rows win; rows of a map do not overwrite each other. -/
theorem mem_insertAll {rows : List (K × V)} (hs : rows.Pairwise fun p q => p.1 < q.1)
    {m : SortedMap K V} {e : K × V} :
    e ∈ (m.insertAll rows).entries ↔ e ∈ rows ∨ (e ∈ m.entries ∧ ∀ q ∈ rows, e.1 ≠ q.1) := by
  induction rows generalizing m with
  | nil => simp [insertAll]
  | cons a rows ih =>
    obtain ⟨hhead, htail⟩ := pairwise_cons.mp hs
    have hstep : m.insertAll (a :: rows) = (m.insert a.1 a.2).insertAll rows := rfl
    rw [hstep, ih htail, mem_insert]
    constructor
    · rintro (he | ⟨rfl | ⟨he, hne⟩, hrest⟩)
      · exact Or.inl (mem_cons_of_mem a he)
      · exact Or.inl (mem_cons_self ..)
      · exact Or.inr ⟨he, forall_mem_cons.mpr ⟨hne, hrest⟩⟩
    · rintro (he | ⟨he, hall⟩)
      · rcases mem_cons.mp he with rfl | he
        · refine Or.inr ⟨Or.inl rfl, fun q hq heq => ?_⟩
          have := hhead q hq
          rw [heq] at this
          exact key_irrefl q.1 this
        · exact Or.inl he
      · obtain ⟨hne, hrest⟩ := forall_mem_cons.mp hall
        exact Or.inr ⟨Or.inr ⟨he, hne⟩, hrest⟩

/-! ## Looking up a key -/

/-- The value of key `k`. -/
def find (k : K) : Option V :=
  (m.entries.find? fun p => p.1 = k).map Prod.snd

omit [DecidableLT K] in
theorem find_eq_some {m : SortedMap K V} {k : K} {v : V} :
    m.find k = some v ↔ (k, v) ∈ m.entries := by
  unfold find
  constructor
  · intro h
    obtain ⟨p, hp, rfl⟩ := Option.map_eq_some_iff.mp h
    have hk : p.1 = k := by simpa using find?_some hp
    rw [← hk]
    exact mem_of_find?_eq_some hp
  · intro hmem
    cases hf : m.entries.find? fun p => decide (p.1 = k) with
    | none => exact absurd (find?_eq_none.mp hf _ hmem) (by simp)
    | some p =>
      have hk : p.1 = k := by simpa using find?_some hf
      rw [key_unique (mem_of_find?_eq_some hf) hmem hk]
      rfl

omit [DecidableLT K] in
theorem find_eq_none {m : SortedMap K V} {k : K} :
    m.find k = none ↔ ∀ v, (k, v) ∉ m.entries := by
  constructor
  · intro h v hmem
    rw [find_eq_some.mpr hmem] at h
    simp at h
  · intro h
    cases hf : m.find k with
    | none => rfl
    | some v => exact absurd (find_eq_some.mp hf) (h v)

omit [DecidableLT K] in
/-- The entries under a key. -/
theorem filter_key (k : K) :
    (m.entries.filter fun p => p.1 = k).map Prod.snd = (m.find k).toList := by
  cases hfind : m.find k with
  | none =>
    have hnil : (m.entries.filter fun p => p.1 = k) = [] := by
      refine filter_eq_nil_iff.mpr fun p hp hk => ?_
      obtain rfl : p.1 = k := of_decide_eq_true hk
      exact find_eq_none.mp hfind p.2 hp
    rw [hnil]
    rfl
  | some v =>
    have hmem := find_eq_some.mp hfind
    have hone : (m.entries.filter fun p => p.1 = k) = [(k, v)] := by
      refine perm_singleton.mp ((perm_ext_iff_of_nodup (m.nodup_entries.filter _)
        (pairwise_singleton _ _)).mpr fun p => ?_)
      rw [mem_filter, mem_singleton, decide_eq_true_eq]
      constructor
      · rintro ⟨hp, hk⟩
        exact key_unique hp hmem hk
      · rintro rfl
        exact ⟨hmem, rfl⟩
    rw [hone]
    rfl

omit [DecidableLT K] in
/-- A map is determined by its values. -/
theorem ext_find {m m' : SortedMap K V} (h : ∀ k, m.find k = m'.find k) : m = m' :=
  ext_mem fun p => by rw [← find_eq_some, ← find_eq_some, h p.1]

theorem find_insert (k : K) (v : V) (k' : K) :
    (m.insert k v).find k' = if k' = k then some v else m.find k' := by
  split_ifs with hk
  · subst hk
    exact find_eq_some.mpr (mem_insert.mpr (Or.inl rfl))
  · cases hf : m.find k' with
    | some v' =>
      exact find_eq_some.mpr (mem_insert.mpr (Or.inr ⟨find_eq_some.mp hf, hk⟩))
    | none =>
      refine find_eq_none.mpr fun v' hmem => ?_
      rcases mem_insert.mp hmem with heq | ⟨hmem, -⟩
      · exact hk (Prod.mk.inj heq).1
      · exact find_eq_none.mp hf v' hmem

omit [DecidableLT K] in
theorem find_keep (p : K → Bool) (m : SortedMap K V) (k : K) :
    (m.keep p).find k = if p k then m.find k else none := by
  split_ifs with hp
  · cases hf : m.find k with
    | some v => exact find_eq_some.mpr (mem_keep.mpr ⟨find_eq_some.mp hf, hp⟩)
    | none => exact find_eq_none.mpr fun v hmem => find_eq_none.mp hf v (mem_keep.mp hmem).1
  · exact find_eq_none.mpr fun v hmem => hp (mem_keep.mp hmem).2

/-! ## Looking at part of a map -/

theorem keep_insert (p : K → Bool) (m : SortedMap K V) (k : K) (v : V) :
    (m.insert k v).keep p = ((m.keep p).insert k v).keep p := by
  refine ext_mem fun e => ?_
  simp only [mem_keep, mem_insert]
  tauto

omit [DecidableLT K] [DecidableEq K] in
theorem keep_keep (p q : K → Bool) (m : SortedMap K V) :
    (m.keep q).keep p = ((m.keep p).keep q).keep p := by
  refine ext_mem fun e => ?_
  simp only [mem_keep]
  tauto

end Order

/-! ## Walking in key order -/

section

variable {A : Type} {P : A → Bool} {l : List A}

/-- In a list where `P` starts at some point and goes on, skipping to it is filtering. -/
theorem dropWhile_eq_filter (h : l.Pairwise fun a b => P a = true → P b = true) :
    l.dropWhile (fun a => !P a) = l.filter P := by
  induction l with
  | nil => rfl
  | cons a l ih =>
    obtain ⟨hhead, htail⟩ := pairwise_cons.mp h
    by_cases ha : P a = true
    · rw [dropWhile_cons_of_neg (by simp [ha]), filter_eq_self.mpr]
      exact forall_mem_cons.mpr ⟨ha, fun b hb => hhead b hb ha⟩
    · rw [dropWhile_cons_of_pos (by simpa using ha), filter_cons_of_neg ha, ih htail]

theorem length_takeWhile_le {Q : A → Bool} (h : ∀ a ∈ l, P a = true → Q a = true) :
    (l.takeWhile P).length ≤ (l.takeWhile Q).length := by
  induction l with
  | nil => exact Nat.le_refl _
  | cons b l ih =>
    obtain ⟨hhead, htail⟩ := forall_mem_cons.mp h
    cases hb : P b with
    | false => simp [hb]
    | true =>
      rw [takeWhile_cons_of_pos hb, takeWhile_cons_of_pos (hhead hb)]
      exact Nat.succ_le_succ (ih htail)

variable (h : l.Pairwise fun a b => P b = true → P a = true)
include h

/-- In a list where `P` stops at some point for good, stopping there is filtering. -/
theorem takeWhile_eq_filter : l.takeWhile P = l.filter P := by
  induction l with
  | nil => rfl
  | cons a l ih =>
    obtain ⟨hhead, htail⟩ := pairwise_cons.mp h
    by_cases ha : P a = true
    · rw [takeWhile_cons_of_pos ha, filter_cons_of_pos ha, ih htail]
    · rw [takeWhile_cons_of_neg ha, eq_comm, filter_eq_nil_iff]
      exact forall_mem_cons.mpr ⟨ha, fun b hb hpb => ha (hhead b hb hpb)⟩

/-- Where a walk stops.  If what satisfies `P` comes first, the positions before the stop are those
    of the elements that satisfy `P`. -/
theorem lt_length_takeWhile_iff {i : Nat} {a : A} (hi : l[i]? = some a) :
    i < (l.takeWhile P).length ↔ P a = true := by
  induction l generalizing i with
  | nil => simp at hi
  | cons b l ih =>
    obtain ⟨hhead, htail⟩ := pairwise_cons.mp h
    cases hb : P b with
    | false =>
      rw [takeWhile_cons_of_neg (by simp [hb])]
      refine iff_of_false (by simp) fun ha => ?_
      cases i with
      | zero =>
        obtain rfl : b = a := Option.some.inj hi
        simp [hb] at ha
      | succ i =>
        have := hhead a (mem_of_getElem? hi) ha
        simp [hb] at this
    | true =>
      rw [takeWhile_cons_of_pos hb, length_cons]
      cases i with
      | zero =>
        obtain rfl : b = a := Option.some.inj hi
        simp [hb]
      | succ i =>
        rw [Nat.add_lt_add_iff_right]
        exact ih htail hi

/-- What is taken from a slice is what is taken from the whole, as far as it lies in the slice. -/
theorem length_takeWhile_slice (stop start : Nat) :
    (((l.take stop).drop start).takeWhile P).length
      = min stop (l.takeWhile P).length - start := by
  have hwhole := ( takeWhile_prefix P (l := l)).length_le
  have hslice := ( takeWhile_prefix P (l := (l.take stop).drop start)).length_le
  rw [length_drop, length_take] at hslice
  have hlt : ∀ j, j < (((l.take stop).drop start).takeWhile P).length ↔
      j < min stop (l.takeWhile P).length - start := by
    intro j
    cases hj : ((l.take stop).drop start)[j]? with
    | none =>
      have hge := getElem?_eq_none_iff.mp hj
      rw [length_drop, length_take] at hge
      omega
    | some a =>
      have hsub := (drop_sublist start _).trans (take_sublist stop l)
      rw [lt_length_takeWhile_iff (h.sublist hsub) hj]
      rw [getElem?_drop, getElem?_take] at hj
      split at hj
      · rw [← lt_length_takeWhile_iff h hj]
        omega
      · simp at hj
  have hle := hlt (((l.take stop).drop start).takeWhile P).length
  have hge := hlt (min stop (l.takeWhile P).length - start)
  omega

theorem takeWhile_drop (start : Nat) :
    (l.drop start).takeWhile P = (l.take (l.takeWhile P).length).drop start := by
  have hlength := length_takeWhile_slice h l.length start
  rw [take_length, Nat.min_eq_right ( takeWhile_prefix P).length_le] at hlength
  rw [drop_take, ← hlength]
  exact prefix_iff_eq_take.mp ( takeWhile_prefix P)

end

section Walk

variable [DecidableLT K] [IsStrictTotalOrder K (· < ·)] {l : List (K × V)}

theorem dropWhile_lt (hs : l.Pairwise fun p q => p.1 < q.1) (b : K) :
    l.dropWhile (fun p => p.1 < b) = l.filter fun p => !decide (p.1 < b) := by
  have hstay : l.Pairwise fun p q => (!decide (p.1 < b)) = true → (!decide (q.1 < b)) = true := by
    refine hs.imp fun {p q} hpq hp => ?_
    simp only [Bool.not_eq_true', decide_eq_false_iff_not] at hp ⊢
    exact fun hq => hp (IsTrans.trans _ _ _ hpq hq)
  simpa using dropWhile_eq_filter hstay

theorem takeWhile_lt (hs : l.Pairwise fun p q => p.1 < q.1) (e : K) :
    l.takeWhile (fun p => p.1 < e) = l.filter fun p => decide (p.1 < e) :=
  takeWhile_eq_filter (hs.imp fun {p q} hpq hq =>
    decide_eq_true (IsTrans.trans p.1 q.1 e hpq (of_decide_eq_true hq)))

end Walk

/-! ## Neighbours -/

section Neighbours

variable [DecidableLT K]

/-- The first key that is not below `k`. -/
def lowerBound (k : K) : Option K :=
  (m.entries.find? fun p => !decide (p.1 < k)).map Prod.fst

/-- The first key above `k`. -/
def upperBound (k : K) : Option K :=
  (m.entries.find? fun p => decide (k < p.1)).map Prod.fst

/-- The last key below `k`. -/
def lastBelow (k : K) : Option K :=
  (m.entries.reverse.find? fun p => decide (p.1 < k)).map Prod.fst

end Neighbours

def firstKey : Option K := m.entries.head?.map Prod.fst

def lastKey : Option K := m.entries.reverse.head?.map Prod.fst

end SortedMap
