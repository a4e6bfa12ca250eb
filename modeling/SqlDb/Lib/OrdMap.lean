/-
  ORDERED MAPS with numbers as keys: a list of (key, value) pairs.

  This is `std::map` as the modelled code uses it: lookup, `map[k] = v`, erasing, and visiting the
  elements in increasing order of keys.  `insert` keeps a sorted list sorted, but no lemma below
  needs the order, so the maps carry no invariant.
-/
import Mathlib.Data.List.Basic
import Mathlib.Data.List.Perm.Basic

/-- A map from numbers to `B`. -/
abbrev OrdMap (B : Type) := List (Nat × B)

namespace OrdMap

variable {B : Type}

/-- The value stored under `k`. -/
def find (m : OrdMap B) (k : Nat) : Option B := (List.find? (fun p => p.1 == k) m).map Prod.snd

/-- `map[k] = v`. -/
def insert (m : OrdMap B) (k : Nat) (v : B) : OrdMap B :=
  match m with
  | [] => [(k, v)]
  | p :: ps =>
    if k < p.1 then (k, v) :: p :: ps
    else if k = p.1 then (k, v) :: ps
    else p :: insert ps k v

/-- `map[k]` as a left value, or a `contains` check: a missing key gets the value `v`. -/
def touch (m : OrdMap B) (k : Nat) (v : B) : OrdMap B :=
  if (find m k).isSome then m else insert m k v

/-- The map without the key `k`. -/
def erase (m : OrdMap B) (k : Nat) : OrdMap B := List.filter (fun p => p.1 != k) m

theorem find_cons (p : Nat × B) (m : OrdMap B) (k : Nat) :
    find (p :: m) k = if p.1 = k then some p.2 else find m k := by
  unfold find
  rw [List.find?_cons]
  by_cases h : p.1 = k
  · simp [h]
  · rw [beq_eq_false_iff_ne.mpr h, if_neg h]

@[simp] theorem find_nil (k : Nat) : find ([] : OrdMap B) k = none := rfl

@[simp] theorem find_insert (m : OrdMap B) (k q : Nat) (v : B) :
    find (insert m k v) q = if q = k then some v else find m q := by
  induction m with
  | nil => simp [insert, find_cons, eq_comm]
  | cons p ps ih =>
    unfold insert
    split
    · simp [find_cons, eq_comm]
    · split
      · rename_i _ hk
        rw [find_cons, find_cons, ← hk]
        by_cases hq : q = k
        · simp [hq]
        · simp [hq, Ne.symm hq]
      · rename_i _ hk
        rw [find_cons, find_cons, ih]
        by_cases hp : p.1 = q
        · have hqk : q ≠ k := fun h => hk (by rw [hp, h])
          simp [hp, hqk]
        · simp [hp]

variable {m : OrdMap B} {k : Nat}

theorem mem_of_find {v : B} (h : find m k = some v) : (k, v) ∈ m := by
  induction m with
  | nil => simp at h
  | cons p ps ih =>
    rw [find_cons] at h
    split_ifs at h with hp
    · obtain rfl := hp
      cases h
      exact List.mem_cons_self ..
    · exact List.mem_cons_of_mem _ (ih h)

theorem mem_insert {v : B} {p : Nat × B} (h : p ∈ insert m k v) : p = (k, v) ∨ p ∈ m := by
  induction m with
  | nil => simpa [insert] using h
  | cons q qs ih =>
    unfold insert at h
    split_ifs at h
    · simpa using h
    · rcases List.mem_cons.mp h with h | h
      · exact Or.inl h
      · exact Or.inr (List.mem_cons_of_mem _ h)
    · rcases List.mem_cons.mp h with h | h
      · exact Or.inr (by simp [h])
      · exact (ih h).imp_right (List.mem_cons_of_mem _)

/-- Inserting a new key adds one pair. -/
theorem insert_perm {v : B} (h : ∀ p ∈ m, p.1 ≠ k) : List.Perm (insert m k v) ((k, v) :: m) := by
  induction m with
  | nil => exact List.Perm.refl _
  | cons q qs ih =>
    unfold insert
    split_ifs
    · exact List.Perm.refl _
    · rename_i _ hk
      exact absurd hk.symm (h q (List.mem_cons_self ..))
    · exact ((ih fun p hp => h p (List.mem_cons_of_mem _ hp)).cons q).trans (List.Perm.swap ..)

/-- With distinct keys, what is in the map is found. -/
theorem find_of_mem {v : B} (hnd : (m.map Prod.fst).Nodup)
    (h : (k, v) ∈ m) : find m k = some v := by
  induction m with
  | nil => simp at h
  | cons q qs ih =>
    obtain ⟨hnot, hnd⟩ := List.nodup_cons.mp hnd
    rw [find_cons]
    rcases List.mem_cons.mp h with rfl | h
    · exact if_pos rfl
    · rw [if_neg]
      · exact ih hnd h
      · intro hq
        rw [hq] at hnot
        exact hnot (List.mem_map.mpr ⟨_, h, rfl⟩)

theorem mem_erase {p : Nat × B} : p ∈ erase m k ↔ p ∈ m ∧ p.1 ≠ k := by
  simp [erase]

/-- Erasing a key that is not there changes nothing. -/
theorem erase_of_find_none (h : find m k = none) : erase m k = m := by
  refine List.filter_eq_self.mpr fun p hp => ?_
  unfold find at h
  rw [Option.map_eq_none_iff, List.find?_eq_none] at h
  simpa using h p hp

end OrdMap
