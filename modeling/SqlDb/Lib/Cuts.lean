/-
  CUTTING A LIST INTO PIECES.

  Two scanners go over one list.  Each cuts it at members that it takes for delimiters; the first one
  also cuts it BEHIND some members, without taking anything out.  Some members are blank, and only
  what is between the first and the last member that is not blank counts of a piece; a piece of
  blanks does not count at all.

  If the members of the list can be told apart, the two get the same pieces exactly if they take the
  same members for delimiters, and every additional cut has nothing but blanks on one of its sides,
  up to the next delimiter (`solid_eq_iff`).
-/
import Mathlib.Data.List.DropRight
import Mathlib.Data.List.Nodup

namespace Cuts

open List

/-- What a scanner does at a member: it stays in the piece, or the piece ends before it and it is
    taken out, or the piece ends behind it. -/
inductive Mark
  | stay | cut | last
deriving DecidableEq

variable {A : Type}

def pieces (current : List A) : List (A × Mark) → List (List A)
  | [] => [current]
  | (a, .stay) :: rest => pieces (current ++ [a]) rest
  | (_, .cut) :: rest => current :: pieces [] rest
  | (a, .last) :: rest => (current ++ [a]) :: pieces [] rest

variable {a : A}

theorem mem_pieces {current : List A} {l : List (A × Mark)} :
    (∃ p ∈ pieces current l, a ∈ p) ↔ a ∈ current ∨ ∃ m, (a, m) ∈ l ∧ m ≠ .cut := by
  induction l generalizing current with
  | nil => simp [pieces]
  | cons x rest ih =>
    obtain ⟨b, m⟩ := x
    have hmem : (∃ m', (a, m') ∈ (b, m) :: rest ∧ m' ≠ .cut) ↔
        (a = b ∧ m ≠ .cut) ∨ ∃ m', (a, m') ∈ rest ∧ m' ≠ .cut := by
      constructor
      · rintro ⟨m', hm', hne⟩
        rcases mem_cons.mp hm' with heq | hm'
        · cases heq
          exact Or.inl ⟨rfl, hne⟩
        · exact Or.inr ⟨m', hm', hne⟩
      · rintro (⟨rfl, hne⟩ | ⟨m', hm', hne⟩)
        · exact ⟨m, mem_cons_self .., hne⟩
        · exact ⟨m', mem_cons_of_mem _ hm', hne⟩
    rw [hmem]
    cases m with
    | stay =>
      rw [pieces, ih, mem_append, mem_singleton]
      simp [or_assoc]
    | cut =>
      rw [pieces]
      simp only [mem_cons, exists_eq_or_imp, ih]
      simp
    | last =>
      rw [pieces]
      simp only [mem_cons, exists_eq_or_imp, ih, mem_append]
      simp [or_assoc]

/-- A piece that ends behind a member ends there. -/
theorem pieces_append_last (current : List A) (l : List (A × Mark)) (a : A) (rest : List (A × Mark)) :
    pieces current (l ++ (a, .last) :: rest) = pieces current (l ++ [(a, .stay)]) ++ pieces [] rest := by
  induction l generalizing current with
  | nil => rfl
  | cons x l ih =>
    obtain ⟨b, m⟩ := x
    cases m with
    | stay => exact ih _
    | cut => exact congrArg (current :: ·) (ih [])
    | last => exact congrArg ((current ++ [b]) :: ·) (ih [])

/-- The scanner does not look at the members. -/
theorem pieces_map {B : Type} (f : A → B) (cur : List A) (l : List A) (ms : List Mark) :
    pieces (cur.map f) ((l.map f).zip ms) = (pieces cur (l.zip ms)).map (List.map f) := by
  induction l generalizing cur ms with
  | nil => rfl
  | cons a l ih =>
    cases ms with
    | nil => rfl
    | cons m ms =>
      cases m with
      | stay =>
        have h := ih (cur ++ [a]) ms
        rw [map_append] at h
        exact h
      | cut => exact congrArg (cur.map f :: ·) (ih [] ms)
      | last =>
        have h := ih [] ms
        rw [map_cons, zip_cons_cons, pieces, zip_cons_cons, pieces, map_cons,
          map_append]
        exact congrArg (_ :: ·) h

/-! ## Blanks -/

section Blank

variable (blank : A → Bool)

/-- A piece without the blanks around it. -/
def trim (p : List A) : List A := (p.dropWhile blank).rdropWhile blank

/-- The pieces that count. -/
def solid (ps : List (List A)) : List (List A) := (ps.filter fun p => !p.all blank).map (trim blank)

variable {blank} {p w : List A}

theorem trim_blank_append (hw : w.all blank = true) : trim blank (w ++ p) = trim blank p := by
  unfold trim
  rw [dropWhile_append_of_pos (by simpa using hw)]

theorem rdropWhile_append_blank (hw : w.all blank = true) :
    (p ++ w).rdropWhile blank = p.rdropWhile blank := by
  induction w using List.reverseRecOn with
  | nil => rw [append_nil]
  | append_singleton w a ih =>
    simp only [all_append, Bool.and_eq_true, all_cons, all_nil] at hw
    rw [← append_assoc, rdropWhile_concat_pos _ _ _ hw.2.1, ih hw.1]

theorem trim_append_blank (hw : w.all blank = true) : trim blank (p ++ w) = trim blank p := by
  unfold trim
  rw [dropWhile_append]
  split_ifs with hnil
  · have hwnil : w.dropWhile blank = [] := dropWhile_eq_nil_iff.mpr (by simpa using hw)
    rw [hwnil, isEmpty_iff.mp hnil]
  · exact rdropWhile_append_blank hw

/-- What is not blank stays. -/
theorem mem_trim (ha : blank a = false) : a ∈ trim blank p ↔ a ∈ p := by
  have hdrop : ∀ q : List A, a ∈ q.dropWhile blank ↔ a ∈ q := by
    intro q
    constructor
    · exact fun h => (dropWhile_suffix _).subset h
    · intro h
      rw [← takeWhile_append_dropWhile (p := blank) (l := q)] at h
      rcases mem_append.mp h with h | h
      · exact absurd (mem_takeWhile_imp h) (by simp [ha])
      · exact h
  unfold trim List.rdropWhile
  rw [mem_reverse, hdrop, mem_reverse, hdrop]

theorem solid_cons (p : List A) (ps : List (List A)) :
    solid blank (p :: ps) = if p.all blank then solid blank ps else trim blank p :: solid blank ps := by
  unfold solid
  rw [filter_cons]
  cases p.all blank <;> rfl

/-- A blank at the end does not count. -/
theorem solid_pieces_append_blank (ha : blank a = true) (cur : List A) (l : List (A × Mark)) :
    solid blank (pieces cur (l ++ [(a, .stay)])) = solid blank (pieces cur l) := by
  have hw : [a].all blank = true := by simp [ha]
  induction l generalizing cur with
  | nil =>
    show solid blank [cur ++ [a]] = solid blank [cur]
    rw [solid_cons, solid_cons, all_append, hw, Bool.and_true, trim_append_blank hw]
  | cons x l ih =>
    obtain ⟨b, m⟩ := x
    cases m with
    | stay => exact ih _
    | cut | last =>
      rw [cons_append, pieces, pieces, solid_cons, solid_cons, ih]

theorem trim_map {B : Type} (f : B → A) (p : List B) :
    trim blank (p.map f) = (trim (blank ∘ f) p).map f := by
  unfold trim List.rdropWhile
  rw [dropWhile_map, ← map_reverse, dropWhile_map, map_reverse]

theorem solid_map {B : Type} (f : B → A) (ps : List (List B)) :
    solid blank (ps.map (List.map f)) = (solid (blank ∘ f) ps).map (List.map f) := by
  induction ps with
  | nil => rfl
  | cons p ps ih =>
    rw [map_cons, solid_cons, solid_cons, all_map, trim_map, ih]
    split <;> rfl

variable {ps : List (List A)}

theorem exists_of_mem_solid {q : List A} (hq : q ∈ solid blank ps) :
    ∃ p ∈ ps, q = trim blank p := by
  obtain ⟨p, hp, rfl⟩ := mem_map.mp hq
  exact ⟨p, (mem_filter.mp hp).1, rfl⟩

/-- A piece with a member that is not blank counts. -/
theorem trim_mem_solid (ha : blank a = false) (hp : p ∈ ps)
    (hap : a ∈ p) : trim blank p ∈ solid blank ps := by
  refine mem_map_of_mem (mem_filter.mpr ⟨hp, ?_⟩)
  rw [Bool.not_eq_true', ← Bool.not_eq_true, all_eq_true]
  intro hall
  rw [hall a hap] at ha
  simp at ha

theorem mem_solid (ha : blank a = false) : (∃ q ∈ solid blank ps, a ∈ q) ↔ ∃ p ∈ ps, a ∈ p := by
  constructor
  · rintro ⟨q, hq, haq⟩
    obtain ⟨p, hp, rfl⟩ := exists_of_mem_solid hq
    exact ⟨p, hp, (mem_trim ha).mp haq⟩
  · rintro ⟨p, hp, hap⟩
    exact ⟨trim blank p, trim_mem_solid ha hp hap, (mem_trim ha).mpr hap⟩

end Blank

/-! ## Two scanners -/

/-- A member, and what the two scanners do at it. -/
structure Item (A : Type) where
  member : A
  mine : Mark
  theirs : Bool

def mine (l : List (Item A)) : List (A × Mark) := l.map fun x => (x.member, x.mine)

def theirs (l : List (Item A)) : List (A × Mark) :=
  l.map fun x => (x.member, if x.theirs then .cut else .stay)

/-- The members of a list with the two scanners' marks. -/
def items (l : List A) (ms : List Mark) (ts : List Bool) : List (Item A) :=
  (l.zip (ms.zip ts)).map fun x => ⟨x.1, x.2.1, x.2.2⟩

theorem getElem?_items {l : List A} {ms : List Mark} {ts : List Bool} {i : Nat} {x : Item A}
    (h : (items l ms ts)[i]? = some x) :
    l[i]? = some x.member ∧ ms[i]? = some x.mine ∧ ts[i]? = some x.theirs := by
  unfold items at h
  rw [getElem?_map, Option.map_eq_some_iff] at h
  obtain ⟨⟨a, m, t⟩, hzip, rfl⟩ := h
  rw [getElem?_zip_eq_some, getElem?_zip_eq_some] at hzip
  exact hzip

section Items

variable {l : List A} {ms : List Mark} {ts : List Bool} (hms : ms.length = l.length)
  (hts : ts.length = l.length)

include hms hts

theorem map_member_items : (items l ms ts).map Item.member = l := by
  unfold items
  rw [map_map]
  exact map_fst_zip (by simp [hms, hts])

theorem mine_items : mine (items l ms ts) = l.zip ms := by
  unfold mine items
  rw [map_map]
  have h : (ms.zip ts).map Prod.fst = ms := map_fst_zip (by omega)
  conv_rhs => rw [← h, zip_map_right]
  rfl

theorem theirs_items :
    theirs (items l ms ts) = l.zip (ts.map fun t => if t then .cut else .stay) := by
  unfold theirs items
  rw [map_map]
  have h : (ms.zip ts).map Prod.snd = ts := map_snd_zip (by omega)
  conv_rhs => rw [← h, map_map, zip_map_right]
  rfl

end Items

/-- What the second scanner has of its current piece after `l`. -/
def current (cur : List A) : List (Item A) → List A
  | [] => cur
  | x :: rest => current (if x.theirs then [] else cur ++ [x.member]) rest

/-- What it is going to add to its current piece. -/
def upToCut : List (Item A) → List A
  | [] => []
  | x :: rest => if x.theirs then [] else x.member :: upToCut rest

variable (blank : A → Bool)

/-- The additional cuts have nothing but blanks on one side. -/
def Harmless (cur : List A) (l : List (Item A)) : Prop :=
  ∀ pre x post, l = pre ++ x :: post → x.mine = .last →
    (current cur pre ++ [x.member]).all blank = true ∨ (upToCut post).all blank = true

section Sufficient

variable {blank} {cur : List A} {x : Item A} {rest : List (Item A)}

theorem Harmless.tail (h : Harmless blank cur (x :: rest)) :
    Harmless blank (if x.theirs then [] else cur ++ [x.member]) rest := by
  intro pre y post hl hlast
  exact h (x :: pre) y post (congrArg (x :: ·) hl) hlast

/-- The two scanners are in step, or the first one is ahead: it has already finished the piece that
    the second one still has to end, and only blanks are left of it. -/
theorem solid_pieces (l : List (Item A)) (hsame : ∀ x ∈ l, x.mine = .cut ↔ x.theirs = true) :
    (∀ w cur, w.all blank = true → Harmless blank (w ++ cur) l →
      solid blank (pieces cur (mine l)) = solid blank (pieces (w ++ cur) (theirs l))) ∧
    (∀ cur cur', cur.all blank = true → cur'.all blank = false → (upToCut l).all blank = true →
      Harmless blank cur' l →
      trim blank cur' :: solid blank (pieces cur (mine l)) = solid blank (pieces cur' (theirs l))) := by
  induction l with
  | nil =>
    constructor
    · intro w cur hw _
      show solid blank [cur] = solid blank [w ++ cur]
      rw [solid_cons, solid_cons, all_append, hw, Bool.true_and, trim_blank_append hw]
    · intro cur cur' hcur hcur' _ _
      show trim blank cur' :: solid blank [cur] = solid blank [cur']
      rw [solid_cons, solid_cons, if_pos hcur, if_neg (by simp [hcur'])]
  | cons x rest ih =>
    obtain ⟨ihstep, ihahead⟩ := ih fun y hy => hsame y (mem_cons_of_mem x hy)
    have hx := hsame x (mem_cons_self ..)
    obtain ⟨a, m, t⟩ := x
    constructor
    · intro w cur hw hharm
      have htail := hharm.tail
      cases m with
      | cut =>
        obtain rfl : t = true := hx.mp rfl
        show solid blank (cur :: pieces [] (mine rest))
          = solid blank ((w ++ cur) :: pieces [] (theirs rest))
        rw [solid_cons, solid_cons, all_append, hw, Bool.true_and, trim_blank_append hw,
          ihstep [] [] rfl htail]
        rfl
      | stay =>
        obtain rfl : t = false := by
          cases t with
          | false => rfl
          | true => exact absurd (hx.mpr rfl) (by simp)
        have h := ihstep w (cur ++ [a]) hw (by simpa using htail)
        rw [← append_assoc] at h
        exact h
      | last =>
        obtain rfl : t = false := by
          cases t with
          | false => rfl
          | true => exact absurd (hx.mpr rfl) (by simp)
        show solid blank ((cur ++ [a]) :: pieces [] (mine rest))
          = solid blank (pieces (w ++ cur ++ [a]) (theirs rest))
        have hall : (w ++ cur ++ [a]).all blank = (cur ++ [a]).all blank := by
          rw [append_assoc, all_append, hw, Bool.true_and]
        have htrim : trim blank (w ++ cur ++ [a]) = trim blank (cur ++ [a]) := by
          rw [append_assoc, trim_blank_append hw]
        rw [solid_cons]
        cases hblank : (cur ++ [a]).all blank with
        | true =>
          have h := ihstep (w ++ cur ++ [a]) [] (hall.trans hblank) (by simpa using htail)
          rw [append_nil] at h
          exact h
        | false =>
          -- something has been finished, so nothing may follow
          have hrest : (upToCut rest).all blank = true := by
            refine (hharm [] _ rest rfl rfl).resolve_left ?_
            show ¬ (w ++ cur ++ [a]).all blank = true
            rw [hall, hblank]
            simp
          have h := ihahead [] (w ++ cur ++ [a]) rfl (hall.trans hblank) hrest htail
          rw [htrim] at h
          exact h
    · intro cur cur' hcur hcur' hrest hharm
      have htail := hharm.tail
      cases t with
      | true =>
        obtain rfl : m = .cut := hx.mpr rfl
        show trim blank cur' :: solid blank (cur :: pieces [] (mine rest))
          = solid blank (cur' :: pieces [] (theirs rest))
        rw [solid_cons, solid_cons, if_pos hcur, if_neg (by simp [hcur']), ihstep [] [] rfl htail]
        rfl
      | false =>
        have hup : blank a = true ∧ (upToCut rest).all blank = true := by
          simpa [upToCut] using hrest
        have ha : [a].all blank = true := by simp [hup.1]
        have hcur'a : (cur' ++ [a]).all blank = false := by simp [hcur', hup.1]
        have hcura : (cur ++ [a]).all blank = true := by
          rw [all_append, hcur, ha]
          rfl
        rw [← trim_append_blank ha]
        cases m with
        | cut => exact absurd (hx.mp rfl) (by simp)
        | stay => exact ihahead (cur ++ [a]) (cur' ++ [a]) hcura hcur'a hup.2 htail
        | last =>
          show trim blank (cur' ++ [a]) :: solid blank ((cur ++ [a]) :: pieces [] (mine rest)) = _
          rw [solid_cons, if_pos hcura]
          exact ihahead [] (cur' ++ [a]) rfl hcur'a hup.2 htail

end Sufficient

section Necessary

variable {blank} {l : List (Item A)}

theorem mem_mine {m : Mark} : (a, m) ∈ mine l ↔ ∃ x ∈ l, x.member = a ∧ x.mine = m := by
  unfold mine
  simp [mem_map]

theorem mem_theirs : (∃ m, (a, m) ∈ theirs l ∧ m ≠ .cut) ↔
    ∃ x ∈ l, x.member = a ∧ x.theirs = false := by
  unfold theirs
  constructor
  · rintro ⟨m, hm, hne⟩
    obtain ⟨x, hx, heq⟩ := mem_map.mp hm
    cases heq
    refine ⟨x, hx, rfl, ?_⟩
    cases ht : x.theirs with
    | false => rfl
    | true => exact absurd (if_pos ht) hne
  · rintro ⟨x, hx, rfl, ht⟩
    exact ⟨_, mem_map_of_mem hx, by simp [ht]⟩

/-- The second scanner goes on with what it has after `pre`. -/
theorem pieces_theirs_append (cur : List A) (pre : List (Item A)) (rest : List (A × Mark)) :
    ∃ ps, pieces cur (theirs pre ++ rest) = ps ++ pieces (current cur pre) rest := by
  induction pre generalizing cur with
  | nil => exact ⟨[], rfl⟩
  | cons x pre ih =>
    obtain ⟨a, m, t⟩ := x
    cases t with
    | false => exact ih (cur ++ [a])
    | true =>
      obtain ⟨ps, hps⟩ := ih []
      exact ⟨cur :: ps, congrArg (cur :: ·) hps⟩

theorem pieces_theirs_head (cur : List A) (post : List (Item A)) :
    ∃ ps, pieces cur (theirs post) = (cur ++ upToCut post) :: ps := by
  induction post generalizing cur with
  | nil => exact ⟨[], by simp [theirs, pieces, upToCut]⟩
  | cons x post ih =>
    obtain ⟨a, m, t⟩ := x
    cases t with
    | false =>
      obtain ⟨ps, hps⟩ := ih (cur ++ [a])
      exact ⟨ps, by simpa [theirs, pieces, upToCut] using hps⟩
    | true => exact ⟨pieces [] (theirs post), congrArg (· :: _) (append_nil cur).symm⟩

theorem mem_of_mem_current {cur : List A} {pre : List (Item A)} (h : a ∈ current cur pre) :
    a ∈ cur ∨ a ∈ pre.map Item.member := by
  induction pre generalizing cur with
  | nil => exact Or.inl h
  | cons x pre ih =>
    rw [current] at h
    rcases ih h with h | h
    · split at h
      · simp at h
      · rcases mem_append.mp h with h | h
        · exact Or.inl h
        · exact Or.inr (mem_cons.mpr (Or.inl (mem_singleton.mp h)))
    · exact Or.inr (mem_cons_of_mem _ h)

theorem mem_of_mem_upToCut {post : List (Item A)} (h : a ∈ upToCut post) :
    a ∈ post.map Item.member := by
  induction post with
  | nil => simp [upToCut] at h
  | cons x post ih =>
    rw [upToCut] at h
    split at h
    · simp at h
    · rcases mem_cons.mp h with rfl | h
      · exact mem_cons_self ..
      · exact mem_cons_of_mem _ (ih h)

theorem mem_of_mem_piece {p : List A} (hp : p ∈ pieces [] (mine l)) (ha : a ∈ p) :
    a ∈ l.map Item.member := by
  rcases mem_pieces.mp ⟨p, hp, ha⟩ with h | ⟨m, hm, -⟩
  · simp at h
  · obtain ⟨x, hx, rfl, -⟩ := mem_mine.mp hm
    exact mem_map_of_mem hx

variable (hnodup : (l.map Item.member).Nodup)
  (hcut : ∀ x ∈ l, x.mine = .cut ∨ x.theirs = true → blank x.member = false)
  (heq : solid blank (pieces [] (mine l)) = solid blank (pieces [] (theirs l)))

include hnodup hcut heq

/-- A delimiter is in no piece. -/
theorem same_cuts : ∀ x ∈ l, x.mine = .cut ↔ x.theirs = true := by
  intro x hx
  have hunique : ∀ y ∈ l, y.member = x.member → y = x := fun y hy h =>
    inj_on_of_nodup_map hnodup hy hx h
  have hmine : (∃ p ∈ pieces [] (mine l), x.member ∈ p) ↔ x.mine ≠ .cut := by
    rw [mem_pieces]
    constructor
    · rintro (h | ⟨m, hm, hne⟩)
      · simp at h
      · obtain ⟨y, hy, hmember, rfl⟩ := mem_mine.mp hm
        exact hunique y hy hmember ▸ hne
    · exact fun hne => Or.inr ⟨x.mine, mem_mine.mpr ⟨x, hx, rfl, rfl⟩, hne⟩
  have htheirs : (∃ p ∈ pieces [] (theirs l), x.member ∈ p) ↔ x.theirs = false := by
    rw [mem_pieces, mem_theirs]
    constructor
    · rintro (h | ⟨y, hy, hmember, ht⟩)
      · simp at h
      · exact hunique y hy hmember ▸ ht
    · exact fun ht => Or.inr ⟨x, hx, rfl, ht⟩
  have hboth : x.mine = .cut ∨ x.theirs = true → (x.mine ≠ .cut ↔ x.theirs = false) := by
    intro h
    have hblank := hcut x hx h
    rw [← hmine, ← htheirs, ← mem_solid hblank, heq, mem_solid hblank]
  constructor
  · intro h
    cases ht : x.theirs with
    | true => rfl
    | false => exact absurd h ((hboth (Or.inl h)).mpr ht)
  · intro h
    by_contra hne
    rw [(hboth (Or.inr h)).mp hne] at h
    simp at h

/-- What is on the two sides of an additional cut is in one piece of the second scanner and in two of
    the first. -/
theorem harmless_of_eq : Harmless blank [] l := by
  intro pre x post hl hlast
  by_contra hnot
  simp only [not_or, Bool.not_eq_true, all_eq_false] at hnot
  obtain ⟨⟨a, ha, hblanka⟩, b, hb, hblankb⟩ := hnot
  have hmemx : x ∈ l := hl ▸ mem_append_right pre (mem_cons_self ..)
  have htheirs : x.theirs = false := by
    cases ht : x.theirs with
    | false => rfl
    | true =>
      have hc := (same_cuts hnodup hcut heq x hmemx).mpr ht
      rw [hlast] at hc
      simp at hc
  subst hl
  -- one piece of the second scanner has both
  obtain ⟨p, hp, hap, hbp⟩ : ∃ p ∈ pieces [] (theirs (pre ++ x :: post)), a ∈ p ∧ b ∈ p := by
    obtain ⟨ps, hps⟩ := pieces_theirs_append [] pre (theirs (x :: post))
    obtain ⟨qs, hqs⟩ := pieces_theirs_head (current [] pre) (x :: post)
    have hup : upToCut (x :: post) = x.member :: upToCut post := by
      rw [upToCut, if_neg (by simp [htheirs])]
    refine ⟨current [] pre ++ upToCut (x :: post), ?_, ?_, ?_⟩
    · rw [show theirs (pre ++ x :: post) = theirs pre ++ theirs (x :: post) from map_append, hps,
        hqs]
      simp
    · rw [hup]
      rcases mem_append.mp ha with ha | ha
      · exact mem_append_left _ ha
      · exact mem_append_right _ (by simp [mem_singleton.mp ha])
    · rw [hup]
      exact mem_append_right _ (mem_cons_of_mem _ hb)
  -- so that one piece of the first scanner has both
  have hq := trim_mem_solid hblanka hp hap
  rw [← heq] at hq
  obtain ⟨p', hp', htrim⟩ := exists_of_mem_solid hq
  have hap' : a ∈ p' := (mem_trim hblanka).mp (htrim ▸ (mem_trim hblanka).mpr hap)
  have hbp' : b ∈ p' := (mem_trim hblankb).mp (htrim ▸ (mem_trim hblankb).mpr hbp)
  have hsides : mine (pre ++ x :: post) = mine pre ++ (x.member, .last) :: mine post := by
    rw [← hlast]
    exact map_append
  have hleft : ∀ c ∈ current [] pre ++ [x.member], c ∈ (pre ++ [x]).map Item.member := by
    intro c hc
    rw [map_append]
    rcases mem_append.mp hc with hc | hc
    · exact mem_append_left _ ((mem_of_mem_current hc).resolve_left (by simp))
    · exact mem_append_right _ hc
  have hdisjoint : ∀ c ∈ (pre ++ [x]).map Item.member, c ∉ post.map Item.member := by
    have hsplit : (pre ++ x :: post).map Item.member
        = (pre ++ [x]).map Item.member ++ post.map Item.member := by simp
    rw [hsplit] at hnodup
    intro c hc hc'
    exact (nodup_append.mp hnodup).2.2 c hc c hc' rfl
  rw [hsides, pieces_append_last] at hp'
  rcases mem_append.mp hp' with hp' | hp'
  · -- left of the cut, where `b` is not
    refine hdisjoint b ?_ (mem_of_mem_upToCut hb)
    rcases mem_pieces.mp ⟨p', hp', hbp'⟩ with h | ⟨m, hm, -⟩
    · simp at h
    · rw [map_append]
      rcases mem_append.mp hm with hm | hm
      · obtain ⟨y, hy, rfl, -⟩ := mem_mine.mp hm
        exact mem_append_left _ (mem_map_of_mem hy)
      · obtain ⟨rfl, -⟩ := Prod.mk.inj (mem_singleton.mp hm)
        exact mem_append_right _ (by simp)
  · -- right of the cut, where `a` is not
    exact hdisjoint a (hleft a ha) (mem_of_mem_piece hp' hap')

end Necessary

/-- **Two scanners get the same pieces** exactly if they take the same members for delimiters, and the
    first one's additional cuts are harmless. -/
theorem solid_eq_iff {l : List (Item A)} (hnodup : (l.map Item.member).Nodup)
    (hcut : ∀ x ∈ l, x.mine = .cut ∨ x.theirs = true → blank x.member = false) :
    solid blank (pieces [] (mine l)) = solid blank (pieces [] (theirs l)) ↔
      (∀ x ∈ l, x.mine = .cut ↔ x.theirs = true) ∧ Harmless blank [] l := by
  constructor
  · intro heq
    exact ⟨same_cuts hnodup hcut heq, harmless_of_eq hnodup hcut heq⟩
  · rintro ⟨hsame, hharm⟩
    exact (solid_pieces l hsame).1 [] [] rfl hharm

end Cuts
