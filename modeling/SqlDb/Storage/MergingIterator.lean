/-
  SCANS INSIDE A TRANSACTION  (`OverlayCursor`, storage/kv_engine/tx_buffer.cpp, and
  `MergingIterator`, storage/kv_engine/merging_iterator.cpp).

  The overlay cursor walks the keys the transaction has put or removed; it stands on a KEY of the
  buffer's view, as a `std::map` iterator does.  The merging iterator keeps a base iterator and the
  cursor side by side, `settle`s on the next row to show and advances the sides that supplied it.

  The cursor asks the buffer for the EFFECTIVE answer at its key, so a key that was written and then
  covered by a range delete is skipped.  A base row whose key is not in the view is passed through
  without asking: `yields_create` says so exactly, by way of the abstract merge.
-/
import SqlDb.Lib.OverlayMerge
import SqlDb.Storage.Iterator
import SqlDb.Storage.TxBuffer

namespace SqlDb.Kv

open List

/-! ## The overlay cursor -/

structure OverlayCursor where
  start : Option Bytes
  stop : Option Bytes
  direction : ScanDirection
  /-- The key the cursor stands on. -/
  position : Option Bytes := none

variable (buf : TxBuffer)

namespace OverlayCursor

def inBounds (c : OverlayCursor) : Bool :=
  match c.position with
  | none => false
  | some k => KeyRange.contains { start := c.start, stop := c.stop } k

def valid (c : OverlayCursor) : Bool := c.inBounds

def key (c : OverlayCursor) : Bytes := c.position.getD []

def op (c : OverlayCursor) : OverlayOp := buf.lookup c.key

def next (c : OverlayCursor) : OverlayCursor :=
  match c.position with
  | none => c
  | some k =>
    { c with position := match c.direction with
        | .forward => buf.view.upperBound k
        | .reverse => buf.view.lastBelow k }

/-- The first key of the bounds in scan direction. -/
def seekStart (c : OverlayCursor) : OverlayCursor :=
  { c with position := match c.direction with
      | .forward =>
        match c.start with
        | some s => buf.view.lowerBound s
        | none => buf.view.firstKey
      | .reverse =>
        match c.stop with
        | some e => buf.view.lastBelow e
        | none => buf.view.lastKey }

end OverlayCursor

def TxBuffer.overlayScan (range : KeyRange) : OverlayCursor :=
  OverlayCursor.seekStart buf
    { start := range.start, stop := range.stop, direction := range.direction }

/-! ## The merging iterator -/

structure MergingIterator (I : Type) where
  db : I
  buffer : TxBuffer
  overlay : OverlayCursor
  direction : ScanDirection
  valid : Bool := false
  currentKey : Bytes := []
  currentValue : Bytes := []
  fromDb : Bool := false
  fromOverlay : Bool := false

/-- The value of an answer; empty where there is none. -/
def OverlayOp.valueOrEmpty : OverlayOp → Bytes
  | .value v => v
  | _ => []

namespace MergingIterator

variable {I : Type} [Iterator I]

def overlayFirst (m : MergingIterator I) : Bool :=
  if !m.overlay.valid then false
  else if !Iterator.valid m.db then true
  else decide (m.direction.before m.overlay.key (Iterator.key m.db))

/-- Show `(key, value)`, and remember which sides stand on that key. -/
def found (m : MergingIterator I) (key value : Bytes) : MergingIterator I :=
  { m with
    valid := true
    currentKey := key
    currentValue := value
    fromDb := Iterator.valid m.db && Iterator.key m.db == key
    fromOverlay := m.overlay.valid && m.overlay.key == key }

/-- The loop of `settle`.  Each round but the last moves the overlay cursor. -/
def settleLoop : Nat → MergingIterator I → MergingIterator I
  | 0, m => { m with valid := false }
  | fuel + 1, m =>
    let dbOk := Iterator.valid m.db
    let ovOk := m.overlay.valid
    if !dbOk && !ovOk then { m with valid := false }
    else if m.overlayFirst then
      let op := m.overlay.op m.buffer
      if op.isTombstone then settleLoop fuel { m with overlay := m.overlay.next m.buffer }
      else m.found m.overlay.key op.valueOrEmpty
    else if !dbOk then { m with valid := false }
    else if ovOk && !decide (m.direction.before (Iterator.key m.db) m.overlay.key) then
      let op := m.overlay.op m.buffer
      if op.isTombstone then
        settleLoop fuel
          { m with db := Iterator.next m.db, overlay := m.overlay.next m.buffer }
      else m.found (Iterator.key m.db) op.valueOrEmpty
    else m.found (Iterator.key m.db) (Iterator.value m.db)

/-- Settle on the next row to show. -/
def settle (m : MergingIterator I) : MergingIterator I :=
  settleLoop (m.buffer.view.entries.length + 1) m

def advanceSources (m : MergingIterator I) : MergingIterator I :=
  { m with
    db := if m.fromDb then Iterator.next m.db else m.db
    overlay := if m.fromOverlay then m.overlay.next m.buffer else m.overlay }

def next (m : MergingIterator I) : MergingIterator I :=
  if !m.valid then m else settle m.advanceSources

def create (db : I) (buffer : TxBuffer) (range : KeyRange) : MergingIterator I :=
  settle { db, buffer, overlay := buffer.overlayScan range, direction := range.direction }

instance : Iterator (MergingIterator I) where
  valid := valid
  key := fun m => if m.valid then m.currentKey else []
  value := fun m => if m.valid then m.currentValue else []
  next := next

end MergingIterator

/-! ## What the cursor visits -/

section Lists

variable {A : Type} {p : A → Bool} {l : List A}

/-- The element after `a` in a sorted list is the first one above it. -/
theorem find?_after {r : A → A → Prop} [DecidableRel r] [IsStrictTotalOrder A r]
    (hs : l.Pairwise r) {a : A} {rest : List A} (h : a :: rest <:+ l) :
    l.find? (fun b => decide (r a b)) = rest.head? := by
  obtain ⟨pre, rfl⟩ := h
  have hpre : ∀ b ∈ pre, ¬ r a b := fun b hb hab =>
    Std.Irrefl.irrefl (r := r) a (IsTrans.trans _ _ _ hab
      ((pairwise_append.mp hs).2.2 b hb a (mem_cons_self ..)))
  rw [find?_append, find?_eq_none.mpr (by simpa using hpre), Option.none_or,
    find?_cons_of_neg (by simpa using Std.Irrefl.irrefl (r := r) a)]
  cases rest with
  | nil => rfl
  | cons b rest =>
    have hab : r a b := rel_of_pairwise_cons (pairwise_append.mp hs).2.1 (mem_cons_self ..)
    rw [find?_cons_of_pos (by simpa using hab)]
    rfl

/-- The first element of a list where `p` holds begins what is left after skipping to it. -/
theorem find?_eq_head?_dropWhile : l.find? p = (l.dropWhile fun a => !p a).head? := by
  induction l with
  | nil => rfl
  | cons a l ih =>
    by_cases ha : p a = true
    · rw [find?_cons_of_pos ha, dropWhile_cons_of_neg (by simp [ha])]
      rfl
    · rw [find?_cons_of_neg ha, dropWhile_cons_of_pos (by simpa using ha), ih]

end Lists

namespace OverlayCursor

/-- From `c` on, `next` visits exactly the keys `os`. -/
def Walks (buf : TxBuffer) : OverlayCursor → List Bytes → Prop
  | c, [] => c.valid = false
  | c, o :: os => c.valid = true ∧ c.key = o ∧ Walks buf (c.next buf) os

/-- The keys of the view, in scan order. -/
def keys (d : ScanDirection) : List Bytes := d.order (buf.view.entries.map Prod.fst)

theorem keys_sorted (d : ScanDirection) : (keys buf d).Pairwise d.before := by
  have hview : (buf.view.entries.map Prod.fst).Pairwise fun p q => id p < id q :=
    pairwise_map.mpr buf.view.sorted
  exact d.order_sorted hview

theorem map_find? (l : List (Bytes × TxEntry)) (p : Bytes → Bool) :
    (l.find? fun e => p e.1).map Prod.fst = (l.map Prod.fst).find? p := by
  rw [find?_map]
  rfl

theorem head?_eq_find? (l : List (Bytes × TxEntry)) :
    l.head?.map Prod.fst = (l.map Prod.fst).find? fun _ => true := by
  cases l <;> rfl

theorem upperBound_eq (k : Bytes) : buf.view.upperBound k
    = (keys buf .forward).find? fun b => decide (ScanDirection.forward.before k b) :=
  map_find? _ fun b => decide (k < b)

theorem lastBelow_eq (k : Bytes) : buf.view.lastBelow k
    = (keys buf .reverse).find? fun b => decide (ScanDirection.reverse.before k b) :=
  (map_find? _ fun b => decide (b < k)).trans (by rw [map_reverse]; rfl)

/-- A cursor that stands at the beginning of a stretch of keys walks it as long as it is in bounds. -/
theorem walks_suffix {suffix : List Bytes} {c : OverlayCursor}
    (hsuf : suffix <:+ keys buf c.direction) (hpos : c.position = suffix.head?) :
    Walks buf c (suffix.takeWhile (KeyRange.contains { start := c.start, stop := c.stop })) := by
  induction suffix generalizing c with
  | nil =>
    show c.valid = false
    simp [valid, inBounds, hpos]
  | cons k rest ih =>
    have hpos : c.position = some k := hpos
    have hvalid : c.valid = KeyRange.contains { start := c.start, stop := c.stop } k := by
      simp [valid, inBounds, hpos]
    by_cases hk : KeyRange.contains { start := c.start, stop := c.stop } k = true
    · rw [takeWhile_cons_of_pos hk]
      refine ⟨hvalid.trans hk, by simp [key, hpos], ?_⟩
      -- the neighbour in scan direction is the next key of the stretch
      have hnext := find?_after (keys_sorted buf c.direction) hsuf
      have hstep : c.next buf = { c with position := rest.head? } := by
        unfold next
        rw [hpos, ← hnext]
        cases hdir : c.direction with
        | forward => simp only [upperBound_eq]
        | reverse => simp only [lastBelow_eq]
      rw [hstep]
      exact ih ((suffix_cons k rest).trans hsuf) rfl
    · rw [takeWhile_cons_of_neg hk]
      show c.valid = false
      rw [hvalid]
      simpa using hk

/-- Skipping to the bounds and stopping at their end visits what lies in them. -/
theorem takeWhile_dropWhile (range : KeyRange) {first last : Bytes → Bool}
    (hcontains : ∀ k, range.contains k = (first k && last k))
    (hfirst : ∀ a b, range.direction.before a b → first a = true → first b = true)
    (hlast : ∀ a b, range.direction.before a b → last b = true → last a = true) :
    ((keys buf range.direction).dropWhile fun k => !first k).takeWhile range.contains
      = (keys buf range.direction).filter range.contains := by
  have hs := keys_sorted buf range.direction
  have hmono : ((keys buf range.direction).filter first).Pairwise
      fun a b => range.contains b = true → range.contains a = true := by
    refine ((hs.filter first).imp_of_mem fun {a b} ha _ hab hb => ?_)
    rw [hcontains, Bool.and_eq_true] at hb ⊢
    exact ⟨(mem_filter.mp ha).2, hlast a b hab hb.2⟩
  rw [SortedMap.dropWhile_eq_filter (hs.imp fun hab => hfirst _ _ hab),
    SortedMap.takeWhile_eq_filter hmono, filter_filter]
  refine filter_congr fun k _ => ?_
  rw [hcontains]
  cases first k <;> simp

/-- **The cursor's walk**: the keys of the view that lie in the range, in scan order. -/
theorem walks_overlayScan (range : KeyRange) :
    Walks buf (buf.overlayScan range) ((keys buf range.direction).filter range.contains) := by
  obtain ⟨start, stop, limit, direction⟩ := range
  let above (k : Bytes) : Bool := match start with
    | some s => !decide (k < s)
    | none => true
  let below (k : Bytes) : Bool := match stop with
    | some e => decide (k < e)
    | none => true
  have hbelow : ∀ a b, a < b → below b = true → below a = true := by
    intro a b hab h
    cases stop with
    | none => rfl
    | some e => exact decide_eq_true (List.lt_trans hab (of_decide_eq_true h))
  have habove : ∀ a b, a < b → above a = true → above b = true := by
    intro a b hab h
    cases start with
    | none => rfl
    | some s =>
      simp only [above, Bool.not_eq_true', decide_eq_false_iff_not] at h ⊢
      exact fun hbs => h (List.lt_trans hab hbs)
  cases direction with
  | forward =>
    rw [← takeWhile_dropWhile buf ⟨start, stop, limit, .forward⟩ (fun _ => rfl) habove hbelow]
    refine walks_suffix buf (dropWhile_suffix _) ?_
    show (match start with
      | some s => buf.view.lowerBound s
      | none => buf.view.firstKey) = _
    rw [← find?_eq_head?_dropWhile]
    cases start with
    | some s => exact map_find? _ fun b => !decide (b < s)
    | none => exact head?_eq_find? buf.view.entries
  | reverse =>
    rw [← takeWhile_dropWhile buf ⟨start, stop, limit, .reverse⟩
      (fun k => Bool.and_comm (above k) (below k)) (fun a b hab => hbelow b a hab)
      (fun a b hab => habove b a hab)]
    refine walks_suffix buf (dropWhile_suffix _) ?_
    show (match stop with
      | some e => buf.view.lastBelow e
      | none => buf.view.lastKey) = _
    rw [← find?_eq_head?_dropWhile]
    cases stop with
    | some e => exact (map_find? _ fun b => decide (b < e)).trans (by rw [map_reverse]; rfl)
    | none => exact (head?_eq_find? buf.view.entries.reverse).trans (by rw [map_reverse]; rfl)

end OverlayCursor

/-! ## What the merging iterator visits -/

/-- The value an answer supplies, if it does. -/
def OverlayOp.toOption : OverlayOp → Option Bytes
  | .value v => some v
  | _ => Option.none

namespace MergingIterator

open OverlayCursor OverlayMerge

variable {I : Type} [Iterator I]

/-- The two sides of a merging iterator, with what is left on each. -/
structure Sources (m : MergingIterator I) (ds : List (Bytes × Bytes)) (os : List Bytes) : Prop where
  db : Yields m.db ds
  overlay : Walks m.buffer m.overlay os
  db_sorted : ds.Pairwise fun p q => m.direction.before p.1 q.1
  overlay_sorted : os.Pairwise m.direction.before
  known : ∀ o ∈ os, m.buffer.lookup o ≠ .none
  short : os.length ≤ m.buffer.view.entries.length

/-- The rows that are left. -/
def rows (m : MergingIterator I) (ds : List (Bytes × Bytes)) (os : List Bytes) :
    List (Bytes × Bytes) :=
  merge m.direction.before (fun k => (m.buffer.lookup k).toOption) ds os

variable {m : MergingIterator I} {d : Bytes × Bytes} {ds : List (Bytes × Bytes)} {o : Bytes}
  {os : List Bytes}

theorem Sources.nextOverlay (h : Sources m ds (o :: os)) :
    Sources { m with overlay := m.overlay.next m.buffer } ds os :=
  { h with
    overlay := h.overlay.2.2
    overlay_sorted := h.overlay_sorted.of_cons
    known := fun k hk => h.known k (mem_cons_of_mem o hk)
    short := Nat.le_of_succ_le h.short }

theorem Sources.nextDb (h : Sources m (d :: ds) os) :
    Sources { m with db := Iterator.next m.db } ds os :=
  { h with db := h.db.2.2.2, db_sorted := h.db_sorted.of_cons }

theorem Sources.congr {m' : MergingIterator I} (h : Sources m ds os) (hdb : m'.db = m.db)
    (hbuffer : m'.buffer = m.buffer) (hoverlay : m'.overlay = m.overlay)
    (hdirection : m'.direction = m.direction) : Sources m' ds os where
  db := hdb ▸ h.db
  overlay := by rw [hbuffer, hoverlay]; exact h.overlay
  db_sorted := hdirection ▸ h.db_sorted
  overlay_sorted := hdirection ▸ h.overlay_sorted
  known := hbuffer ▸ h.known
  short := hbuffer ▸ h.short

/-- `m` shows the first of `rows`, and advancing its sources leaves the others; `n` bounds what is
    left. -/
def Shows (m : MergingIterator I) (n : Nat) : List (Bytes × Bytes) → Prop
  | [] => m.valid = false
  | p :: rest => m.valid = true ∧ m.currentKey = p.1 ∧ m.currentValue = p.2 ∧
    ∃ ds os, Sources m.advanceSources ds os ∧ rest = m.advanceSources.rows ds os ∧
      ds.length + os.length < n

/-- Showing a row: the sides that stand on its key are advanced later. -/
theorem shows_found {key value : Bytes} {n : Nat} {db : I} {overlay : OverlayCursor}
    (hdb : (if Iterator.valid m.db && Iterator.key m.db == key then Iterator.next m.db else m.db) = db)
    (hoverlay : (if m.overlay.valid && m.overlay.key == key then m.overlay.next m.buffer
      else m.overlay) = overlay)
    (h : Sources { m with db, overlay } ds os) (hlt : ds.length + os.length < n) :
    Shows (m.found key value) n ((key, value) :: m.rows ds os) := by
  have hadv : (m.found key value).advanceSources = { m.found key value with db, overlay } := by
    unfold advanceSources found
    simp only [hdb, hoverlay]
  refine ⟨rfl, rfl, rfl, ds, os, ?_, ?_, hlt⟩
  · rw [hadv]
    exact h.congr rfl rfl rfl rfl
  · rw [hadv]
    rfl

/-- What the overlay says at its key: a tombstone is skipped, a value is shown. -/
theorem shows_answer (hknown : m.buffer.lookup o ≠ .none) {skipped : MergingIterator I} {n : Nat}
    (hskipped : Shows skipped n (m.rows ds os))
    (hfound : ∀ v, Shows (m.found o v) n ((o, v) :: m.rows ds os)) :
    Shows (if (m.buffer.lookup o).isTombstone then skipped
        else m.found o (m.buffer.lookup o).valueOrEmpty) n
      (emit (fun k => (m.buffer.lookup k).toOption) o ++ m.rows ds os) := by
  dsimp only [emit]
  cases hl : m.buffer.lookup o with
  | none => exact absurd hl hknown
  | tombstone => exact hskipped
  | value v => exact hfound v

theorem Shows.mono {n n' : Nat} {l : List (Bytes × Bytes)} (h : Shows m n l) (hle : n ≤ n') :
    Shows m n' l := by
  cases l with
  | nil => exact h
  | cons p rest =>
    obtain ⟨h1, h2, h3, ds, os, hsrc, hrest, hlt⟩ := h
    exact ⟨h1, h2, h3, ds, os, hsrc, hrest, hlt.trans_le hle⟩

/-- **Settling** finds the first row of the merge, within as many rounds as the overlay has keys. -/
theorem settleLoop_shows (fuel : Nat) (h : Sources m ds os) (hfuel : os.length < fuel) :
    Shows (settleLoop fuel m) (ds.length + os.length) (m.rows ds os) := by
  induction fuel generalizing m ds os with
  | zero => omega
  | succ fuel ih =>
    unfold settleLoop
    dsimp only
    cases os with
    | nil =>
      have hov : m.overlay.valid = false := h.overlay
      cases ds with
      | nil =>
        have hdb : Iterator.valid m.db = false := h.db
        simp only [rows, OverlayMerge.merge, hov, hdb, Bool.not_false, Bool.and_self, if_true]
        rfl
      | cons d ds =>
        obtain ⟨hvalid, hkey, hvalue, -⟩ := h.db
        simp only [overlayFirst, hov, hvalid, hkey, hvalue, Bool.not_true, Bool.not_false,
          Bool.false_and, Bool.false_eq_true, if_false, if_true]
        rw [rows, OverlayMerge.merge]
        exact shows_found (if_pos (by simp [hvalid, hkey])) (if_neg (by simp [hov])) h.nextDb (by simp)
    | cons o os =>
      obtain ⟨hovalid, hokey, -⟩ := h.overlay
      have hop : m.overlay.op m.buffer = m.buffer.lookup o := by rw [OverlayCursor.op, hokey]
      have hknown := h.known o (mem_cons_self ..)
      have hfuel := Nat.lt_of_succ_lt_succ hfuel
      cases ds with
      | nil =>
        have hdb : Iterator.valid m.db = false := h.db
        simp only [overlayFirst, hovalid, hdb, hop, hokey, Bool.not_true, Bool.not_false,
          Bool.and_false, Bool.false_eq_true, if_false, if_true]
        rw [rows, OverlayMerge.merge]
        exact shows_answer hknown ((ih h.nextOverlay hfuel).mono (by simp)) fun v =>
          shows_found (if_neg (by simp [hdb])) (if_pos (by simp [hovalid, hokey])) h.nextOverlay
            (by simp)
      | cons d ds =>
        obtain ⟨hvalid, hkey, hvalue, -⟩ := h.db
        simp only [overlayFirst, hovalid, hvalid, hop, hokey, hkey, hvalue, Bool.not_true,
          Bool.and_false, Bool.false_eq_true, if_false, Bool.true_and, decide_eq_true_eq,
          Bool.not_eq_true', decide_eq_false_iff_not]
        rw [rows, OverlayMerge.merge]
        by_cases hlt : m.direction.before o d.1
        · -- the overlay's key comes first
          have hne : d.1 ≠ o := fun heq => by
            rw [heq] at hlt
            exact not_rel_self o hlt
          rw [if_pos hlt, if_pos hlt]
          exact shows_answer hknown ((ih h.nextOverlay hfuel).mono (by simp)) fun v =>
            shows_found (if_neg (by simp [hkey, hne])) (if_pos (by simp [hovalid, hokey]))
              h.nextOverlay (by simp)
        · rw [if_neg hlt, if_neg hlt]
          by_cases hgt : m.direction.before d.1 o
          · -- the base's key comes first
            have hne : o ≠ d.1 := fun heq => by
              rw [heq] at hgt
              exact not_rel_self d.1 hgt
            rw [if_neg (not_not_intro hgt), if_pos hgt]
            exact shows_found (if_pos (by simp [hvalid, hkey])) (if_neg (by simp [hokey, hne]))
              h.nextDb (by simp)
          · -- both stand on one key
            have heq : d.1 = o := Std.Trichotomous.trichotomous (r := m.direction.before) _ _ hgt hlt
            rw [if_pos hgt, if_neg hgt, heq]
            refine shows_answer hknown ((ih h.nextDb.nextOverlay hfuel).mono (by simp; omega))
              fun v => ?_
            exact shows_found (if_pos (by simp [hvalid, hkey, heq])) (if_pos (by simp [hovalid, hokey]))
              h.nextDb.nextOverlay (by simp; omega)

/-- **The merging iterator visits the merge of its sources.** -/
theorem yields_settle (n : Nat) (h : Sources m ds os) (hn : ds.length + os.length ≤ n) :
    Yields m.settle (m.rows ds os) := by
  induction n generalizing m ds os with
  | zero =>
    have hshow := settleLoop_shows _ h (Nat.lt_succ_of_le h.short)
    obtain rfl : ds = [] := length_eq_zero_iff.mp (by omega)
    obtain rfl : os = [] := length_eq_zero_iff.mp (by omega)
    have hrows : m.rows [] [] = [] := by
      unfold rows
      rw [OverlayMerge.merge]
    rw [hrows] at hshow ⊢
    exact hshow
  | succ n ih =>
    have hshow := settleLoop_shows _ h (Nat.lt_succ_of_le h.short)
    cases hrows : m.rows ds os with
    | nil =>
      rw [hrows] at hshow
      exact hshow
    | cons p rest =>
      rw [hrows] at hshow
      obtain ⟨hvalid, hkey, hvalue, ds', os', hsrc, rfl, hlt⟩ := hshow
      have hvalid : m.settle.valid = true := hvalid
      refine ⟨hvalid, ?_, ?_, ?_⟩
      · show (if m.settle.valid then m.settle.currentKey else []) = p.1
        rw [if_pos hvalid]
        exact hkey
      · show (if m.settle.valid then m.settle.currentValue else []) = p.2
        rw [if_pos hvalid]
        exact hvalue
      · show Yields m.settle.next _
        unfold next
        rw [if_neg (by simp [hvalid])]
        exact ih hsrc (by omega)

/-- What is in the view has an opinion. -/
theorem lookup_of_view {buf : TxBuffer} {k : Bytes} {e : TxEntry} (h : buf.view.find k = some e) :
    buf.lookup k ≠ .none := by
  have hne := (buf.view_ok _ (SortedMap.find_eq_some.mp h)).2
  unfold TxBuffer.lookup
  rw [h]
  dsimp only
  split
  · simp
  · exact hne

theorem mem_keys {buf : TxBuffer} {d : ScanDirection} {k : Bytes} :
    k ∈ keys buf d ↔ ∃ e, buf.view.find k = some e := by
  unfold OverlayCursor.keys
  rw [d.mem_order, mem_map]
  constructor
  · rintro ⟨p, hp, rfl⟩
    exact ⟨p.2, SortedMap.find_eq_some.mpr hp⟩
  · rintro ⟨e, he⟩
    exact ⟨(k, e), SortedMap.find_eq_some.mp he, rfl⟩

/-- **A scan inside a transaction** visits, in scan order and each key once, the keys of the range
    that the transaction has put and the rows of the iterator below for the keys it has neither put
    nor removed. -/
theorem yields_create {db : I} {range : KeyRange} (hdb : Yields db ds)
    (hsorted : ds.Pairwise fun p q => range.direction.before p.1 q.1)
    (hin : ∀ p ∈ ds, range.contains p.1 = true) :
    ∃ rows, Yields (create db buf range) rows ∧
      rows.Pairwise (fun p q => range.direction.before p.1 q.1) ∧
      ∀ p, p ∈ rows ↔ range.contains p.1 = true ∧
        ((buf.view.find p.1 ≠ none ∧ buf.lookup p.1 = .value p.2) ∨
          (buf.view.find p.1 = none ∧ p ∈ ds)) := by
  have hsrc : Sources
      { db, buffer := buf, overlay := buf.overlayScan range, direction := range.direction } ds
      ((keys buf range.direction).filter range.contains) :=
    { db := hdb
      overlay := walks_overlayScan buf range
      db_sorted := hsorted
      overlay_sorted := (keys_sorted buf range.direction).filter _
      known := fun o ho => by
        obtain ⟨e, he⟩ := mem_keys.mp (mem_filter.mp ho).1
        exact lookup_of_view he
      short := by
        refine Nat.le_trans (length_filter_le _ _) ?_
        unfold OverlayCursor.keys
        cases range.direction <;> simp [ScanDirection.order] }
  refine ⟨_, yields_settle _ hsrc le_rfl, merge_sorted hsrc.db_sorted hsrc.overlay_sorted,
    fun p => ?_⟩
  have hkeys : p.1 ∈ (keys buf range.direction).filter range.contains ↔
      buf.view.find p.1 ≠ none ∧ range.contains p.1 = true := by
    rw [mem_filter, mem_keys, Option.ne_none_iff_exists']
  have hanswer : (buf.lookup p.1).toOption = some p.2 ↔ buf.lookup p.1 = .value p.2 := by
    cases buf.lookup p.1 <;> simp [OverlayOp.toOption]
  unfold rows
  rw [mem_merge hsrc.db_sorted hsrc.overlay_sorted, hkeys, hanswer]
  constructor
  · rintro (⟨⟨hview, hrange⟩, hv⟩ | ⟨hd, hno⟩)
    · exact ⟨hrange, Or.inl ⟨hview, hv⟩⟩
    · refine ⟨hin p hd, Or.inr ⟨?_, hd⟩⟩
      by_contra hview
      exact hno ⟨hview, hin p hd⟩
  · rintro ⟨hrange, ⟨hview, hv⟩ | ⟨hview, hd⟩⟩
    · exact Or.inl ⟨⟨hview, hrange⟩, hv⟩
    · exact Or.inr ⟨hd, fun h => h.1 hview⟩

end MergingIterator

end SqlDb.Kv
