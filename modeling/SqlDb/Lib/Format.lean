/-
  EXACT FORMATS: a reader and a writer that undo each other.

  `Reads item write fits` says both directions at once, for the values that `fits` admits:
    * UNDO   — reading what was written gives the value back, whatever follows;
    * SOUND  — a value that was read fits, and what was read is exactly what is written for it.

  Formats are put together field by field: `Reads.bind` reads one field of a record and leaves the
  others to a reader that already knows it.  A reader that has to reach the end of its input then
  accepts exactly the writer's outputs (`Reads.whole_iff`), so that neither a cut nor a padded nor a
  second spelling of a value is accepted.
-/
import SqlDb.Lib.Codec

namespace Codec

variable {E A B : Type}

structure Reads (item : Reader E A) (write : A → List UInt8) (fits : A → Prop) : Prop where
  undo : ∀ a rest, fits a → item (write a ++ rest) = (.ok a, rest)
  sound : ∀ input a rest, item input = (.ok a, rest) → fits a ∧ input = write a ++ rest

namespace Reads

variable {item : Reader E A} {write : A → List UInt8} {fits : A → Prop}

/-- Another description of the writer and of the values that fit. -/
theorem congr {write' : A → List UInt8} {fits' : A → Prop} (h : Reads item write fits)
    (hfits : ∀ a, fits' a ↔ fits a) (hwrite : ∀ a, fits' a → write' a = write a) :
    Reads item write' fits' where
  undo a rest ha := by
    rw [hwrite a ha]
    exact h.undo a rest ((hfits a).mp ha)
  sound input a rest hr := by
    obtain ⟨ha, hin⟩ := h.sound input a rest hr
    have ha := (hfits a).mpr ha
    exact ⟨ha, by rw [hwrite a ha, hin]⟩

/-- One field of a record of which `known` is known, then the rest, with the field known as well. -/
theorem bind {next : A → Reader E B} {writeRest : B → List UInt8} {known fitsRest : B → Prop}
    (h : Reads item write fits) (field : B → A)
    (hnext : ∀ a, fits a →
      Reads (next a) writeRest fun b => (known b ∧ field b = a) ∧ fitsRest b) :
    Reads (item >>= next) (fun b => write (field b) ++ writeRest b)
      fun b => known b ∧ fits (field b) ∧ fitsRest b where
  undo b rest hb := by
    obtain ⟨hk, hfit, hrest⟩ := hb
    rw [List.append_assoc, Prog.bind_apply_ok (h.undo _ _ hfit)]
    exact (hnext (field b) hfit).undo b rest ⟨⟨hk, rfl⟩, hrest⟩
  sound input b rest hr := by
    obtain ⟨a, left, ha, hb⟩ := Prog.bind_eq_ok.mp hr
    obtain ⟨hfit, rfl⟩ := h.sound input a left ha
    obtain ⟨⟨⟨hk, rfl⟩, hrest⟩, rfl⟩ := (hnext a hfit).sound left b rest hb
    exact ⟨⟨hk, hfit, hrest⟩, (List.append_assoc _ _ _).symm⟩

/-- The values of a constructor. -/
theorem map (h : Reads item write fits) (f : A → B) {write' : B → List UInt8} {fits' : B → Prop}
    (hwrite : ∀ a, write' (f a) = write a) (hfits : ∀ b, fits' b ↔ ∃ a, b = f a ∧ fits a) :
    Reads (item >>= fun a => pure (f a)) write' fits' where
  undo b rest hb := by
    obtain ⟨a, rfl, ha⟩ := (hfits b).mp hb
    rw [hwrite, Prog.bind_apply_ok (h.undo a rest ha)]
    rfl
  sound input b rest hr := by
    obtain ⟨a, left, ha, hb⟩ := Prog.bind_eq_ok.mp hr
    obtain ⟨hok, rfl⟩ := Prod.mk.inj hb
    cases hok
    obtain ⟨hfit, hin⟩ := h.sound input a left ha
    exact ⟨(hfits (f a)).mpr ⟨a, rfl, hfit⟩, by rw [hwrite, hin]⟩

/-- A check between two reads, of something that is known of the record. -/
theorem guarded {known : A → Prop} {c : Prop} [Decidable c] {e : E} (check : A → Prop)
    (hcheck : ∀ a, known a → (c ↔ check a)) (h : Reads item write fun a => known a ∧ fits a) :
    Reads (if c then Prog.throw e else item) write fun a => known a ∧ ¬ check a ∧ fits a := by
  by_cases hc : c
  · rw [if_pos hc]
    refine ⟨fun a rest ha => absurd ((hcheck a ha.1).mp hc) ha.2.1, fun input a rest hr => ?_⟩
    simp at hr
  · rw [if_neg hc]
    refine h.congr (fun a => and_congr_right fun hk => ?_) fun _ _ => rfl
    exact and_iff_right fun hca => hc ((hcheck a hk).mpr hca)

/-- **The whole input.**  What is accepted is what is written for a value that fits. -/
theorem whole_iff (h : Reads item write fits) {e : E} {input : List UInt8} {a : A} :
    whole e item input = .ok a ↔ fits a ∧ input = write a := by
  rw [whole_eq_ok]
  constructor
  · intro hr
    obtain ⟨ha, hin⟩ := h.sound input a [] hr
    exact ⟨ha, hin.trans (List.append_nil _)⟩
  · rintro ⟨ha, rfl⟩
    have hundo := h.undo a [] ha
    rwa [List.append_nil] at hundo

/-- What is written for one value does not begin what is written for another. -/
theorem append_unique (h : Reads item write fits) {a b : A} (ha : fits a) (hb : fits b)
    {more : List UInt8} (heq : write b = write a ++ more) : more = [] ∧ a = b := by
  have hlong := h.undo b [] hb
  rw [List.append_nil, heq, h.undo a more ha] at hlong
  obtain ⟨hval, hrest⟩ := Prod.mk.inj hlong
  exact ⟨hrest, Except.ok.inj hval⟩

end Reads

/-! ## The formats of the parts -/

variable (e : E)

theorem reads_pure (a : A) : Reads (pure a : Reader E A) (fun _ => []) (· = a) where
  undo b rest hb := by
    rw [hb]
    rfl
  sound input b rest hr := by
    obtain ⟨hok, rfl⟩ := Prod.mk.inj hr
    exact ⟨(Except.ok.inj hok).symm, rfl⟩

/-- A reader that reads nothing. -/
theorem reads_throw {write : A → List UInt8} {fits : A → Prop} (h : ∀ a, ¬ fits a) :
    Reads (Prog.throw e : Reader E A) write fits where
  undo a _ ha := absurd ha (h a)
  sound _ _ _ hr := absurd (Prod.mk.inj hr).1 (by simp)

theorem reads_takeBytes (n : Nat) : Reads (takeBytes e n) id (fun bytes => bytes.length = n) where
  undo bytes rest h := by
    rw [← h]
    exact takeBytes_append e rest bytes
  sound input bytes rest hr := by
    unfold takeBytes at hr
    rw [Prog.get_bind_apply] at hr
    by_cases hlen : input.length < n
    · rw [if_pos hlen] at hr
      simp at hr
    · rw [if_neg hlen] at hr
      obtain ⟨hok, rfl⟩ := Prod.mk.inj hr
      cases hok
      exact ⟨List.length_take_of_le (Nat.not_lt.mp hlen), (List.take_append_drop n input).symm⟩

theorem reads_number (w : Nat) : Reads (readNumber e w) (bigEndian w) (· < 256 ^ w) where
  undo n rest hn := readNumber_append e rest hn
  sound input n rest hr := by
    obtain ⟨bytes, left, htake, hn⟩ := Prog.bind_eq_ok.mp hr
    obtain ⟨hlen, rfl⟩ := (reads_takeBytes e w).sound input bytes left htake
    obtain ⟨hok, rfl⟩ := Prod.mk.inj hn
    cases hok
    rw [← hlen, bigEndian_ofBigEndian]
    exact ⟨ofBigEndian_lt bytes, rfl⟩

/-- The end of a record: all of its fields are known. -/
theorem reads_record (a : A) {known : A → Prop} (h : ∀ b, known b ↔ b = a) :
    Reads (pure a : Reader E A) (fun _ => []) fun b => known b ∧ True :=
  (reads_pure a).congr (fun b => (and_iff_left trivial).trans (h b)) fun _ _ => rfl

theorem reads_block : Reads (readBlock e) block (fun bytes => bytes.length < 256 ^ 8) := by
  have hparts : Reads (readBlock e) (fun bytes => bigEndian 8 bytes.length ++ bytes)
      fun bytes => True ∧ bytes.length < 256 ^ 8 ∧ True :=
    (reads_number e 8).bind List.length fun n _ =>
      (reads_takeBytes e n).congr (fun bytes => by simp) fun _ _ => rfl
  exact hparts.congr (fun bytes => by simp) fun _ _ => rfl

theorem reads_many {item : Reader E A} {write : A → List UInt8} {fits : A → Prop}
    (h : Reads item write fits) (n : Nat) :
    Reads (readMany item n) (·.flatMap write) fun l => l.length = n ∧ ∀ a ∈ l, fits a where
  undo l rest hl := by
    rw [← hl.1]
    exact readMany_append rest write l fun a ha more => h.undo a more (hl.2 a ha)
  sound input l rest hr := by
    induction n generalizing input l rest with
    | zero =>
      obtain ⟨hok, rfl⟩ := Prod.mk.inj hr
      cases hok
      exact ⟨⟨rfl, by simp⟩, rfl⟩
    | succ n ih =>
      obtain ⟨a, left, ha, hr⟩ := Prog.bind_eq_ok.mp hr
      obtain ⟨l', left', hl', hr⟩ := Prog.bind_eq_ok.mp hr
      obtain ⟨hok, rfl⟩ := Prod.mk.inj hr
      cases hok
      obtain ⟨hfit, rfl⟩ := h.sound input a left ha
      obtain ⟨⟨rfl, hall⟩, rfl⟩ := ih left l' left' hl'
      refine ⟨⟨rfl, List.forall_mem_cons.mpr ⟨hfit, hall⟩⟩, ?_⟩
      rw [List.flatMap_cons, List.append_assoc]

end Codec
