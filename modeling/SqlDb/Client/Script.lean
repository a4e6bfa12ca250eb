/-
  WHICH STATEMENTS A SCRIPT RUNS.

  To the parser a script is a sequence of tokens, and a statement is what stands between two `;`
  tokens (`segments`).  The client cuts the script by rules of its own (client/repl.cpp), so that
  what it executes may be another sequence.  Both are compared here as parts OF the script: every byte
  goes with its place, so that two parts with one text are not taken for each other.

  The client executes the statements of the script exactly if
  - it takes the same bytes for delimiters as the lexer, and
  - where it executes everything that is pending at the end of a line, there is nothing but blanks
    between the last delimiter and this place, or between this place and the next delimiter.
  (`script_iff`.)  A line that ends one statement and begins another one has its beginning executed
  alone: a DELETE whose WHERE is in the next line loses it (`delete_without_where`).
-/
import SqlDb.Client.Repl

namespace SqlDb.Client

open Sql Sql.Lexer Cuts

/-! ## Parts of a script -/

variable (text : Bytes)

/-- The marks of the `;` tokens. -/
def delimiterMarks : List Mark :=
  (lexMarks 0 text).map fun t => if t then .cut else .stay

/-- The statements of a script. -/
def segments : List Bytes := notBlank (pieces [] (text.zip (delimiterMarks text)))

/-- A byte and its place. -/
abbrev Located := UInt8 × Nat

def Located.blank (x : Located) : Bool := isBlank x.1

/-- The parts of the script that are its statements. -/
def segmentsAt : List (List Located) :=
  solid Located.blank (pieces [] (text.zipIdx.zip (delimiterMarks text)))

/-- The parts of the script that are executed; the client puts a line break behind the last line. -/
def executedAt : List (List Located) :=
  let script := text ++ [kNewline]
  solid Located.blank (pieces [] (script.zipIdx.zip (clientMarks none false script)))

/-- The text of a part. -/
def textOf (part : List Located) : Bytes := part.map Prod.fst

/-- The located parts of a text are the parts of the text. -/
theorem map_textOf_solid (ms : List Mark) :
    (solid Located.blank (pieces [] (text.zipIdx.zip ms))).map textOf
      = (notBlank (pieces [] (text.zip ms))).map (trim isBlank) := by
  have hpieces := pieces_map Prod.fst [] (text.zipIdx) ms
  rw [List.zipIdx_map_fst] at hpieces
  have hsolid := @solid_map _ isBlank _ Prod.fst (pieces [] (text.zipIdx.zip ms))
  rw [← hpieces] at hsolid
  exact hsolid.symm

theorem textOf_segmentsAt :
    (segmentsAt text).map textOf = (segments text).map (trim isBlank) :=
  map_textOf_solid text _

theorem textOf_executedAt {text : Bytes}
    (hmeta : ∀ line ∈ linesOf text, isMetaCommand line = false) :
    (executedAt text).map textOf = (texts (runText text)).map (trim isBlank) := by
  rw [texts_runText hmeta]
  exact map_textOf_solid _ _

/-! ## The two scanners -/

/-- The script with the marks of the client and of the lexer. -/
def scanned : List (Item Located) :=
  let script := text ++ [kNewline]
  items script.zipIdx (clientMarks none false script) (lexMarks 0 script)

/-- The client and the lexer take the same bytes for delimiters. -/
def SameDelimiters : Prop := ∀ x ∈ scanned text, x.mine = .cut ↔ x.theirs = true

/-- Where the client executes what is pending, it does not do so in the middle of a statement. -/
def FlushesHarmless : Prop := Harmless Located.blank [] (scanned text)

theorem eq_semicolon_of_cut {quote : Option UInt8} {saw : Bool} {text : Bytes} {i : Nat}
    (h : (clientMarks quote saw text)[i]? = some .cut) : text[i]? = some kSemicolon := by
  induction text generalizing quote saw i with
  | nil => simp [clientMarks] at h
  | cons c rest ih =>
    rw [clientMarks] at h
    split at h
    · cases i with
      | zero => simp at h
      | succ i => exact ih h
    · cases i with
      | zero =>
        unfold quoteMark at h
        split_ifs at h with hc
        · exact congrArg some hc.2
        · simp at h
      | succ i => exact ih h

theorem eq_semicolon_of_lexMark {skip : Nat} {text : Bytes} {i : Nat}
    (h : (lexMarks skip text)[i]? = some true) : text[i]? = some kSemicolon := by
  induction text generalizing skip i with
  | nil => exact absurd h (by cases skip <;> simp [lexMarks])
  | cons c rest ih =>
    cases skip with
    | zero =>
      cases i with
      | zero => exact congrArg some (by simpa [lexMarks] using h)
      | succ i => exact ih h
    | succ skip =>
      cases i with
      | zero => simp [lexMarks] at h
      | succ i => exact ih h

/-- A delimiter is a `;`. -/
theorem delimiter_not_blank :
    ∀ x ∈ scanned text, x.mine = .cut ∨ x.theirs = true → Located.blank x.member = false := by
  intro x hx hcut
  obtain ⟨i, hi⟩ := List.mem_iff_getElem?.mp hx
  obtain ⟨hmember, hmine, htheirs⟩ := getElem?_items hi
  have hsemi : (text ++ [kNewline])[i]? = some kSemicolon := by
    rcases hcut with h | h
    · exact eq_semicolon_of_cut (h ▸ hmine)
    · exact eq_semicolon_of_lexMark (h ▸ htheirs)
  rw [List.getElem?_zipIdx, hsemi] at hmember
  rw [← Option.some.inj hmember]
  show isBlank kSemicolon = false
  decide

theorem executedAt_eq :
    executedAt text = solid Located.blank (pieces [] (mine (scanned text))) := by
  unfold executedAt scanned
  rw [mine_items (by simp) (by simp [length_lexMarks])]

theorem segmentsAt_eq :
    segmentsAt text = solid Located.blank (pieces [] (theirs (scanned text))) := by
  unfold segmentsAt scanned delimiterMarks
  dsimp only
  rw [theirs_items (by simp) (by simp [length_lexMarks]), lexMarks_newline, List.zipIdx_append,
    List.map_append, List.zip_append (by simp [length_lexMarks])]
  exact (solid_pieces_append_blank rfl _ _).symm

/-- The client executes the statements of the script exactly if it has the same delimiters, and its
    flushes are harmless. -/
theorem executedAt_eq_segmentsAt_iff :
    executedAt text = segmentsAt text ↔ SameDelimiters text ∧ FlushesHarmless text := by
  have hnodup : ((scanned text).map Item.member).Nodup := by
    unfold scanned
    rw [map_member_items (by simp) (by simp [length_lexMarks])]
    refine List.Nodup.of_map Prod.snd ?_
    rw [List.zipIdx_map_snd]
    exact List.nodup_range'
  rw [executedAt_eq, segmentsAt_eq]
  exact solid_eq_iff Located.blank hnodup (delimiter_not_blank text)

/-- **What a script without meta commands runs**: the parts `executedAt` of the script, which are the
    statements of the script exactly if the client has the delimiters of the lexer and its flushes are
    harmless; and then the texts are the same. -/
theorem script_iff (text : Bytes) (hmeta : ∀ line ∈ linesOf text, isMetaCommand line = false) :
    (executedAt text).map textOf = (texts (runText text)).map (trim isBlank) ∧
    (segmentsAt text).map textOf = (segments text).map (trim isBlank) ∧
    (executedAt text = segmentsAt text ↔ SameDelimiters text ∧ FlushesHarmless text) ∧
    (SameDelimiters text ∧ FlushesHarmless text →
      (texts (runText text)).map (trim isBlank) = (segments text).map (trim isBlank)) := by
  refine ⟨textOf_executedAt hmeta, textOf_segmentsAt text, executedAt_eq_segmentsAt_iff text, ?_⟩
  intro h
  rw [← textOf_executedAt hmeta, ← textOf_segmentsAt, (executedAt_eq_segmentsAt_iff text).mpr h]

/-- Two statements in three lines, with a `;` in a string. -/
def threeLines : Bytes := ascii "DELETE FROM t\n WHERE a = 'x;y';\nSELECT * FROM t;"

theorem script_iff_threeLines :
    SameDelimiters threeLines ∧ FlushesHarmless threeLines ∧
      (texts (runText threeLines)).map (trim isBlank)
        = [ascii "DELETE FROM t\n WHERE a = 'x;y'", ascii "SELECT * FROM t"] := by
  have hmeta : ∀ line ∈ linesOf threeLines, isMetaCommand line = false := by decide +kernel
  have h := script_iff threeLines hmeta
  have hboth := h.2.2.1.mp (by decide +kernel)
  refine ⟨hboth.1, hboth.2, ?_⟩
  rw [h.2.2.2 hboth]
  decide +kernel

/-- An UPDATE, and a DELETE whose WHERE is in the next line. -/
def updateAndDelete : Bytes := ascii "UPDATE t SET a = 1; DELETE FROM t\nWHERE id = 1;"

/-- The DELETE is executed WITHOUT its WHERE. -/
theorem delete_without_where :
    (∀ line ∈ linesOf updateAndDelete, isMetaCommand line = false) ∧
    (texts (runText updateAndDelete)).map (trim isBlank)
      = [ascii "UPDATE t SET a = 1", ascii "DELETE FROM t", ascii "WHERE id = 1"] ∧
    (segments updateAndDelete).map (trim isBlank)
      = [ascii "UPDATE t SET a = 1", ascii "DELETE FROM t\nWHERE id = 1"] := by
  decide +kernel

end SqlDb.Client
