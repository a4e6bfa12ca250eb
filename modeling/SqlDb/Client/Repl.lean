/-
  SCRIPTS IN THE CLIENT  (`split_statements`, `run_text`, client/repl.cpp).

  A script is read line by line.  Lines pile up until one has a `;` ANYWHERE in it; then everything
  that is pending is split into statements, and all of them are executed, the unfinished one at the
  end included.  Splitting starts anew for every such heap of lines: it knows single and double quotes,
  in which `;` does not count, and no comments.

  Seen from the script both loops are one scanner, which marks each byte as a delimiter, as the last
  one of a heap, or as neither (`clientMarks`): what is executed are the pieces it leaves
  (`texts_runText`).
-/
import SqlDb.Lib.Cuts
import SqlDb.Parser.Lexer

namespace SqlDb.Client

open Sql Sql.Lexer Cuts List

/-! ## Splitting -/

/-- A statement, and where it starts. -/
structure Statement where
  text : Bytes
  startLine : Nat
  startColumn : Nat
deriving DecidableEq

/-- The variables of the loop over the bytes. -/
structure SplitState where
  current : Bytes := []
  line : Nat := 1
  column : Nat := 1
  startLine : Nat := 1
  startColumn : Nat := 1
  quote : Option UInt8 := none

variable (st : SplitState)

namespace SplitState

/-- A statement starts with the first byte that is no delimiter. -/
def noteStart (c : UInt8) : SplitState :=
  if st.current = [] ∧ c ≠ kSemicolon then
    { st with startLine := st.line, startColumn := st.column }
  else st

def advance (c : UInt8) : SplitState :=
  if c = kNewline then { st with line := st.line + 1, column := 1 }
  else { st with column := st.column + 1 }

def push (c : UInt8) (quote : Option UInt8) : SplitState :=
  { st with current := st.current ++ [c], quote := quote }

/-- The statement that has been read, if there is one. -/
def finish : List Statement :=
  if st.current = [] then [] else [⟨st.current, st.startLine, st.startColumn⟩]

def restart : SplitState :=
  { st with current := [], startLine := st.line, startColumn := st.column }

end SplitState

def splitLoop (st : SplitState) : Bytes → List Statement
  | [] => st.finish
  | c :: rest =>
    let st := (st.noteStart c).advance c
    match st.quote with
    | some q => splitLoop (st.push c (if c = q then none else some q)) rest
    | none =>
      if c = kQuote ∨ c = kDoubleQuote then splitLoop (st.push c (some c)) rest
      else if c = kSemicolon then st.finish ++ splitLoop st.restart rest
      else splitLoop (st.push c none) rest

def splitStatements (text : Bytes) : List Statement := splitLoop {} text

/-! ## Running -/

/-- `std::isspace`. -/
def isSpace (c : UInt8) : Bool := c = 32 || (9 ≤ c && c ≤ 13)

/-- A line that starts with a backslash. -/
def isMetaCommand (line : Bytes) : Bool := (line.dropWhile isSpace).head? = some kBackslash

/-- What the client does with a part of a script. -/
inductive Action
  | statement (s : Statement)
  | metaCommand (line : Bytes)
deriving DecidableEq

/-- Executes the statements of what is pending, except for blank ones. -/
def flush (pending : Bytes) (startLine startColumn : Nat) : List Action :=
  ((splitStatements pending).filter fun s => !s.text.all isBlank).map fun s =>
    .statement
      { text := s.text
        startLine := startLine + s.startLine - 1
        startColumn := if s.startLine = 1 then startColumn + s.startColumn - 1 else s.startColumn }

/-- The loop over the lines. -/
def runLines (pending : Bytes) (startLine lineNumber : Nat) : List Bytes → List Action
  | [] => flush pending startLine 1
  | line :: rest =>
    if pending = [] ∧ isMetaCommand line then
      .metaCommand line :: runLines [] startLine (lineNumber + 1) rest
    else
      let startLine := if pending = [] then lineNumber else startLine
      let pending := pending ++ line ++ [kNewline]
      if kSemicolon ∈ line then
        flush pending startLine 1 ++ runLines [] startLine (lineNumber + 1) rest
      else runLines pending startLine (lineNumber + 1) rest

/-- The lines of a script; behind its last line break there is one more. -/
def linesOf : Bytes → List Bytes
  | [] => [[]]
  | c :: rest =>
    if c = kNewline then [] :: linesOf rest
    else
      match linesOf rest with
      | [] => [[c]]
      | line :: lines => (c :: line) :: lines

def runText (text : Bytes) : List Action := runLines [] 1 1 (linesOf text)

/-- The texts of the statements that are executed. -/
def texts (actions : List Action) : List Bytes :=
  actions.filterMap fun
    | .statement s => some s.text
    | .metaCommand _ => none

/-! ## The scanner -/

variable (quote : Option UInt8)

def nextQuote (c : UInt8) : Option UInt8 :=
  match quote with
  | some q => if c = q then none else some q
  | none => if c = kQuote ∨ c = kDoubleQuote then some c else none

def quoteMark (c : UInt8) : Mark :=
  if quote = none ∧ c = kSemicolon then .cut else .stay

/-- The marks within one heap of lines. -/
def quoteMarks (quote : Option UInt8) : Bytes → List Mark
  | [] => []
  | c :: rest => quoteMark quote c :: quoteMarks (nextQuote quote c) rest

/-- The marks of the client; `saw` says that there has been a `;` in this line. -/
def clientMarks (quote : Option UInt8) (saw : Bool) : Bytes → List Mark
  | [] => []
  | c :: rest =>
    if c = kNewline ∧ saw then .last :: clientMarks none false rest
    else
      quoteMark quote c ::
        clientMarks (nextQuote quote c) (c ≠ kNewline && (saw || c = kSemicolon)) rest

/-- The open quote after a text. -/
def quoteAfter (text : Bytes) : Option UInt8 := text.foldl nextQuote quote

@[simp] theorem length_quoteMarks (text : Bytes) :
    (quoteMarks quote text).length = text.length := by
  induction text generalizing quote with
  | nil => rfl
  | cons c rest ih => simp [quoteMarks, ih]

@[simp] theorem length_clientMarks (saw : Bool) (text : Bytes) :
    (clientMarks quote saw text).length = text.length := by
  induction text generalizing quote saw with
  | nil => rfl
  | cons c rest ih =>
    unfold clientMarks
    split <;> simp [ih]

theorem quoteMarks_append (s t : Bytes) :
    quoteMarks quote (s ++ t) = quoteMarks quote s ++ quoteMarks (quoteAfter quote s) t := by
  induction s generalizing quote with
  | nil => rfl
  | cons c s ih => exact congrArg (quoteMark quote c :: ·) (ih _)

/-- Without a `;` nothing is cut. -/
theorem pieces_quoteMarks {s : Bytes} (hs : kSemicolon ∉ s) (quote : Option UInt8) (cur : Bytes)
    (rest : List (UInt8 × Mark)) :
    pieces cur (s.zip (quoteMarks quote s) ++ rest) = pieces (cur ++ s) rest := by
  induction s generalizing quote cur with
  | nil => simp [quoteMarks]
  | cons c s ih =>
    have hc : quoteMark quote c = .stay := by
      refine if_neg fun h => ?_
      obtain ⟨-, rfl⟩ := h
      exact hs (mem_cons_self ..)
    have h := ih (fun h => hs (mem_cons_of_mem c h)) (nextQuote quote c) (cur ++ [c])
    rw [append_assoc] at h
    rw [quoteMarks, hc]
    exact h

/-- The statements of a heap are its pieces. -/
theorem texts_splitLoop (text : Bytes) :
    (splitLoop st text).map Statement.text
      = (pieces st.current (text.zip (quoteMarks st.quote text))).filter (· ≠ []) := by
  have hfinish : ∀ st : SplitState, st.finish.map Statement.text = [st.current].filter (· ≠ []) := by
    intro st
    unfold SplitState.finish
    by_cases h : st.current = [] <;> simp [h]
  induction text generalizing st with
  | nil => exact hfinish st
  | cons c rest ih =>
    have hcurrent : ((st.noteStart c).advance c).current = st.current := by
      unfold SplitState.advance SplitState.noteStart
      split <;> split <;> rfl
    have hquote : ((st.noteStart c).advance c).quote = st.quote := by
      unfold SplitState.advance SplitState.noteStart
      split <;> split <;> rfl
    -- a byte that stays
    have hpush : ∀ q, nextQuote st.quote c = q → quoteMark st.quote c = .stay →
        (splitLoop (((st.noteStart c).advance c).push c q) rest).map Statement.text
          = (pieces st.current ((c :: rest).zip (quoteMarks st.quote (c :: rest)))).filter (· ≠ []) := by
      intro q hnext hmark
      rw [ih, quoteMarks, hmark, hnext]
      show (pieces (((st.noteStart c).advance c).current ++ [c]) _).filter _ = _
      rw [hcurrent]
      rfl
    unfold splitLoop
    dsimp only
    rw [hquote]
    cases hq : st.quote with
    | some q =>
      rw [hq] at hpush
      exact hpush _ rfl (by simp [quoteMark])
    | none =>
      rw [hq] at hpush
      dsimp only
      split_ifs with hc hsemi
      · refine hpush _ (if_pos hc) ?_
        unfold quoteMark
        refine if_neg fun h => ?_
        rcases hc with rfl | rfl
        · exact absurd h.2 (by decide)
        · exact absurd h.2 (by decide)
      · have hmark : quoteMark none c = .cut := if_pos ⟨rfl, hsemi⟩
        have hnext : nextQuote none c = none := if_neg hc
        rw [map_append, ih, hfinish, quoteMarks, hmark, hnext, hcurrent]
        show _ ++ (pieces [] (rest.zip (quoteMarks ((st.noteStart c).advance c).quote rest))).filter _ = _
        rw [hquote, hq, ← filter_append]
        rfl
      · exact hpush _ (if_neg hc) (if_neg fun h => hsemi h.2)

/-! ## Running as scanning -/

/-- The pieces that are executed. -/
def notBlank (ps : List Bytes) : List Bytes := ps.filter fun p => !p.all isBlank

theorem texts_flush (pending : Bytes) (startLine startColumn : Nat) :
    texts (flush pending startLine startColumn)
      = notBlank (pieces [] (pending.zip (quoteMarks none pending))) := by
  have hsplit := texts_splitLoop {} pending
  have hall : ∀ l : List Statement, texts ((l.filter fun s => !s.text.all isBlank).map fun s =>
      .statement
        { text := s.text
          startLine := startLine + s.startLine - 1
          startColumn := if s.startLine = 1 then startColumn + s.startColumn - 1 else s.startColumn })
      = notBlank (l.map Statement.text) := by
    intro l
    unfold texts notBlank
    rw [filterMap_map, filter_map]
    exact congrFun filterMap_eq_map _
  unfold flush splitStatements
  rw [hall, hsplit]
  unfold notBlank
  rw [filter_filter]
  refine filter_congr fun p _ => ?_
  cases p <;> simp

theorem texts_append (as bs : List Action) : texts (as ++ bs) = texts as ++ texts bs :=
  filterMap_append

theorem notBlank_append (ps qs : List Bytes) : notBlank (ps ++ qs) = notBlank ps ++ notBlank qs :=
  filter_append ps qs

/-- The client's marks over one line. -/
theorem clientMarks_line {line : Bytes} (hline : kNewline ∉ line) (quote : Option UInt8) (saw : Bool)
    (rest : Bytes) :
    clientMarks quote saw (line ++ kNewline :: rest) = quoteMarks quote line ++
      if saw = true ∨ kSemicolon ∈ line then .last :: clientMarks none false rest
      else .stay :: clientMarks (nextQuote (quoteAfter quote line) kNewline) false rest := by
  induction line generalizing quote saw with
  | nil =>
    rw [nil_append, clientMarks]
    cases saw with
    | true => rfl
    | false => simp [quoteMark, kNewline, kSemicolon, quoteMarks, quoteAfter]
  | cons c line ih =>
    obtain ⟨hc, hline⟩ : c ≠ kNewline ∧ kNewline ∉ line := by
      simpa [mem_cons, not_or, eq_comm] using hline
    have hsaw : ((c ≠ kNewline && (saw || c = kSemicolon) : Bool) = true ∨ kSemicolon ∈ line) ↔
        (saw = true ∨ kSemicolon ∈ c :: line) := by
      rw [mem_cons, ← or_assoc, @eq_comm _ kSemicolon]
      simp [hc]
    rw [cons_append, clientMarks, if_neg fun h => hc h.1, ih hline]
    simp only [hsaw]
    rfl

theorem quoteAfter_append (s t : Bytes) :
    quoteAfter quote (s ++ t) = quoteAfter (quoteAfter quote s) t := foldl_append

/-- Splitting a heap goes on where what was pending had got to. -/
theorem pieces_heap {pending : Bytes} (hpending : kSemicolon ∉ pending) (line : Bytes) :
    pieces [] ((pending ++ line ++ [kNewline]).zip (quoteMarks none (pending ++ line ++ [kNewline])))
      = pieces pending (line.zip (quoteMarks (quoteAfter none pending) line) ++ [(kNewline, .stay)]) := by
  have hmark : ∀ quote, quoteMark quote kNewline = .stay := fun quote =>
    if_neg fun h => absurd h.2 (by decide)
  rw [append_assoc, quoteMarks_append, zip_append (by simp), pieces_quoteMarks hpending,
    quoteMarks_append, zip_append (by simp), quoteMarks, hmark]
  rfl

/-- The loop over the lines executes the pieces that the scanner leaves; what is pending has no `;`. -/
theorem texts_runLines {lines : List Bytes} (hlines : ∀ line ∈ lines, kNewline ∉ line)
    (hmeta : ∀ line ∈ lines, isMetaCommand line = false) (pending : Bytes)
    (hpending : kSemicolon ∉ pending) (startLine lineNumber : Nat) :
    texts (runLines pending startLine lineNumber lines)
      = notBlank (pieces pending ((lines.flatMap (· ++ [kNewline])).zip
          (clientMarks (quoteAfter none pending) false (lines.flatMap (· ++ [kNewline]))))) := by
  induction lines generalizing pending startLine lineNumber with
  | nil =>
    have hpieces := pieces_quoteMarks hpending none [] []
    rw [append_nil] at hpieces
    rw [runLines, texts_flush, hpieces]
    rfl
  | cons line lines ih =>
    have hline := hlines line (mem_cons_self ..)
    have ih := ih (fun l hl => hlines l (mem_cons_of_mem line hl))
      fun l hl => hmeta l (mem_cons_of_mem line hl)
    have hnometa : ¬ (pending = [] ∧ isMetaCommand line = true) := by
      rw [hmeta line (mem_cons_self ..)]
      simp
    have hsplit : (line :: lines).flatMap (· ++ [kNewline])
        = line ++ kNewline :: lines.flatMap (· ++ [kNewline]) := by simp
    rw [runLines, if_neg hnometa, hsplit, clientMarks_line hline, zip_append (by simp)]
    dsimp only
    by_cases hsemi : kSemicolon ∈ line
    · rw [if_pos hsemi, if_pos (Or.inr hsemi), texts_append, texts_flush, ih [] (by simp),
        zip_cons_cons, pieces_append_last, notBlank_append, pieces_heap hpending]
      rfl
    · have hmore : kSemicolon ∉ pending ++ line ++ [kNewline] := by
        have hne : kSemicolon ≠ kNewline := by decide
        simp [hpending, hsemi, hne]
      have hsaw : ¬ (false = true ∨ kSemicolon ∈ line) := by simp [hsemi]
      rw [if_neg hsemi, if_neg hsaw, ih _ hmore, zip_cons_cons,
        pieces_quoteMarks hsemi, quoteAfter_append, quoteAfter_append]
      rfl

theorem linesOf_ne_nil (text : Bytes) : linesOf text ≠ [] := by
  cases text with
  | nil => simp [linesOf]
  | cons c rest =>
    unfold linesOf
    split
    · simp
    · split <;> simp

theorem newline_notMem_linesOf (text : Bytes) : ∀ line ∈ linesOf text, kNewline ∉ line := by
  induction text with
  | nil => simp [linesOf]
  | cons c rest ih =>
    rw [linesOf]
    split_ifs with hc
    · simpa using ih
    · cases hl : linesOf rest with
      | nil => exact absurd hl (linesOf_ne_nil rest)
      | cons line lines =>
        rw [hl] at ih
        simpa [Ne.symm hc] using ih

theorem flatMap_linesOf (text : Bytes) :
    (linesOf text).flatMap (· ++ [kNewline]) = text ++ [kNewline] := by
  induction text with
  | nil => rfl
  | cons c rest ih =>
    rw [linesOf]
    split_ifs with hc
    · rw [flatMap_cons, ih, hc]
      rfl
    · cases hl : linesOf rest with
      | nil => exact absurd hl (linesOf_ne_nil rest)
      | cons line lines =>
        rw [hl] at ih
        exact congrArg (c :: ·) ih

/-- A script without meta commands: the client executes the pieces that its scanner leaves. -/
theorem texts_runText {text : Bytes} (hmeta : ∀ line ∈ linesOf text, isMetaCommand line = false) :
    texts (runText text) = notBlank (pieces []
      ((text ++ [kNewline]).zip (clientMarks none false (text ++ [kNewline])))) := by
  have h := texts_runLines (newline_notMem_linesOf text) hmeta [] (by simp) 1 1
  rw [flatMap_linesOf] at h
  exact h

end SqlDb.Client
