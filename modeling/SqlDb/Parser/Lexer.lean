/-
  WHERE TOKENS END  (the rules of parser/sql.l).

  The scanner that flex makes of the rules takes, at each place, the longest text that one of them
  matches.  Which token that is matters to the grammar; where it ends decides which `;` are tokens of
  their own and which are inside a string or a comment (`lexMarks`).

  A string or a block comment that is never closed matches no rule.  Then the quote or the slash is a
  token by itself, and scanning goes on right behind it.  A string may also be closed EARLIER than it
  seems: after `'a''b` without a closing quote the longest match is `'a'`.
-/
import SqlDb.SqlTypes.Temporal

namespace SqlDb.Sql.Lexer

def kNewline : UInt8 := 10

def kSemicolon : UInt8 := 59

/-- `[ \t\n\r]`. -/
def isBlank (c : UInt8) : Bool := c = 32 || c = 9 || c = 10 || c = 13

/-- `[a-zA-Z_]`. -/
def isIdentStart (c : UInt8) : Bool :=
  (byte 'a' ≤ c && c ≤ byte 'z') || (byte 'A' ≤ c && c ≤ byte 'Z') || c = byte '_'

/-- `[a-zA-Z0-9_]`. -/
def isIdentChar (c : UInt8) : Bool := isIdentStart c || isDigit c

/-- How much of the text behind an opening quote belongs to the string: the longest match of
    `([^']|[']{2})*'`. -/
def stringLength : Bytes → Option Nat
  | [] => none
  | c :: rest =>
    if c = kQuote then
      match rest with
      | d :: rest' =>
        if d = kQuote then
          -- a doubled quote, if the string is closed later on
          match stringLength rest' with
          | some n => some (n + 2)
          | none => some 1
        else some 1
      | [] => some 1
    else (stringLength rest).map (· + 1)

/-- How much of the text behind the opening of a block comment belongs to it: up to the first end. -/
def blockLength : Bytes → Option Nat
  | [] => none
  | c :: rest =>
    if c = byte '*' ∧ rest.head? = some (byte '/') then some 2 else (blockLength rest).map (· + 1)

/-- `>=`, `<=`, `!=` and `<>`. -/
def isTwoByteOperator (c d : UInt8) : Bool :=
  ((c = byte '>' || c = byte '<' || c = byte '!') && d = byte '=') || (c = byte '<' && d = byte '>')

/-- The length of the token that starts behind `c`, without `c` itself. -/
def tokenRest (c : UInt8) (rest : Bytes) : Nat :=
  if isIdentStart c then (rest.takeWhile isIdentChar).length
  else if isDigit c then (rest.takeWhile isDigit).length
  else if isBlank c then (rest.takeWhile isBlank).length
  else if c = kQuote then (stringLength rest).getD 0
  else if c = byte '-' ∧ rest.head? = some (byte '-') then (rest.takeWhile (· ≠ kNewline)).length
  else if c = byte '/' ∧ rest.head? = some (byte '*') then
    match blockLength rest.tail with
    | some n => n + 1
    | none => 0
  else if rest.head?.any (isTwoByteOperator c) then 1
  else 0

/-- Which bytes are `;` tokens; the first `skip` ones belong to a token that has begun. -/
def lexMarks : Nat → Bytes → List Bool
  | _, [] => []
  | skip + 1, _ :: rest => false :: lexMarks skip rest
  | 0, c :: rest => (c = kSemicolon) :: lexMarks (tokenRest c rest) rest

/-! ## A line break at the end -/

theorem length_lexMarks (skip : Nat) (text : Bytes) : (lexMarks skip text).length = text.length := by
  induction text generalizing skip with
  | nil => cases skip <;> rfl
  | cons c rest ih => cases skip <;> simp [lexMarks, ih]

theorem stringLength_cons {c : UInt8} (hc : c ≠ kQuote) (rest : Bytes) :
    stringLength (c :: rest) = (stringLength rest).map (· + 1) := by
  cases rest <;> simp [stringLength, hc]

theorem stringLength_newline (text : Bytes) :
    stringLength (text ++ [kNewline]) = stringLength text := by
  fun_induction stringLength text with
  | case1 => rfl
  | case2 rest n hn ih => simp [stringLength, ih, hn]
  | case3 rest hn ih => simp [stringLength, ih, hn]
  | case4 d rest hd => simp [stringLength, hd]
  | case5 => rfl
  | case6 c rest hc ih => rw [List.cons_append, stringLength_cons hc, ih]

theorem blockLength_newline (text : Bytes) :
    blockLength (text ++ [kNewline]) = blockLength text := by
  induction text with
  | nil => rfl
  | cons c rest ih =>
    have hhead : (rest ++ [kNewline]).head? = some (byte '/') ↔ rest.head? = some (byte '/') := by
      cases rest with
      | nil => decide
      | cons d rest => rfl
    simp only [List.cons_append, blockLength, hhead, ih]

theorem length_takeWhile_newline (p : UInt8 → Bool) (text : Bytes) :
    ((text ++ [kNewline]).takeWhile p).length = (text.takeWhile p).length ∨
      (((text ++ [kNewline]).takeWhile p).length = text.length + 1 ∧
        (text.takeWhile p).length = text.length) := by
  induction text with
  | nil =>
    cases hp : p kNewline with
    | false => exact Or.inl (by simp [hp])
    | true => exact Or.inr ⟨by simp [hp], rfl⟩
  | cons c rest ih =>
    rw [List.cons_append, List.takeWhile_cons, List.takeWhile_cons]
    split
    · simpa using ih
    · exact Or.inl rfl

/-- A line break at the end makes no token longer, unless the token reaches the end. -/
theorem tokenRest_newline (c : UInt8) (rest : Bytes) :
    tokenRest c (rest ++ [kNewline]) = tokenRest c rest ∨
      (tokenRest c (rest ++ [kNewline]) = rest.length + 1 ∧ tokenRest c rest = rest.length) := by
  unfold tokenRest
  split
  · exact length_takeWhile_newline isIdentChar rest
  · split
    · exact length_takeWhile_newline isDigit rest
    · split
      · exact length_takeWhile_newline isBlank rest
      · split
        · exact Or.inl (by rw [stringLength_newline])
        · cases rest with
          | nil =>
            -- no token goes on with a line break
            have hop : isTwoByteOperator c kNewline = false := by
              simp [isTwoByteOperator, kNewline, byte]
            have hdash : kNewline ≠ byte '-' := by decide
            have hstar : kNewline ≠ byte '*' := by decide
            left
            simp [hop, hdash, hstar]
          | cons d rest =>
            by_cases hdash : c = byte '-' ∧ (d :: rest).head? = some (byte '-')
            · have hdash' : c = byte '-' ∧ (d :: rest ++ [kNewline]).head? = some (byte '-') := hdash
              rw [if_pos hdash, if_pos hdash']
              exact length_takeWhile_newline (fun c => decide (c ≠ kNewline)) (d :: rest)
            · have hdash' : ¬ (c = byte '-' ∧ (d :: rest ++ [kNewline]).head? = some (byte '-')) := hdash
              rw [if_neg hdash, if_neg hdash', show (d :: rest ++ [kNewline]).tail = rest ++ [kNewline]
                from rfl, blockLength_newline]
              exact Or.inl rfl

theorem lexMarks_of_le {skip : Nat} {text : Bytes} (h : text.length ≤ skip) :
    lexMarks skip text = List.replicate text.length false := by
  induction text generalizing skip with
  | nil => cases skip <;> rfl
  | cons c rest ih =>
    cases skip with
    | zero => simp at h
    | succ skip =>
      rw [lexMarks, ih (by simpa using h)]
      rfl

/-- A line break at the end is no `;`, and changes nothing before it. -/
theorem lexMarks_newline (skip : Nat) (text : Bytes) :
    lexMarks skip (text ++ [kNewline]) = lexMarks skip text ++ [false] := by
  induction text generalizing skip with
  | nil => cases skip <;> rfl
  | cons c rest ih =>
    cases skip with
    | succ skip => exact congrArg (false :: ·) (ih skip)
    | zero =>
      rw [List.cons_append, lexMarks, lexMarks, List.cons_append]
      congr 1
      rcases tokenRest_newline c rest with hsame | ⟨hlong, hshort⟩
      · rw [hsame]
        exact ih _
      · rw [lexMarks_of_le (by rw [hlong]; simp), lexMarks_of_le (Nat.le_of_eq hshort.symm)]
        simp [List.replicate_succ']

end SqlDb.Sql.Lexer
