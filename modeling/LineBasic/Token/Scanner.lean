import LineBasic.Text.Blank
import LineBasic.Token.Basic

/-!
# From source text to tokens

A `Scanner` is what is left of the source together with its place and two facts about what came
before: whether any token has been read since the line began, and whether the last one was `REM`.
`Scanner.next` reads one token, and `Token.scan` all of them. Every token but the last takes at
least one character, which is why the scan ends.

The rules are those of section 4.1 of the language specification.
-/

namespace LineBasic

namespace Position

/-- The place at which source text begins. -/
def start : Position := ⟨1, 1⟩

/-- The place after a character. The lexer's `bump`. -/
def advance (p : Position) (c : Char) : Position :=
  if c = '\n' then ⟨p.line + 1, 1⟩ else ⟨p.line, p.column + 1⟩

/-- The place after a text. -/
def after (p : Position) (cs : List Char) : Position :=
  cs.foldl advance p

@[simp] theorem after_nil (p : Position) : p.after [] = p := rfl

@[simp] theorem after_cons (p : Position) (c : Char) (cs : List Char) :
    p.after (c :: cs) = (p.advance c).after cs := rfl

theorem after_append (p : Position) (cs ds : List Char) :
    p.after (cs ++ ds) = (p.after cs).after ds := by
  simp [after]

end Position

/-- Whether a character only separates tokens on a line. The lexer's `is_basic_whitespace`. -/
def isSpace (c : Char) : Bool :=
  c == ' ' || c == '\t' || c == '\r'

/-- Whether a character only separates tokens. -/
def isGap (c : Char) : Bool :=
  isSpace c || c == '\n'

/-- Whether a character can begin a name or a keyword. The lexer's `is_ident_start`. -/
def isWordStart (c : Char) : Bool :=
  c.isAlpha || c == '_'

/-- Whether a character can stand inside a name or a keyword. The lexer's `is_ident_char`. -/
def isWordChar (c : Char) : Bool :=
  c.isAlphanum || c == '_'

/-- A piece of source text that makes one token. -/
structure Lexeme where
  kind : Kind
  /-- The text of the token. -/
  text : List Char
  /-- The characters that the token takes. -/
  source : List Char
  /-- The characters after them. -/
  rest : List Char

namespace Lexeme

/-- The longest number at the start of a text: digits, and a point with digits if a digit follows
it. The lexer's `number`, with its `digits` and `digit_after_next`. -/
def splitNumber (cs : List Char) : List Char × List Char :=
  let whole := cs.takeWhile Char.isDigit
  match cs.dropWhile Char.isDigit with
  | '.' :: d :: rest =>
    if d.isDigit then
      (whole ++ '.' :: (d :: rest).takeWhile Char.isDigit, (d :: rest).dropWhile Char.isDigit)
    else (whole, '.' :: d :: rest)
  | rest => (whole, rest)

/-- The longest word at the start of a text, with a dollar sign that follows it. The lexer's
`alphabetic`. -/
def splitWord (cs : List Char) : List Char × List Char :=
  let word := cs.takeWhile isWordChar
  match cs.dropWhile isWordChar with
  | '$' :: rest => (word ++ ['$'], rest)
  | rest => (word, rest)

/-- Whether a keyword comes next on the line. The lexer's `keyword_follows`. -/
def keywordFollows (cs : List Char) : Bool :=
  let ahead := cs.dropWhile isSpace
  ahead.head?.all isWordStart && (Keyword.ofText? (String.ofList (splitWord ahead).1)).isSome

/-- The number at the start of a text. It is a line number if it opens its line and a keyword
follows. -/
def number (lineStart : Bool) (cs : List Char) : Lexeme :=
  let (text, rest) := splitNumber cs
  let kind := if lineStart && keywordFollows rest then .lineNumber else .number
  ⟨kind, text, text, rest⟩

/-- The name or keyword at the start of a text. -/
def word (cs : List Char) : Lexeme :=
  let (text, rest) := splitWord cs
  let kind := match Keyword.ofText? (String.ofList text) with
    | some k => .keyword k
    | none => .name
  ⟨kind, text, text, rest⟩

/-- The string whose opening quote stands before a text. Without a closing quote it takes all the
rest. The lexer's `string`. -/
def string (cs : List Char) : Lexeme :=
  let body := cs.takeWhile (· != '"')
  match cs.dropWhile (· != '"') with
  | quote :: rest => ⟨.string, body, '"' :: body ++ [quote], rest⟩
  | [] => ⟨.illegal, Token.unterminated.toList, '"' :: cs, []⟩

/-- The kind of a token of one character. -/
def symbolKind : Char → Kind
  | '<' => .operator .less
  | '>' => .operator .greater
  | '+' => .operator .add
  | '-' => .operator .subtract
  | '*' => .operator .multiply
  | '/' => .operator .divide
  | '^' => .operator .power
  | '=' => .operator .equal
  | '(' => .leftParen
  | ')' => .rightParen
  | ',' => .comma
  | ';' => .semicolon
  | _ => .illegal

/-- The operator, punctuation or illegal character at the start of a text. The lexer's `minutia`. -/
def symbol (c : Char) : List Char → Lexeme
  | d :: rest =>
    match c, d with
    | '<', '=' => ⟨.operator .lessEqual, [c, d], [c, d], rest⟩
    | '<', '>' => ⟨.operator .notEqual, [c, d], [c, d], rest⟩
    | '>', '=' => ⟨.operator .greaterEqual, [c, d], [c, d], rest⟩
    | _, _ => ⟨symbolKind c, [c], [c], d :: rest⟩
  | [] => ⟨symbolKind c, [c], [c], []⟩

/-- Whether a number begins here. -/
def startsNumber (c : Char) (cs : List Char) : Bool :=
  c.isDigit || (c == '.' && cs.head?.any Char.isDigit)

/-- The lexeme at the start of a text that begins with neither space nor line end. These are the
cases of the lexer's `next_token`. -/
def read (lineStart : Bool) (c : Char) (cs : List Char) : Lexeme :=
  if startsNumber c cs then number lineStart (c :: cs)
  else if isWordStart c then word (c :: cs)
  else if c = '"' then string cs
  else symbol c cs

theorem splitNumber_append (cs : List Char) : (splitNumber cs).1 ++ (splitNumber cs).2 = cs := by
  have h : cs.takeWhile Char.isDigit ++ cs.dropWhile Char.isDigit = cs :=
    List.takeWhile_append_dropWhile
  unfold splitNumber
  dsimp only
  split
  · rename_i d rest heq
    rw [heq] at h
    split
    · rw [List.append_assoc, List.cons_append, List.takeWhile_append_dropWhile, h]
    · exact h
  · exact h

theorem splitWord_append (cs : List Char) : (splitWord cs).1 ++ (splitWord cs).2 = cs := by
  have h : cs.takeWhile isWordChar ++ cs.dropWhile isWordChar = cs :=
    List.takeWhile_append_dropWhile
  unfold splitWord
  dsimp only
  split
  · rename_i rest heq
    rw [heq] at h
    rw [List.append_assoc, List.singleton_append, h]
  · exact h

/-- A lexeme and what follows it make up the text that was read. -/
theorem source_append_rest (lineStart : Bool) (c : Char) (cs : List Char) :
    (read lineStart c cs).source ++ (read lineStart c cs).rest = c :: cs := by
  unfold read
  split
  · exact splitNumber_append (c :: cs)
  · split
    · exact splitWord_append (c :: cs)
    · split
      · rename_i hc
        have h : cs.takeWhile (· != '"') ++ cs.dropWhile (· != '"') = cs :=
          List.takeWhile_append_dropWhile
        unfold string
        dsimp only
        split
        · rename_i heq
          rw [heq] at h
          simp [hc, h]
        · simp [hc]
      · unfold symbol
        split
        · split <;> rfl
        · rfl

theorem ne_nil_of_startsNumber {c : Char} {cs : List Char} (h : startsNumber c cs = true) :
    (splitNumber (c :: cs)).1 ≠ [] := by
  unfold splitNumber
  by_cases hc : c.isDigit = true
  · simp only [List.takeWhile_cons, hc, ↓reduceIte]
    split
    · split <;> simp
    · simp
  · simp only [startsNumber, hc, Bool.false_or, Bool.and_eq_true, beq_iff_eq] at h
    obtain ⟨rfl, hd⟩ := h
    cases cs with
    | nil => simp at hd
    | cons d ds =>
      have hd' : d.isDigit = true := by simpa using hd
      simp [hc, hd']

theorem ne_nil_of_isWordStart {c : Char} {cs : List Char} (h : isWordStart c = true) :
    (splitWord (c :: cs)).1 ≠ [] := by
  have hc : isWordChar c = true := by
    simp only [isWordStart, isWordChar, Char.isAlphanum, Bool.or_eq_true] at h ⊢
    rcases h with h | h
    · exact .inl (.inl h)
    · exact .inr h
  unfold splitWord
  simp only [List.takeWhile_cons, hc, ↓reduceIte]
  split <;> simp

/-- A lexeme takes at least one character. -/
theorem source_ne_nil (lineStart : Bool) (c : Char) (cs : List Char) :
    (read lineStart c cs).source ≠ [] := by
  unfold read
  split
  · rename_i h
    exact ne_nil_of_startsNumber h
  · split
    · rename_i h
      exact ne_nil_of_isWordStart h
    · split
      · unfold string
        dsimp only
        split <;> simp
      · unfold symbol
        split
        · split <;> simp
        · simp

theorem length_rest_lt (lineStart : Bool) (c : Char) (cs : List Char) :
    (read lineStart c cs).rest.length < (c :: cs).length := by
  have h := congrArg List.length (source_append_rest lineStart c cs)
  have hpos := List.length_pos_iff.mpr (source_ne_nil lineStart c cs)
  rw [List.length_append] at h
  omega

end Lexeme

/-- The part of the source that is still to be read. The `Lexer` of the specification. -/
structure Scanner where
  rest : List Char
  /-- The place at which the rest begins. -/
  position : Position := .start
  /-- Whether no token has been read since the line began. -/
  lineStart : Bool := true
  /-- Whether the token before was the keyword `REM`. -/
  remark : Bool := false
  deriving DecidableEq, Repr

namespace Scanner

/-- A scanner at the start of a source. -/
def ofString (source : String) : Scanner :=
  { rest := source.toList }

/-- Skips the characters at the front for which `p` holds. -/
def skipWhile (s : Scanner) (p : Char → Bool) : Scanner :=
  { s with rest := s.rest.dropWhile p, position := s.position.after (s.rest.takeWhile p) }

/-- Skips spaces and line ends before a token. -/
def skipGap (s : Scanner) : Scanner :=
  { s.skipWhile isGap with lineStart := s.lineStart || (s.rest.takeWhile isGap).contains '\n' }

/-- Reads the text of a remark up to the end of the line, if `REM` came before. Blanks around the
text do not count, and without other characters there is no token. The lexer's `remark_text`. -/
def takeRemark (s : Scanner) : Option Token × Scanner :=
  if s.remark then
    let s := s.skipWhile isSpace
    let text := Text.trimEnd (s.rest.takeWhile (· != '\n'))
    let after := { s.skipWhile (· != '\n') with remark := false }
    if text.isEmpty then (none, after) else (some ⟨.string, String.ofList text, s.position⟩, after)
  else (none, s)

/-- Reads a token that is no remark. -/
def nextLexeme (s : Scanner) : Token × Scanner :=
  let s := s.skipGap
  match s.rest with
  | [] => (.endAt s.position, s)
  | c :: cs =>
    let lexeme := Lexeme.read s.lineStart c cs
    (⟨lexeme.kind, String.ofList lexeme.text, s.position⟩,
      { rest := lexeme.rest
        position := s.position.after lexeme.source
        lineStart := false
        remark := lexeme.kind = .keyword .REM })

/-- Reads one token. At the end of the source it gives the end token and stays there. The lexer's
`next_token`. -/
def next (s : Scanner) : Token × Scanner :=
  match s.takeRemark with
  | (some t, s) => (t, s)
  | (none, s) => s.nextLexeme

theorem length_skipWhile_le (s : Scanner) (p : Char → Bool) :
    (s.skipWhile p).rest.length ≤ s.rest.length :=
  (List.dropWhile_suffix p).length_le

theorem length_takeRemark_le (s : Scanner) : s.takeRemark.2.rest.length ≤ s.rest.length := by
  unfold takeRemark
  split
  · dsimp only
    split
    all_goals
      exact Nat.le_trans (length_skipWhile_le (s.skipWhile isSpace) _)
        (length_skipWhile_le s isSpace)
  · exact Nat.le_refl _

theorem length_takeRemark_lt {s : Scanner} {t : Token} (h : s.takeRemark.1 = some t) :
    s.takeRemark.2.rest.length < s.rest.length := by
  unfold takeRemark at h ⊢
  split at h
  · rename_i hs
    rw [if_pos hs]
    dsimp only at h ⊢
    split at h
    · simp at h
    · rename_i hne
      rw [if_neg hne]
      have hsplit := congrArg List.length
        (List.takeWhile_append_dropWhile (p := (· != '\n')) (l := (s.skipWhile isSpace).rest))
      have hpos : 0 < ((s.skipWhile isSpace).rest.takeWhile (· != '\n')).length := by
        refine List.length_pos_iff.mpr fun hnil => hne ?_
        simp [hnil]
      have hle := length_skipWhile_le s isSpace
      rw [List.length_append] at hsplit
      simp only [skipWhile] at hsplit hpos hle ⊢
      omega
  · simp at h

theorem length_nextLexeme_lt {s : Scanner} (h : s.nextLexeme.1.isEnd = false) :
    s.nextLexeme.2.rest.length < s.rest.length := by
  have hle : s.skipGap.rest.length ≤ s.rest.length := length_skipWhile_le s isGap
  unfold nextLexeme at h ⊢
  dsimp only at h ⊢
  split at h
  · simp [Token.isEnd, Token.endAt] at h
  · rename_i c cs heq
    rw [heq] at hle
    exact Nat.lt_of_lt_of_le (Lexeme.length_rest_lt _ c cs) hle

/-- Every token but the end token takes something of the source. -/
theorem length_next_lt {s : Scanner} (h : s.next.1.isEnd = false) :
    s.next.2.rest.length < s.rest.length := by
  have hle := length_takeRemark_le s
  unfold next at h ⊢
  split at h
  · rename_i t s' heq
    have hlt := length_takeRemark_lt (s := s) (t := t) (by rw [heq])
    rw [heq] at hlt
    exact hlt
  · rename_i s' heq
    rw [heq] at hle
    exact Nat.lt_of_lt_of_le (length_nextLexeme_lt h) hle

/-- The tokens from here to the end token. -/
def tokens (s : Scanner) : List Token :=
  let step := s.next
  if _h : step.1.isEnd then [step.1]
  else step.1 :: step.2.tokens
termination_by s.rest.length
decreasing_by exact length_next_lt (by simpa using _h)

end Scanner

/-- The tokens of a source text. The last one is the end token, and there is no other. The lexer's
`tokenize`. -/
def Token.scan (source : String) : List Token :=
  (Scanner.ofString source).tokens

end LineBasic
