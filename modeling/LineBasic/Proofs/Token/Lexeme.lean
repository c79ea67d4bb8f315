import LineBasic.Proofs.Names
import LineBasic.Token.Scanner
import Mathlib.Data.List.TakeWhile

/-!
# Places and lexemes

`Position.behind` is the place behind a text that begins a source, told by counting, and following a
text character by character comes to the same place (`Position.behind_append`). `Lexeme.Spelling`
says how the text of a token is spelled in the source.
-/

namespace LineBasic

namespace Position

/-- The place behind a text: the line counts line feeds, the column counts characters since the last
one. -/
def behind (cs : List Char) : Position :=
  ⟨1 + cs.count '\n', 1 + (cs.reverse.takeWhile (· != '\n')).length⟩

theorem behind_concat (cs : List Char) (c : Char) : behind (cs ++ [c]) = (behind cs).advance c := by
  by_cases hc : c = '\n'
  · subst hc
    simp [behind, advance, Nat.add_assoc]
  · simp [behind, advance, hc, Nat.add_assoc, List.count_append]

theorem behind_append (cs ds : List Char) : behind (cs ++ ds) = (behind cs).after ds := by
  induction ds generalizing cs with
  | nil => simp
  | cons d ds ih => rw [List.append_cons, ih, behind_concat, after_cons]

theorem line_after (p : Position) (cs : List Char) :
    (p.after cs).line = p.line + cs.count '\n' := by
  induction cs generalizing p with
  | nil => simp
  | cons c cs ih =>
    rw [after_cons, ih, List.count_cons]
    by_cases hc : c = '\n'
    · simp [advance, hc]
      omega
    · simp [advance, hc]

end Position

theorem Keyword.ofText?_nil : Keyword.ofText? (String.ofList []) = none := by
  decide +kernel

theorem Keyword.isWordStart_of_ofText? {c : Char} {cs : List Char} {k : Keyword}
    (h : Keyword.ofText? (String.ofList (c :: cs)) = some k) : isWordStart c = true := by
  have hupper : k.text = (String.ofList (c :: cs)).toUpper :=
    beq_iff_eq.mp
      (List.find?_some (p := fun k : Keyword => k.text == (String.ofList (c :: cs)).toUpper) h)
  obtain ⟨d, ds, htext, hd⟩ : ∃ d ds, k.text.toList = d :: ds ∧ d.isAlpha = true := by
    cases k <;> exact ⟨_, _, rfl, rfl⟩
  rw [hupper, String.toUpper, String.toList_map, String.toList_ofList] at htext
  obtain ⟨rfl, _⟩ := List.cons.inj htext
  rw [isAlpha_toUpper] at hd
  rw [isWordStart, hd, Bool.true_or]

namespace Lexeme

/-- No keyword begins with anything but what a word begins with, so looking at the first character
alone first makes no difference. -/
theorem keywordFollows_eq (cs : List Char) :
    keywordFollows cs =
      (Keyword.ofText? (String.ofList (splitWord (cs.dropWhile isSpace)).1)).isSome := by
  unfold keywordFollows
  dsimp only
  cases hk : Keyword.ofText? (String.ofList (splitWord (cs.dropWhile isSpace)).1) with
  | none => rw [Option.isSome_none, Bool.and_false]
  | some k =>
    rw [Option.isSome_some, Bool.and_true]
    have happend := splitWord_append (cs.dropWhile isSpace)
    cases hword : (splitWord (cs.dropWhile isSpace)).1 with
    | nil =>
      rw [hword, Keyword.ofText?_nil] at hk
      cases hk
    | cons c word =>
      rw [hword] at hk happend
      rw [← happend]
      exact Keyword.isWordStart_of_ofText? hk

theorem isWordChar_newline : isWordChar '\n' = false := by decide

theorem newline_not_mem_splitWord (cs : List Char) : '\n' ∉ (splitWord cs).1 := by
  have hword : '\n' ∉ cs.takeWhile isWordChar := by
    intro h
    have := List.mem_takeWhile_imp h
    rw [isWordChar_newline] at this
    exact Bool.false_ne_true this
  unfold splitWord
  dsimp only
  split
  · simp [hword]
  · exact hword

/-- How the text of a token that is no remark is spelled. -/
structure Spelling (l : Lexeme) : Prop where
  kind_ne_end : l.kind ≠ .endOfInput
  /-- A string stands between quotes. -/
  string : l.kind = .string → l.source = '"' :: l.text ++ ['"']
  /-- A string without a closing quote takes all the rest. -/
  unterminated : l.kind = .illegal → String.ofList l.text = Token.unterminated →
    l.rest = [] ∧ ∃ cs, l.source = '"' :: cs
  /-- All else is spelled as it is. -/
  plain : l.kind ≠ .string → (l.kind = .illegal → String.ofList l.text ≠ Token.unterminated) →
    l.source = l.text
  rem : l.kind = .keyword .REM → '\n' ∉ l.source

theorem spelling_number (lineStart : Bool) (cs : List Char) : (number lineStart cs).Spelling := by
  have hkind : (number lineStart cs).kind = .lineNumber ∨ (number lineStart cs).kind = .number := by
    unfold number
    dsimp only
    split
    · exact .inl rfl
    · exact .inr rfl
  constructor
  case plain => exact fun _ _ => rfl
  all_goals
    rcases hkind with h | h <;> simp [h]

theorem spelling_word (cs : List Char) : (word cs).Spelling := by
  have hkind : (∃ k, (word cs).kind = .keyword k) ∨ (word cs).kind = .name := by
    unfold word
    dsimp only
    split
    · exact .inl ⟨_, rfl⟩
    · exact .inr rfl
  constructor
  case plain => exact fun _ _ => rfl
  case rem => exact fun _ => newline_not_mem_splitWord cs
  all_goals
    rcases hkind with ⟨k, h⟩ | h <;> simp [h]

theorem head_dropWhile {α : Type} {p : α → Bool} {l r : List α} {a : α}
    (h : l.dropWhile p = a :: r) : p a = false := by
  have := List.head?_dropWhile_not p l
  rw [h] at this
  simpa using this

theorem spelling_string (cs : List Char) : (string cs).Spelling := by
  unfold string
  dsimp only
  split
  · rename_i quote rest h
    obtain rfl : quote = '"' := by simpa using head_dropWhile h
    constructor <;> simp
  · constructor <;> simp

theorem ofList_singleton_ne_unterminated (c : Char) : String.ofList [c] ≠ Token.unterminated := by
  intro h
  have := congrArg (fun s => s.toList.length) h
  simp [Token.unterminated] at this

theorem symbolKind_ne (c : Char) : symbolKind c ≠ .endOfInput ∧ symbolKind c ≠ .string ∧
    symbolKind c ≠ .keyword .REM := by
  unfold symbolKind
  split <;> simp

theorem spelling_symbol (c : Char) (cs : List Char) : (symbol c cs).Spelling := by
  obtain ⟨hend, hstring, hrem⟩ := symbolKind_ne c
  have hsingle : ∀ rest, (⟨symbolKind c, [c], [c], rest⟩ : Lexeme).Spelling := by
    intro rest
    refine ⟨hend, fun h => absurd h hstring, fun _ h => ?_, fun _ _ => rfl, fun h => absurd h hrem⟩
    exact absurd h (ofList_singleton_ne_unterminated c)
  unfold symbol
  split
  · split
    · constructor <;> simp
    · constructor <;> simp
    · constructor <;> simp
    · exact hsingle _
  · exact hsingle _

theorem spelling_read (lineStart : Bool) (c : Char) (cs : List Char) :
    (read lineStart c cs).Spelling := by
  unfold read
  split
  · exact spelling_number lineStart (c :: cs)
  · split
    · exact spelling_word (c :: cs)
    · split
      · exact spelling_string cs
      · exact spelling_symbol c cs

end Lexeme

end LineBasic
