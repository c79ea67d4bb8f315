import LineBasic.Proofs.Names
import LineBasic.Proofs.Statement.ExprGrammar
import LineBasic.Proofs.Token.Pieces
import LineBasic.Statement.Render

/-!
# Rendered expressions are read back

`Expr.Shows` says that an expression is rendered in full: it is a number, a text or a variable, or
has these as its operands. If its names, texts and numbers can be spelled in a source
(`Expr.IsReadable`), then it is rendered in pieces that it is read from again
(`Expr.Shows.exists_isWritten`).
-/

namespace LineBasic

/-- A name as it is kept: in upper case, and no keyword. -/
structure Ident.IsSpelled (v : Ident) : Prop where
  form : Kind.name.Form v.name
  upper : Ident.ofText v.name = v

namespace Expr

/-- The expressions directly inside an expression. -/
def operands : Expr → List Expr
  | .number _ | .text _ | .var _ => []
  | .call _ es => es
  | .paren e => [e]
  | .binary _ l r => [l, r]

/-- A number, a text or a variable. -/
def IsAtom : Expr → Prop
  | .number _ | .text _ | .var _ => True
  | .call _ _ | .paren _ | .binary _ _ _ => False

/-- An expression that is rendered in full and without exponents, and where no empty parentheses are
left out. -/
structure Shows (e : Expr) : Prop where
  isAtom : ∀ a ∈ e.operands, a.IsAtom
  isPlain : ∀ x, .number x ∈ e :: e.operands → Number.IsPlain x
  isName : ∀ f, e = .call f [] → Builtin.isName f.name = true

/-- What an expression is at its head can be spelled in a source. -/
def IsSpelled : Expr → Prop
  | .number x => ∃ b ≤ Number.infinityMagnitude, x = Number.ofMagnitude false b
  | .text s => Kind.string.Form s
  | .var v => v.IsSpelled ∧ ∀ f : Builtin, f.name ≠ v.name
  | .call f _ => f.IsSpelled
  | .paren _ | .binary _ _ _ => True

/-- An expression and its operands can be spelled in a source. -/
def IsReadable (e : Expr) : Prop :=
  ∀ a ∈ e :: e.operands, a.IsSpelled

/-- No text directly in an expression has a newline. -/
def OneLine (e : Expr) : Prop :=
  ∀ s, .text s ∈ e :: e.operands → '\n' ∉ s.toList

/-! ## Atoms -/

/-- An expression that is written as one word. -/
structure IsOneWord (e : Expr) (kind : Kind) (text : String) : Prop where
  render : e.renderAtom? = some (String.ofList (kind.lexeme text))
  form : kind.Form text
  ne_rem : kind ≠ .keyword .REM
  derives : ∀ p, Derives .atom [⟨kind, text, p⟩] e
  newline : (∀ s, e = .text s → '\n' ∉ s.toList) → '\n' ∉ kind.lexeme text

theorem newline_not_mem_name {s : String} (h : Kind.name.Form s) : '\n' ∉ s.toList := by
  obtain ⟨c, body, hc, hbody, htext⟩ := h.1
  have hword : ∀ d ∈ c :: body, isWordChar d = true :=
    List.forall_mem_cons.mpr ⟨Lexeme.isWordChar_of_isWordStart hc, hbody⟩
  have hnewline : '\n' ∉ c :: body := by
    intro hmem
    exact Bool.false_ne_true (Lexeme.isWordChar_newline.symm.trans (hword _ hmem))
  rcases htext with htext | htext
  · rwa [htext]
  · rw [htext]
    exact List.not_mem_append hnewline (by decide)

theorem newline_not_mem_pointed {whole fraction : List Char} (h : Number.IsPointed whole fraction) :
    '\n' ∉ Number.pointed whole fraction := by
  intro hmem
  rcases h.isDigit_or_eq hmem with hdigit | hpoint
  · exact Bool.noConfusion hdigit
  · exact absurd hpoint (by decide)

theorem exists_isOneWord {e : Expr} (hatom : e.IsAtom) (hspelled : e.IsSpelled)
    (hplain : ∀ x, e = .number x → Number.IsPlain x) : ∃ kind text, e.IsOneWord kind text := by
  cases e with
  | number x =>
    obtain ⟨b, hb, rfl⟩ := hspelled
    obtain ⟨whole, fraction, htext, hpointed, hread⟩ :=
      Number.exists_pointed_toText hb (hplain _ rfl)
    refine ⟨.number, Number.toText .basic (Number.ofMagnitude false b), ?_,
      ⟨whole, fraction, htext, hpointed⟩, Kind.noConfusion, ?_, ?_⟩
    · exact congrArg some (String.ofList_toList).symm
    · intro p
      exact .number (.inl rfl) (by rw [htext]; exact hread)
    · intro _
      show '\n' ∉ (Number.toText .basic (Number.ofMagnitude false b)).toList
      rw [htext]
      exact newline_not_mem_pointed hpointed
  | text s =>
    refine ⟨.string, s, ?_, hspelled, Kind.noConfusion, fun p => .text rfl, ?_⟩
    · apply congrArg some
      apply String.toList_inj.mp
      simp [Kind.lexeme]
    · intro hnewline
      simpa [Kind.lexeme] using hnewline s rfl
  | var v =>
    obtain ⟨⟨hform, hupper⟩, hbuiltin⟩ := hspelled
    have hname : v.name.toUpper = v.name := congrArg Ident.name hupper
    refine ⟨.name, v.name, ?_, hform, Kind.noConfusion, ?_, fun _ => newline_not_mem_name hform⟩
    · exact congrArg some (String.ofList_toList).symm
    · intro p
      have hvar : Derives .atom [⟨.name, v.name, p⟩] (.var ⟨v.name.toUpper⟩) :=
        .var rfl (by rwa [hname])
      rwa [hname] at hvar
  | call | paren | binary => exact hatom.elim

/-- Pieces that write an expression as it is rendered, and from which it is read. -/
structure IsWritten (e : Expr) (ps : List Piece) : Prop where
  spell_eq : Piece.spell ps = e.render.toList
  exists_cons : ∃ kind text qs, kind.Form text ∧ ps = .word kind text :: qs
  isPhrase : Piece.IsPhrase ps
  derives : ∀ p, Derives .comparison (Piece.tokens p ps) e
  newline : e.OneLine → '\n' ∉ Piece.spell ps

theorem IsOneWord.isPhrase {e : Expr} {kind : Kind} {text : String} (h : e.IsOneWord kind text) :
    Piece.IsPhrase [.word kind text] :=
  .word h.form h.ne_rem (fun _ => delimited_nil) Piece.isPhrase_nil

theorem IsOneWord.derives_at {e : Expr} {kind : Kind} {text : String} (h : e.IsOneWord kind text)
    (level : Level) (p : Position) : Derives level [⟨kind, text, p⟩] e :=
  Derives.loosen (show level.rank ≤ Level.atom.rank from level.rank_le_five) (h.derives p)

theorem isWritten_of_atom {e : Expr} {kind : Kind} {text : String} (hatom : e.IsAtom)
    (h : e.IsOneWord kind text) :
    e.IsWritten [.word kind text] where
  spell_eq := by
    have hrender : e.render? = e.renderAtom? := by
      cases e with
      | number | text | var => rfl
      | call | paren | binary => exact hatom.elim
    rw [render, hrender, h.render, Option.getD_some, String.toList_ofList]
    exact List.append_nil _
  exists_cons := ⟨_, _, _, h.form, rfl⟩
  isPhrase := h.isPhrase
  derives p := h.derives_at .comparison p
  newline hnewline := by
    have hlexeme := h.newline fun s hs => hnewline s (hs ▸ List.mem_cons_self)
    simpa [Piece.source] using hlexeme

/-! ## Operators, parentheses and calls -/

section composite

variable {l r : Expr} {kind kind' : Kind} {text text' : String}

theorem derives_binary (op : Operator) (hl : l.IsOneWord kind text) (hr : r.IsOneWord kind' text')
    (p q q' : Position) :
    Derives .comparison [⟨kind, text, p⟩, ⟨.operator op, op.text, q⟩, ⟨kind', text', q'⟩]
      (binary op l r) := by
  by_cases hop : op = .power
  · subst hop
    exact Derives.loosen (by decide)
      (.power rfl (hl.derives_at .signed p) (hr.derives_at .power q'))
  · exact Derives.loosen (Nat.zero_le _)
      (.left hop rfl (hl.derives_at op.level p) (hr.derives_at op.level.tighter q'))

theorem isWritten_binary (op : Operator) (hl : l.IsOneWord kind text)
    (hr : r.IsOneWord kind' text') :
    (binary op l r).IsWritten
      [.word kind text, .blank, .word (.operator op) op.text, .blank, .word kind' text'] where
  spell_eq := by
    simp [render, render?, hl.render, hr.render, Piece.source, Kind.lexeme]
  exists_cons := ⟨_, _, _, hl.form, rfl⟩
  isPhrase := by
    have hop : (Kind.operator op).Form op.text := rfl
    apply Piece.IsPhrase.word hl.form hl.ne_rem (fun _ => Piece.delimited_blank _)
    apply Piece.IsPhrase.blank
    apply Piece.IsPhrase.word hop Kind.noConfusion (fun _ => Piece.delimited_blank _)
    exact hr.isPhrase.blank
  derives p := derives_binary op hl hr _ _ _
  newline h := by
    have hleft : '\n' ∉ kind.lexeme text := hl.newline fun s hs => h s (by simp [operands, hs])
    have hright : '\n' ∉ kind'.lexeme text' := hr.newline fun s hs => h s (by simp [operands, hs])
    have hop : '\n' ∉ op.text.toList := by cases op <;> decide
    simp [Piece.source, Kind.lexeme, hop] at hleft hright ⊢
    exact ⟨hleft, hright⟩

theorem isWritten_paren (h : l.IsOneWord kind text) :
    (paren l).IsWritten [.word .leftParen "(", .word kind text, .word .rightParen ")"] where
  spell_eq := by simp [render, render?, h.render, Piece.source, Kind.lexeme]
  exists_cons := ⟨.leftParen, "(", _, rfl, rfl⟩
  isPhrase := by
    have hopen : Kind.leftParen.Form "(" := rfl
    apply Piece.IsPhrase.word hopen Kind.noConfusion (fun hkind => absurd rfl hkind)
    exact h.isPhrase.append Piece.isPhrase_rightParen Piece.delimited_rightParen
  derives p := by
    exact Derives.loosen (show Level.comparison.rank ≤ Level.atom.rank by decide)
      (.paren rfl rfl (h.derives_at .comparison _))
  newline hline := by
    have hword : '\n' ∉ kind.lexeme text := h.newline fun s hs => hline s (by simp [operands, hs])
    simp [Piece.source, Kind.lexeme] at hword ⊢
    exact hword

end composite

/-- Pieces that write the arguments of a call. -/
structure IsWrittenAll (es : List Expr) (xs : List Piece) : Prop where
  length_eq : xs.length = es.length
  render : es.mapM renderAtom? = some (xs.map fun x => String.ofList x.source)
  isPhrase : ∀ x ∈ xs, Piece.IsPhrase [x]
  derives : es ≠ [] →
    ∀ p, DerivesArguments (Piece.tokens p (Piece.separator.intercalate (xs.map ([·])))) es
  newline : (∀ s, .text s ∈ es → '\n' ∉ s.toList) → ∀ x ∈ xs, '\n' ∉ x.source

theorem exists_isWrittenAll {es : List Expr} (h : ∀ a ∈ es, ∃ kind text, a.IsOneWord kind text) :
    ∃ xs, IsWrittenAll es xs := by
  induction es with
  | nil => exact ⟨[], rfl, rfl, by simp, fun hne => absurd rfl hne, by simp⟩
  | cons e es ih =>
    obtain ⟨kind, text, he⟩ := h e List.mem_cons_self
    obtain ⟨xs, hxs⟩ := ih fun a ha => h a (List.mem_cons_of_mem _ ha)
    refine ⟨.word kind text :: xs, congrArg (· + 1) hxs.length_eq, ?_, ?_, ?_, ?_⟩
    · simp [List.mapM_cons, he.render, hxs.render, Piece.source]
    · exact List.forall_mem_cons.mpr ⟨he.isPhrase, hxs.isPhrase⟩
    · intro _ p
      cases es with
      | nil =>
        obtain rfl : xs = [] := List.length_eq_zero_iff.mp hxs.length_eq
        exact .last (he.derives_at .comparison p)
      | cons e' es =>
        obtain ⟨x, xs', rfl⟩ := List.exists_cons_of_length_eq_add_one hxs.length_eq
        rw [List.map_cons, List.map_cons, List.intercalate_cons_cons, List.append_assoc]
        exact .more rfl (he.derives_at .comparison p) (hxs.derives (List.cons_ne_nil e' es) _)
    · intro hline x hx
      rcases List.mem_cons.mp hx with rfl | hx
      · exact he.newline fun s hs => hline s (by simp [hs])
      · exact hxs.newline (fun s hs => hline s (List.mem_cons_of_mem _ hs)) x hx

theorem delimited_leftParen (ps : List Piece) :
    Delimited (Piece.spell (.word .leftParen "(" :: ps)) := by
  intro c hc
  obtain rfl : '(' = c := Option.some.inj hc
  rfl

theorem isWritten_call {f : Ident} {es : List Expr} {xs : List Piece} (hf : f.IsSpelled)
    (hne : es ≠ []) (h : IsWrittenAll es xs) :
    (call f es).IsWritten
      (.word .name f.name :: .word .leftParen "(" ::
        (Piece.separator.intercalate (xs.map ([·])) ++ [.word .rightParen ")"])) where
  spell_eq := by
    have hrender : (call f es).render =
        f.name ++ "(" ++ ", ".intercalate (xs.map fun x => String.ofList x.source) ++ ")" := by
      cases es with
      | nil => exact absurd rfl hne
      | cons e es => simp [render, render?, h.render]
    rw [hrender]
    simp [Piece.spell_intercalate, Piece.source, Kind.lexeme, Function.comp_def]
  exists_cons := ⟨_, _, _, hf.form, rfl⟩
  isPhrase := by
    have hopen : Kind.leftParen.Form "(" := rfl
    have harguments : Piece.IsPhrase (Piece.separator.intercalate (xs.map ([·]))) := by
      apply Piece.isPhrase_intercalate
      intro ys hys
      obtain ⟨x, hx, rfl⟩ := List.mem_map.mp hys
      exact h.isPhrase x hx
    apply Piece.IsPhrase.word hf.form Kind.noConfusion (fun _ => delimited_leftParen _)
    apply Piece.IsPhrase.word hopen Kind.noConfusion (fun hkind => absurd rfl hkind)
    exact harguments.append Piece.isPhrase_rightParen Piece.delimited_rightParen
  derives p := by
    have hcall : ∀ q q' q'', Derives .atom
        (⟨.name, f.name, q⟩ :: ⟨.leftParen, "(", q'⟩ ::
          (Piece.tokens q'' (Piece.separator.intercalate (xs.map ([·]))) ++
            [⟨.rightParen, ")",
              q''.after (Piece.spell (Piece.separator.intercalate (xs.map ([·]))))⟩]))
        (call (.ofText f.name) es) :=
      fun q q' q'' => .callWith rfl rfl rfl (h.derives hne q'')
    rw [hf.upper] at hcall
    simp only [Piece.tokens, Piece.tokens_append]
    exact Derives.loosen (show Level.comparison.rank ≤ Level.atom.rank by decide) (hcall _ _ _)
  newline hline := by
    have hxs := h.newline fun s hs => hline s (List.mem_cons_of_mem _ hs)
    have harguments : '\n' ∉ Piece.spell (Piece.separator.intercalate (xs.map ([·]))) := by
      apply Piece.newline_not_mem_intercalate
      intro ys hys
      obtain ⟨x, hx, rfl⟩ := List.mem_map.mp hys
      simpa using hxs x hx
    have hname := newline_not_mem_name hf.form
    simp [Piece.source, Kind.lexeme, hname, harguments]

/-- A built-in function is written without parentheses. -/
theorem isWritten_builtin {f : Ident} (hf : f.IsSpelled) (h : Builtin.isName f.name = true) :
    (call f []).IsWritten [.word .name f.name] where
  spell_eq := by simp [render, render?, Piece.source, Kind.lexeme]
  exists_cons := ⟨_, _, _, hf.form, rfl⟩
  isPhrase := .word hf.form Kind.noConfusion (fun _ => delimited_nil) Piece.isPhrase_nil
  derives p := by
    obtain ⟨g, hg⟩ := Builtin.isName_iff.mp h
    have hcall : Derives .atom [⟨.name, f.name, p⟩] (call (.ofText f.name) []) := .builtin rfl hg
    rw [hf.upper] at hcall
    exact Derives.loosen (show Level.comparison.rank ≤ Level.atom.rank by decide) hcall
  newline _ := by simpa [Piece.source, Kind.lexeme] using newline_not_mem_name hf.form

/-- An expression that is shown in full and can be spelled is written in pieces that it is read
from. -/
theorem Shows.exists_isWritten {e : Expr} (h : e.Shows) (hspelled : e.IsReadable) :
    ∃ ps, e.IsWritten ps := by
  have hword : ∀ a ∈ e :: e.operands, a.IsAtom → ∃ kind text, a.IsOneWord kind text := by
    intro a ha hatom
    apply exists_isOneWord hatom (hspelled a ha)
    rintro x rfl
    exact h.isPlain x ha
  have hoperand : ∀ a ∈ e.operands, ∃ kind text, a.IsOneWord kind text :=
    fun a ha => hword a (List.mem_cons_of_mem _ ha) (h.isAtom a ha)
  cases e with
  | number | text | var =>
    obtain ⟨kind, text, hone⟩ := hword _ List.mem_cons_self trivial
    exact ⟨_, isWritten_of_atom trivial hone⟩
  | call f es =>
    have hf : f.IsSpelled := hspelled _ List.mem_cons_self
    cases es with
    | nil => exact ⟨_, isWritten_builtin hf (h.isName f rfl)⟩
    | cons e es =>
      obtain ⟨xs, hxs⟩ := exists_isWrittenAll hoperand
      exact ⟨_, isWritten_call hf (List.cons_ne_nil e es) hxs⟩
  | paren l =>
    obtain ⟨kind, text, hl⟩ := hoperand l (by simp [operands])
    exact ⟨_, isWritten_paren hl⟩
  | binary op l r =>
    obtain ⟨kind, text, hl⟩ := hoperand l (by simp [operands])
    obtain ⟨kind', text', hr⟩ := hoperand r (by simp [operands])
    exact ⟨_, isWritten_binary op hl hr⟩

end Expr

end LineBasic
