import LineBasic.Proofs.Program.Lines
import LineBasic.Proofs.Token.Spelled
import LineBasic.Run.Machine

/-!
# Programs that were read are well formed

A name in source text begins with a letter or an underscore, so a variable can have it
(`Scanner.namesVariable_of_mem_tokens`). A loop carries the number of the line on which it stands,
however many conditions stand before it. Both are what `Statement.WellFormed` says, and every
statement of a program that was read from source text has it (`Program.wellFormed_of_ofSource`).
-/

namespace LineBasic

/-! ## Names in source text -/

/-- A name that a variable can have. -/
def Ident.IsVariable (v : Ident) : Prop :=
  v.name ≠ "" ∧ v.name ≠ "$"

theorem toUpper_ne_dollar {c : Char} (h : isWordStart c = true) : c.toUpper ≠ '$' := by
  intro hupper
  have halpha := isAlpha_toUpper c
  rw [hupper] at halpha
  obtain rfl : c = '_' := by simpa [isWordStart, ← halpha] using h
  exact absurd hupper (by decide)

/-- A text that begins like a name is the name of a variable. -/
theorem Ident.isVariable_ofText {c : Char} {cs : List Char} (h : isWordStart c = true) :
    (Ident.ofText (String.ofList (c :: cs))).IsVariable := by
  have hname : (Ident.ofText (String.ofList (c :: cs))).name.toList =
      c.toUpper :: cs.map Char.toUpper := by
    simp [Ident.ofText, String.toUpper]
  constructor
  · intro hempty
    rw [hempty] at hname
    cases hname
  · intro hdollar
    rw [hdollar] at hname
    exact toUpper_ne_dollar h (List.cons.inj hname).1.symm

/-- If a token is a name, it names a variable. -/
def Token.NamesVariable (t : Token) : Prop :=
  t.kind = .name → (Ident.ofText t.text).IsVariable

namespace Scanner

theorem namesVariable_of_mem_tokens {s : Scanner} {t : Token} (ht : t ∈ s.tokens) :
    t.NamesVariable := by
  refine forall_mem_tokens ?_ ?_ ?_ s t ht
  · intro position hname
    cases hname
  · intro lineStart c cs position hname
    obtain ⟨hstart, ds, htext⟩ := Lexeme.exists_cons_of_name hname
    dsimp only
    rw [htext]
    exact Ident.isVariable_ofText hstart
  · intro s t ht hname
    rw [kind_of_takeRemark ht] at hname
    cases hname

end Scanner

/-! ## Statements and programs -/

namespace Statement

/-- The variables of a statement on a line have names that variables can have, and a loop carries
the number of the line. -/
def WellFormed (number : Nat) : Statement → Prop
  | .loop v _ _ _ line => v.IsVariable ∧ line = number
  | .cond _ body => body.WellFormed number
  | .input _ v | .assign v _ => v.IsVariable
  | .stop | .goto _ | .next _ | .print _ | .remark _ => True

theorem Derives.wellFormed {number : Nat} {ts : List Token} {st : Statement}
    (h : Derives number ts st) (hnames : ∀ t ∈ ts, t.NamesVariable) : st.WellFormed number := by
  induction h with
  | assign hv _ _ => exact hnames _ (by simp) hv
  | assignLet _ hv _ _ => exact hnames _ (by simp) hv
  | input _ hv => exact hnames _ (by simp) hv
  | inputPrompt _ _ _ hv => exact hnames _ (by simp) hv
  | loop _ hv _ _ _ _ => exact ⟨hnames _ (by simp) hv, rfl⟩
  | loopStep _ hv _ _ _ _ _ _ => exact ⟨hnames _ (by simp) hv, rfl⟩
  | cond _ _ _ _ ih =>
    apply ih
    intro t ht
    exact hnames t (by simp [ht])
  | print _ | printItems _ _ | goto _ _ | condGoto _ _ _ _ _ | next _ | nextOf _ _ | rem _
  | remark _ _ | stop _ =>
    trivial

end Statement

namespace Program

variable {p q : Program}

/-- Every statement of a program is well formed on its line. -/
def WellFormed (p : Program) : Prop :=
  ∀ n st, p.get? n = some st → st.WellFormed n

theorem get?_of_insert {n m : Nat} {st st' : Statement} (h : insert n st p = (.ok (), q))
    (hget : q.get? m = some st') : m = n ∧ st' = st ∨ p.get? m = some st' := by
  have hadded := p.inStep.get?_insert ⟨n, st⟩ m
  obtain rfl : (insert n st p).2 = q := congrArg Prod.snd h
  change (insert n st p).2.get? m = if isLineNumber m = true ∧
    n = m then (p.get? m).or (some st) else p.get? m at hadded
  rw [hadded] at hget
  split at hget
  · rename_i hm
    rcases Option.or_eq_some_iff.mp hget with hold | ⟨-, hnew⟩
    · exact .inr hold
    · exact .inl ⟨hm.2.symm, (Option.some.inj hnew).symm⟩
  · exact .inr hget

/-- Every statement that reading lines adds was read behind its number. -/
theorem exists_read_of_readLines {p q : Program} {c : Cursor} {n : Nat} {st : Statement}
    (h : p.readLines c = .ok q) (hget : q.get? n = some st) : p.get? n = some st ∨
      ∃ c' d : Cursor, c'.tokens <:+ c.tokens ∧ c'.peek.IsTarget n ∧
        (Statement.read c'.peek.line n c'.advance).Gives st d := by
  by_cases hend : c.peek.kind = .endOfInput
  · rw [readLines_of_end hend] at h
    rw [← Except.ok.inj h] at hget
    exact .inl hget
  · obtain ⟨m, st', d, ht, hread, hd⟩ := exists_gives_of_readLines hend h
    rw [readLines_of_gives ht hread hd] at h
    obtain ⟨ts, hadvance, _⟩ := Statement.read_sound hread
    have hc : c = d.prepend (c.peek :: ts) := by
      have hpeek := Cursor.eq_prepend_peek hend
      rwa [hadvance, ← Cursor.prepend_append] at hpeek
    have hsuffix : d.tokens <:+ c.tokens := ⟨c.peek :: ts, (congrArg Cursor.tokens hc).symm⟩
    have hsize : d.size < c.size := by
      rw [hc, Cursor.size_prepend, List.length_cons]
      omega
    split at h
    · cases h
    · rename_i p' hinsert
      rcases exists_read_of_readLines h hget with hp' | ⟨c', d', htokens, hread'⟩
      · rcases get?_of_insert hinsert hp' with ⟨rfl, rfl⟩ | hp
        · exact .inr ⟨c, d, List.suffix_rfl, ht, hread⟩
        · exact .inl hp
      · exact .inr ⟨c', d', htokens.trans hsuffix, hread'⟩
termination_by c.size

/-- Every statement of a program was read behind its number. -/
theorem exists_read_of_ofSource {source : String} {n : Nat} {st : Statement}
    (h : ofSource source = .ok p) (hget : p.get? n = some st) :
    ∃ c d : Cursor, c.tokens <:+ Token.scan source ∧ c.peek.IsTarget n ∧
      (Statement.read c.peek.line n c.advance).Gives st d := by
  rw [ofSource, ofTokens_of_not_illegal (not_illegal_of_ofSource h)] at h
  rcases exists_read_of_readLines h hget with hempty | hread
  · rw [get?_empty] at hempty
    cases hempty
  · exact hread

/-- A program that was read from source text is well formed. -/
theorem wellFormed_of_ofSource {source : String} (h : ofSource source = .ok p) : p.WellFormed := by
  intro n st hget
  obtain ⟨c, d, hsuffix, ht, hread⟩ := exists_read_of_ofSource h hget
  obtain ⟨ts, hadvance, hderives⟩ := Statement.read_sound hread
  apply hderives.wellFormed
  intro t htmem
  apply Scanner.namesVariable_of_mem_tokens
  apply hsuffix.subset
  rw [Cursor.eq_prepend_peek ht.isLegal.2, hadvance]
  simp [Cursor.prepend, htmem]

end Program

end LineBasic
