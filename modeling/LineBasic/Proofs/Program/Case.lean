import LineBasic.Proofs.Program.Insert
import LineBasic.Proofs.Statement.Likeness
import LineBasic.Proofs.Token.Case
import LineBasic.Proofs.Token.Rereading

/-!
# Programs do not depend on the case of letters

Two sources that differ only in the case of letters outside strings and remarks
(`Token.SameButCase`) have tokens of the same kinds at the same places, and make the same program,
or fail at the same place with the same code (`Program.ofSource_sameButCase`). Names are told apart
in upper case only, and numbers have no letters. The texts of strings and remarks are the same
because they stand at the same places of the two sources, at which these agree.
-/

namespace LineBasic

namespace Position

theorem behind_map_toUpper (cs : List Char) : behind (cs.map Char.toUpper) = behind cs := by
  have h := behind_append [] (cs.map Char.toUpper)
  rw [after_map_toUpper, ← behind_append] at h
  exact h

end Position

namespace Token

/-- The text of a token stands in a source behind an opening, and that at the place of the token. -/
structure StandsIn (t : Token) (source front opening : List Char) : Prop where
  exists_rest : ∃ rest, source = front ++ (opening ++ (t.text.toList ++ rest))
  position_eq : t.position = .behind front
  isOpening : opening = [] ∨ opening = ['"']

/-- A place in a source lies in a string or in the text of a remark. -/
def InText (source : String) (i : Nat) : Prop :=
  ∃ t ∈ scan source, t.kind = .string ∧ ∃ front opening, t.StandsIn source.toList front opening ∧
    (front ++ opening).length ≤ i ∧ i < (front ++ opening ++ t.text.toList).length

/-- Two sources differ only in the case of letters, and that outside strings and remarks. -/
structure SameButCase (source source' : String) : Prop where
  toUpper_eq : source'.toUpper = source.toUpper
  text_eq : ∀ i, InText source i → source'.toList[i]? = source.toList[i]?

/-- Two tokens that stand alike in two sources. -/
def StandAlike (source source' : List Char) (t u : Token) : Prop :=
  t.kind = .string → ∃ front front' opening, t.StandsIn source front opening ∧
    u.StandsIn source' front' opening

/-- The text of a remark has no opening, and that of another string has a quote. -/
theorem IsSpelled.standsIn {t : Token} {before : Preceding} {front gap lexeme rest : List Char}
    (h : t.IsSpelled before lexeme rest) (hstring : t.kind = .string)
    (hposition : t.position = .behind (front ++ gap)) :
    t.StandsIn (front ++ (gap ++ (lexeme ++ rest))) (front ++ gap)
      (if before.after t = .remark then [] else ['"']) := by
  rw [IsSpelled, if_pos hstring] at h
  subst h
  split
  · exact ⟨⟨rest, by simp⟩, hposition, .inl rfl⟩
  · exact ⟨⟨'"' :: rest, by simp⟩, hposition, .inr rfl⟩

/-- If tokens at the same places are of the same kinds, then strings and remarks stand in their
sources alike. -/
theorem Layout.standAlike {before : Preceding} {front source front' source' : List Char}
    {ts us : List Token} (h : Layout before front source ts)
    (h' : Layout before front' source' us)
    (hsame : List.Forall₂ (fun t u => u.kind = t.kind ∧ u.position = t.position) ts us) :
    List.Forall₂ (StandAlike (front ++ source) (front' ++ source')) ts us := by
  induction h generalizing front' source' us with
  | done hgap =>
    cases hsame with
    | cons _ hnil =>
      cases hnil
      exact .cons nofun .nil
  | @token before front gap lexeme rest t ts hgap hend hposition hspelled hrest ih =>
    cases hsame with
    | @cons _ u _ us htu htus =>
      obtain ⟨hkind, hplace⟩ := htu
      cases h' with
      | done => exact absurd hkind.symm hend
      | @token _ _ gap' lexeme' rest' _ _ hgap' hend' hposition' hspelled' hrest' =>
        -- Remarks are where `REM` stands on the same line before, which is a matter of kinds and
        -- places.
        have hafter : before.after u = before.after t := by
          unfold Preceding.after Token.line
          rw [hkind, hplace]
        rw [hafter] at hrest'
        refine .cons ?_ ?_
        · intro hstring
          have ht := hspelled.standsIn hstring hposition
          have hu := hspelled'.standsIn (hkind.trans hstring) hposition'
          rw [hafter] at hu
          exact ⟨_, _, _, ht, hu⟩
        · simpa only [List.append_assoc] using ih hrest' htus

/-- Texts that stand alike in sources which agree there are the same. -/
theorem text_eq_of_standsIn {t u : Token} {source source' front front' opening : List Char}
    (ht : t.StandsIn source front opening) (hu : u.StandsIn source' front' opening)
    (hposition : u.position = t.position)
    (hupper : source'.map Char.toUpper = source.map Char.toUpper)
    (hlength : u.text.toList.length = t.text.toList.length)
      (hagree : ∀ i, (front ++ opening).length ≤ i →
      i < (front ++ opening ++ t.text.toList).length → source'[i]? = source[i]?) :
    u.text = t.text := by
  obtain ⟨⟨rest, rfl⟩, htfront, -⟩ := ht
  obtain ⟨⟨rest', rfl⟩, hufront, -⟩ := hu
  -- In upper case the two sources are one, and in one source a place belongs to one front part.
  have hfront : front'.length = front.length := by
    have hprefix : front.map Char.toUpper <+:
        (front ++ (opening ++ (t.text.toList ++ rest))).map Char.toUpper :=
          (List.prefix_append _ _).map _
    have hprefix' : front'.map Char.toUpper <+:
        (front ++ (opening ++ (t.text.toList ++ rest))).map Char.toUpper :=
          hupper ▸ (List.prefix_append _ _).map _
    have hplace : Position.behind (front'.map Char.toUpper) = .behind (front.map Char.toUpper) := by
      rw [Position.behind_map_toUpper, Position.behind_map_toUpper, ← htfront, ← hufront, hposition]
    simpa using congrArg List.length (Position.eq_of_behind_eq hprefix' hprefix hplace)
  have hget (front text rest : List Char) (i : Nat) (hi : i < text.length) :
      (front ++ (opening ++ (text ++ rest)))[(front ++ opening).length + i]? = text[i]? := by
    rw [← List.append_assoc, List.getElem?_append_right (Nat.le_add_right _ _),
      Nat.add_sub_cancel_left, List.getElem?_append_left hi]
  rw [← String.toList_inj]
  apply List.ext_getElem?
  intro i
  by_cases hi : i < t.text.toList.length
  · have hplace : (front' ++ opening).length = (front ++ opening).length := by simp [hfront]
    rw [← hget front' _ rest' i (hlength ▸ hi), ← hget front _ rest i hi, hplace]
    apply hagree _ (Nat.le_add_right _ _)
    simp only [List.length_append] at hi ⊢
    omega
  · rw [List.getElem?_eq_none (by omega), List.getElem?_eq_none (by omega)]

section Upper

variable {t u : Token}

theorem kind_of_upper_eq (h : u.upper = t.upper) : u.kind = t.kind := by
  rw [← kind_upper, h, kind_upper]

theorem position_of_upper_eq (h : u.upper = t.upper) : u.position = t.position := by
  rw [← position_upper, h, position_upper]

theorem toUpper_of_upper_eq (h : u.upper = t.upper) (hlegal : t.kind ≠ .illegal) :
    u.text.toUpper = t.text.toUpper := by
  have hlegal' : u.kind ≠ .illegal := kind_of_upper_eq h ▸ hlegal
  rw [upper_of_legal hlegal, upper_of_legal hlegal'] at h
  exact congrArg text h

theorem eq_of_upper_eq (h : u.upper = t.upper) (hillegal : t.kind = .illegal) : u = t := by
  rwa [upper, if_pos ((kind_of_upper_eq h).trans hillegal), upper, if_pos hillegal] at h

end Upper

end Token

/-- Tokens that differ only in the case of letters, and that neither in strings nor in numbers. -/
def Likeness.caseBlind : Likeness where
  token t u :=
    u.upper = t.upper ∧
      (t.kind = .string ∨ t.kind = .number ∨ t.kind = .lineNumber → u.text = t.text)
  error e e' := e'.code = e.code ∧ e'.position = e.position
  kind_eq h := Token.kind_of_upper_eq h.1
  line_eq h _ := congrArg Position.line (Token.position_of_upper_eq h.1)
  name_eq h hname := congrArg Ident.mk (Token.toUpper_of_upper_eq h.1 (by simp [hname]))
  text_eq h := h.2
  error_of_token h _ _ _ := ⟨rfl, congrArg some (Token.position_of_upper_eq h.1)⟩
  illegalError h hillegal := by
    rw [Token.eq_of_upper_eq h.1 hillegal]
    exact ⟨rfl, rfl⟩

namespace Token

variable {source source' : String}

theorem forall₂_upper_eq (h : source'.toUpper = source.toUpper) :
    List.Forall₂ (fun t u => u.upper = t.upper) (scan source) (scan source') := by
  have hscanner : (Scanner.ofString source').upper = (Scanner.ofString source).upper :=
    congrArg (fun rest => ({ rest } : Scanner)) (map_toUpper_of_toUpper_eq h)
  have htokens : (scan source').map upper = (scan source).map upper := by
    unfold scan
    rw [← Scanner.tokens_upper, ← Scanner.tokens_upper, hscanner]
  rw [← List.forall₂_eq_eq_eq, List.forall₂_map_left_iff, List.forall₂_map_right_iff] at htokens
  exact htokens.flip

theorem SameButCase.forall₂_token (h : SameButCase source source') :
    List.Forall₂ Likeness.caseBlind.token (scan source) (scan source') := by
  have hupper := forall₂_upper_eq h.toUpper_eq
  have hsame : List.Forall₂ (fun t u =>
      u.kind = t.kind ∧ u.position = t.position) (scan source) (scan source') :=
    hupper.imp fun t u htu => ⟨kind_of_upper_eq htu, position_of_upper_eq htu⟩
  have hstand :=
    (Scanner.reflects_ofString source).layout.standAlike
      (Scanner.reflects_ofString source').layout hsame
  have hmem := (List.forall₂_and_left _ _).mpr ⟨fun t (ht : t ∈ scan source) => ht, hupper⟩
  refine List.Forall₂.mp (fun t u htu hstand => ⟨htu.2, ?_⟩) hmem hstand
  rintro (hstring | hnumber)
  · obtain ⟨front, front', opening, hstands, hstands'⟩ := hstand hstring
    have hlength : u.text.toList.length = t.text.toList.length := by
      simpa using congrArg List.length
        (map_toUpper_of_toUpper_eq (toUpper_of_upper_eq htu.2 (by simp [hstring])))
    apply text_eq_of_standsIn hstands hstands' (position_of_upper_eq htu.2)
      (map_toUpper_of_toUpper_eq h.toUpper_eq) hlength
    intro i hge hlt
    exact h.text_eq i ⟨t, htu.1, hstring, front, opening, hstands, hge, hlt⟩
  · refine eq_of_toUpper_eq (toUpper_of_upper_eq htu.2 ?_) fun c hc => ?_
    · rcases hnumber with hkind | hkind <;> simp [hkind]
    · rcases isDigit_or_point source t htu.1 hnumber c hc with hdigit | rfl
      · cases halpha : c.isAlpha with
        | true => exact hdigit.symm.trans (isDigit_of_isAlpha halpha)
        | false => rfl
      · rfl

end Token

namespace Program

/-- The case of letters outside strings and remarks does not matter: not for the kinds and places of
tokens, and not for the program that the source makes or for the code and the place of the error. -/
theorem ofSource_sameButCase {source source' : String} (h : Token.SameButCase source source') :
    (Token.scan source').map (fun t => (t.kind, t.position)) =
      (Token.scan source).map (fun t => (t.kind, t.position)) ∧
      ((∃ p, ofSource source = .ok p ∧ ofSource source' = .ok p) ∨
        ∃ e e', ofSource source = .error e ∧ ofSource source' = .error e' ∧ e'.code = e.code ∧
          e'.position = e.position) := by
  constructor
  · rw [← List.forall₂_eq_eq_eq, List.forall₂_map_left_iff, List.forall₂_map_right_iff]
    refine List.Forall₂.flip (h.forall₂_token.imp fun t u htu => ?_)
    exact Prod.ext (Token.kind_of_upper_eq htu.1) (Token.position_of_upper_eq htu.1)
  · have hresults := Likeness.ofSource h.forall₂_token
    generalize ofSource source = r, ofSource source' = r' at hresults
    cases hresults with
    | ok p => exact .inl ⟨p, rfl, rfl⟩
    | error he => exact .inr ⟨_, _, rfl, rfl, he⟩

theorem ofSource_sameButCase_quoted :
    Token.SameButCase "10 let a$=\"b\"" "10 LET A$=\"b\"" ∧
      ∃ p, ofSource "10 let a$=\"b\"" = .ok p ∧ ofSource "10 LET A$=\"b\"" = .ok p := by
  have hstrings : (Token.scan "10 let a$=\"b\"").filter (·.kind = .string) =
      [⟨.string, "b", ⟨1, 11⟩⟩] := by with_unfolding_all rfl
  have hlength : ("10 let a$=\"b\"".toList.take 10).length = 10 := by decide
  have hdrop : "10 LET A$=\"b\"".toList.drop 10 = "10 let a$=\"b\"".toList.drop 10 := by decide
  have hsame : Token.SameButCase "10 let a$=\"b\"" "10 LET A$=\"b\"" := by
    refine ⟨String.toList_inj.mp ?_, ?_⟩
    · rw [toList_toUpper, toList_toUpper]
      decide
    -- The only string stands behind ten characters, and from there on the two sources are the same.
    rintro i ⟨t, ht, hstring, front, opening, ⟨⟨rest, hsource⟩, hfront, -⟩, hle, -⟩
    have hmem : t ∈ (Token.scan "10 let a$=\"b\"").filter (·.kind = .string) :=
      List.mem_filter.mpr ⟨ht, decide_eq_true hstring⟩
    rw [hstrings, List.mem_singleton] at hmem
    have hposition : t.position = .behind ("10 let a$=\"b\"".toList.take 10) := by
      rw [hmem]
      decide
    have hten : front = "10 let a$=\"b\"".toList.take 10 :=
      Position.eq_of_behind_eq ⟨_, hsource.symm⟩ (List.take_prefix _ _)
        (hfront.symm.trans hposition)
    rw [List.length_append, hten, hlength] at hle
    obtain ⟨k, rfl⟩ := Nat.exists_eq_add_of_le (Nat.le_of_add_right_le hle)
    rw [← List.getElem?_drop, ← List.getElem?_drop, hdrop]
  have hp : ofSource "10 let a$=\"b\"" = .ok (.single 10 (.assign ⟨"A$"⟩ (.text "b"))) := by
    with_unfolding_all rfl
  rcases (ofSource_sameButCase hsame).2 with hok | ⟨e, _, he, -⟩
  · exact ⟨hsame, hok⟩
  · cases hp.symm.trans he

end Program

end LineBasic
