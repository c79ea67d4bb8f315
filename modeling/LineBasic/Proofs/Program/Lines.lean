import LineBasic.Program.Read
import LineBasic.Proofs.Program.Insert
import LineBasic.Proofs.Statement.Phrases
import LineBasic.Proofs.Token.Lines

/-!
# Programs are read line by line

A text of one line is a program if it is blank or holds a number and a statement
(`Program.isProgramLine_of_ofSource`). In a longer text such a line adds its statement under its
number and nothing else, whatever lines come before and after it (`Program.readLines_line`). So a
program is the same in whatever order its lines stand, and where two lines have one number the later
one is refused (`Program.ofSource_joinLines`).
-/

namespace LineBasic

/-- A cursor that stands behind a phrase stands at the end or before what follows the phrase. -/
theorem Cursor.exists_of_prepend_eq {c d : Cursor} {ts us : List Token}
    (h : d.prepend ts = c.prepend us) (hd : d.peek.kind = .endOfInput)
    (hus : ∀ t ∈ us, t.kind ≠ .endOfInput) : ∃ vs, ts = us ++ vs ∧ c = d.prepend vs := by
  obtain ⟨tokens, stop⟩ := c
  obtain ⟨tokens', stop'⟩ := d
  obtain ⟨htokens, rfl⟩ : ts ++ tokens' = us ++ tokens ∧ stop' = stop := by
    simpa [Cursor.prepend] using h
  rcases List.append_eq_append_iff.mp htokens with ⟨vs, rfl, rfl⟩ | ⟨vs, rfl, rfl⟩
  · cases vs with
    | nil => exact ⟨[], by simp, rfl⟩
    | cons v vs => exact absurd hd (hus v (by simp))
  · exact ⟨vs, rfl, rfl⟩

/-- A cursor that stands behind a phrase on a line where the line ends is the one at the end of the
line. -/
theorem Cursor.eq_of_prepend_eq {c d : Cursor} {ts us : List Token} {line : Nat}
    (h : d.prepend ts = c.prepend us) (hd : d.peek.kind = .endOfInput)
    (hts : Token.OnLine line ts) (hus : ∀ t ∈ us, t.kind ≠ .endOfInput)
    (hc : c.atEndOfStatement line = true) : ts = us ∧ d = c := by
  obtain ⟨vs, rfl, rfl⟩ := exists_of_prepend_eq h hd hus
  cases vs with
  | nil => exact ⟨by simp, rfl⟩
  | cons v vs =>
    have hv : Token.OnLine line (v :: vs) := fun t ht => hts t (List.mem_append_right us ht)
    rw [atEndOfStatement_prepend_cons hv] at hc
    cases hc

namespace Program

/-- These tokens are a line of source text that makes a program. -/
inductive DerivesLine : List Token → Program → Prop
  | blank : DerivesLine [] .empty
  | line {t : Token} {ts : List Token} {n : Nat} {st : Statement} (ht : t.IsTarget n)
      (h : Statement.Derives n ts st) : DerivesLine (t :: ts) (.single n st)

variable {p q : Program} {d : Cursor} {t : Token} {ts : List Token}

theorem derivesLine_iff : DerivesLine ts p ↔ ts = [] ∧ p = .empty ∨
    ∃ t us n st, ts = t :: us ∧ t.IsTarget n ∧ Statement.Derives n us st ∧ p = .single n st := by
  constructor
  · rintro (_ | ⟨ht, h⟩)
    · exact .inl ⟨rfl, rfl⟩
    · exact .inr ⟨_, _, _, _, rfl, ht, h, rfl⟩
  · rintro (⟨rfl, rfl⟩ | ⟨t, us, n, st, rfl, ht, h, rfl⟩)
    · exact .blank
    · exact .line ht h

theorem readLines_of_end (hd : d.peek.kind = .endOfInput) : readLines p d = .ok p := by
  rw [readLines, read]
  split <;> simp_all [Reading.ok]

theorem read_of_isTarget {c : Cursor} {n : Nat} (ht : c.peek.IsTarget n) :
    p.read c = (p.readLineThen c.peek c.advance fun q d _ => q.read d).behindNext := by
  rw [read]
  split
  · rename_i hend
    exact absurd hend ht.isLegal.2
  · rfl
  · rfl
  · rename_i hline hnumber
    rcases ht.1 with hkind | hkind
    · exact absurd hkind hnumber
    · exact absurd hkind hline

/-- Reading a number, a statement and the end of the statement. -/
theorem readLines_of_gives {c : Cursor} {n : Nat} {st : Statement} (ht : c.peek.IsTarget n)
    (hread : (Statement.read c.peek.line n c.advance).Gives st d)
    (hd : d.atEndOfStatement c.peek.line = true) :
    readLines p c =
      match insert n st p with
      | (.error e, _) => .error (e.atPosition c.peek.position)
      | (.ok _, q) => readLines q d := by
  obtain ⟨hresult, rfl⟩ := hread
  rw [readLines, read_of_isTarget ht]
  simp only [Reading.behindNext, readLineThen, ht.toLineNumber, Reading.andThen, hresult,
    insertThen, hd, if_true]
  rcases insert n st p with ⟨_ | _, q⟩ <;> rfl

theorem isTarget_of_toLineNumber {n : Nat} (hkind : t.kind = .number ∨ t.kind = .lineNumber)
    (h : t.toLineNumber = .ok n) : t.IsTarget n := by
  refine ⟨hkind, ?_⟩
  unfold Token.toLineNumber at h
  split at h
  · rename_i hn
    rw [hn, Except.ok.inj h]
  · cases h

theorem exists_gives_of_readLineThen {c : Cursor}
    {next : Program → (d : Cursor) → d.size ≤ c.size → Reading Program d}
    (hkind : t.kind = .number ∨ t.kind = .lineNumber) (h : (p.readLineThen t c next).Gives q d) :
    ∃ n st d', t.IsTarget n ∧ (Statement.read t.line n c).Gives st d' ∧
      d'.atEndOfStatement t.line = true := by
  unfold readLineThen at h
  split at h
  · exact absurd h Reading.error_gives
  · rename_i n hn
    obtain ⟨st, d', hread, hinsert⟩ := Reading.andThen_gives.mp h
    refine ⟨n, st, d', isTarget_of_toLineNumber hkind hn, hread, ?_⟩
    unfold insertThen at hinsert
    split at hinsert
    · assumption
    · exact absurd hinsert Reading.error_gives

/-- Nothing but lines makes a program. -/
theorem exists_gives_of_readLines {c : Cursor} (hc : c.peek.kind ≠ .endOfInput)
    (h : readLines p c = .ok q) :
    ∃ n st d, c.peek.IsTarget n ∧ (Statement.read c.peek.line n c.advance).Gives st d ∧
      d.atEndOfStatement c.peek.line = true := by
  obtain ⟨d, hgives⟩ : ∃ d, (p.read c).Gives q d := ⟨_, h, rfl⟩
  rw [read] at hgives
  split at hgives
  · contradiction
  · rename_i hkind
    exact exists_gives_of_readLineThen (.inr hkind) (Reading.behindNext_gives.mp hgives)
  · rename_i hkind
    exact exists_gives_of_readLineThen (.inl hkind) (Reading.behindNext_gives.mp hgives)
  · exact absurd (Reading.behindNext_gives.mp hgives) Reading.error_gives

/-- A line adds its statement to the program. -/
theorem readLines_line {n : Nat} {st : Statement} (ht : t.IsTarget n)
    (h : Statement.Derives n ts st) (hts : Token.OnLine t.line ts) (hd : d.Ends t.line) :
    readLines p (d.prepend (t :: ts)) =
      match insert n st p with
      | (.error e, _) => .error (e.atPosition t.position)
      | (.ok _, q) => readLines q d := by
  have hadvance : (d.prepend (t :: ts)).advance = d.prepend ts :=
    Cursor.advance_prepend_cons ts ht.isLegal.2
  refine readLines_of_gives (c := d.prepend (t :: ts)) ht ?_ hd.atEndOfStatement
  rw [hadvance]
  exact h.complete hts hd

/-! ## A text of one line -/

/-- The tokens of a text of one line that makes a program. -/
structure IsProgramLine (ts : List Token) (p : Program) : Prop where
  derives : DerivesLine ts p
  line_eq : ∀ t ∈ ts, t.line = 1
  kind_ne : ∀ t ∈ ts.tail, t.kind ≠ .lineNumber

theorem derivesLine_of_readLines (hd : d.peek.kind = .endOfInput)
    (hts : ∀ t ∈ ts, t.line = 1 ∧ t.kind ≠ .endOfInput)
    (htail : ∀ t ∈ ts.tail, t.kind ≠ .lineNumber) (h : readLines .empty (d.prepend ts) = .ok p) :
    DerivesLine ts p := by
  cases ts with
  | nil =>
    obtain rfl : empty = p := Except.ok.inj ((readLines_of_end hd).symm.trans h)
    exact .blank
  | cons t us =>
    obtain ⟨⟨hline, hend⟩, hus⟩ := List.forall_mem_cons.mp hts
    have hon : Token.OnLine t.line us :=
      fun u hu => ⟨htail u hu, (hus u hu).2, (hus u hu).1.trans hline.symm⟩
    obtain ⟨n, st, c, ht, hread, hc⟩ := exists_gives_of_readLines (c := d.prepend (t :: us)) hend h
    have hread' := hread
    rw [Cursor.advance_prepend_cons us hend] at hread'
    obtain ⟨vs, hprepend, hderives⟩ := Statement.read_sound hread'
    obtain ⟨rfl, rfl⟩ :=
      Cursor.eq_of_prepend_eq hprepend hd hon (fun t ht => (hderives.isLegal t ht).2) hc
    have hinsert := insert_empty st ht.isLineNumber
    rw [readLines_of_gives (c := d.prepend (t :: us)) ht hread hc, hinsert] at h
    obtain rfl : single n st = p := Except.ok.inj ((readLines_of_end hd).symm.trans h)
    exact .line ht hderives

theorem cursor_ofTokens (ts : List Token) (position : Position) :
    ∃ d : Cursor, Cursor.ofTokens (ts ++ [.endAt position]) = d.prepend ts ∧
      d.peek.kind = .endOfInput ∧
      d.peek.position = position :=
  ⟨⟨[.endAt position], (Cursor.ofTokens (ts ++ [.endAt position])).stop⟩, rfl, rfl, rfl⟩

theorem ofTokens_of_not_illegal {ts : List Token} (h : ∀ t ∈ ts, t.kind ≠ .illegal) :
    ofTokens ts = readLines .empty (.ofTokens ts) := by
  have hfind : ts.find? (·.kind = .illegal) = none :=
    List.find?_eq_none.mpr fun t ht => by simpa using h t ht
  rw [ofTokens, hfind]

theorem not_illegal_of_ofSource {source : String} (h : ofSource source = .ok p) :
    ∀ t ∈ Token.scan source, t.kind ≠ .illegal := by
  unfold ofSource ofTokens at h
  split at h
  · cases h
  · rename_i hfind
    intro t ht
    simpa using List.find?_eq_none.mp hfind t ht

/-- A text of one line that makes a program is blank or holds a numbered statement. -/
theorem isProgramLine_of_ofSource {source : String} (hnewline : '\n' ∉ source.toList)
    (h : ofSource source = .ok p) : IsProgramLine (Token.body source) p := by
  have hillegal := not_illegal_of_ofSource h
  obtain ⟨hscan, hend⟩ := Token.exists_scan_eq source
  have hline : ∀ t ∈ Token.body source, t.line = 1 := fun t ht => Token.line_of_mem_body hnewline ht
  have htail : ∀ t ∈ (Token.body source).tail, t.kind ≠ .lineNumber :=
    fun t ht => Token.kind_ne_lineNumber_of_mem_tail hnewline ht
  refine ⟨?_, hline, htail⟩
  rw [ofSource, ofTokens_of_not_illegal hillegal, hscan] at h
  obtain ⟨d, hcursor, hd, -⟩ := cursor_ofTokens (Token.body source) (.behind source.toList)
  rw [hcursor] at h
  exact derivesLine_of_readLines hd (fun t ht => ⟨hline t ht, hend t ht⟩) htail h

/-! ## Texts of many lines -/

theorem map_down_ofLines_cons (k : Nat) (l : String) (ls : List String) :
    (Token.ofLines (l :: ls)).map (Token.move (.down k)) =
      (Token.body l).map (Token.move (.down k)) ++
        (Token.ofLines ls).map (Token.move (.down (k + 1))) := by
  have hdown : Token.move (.down k) ∘ Token.move (.down 1) = Token.move (.down (k + 1)) := by
    funext t
    simp [Token.move, Position.down, Nat.add_comm 1 k, Nat.add_assoc]
  rw [Token.ofLines, List.map_append, List.map_map, hdown]

theorem keepsText_down (k : Nat) : Token.KeepsText (Token.move (.down k)) :=
  ⟨fun _ => rfl, fun _ => rfl⟩

theorem line_down (k : Nat) (t : Token) : (t.move (.down k)).line = t.line + k := rfl

section lines

variable {program : String → Program} {lines : List String}

/-- The cursor before lines that begin `k` lines further down. -/
def atLines (d : Cursor) (k : Nat) (lines : List String) : Cursor :=
  d.prepend ((Token.ofLines lines).map (Token.move (.down k)))

theorem atLines_cons (d : Cursor) (k : Nat) (l : String) (ls : List String) :
    atLines d k (l :: ls) = (atLines d (k + 1) ls).prepend
      ((Token.body l).map (Token.move (.down k))) := by
  rw [atLines, map_down_ofLines_cons, Cursor.prepend_append, atLines]

/-- Before lines a statement on an earlier line is over, if the lines that are not blank begin with
numbers. -/
theorem ends_atLines (hd : d.peek.kind = .endOfInput)
    (hlines : ∀ l ∈ lines, ∀ t ∈ (Token.body l).head?, (t.kind = .number ∨ t.kind = .lineNumber) ∧
    t.line = 1) {line k : Nat} (hk : line ≤ k) : (atLines d k lines).Ends line := by
  induction lines generalizing k with
  | nil => exact .inl hd
  | cons l ls ih =>
    obtain ⟨hl, hls⟩ := List.forall_mem_cons.mp hlines
    rw [atLines_cons]
    cases hbody : Token.body l with
    | nil => exact ih hls (Nat.le_succ_of_le hk)
    | cons t ts =>
      obtain ⟨hkind, hone⟩ := hl t (by rw [hbody]; rfl)
      rw [List.map_cons]
      refine .inr ⟨hkind, ?_⟩
      rw [Cursor.peek_prepend_cons, line_down]
      omega

theorem IsProgramLine.head {l : String} (h : IsProgramLine (Token.body l) p) :
    ∀ t ∈ (Token.body l).head?, (t.kind = .number ∨ t.kind = .lineNumber) ∧ t.line = 1 := by
  intro t ht
  have hline := h.line_eq t (List.mem_of_mem_head? ht)
  rcases derivesLine_iff.mp h.derives with ⟨hbody, _⟩ | ⟨u, us, n, st, hbody, hu, _, _⟩
  · rw [hbody] at ht
    cases ht
  · rw [hbody] at ht
    obtain rfl : u = t := Option.some.inj ht
    exact ⟨hu.1, hline⟩

/-- A blank line changes nothing. -/
theorem readLines_blank {l : String} {ls : List String} {k : Nat} (hl : Token.body l = []) :
    readLines p (atLines d k (l :: ls)) = readLines p (atLines d (k + 1) ls) := by
  rw [atLines_cons, hl]
  rfl

/-- A line among others adds its statement. -/
theorem readLines_cons (hd : d.peek.kind = .endOfInput) {l : String} {ls : List String}
    {k n : Nat} {st : Statement} (hl : IsProgramLine (Token.body l) (program l))
    (hls : ∀ l ∈ ls, IsProgramLine (Token.body l) (program l)) (hbody : Token.body l = t :: ts)
    (ht : t.IsTarget n) (h : Statement.Derives n ts st) :
    readLines p (atLines d k (l :: ls)) =
      match insert n st p with
      | (.error e, _) => .error (e.atPosition (t.position.down k))
      | (.ok _, q) => readLines q (atLines d (k + 1) ls) := by
  have hkeeps := keepsText_down k
  have hline := hl.line_eq
  have hkind := hl.kind_ne
  rw [hbody] at hline hkind
  obtain ⟨hone, hts⟩ := List.forall_mem_cons.mp hline
  have hon : Token.OnLine (t.move (.down k)).line (ts.map (Token.move (.down k))) := by
    intro u hu
    obtain ⟨v, hv, rfl⟩ := List.mem_map.mp hu
    exact ⟨hkind v hv, (h.isLegal v hv).2, by rw [line_down, line_down, hone, hts v hv]⟩
  have hends : (atLines d (k + 1) ls).Ends (t.move (.down k)).line :=
    ends_atLines hd (fun l hl => (hls l hl).head) (by rw [line_down, hone, Nat.add_comm])
  rw [atLines_cons, hbody, List.map_cons]
  exact readLines_line (ht.map hkeeps) (h.map hkeeps) hon hends

/-- The line numbers of lines, each a program by itself. -/
def numbersOf (program : String → Program) (lines : List String) : List Nat :=
  lines.flatMap fun l => (program l).lineNumbers

theorem numbersOf_cons (l : String) (ls : List String) :
    numbersOf program (l :: ls) = (program l).lineNumbers ++ numbersOf program ls :=
  List.flatMap_cons

theorem numbersOf_append (ls ms : List String) :
    numbersOf program (ls ++ ms) = numbersOf program ls ++ numbersOf program ms :=
  List.flatMap_append

theorem get?_put {n m : Nat} {st st' : Statement} (h : n ∉ p.lineNumbers) :
    (ofLines (p.lines.put n st)).get? m = some st' ↔
      p.get? m = some st' ∨ (single n st).get? m = some st' := by
  rw [get?_ofLines, Numbered.get?_put, get?_lines, get?_single]
  split
  · rename_i hm
    subst hm
    have hnone : p.get? m ≠ some st' := fun hsome => h (mem_lineNumbers_iff.mpr ⟨st', hsome⟩)
    simp [hnone, eq_comm]
  · rename_i hm
    simp [hm]

/-- Lines with new numbers are all added. -/
theorem readLines_append (hd : d.peek.kind = .endOfInput) {front rest : List String} {k : Nat}
    (hlines : ∀ l ∈ front ++ rest, IsProgramLine (Token.body l) (program l))
    (hnodup : (numbersOf program front).Nodup)
    (hnew : ∀ n ∈ numbersOf program front, n ∉ p.lineNumbers) :
    ∃ q : Program, readLines p (atLines d k (front ++ rest)) =
      readLines q (atLines d (k + front.length) rest) ∧
      ∀ n st, q.get? n = some st ↔ p.get? n = some st ∨
        ∃ l ∈ front, (program l).get? n = some st := by
  induction front generalizing p k with
  | nil => exact ⟨p, rfl, by simp⟩
  | cons l ls ih =>
    rw [List.cons_append] at hlines ⊢
    obtain ⟨hl, hls⟩ := List.forall_mem_cons.mp hlines
    rw [numbersOf_cons] at hnodup hnew
    obtain ⟨_, hnodup', hdisjoint⟩ := List.nodup_append.mp hnodup
    have hlength : k + (l :: ls).length = k + 1 + ls.length := by
      rw [List.length_cons]
      omega
    rw [hlength]
    rcases derivesLine_iff.mp hl.derives with
      ⟨hbody, hempty⟩ | ⟨t, ts, n, st, hbody, ht, h, hsingle⟩
    · obtain ⟨q, hq, hget⟩ :=
        ih (k := k + 1) hls hnodup' fun n hn => hnew n (List.mem_append_right _ hn)
      refine ⟨q, (readLines_blank hbody).trans hq, fun n st => ?_⟩
      rw [hget]
      simp [hempty, get?_empty]
    · rw [hsingle, lineNumbers_single] at hnew hdisjoint
      have hn : n ∉ p.lineNumbers := hnew n (by simp)
      have hput : ∀ m ∈ numbersOf program ls, m ∉ (ofLines (p.lines.put n st)).lineNumbers := by
        intro m hm hmem
        obtain ⟨st', hst'⟩ := mem_lineNumbers_iff.mp hmem
        rcases (get?_put hn).mp hst' with hold | hthis
        · exact hnew m (List.mem_append_right _ hm) (mem_lineNumbers_iff.mpr ⟨st', hold⟩)
        · exact hdisjoint n (by simp) m hm (get?_single.mp hthis).1.symm
      obtain ⟨q, hq, hget⟩ := ih (k := k + 1) hls hnodup' hput
      refine ⟨q, ?_, fun m st' => ?_⟩
      · rw [readLines_cons hd hl hls hbody ht h, insert_of_not_mem ht.isLineNumber hn]
        exact hq
      · rw [hget, get?_put hn, or_assoc, ← hsingle]
        simp

/-- Where numbers repeat, there is a first line whose number has come before. -/
theorem exists_first_repeated (hlines : ∀ l ∈ lines, IsProgramLine (Token.body l) (program l))
    (h : ¬ (numbersOf program lines).Nodup) :
    ∃ front l rest n, lines = front ++ l :: rest ∧ (numbersOf program front).Nodup ∧
      (program l).lineNumbers = [n] ∧ n ∈ numbersOf program front := by
  induction lines using List.reverseRecOn with
  | nil => exact absurd List.nodup_nil h
  | append_singleton ls l ih =>
    by_cases hls : (numbersOf program ls).Nodup
    · refine ⟨ls, l, [], ?_⟩
      have hl := hlines l (by simp)
      rw [numbersOf_append] at h
      rcases derivesLine_iff.mp hl.derives with ⟨_, hempty⟩ | ⟨t, ts, n, st, _, _, _, hsingle⟩
      · refine absurd ?_ h
        simpa [numbersOf, hempty, lineNumbers_empty] using hls
      · have hnumbers : (program l).lineNumbers = [n] := by rw [hsingle, lineNumbers_single]
        refine ⟨n, rfl, hls, hnumbers, ?_⟩
        by_contra hn
        apply h
        rw [numbersOf_cons, hnumbers]
        refine List.nodup_append.mpr ⟨hls, by simp [numbersOf], ?_⟩
        intro a ha b hb hab
        obtain rfl : b = n := by simpa [numbersOf] using hb
        exact hn (hab ▸ ha)
    · obtain ⟨front, l', rest, n, rfl, hrest⟩ :=
        ih (fun l hl => hlines l (List.mem_append_left _ hl)) hls
      exact ⟨front, l', rest ++ [l], n, by simp, hrest⟩

theorem exists_mem_of_mem_ofLines {ls : List String} (h : t ∈ Token.ofLines ls) :
    ∃ l ∈ ls, ∃ u ∈ Token.body l, t.kind = u.kind := by
  induction ls generalizing t with
  | nil => cases h
  | cons l ls ih =>
    rcases List.mem_append.mp h with ht | ht
    · exact ⟨l, by simp, t, ht, rfl⟩
    · obtain ⟨u, hu, rfl⟩ := List.mem_map.mp ht
      obtain ⟨l', hl', v, hv, hkind⟩ := ih hu
      exact ⟨l', List.mem_cons_of_mem l hl', v, hv, hkind⟩

theorem ofSource_joinLines_eq_readLines (hnewline : ∀ l ∈ lines, '\n' ∉ l.toList)
    (hlegal : ∀ l ∈ lines, ∀ t ∈ Token.scan l, t.kind ≠ .illegal) :
    ∃ d : Cursor, d.peek.kind = .endOfInput ∧
      ofSource (Text.joinLines lines) = readLines .empty (atLines d 0 lines) := by
  obtain ⟨position, hscan⟩ := Token.scan_joinLines lines fun l hl =>
    ⟨hnewline l hl, fun t ht hunterminated => hlegal l hl t ht hunterminated.1⟩
  have hillegal : ∀ t ∈ Token.scan (Text.joinLines lines), t.kind ≠ .illegal := by
    rw [hscan]
    refine List.forall_mem_append.mpr ⟨fun t ht =>
      ?_, List.forall_mem_singleton.mpr Kind.noConfusion⟩
    obtain ⟨l, hl, u, hu, hkind⟩ := exists_mem_of_mem_ofLines ht
    rw [hkind]
    exact hlegal l hl u (Token.mem_scan_of_mem_body hu)
  obtain ⟨d, hcursor, hd, -⟩ := cursor_ofTokens (Token.ofLines lines) position
  have hdown : (Token.ofLines lines).map (Token.move (.down 0)) = Token.ofLines lines := by
    rw [show Token.move (.down 0) = id from rfl, List.map_id]
  refine ⟨d, hd, ?_⟩
  rw [ofSource, ofTokens_of_not_illegal hillegal, hscan, hcursor, atLines, hdown]

/-- Lines with different numbers make one program, which holds the statement of each. -/
theorem exists_ofSource_joinLines (hnewline : ∀ l ∈ lines, '\n' ∉ l.toList)
    (hprogram : ∀ l ∈ lines, ofSource l = .ok (program l))
    (hnodup : (numbersOf program lines).Nodup) :
    ∃ p : Program, ofSource (Text.joinLines lines) = .ok p ∧
      ∀ n st, p.get? n = some st ↔ ∃ l ∈ lines, (program l).get? n = some st := by
  have hlines : ∀ l ∈ lines ++ [], IsProgramLine (Token.body l) (program l) := by
    rw [List.append_nil]
    exact fun l hl => isProgramLine_of_ofSource (hnewline l hl) (hprogram l hl)
  obtain ⟨d, hd, hsource⟩ :=
    ofSource_joinLines_eq_readLines hnewline fun l hl => not_illegal_of_ofSource (hprogram l hl)
  obtain ⟨p, hp, hget⟩ :=
    readLines_append (p := .empty) (k := 0) hd hlines hnodup (by simp [lineNumbers_empty])
  rw [List.append_nil] at hp
  refine ⟨p, ?_, fun n st => ?_⟩
  · rw [hsource, hp]
    exact readLines_of_end hd
  · rw [hget]
    simp [get?_empty]

/-- A line whose number has come before is refused at its number. -/
theorem ofSource_joinLines_of_repeated {front rest : List String} {l : String} {n : Nat}
    (hnewline : ∀ x ∈ front ++ l :: rest, '\n' ∉ x.toList)
    (hprogram : ∀ x ∈ front ++ l :: rest, ofSource x = .ok (program x))
    (hnodup : (numbersOf program front).Nodup) (hl : (program l).lineNumbers = [n])
    (hn : n ∈ numbersOf program front) :
    ∃ t, (Token.scan l).head? = some t ∧ lineNumberOf? t.text = some n ∧
      ofSource (Text.joinLines (front ++ l :: rest)) =
        .error ((Error.because .duplicateLine ("duplicate line number " ++ n.repr)).atPosition
          ⟨front.length + 1, t.position.column⟩) := by
  have hlines := fun l hl => isProgramLine_of_ofSource (hnewline l hl) (hprogram l hl)
  obtain ⟨d, hd, hsource⟩ :=
    ofSource_joinLines_eq_readLines hnewline fun l hl => not_illegal_of_ofSource (hprogram l hl)
  obtain ⟨p, hp, hget⟩ :=
    readLines_append (p := .empty) (k := 0) hd hlines hnodup (by simp [lineNumbers_empty])
  obtain ⟨_, hrest⟩ := List.forall_mem_append.mp hlines
  obtain ⟨hline, hrest⟩ := List.forall_mem_cons.mp hrest
  rcases derivesLine_iff.mp hline.derives with ⟨_, hempty⟩ | ⟨t, ts, m, st, hbody, ht, h, hsingle⟩
  · rw [hempty, lineNumbers_empty] at hl
    cases hl
  · rw [hsingle, lineNumbers_single] at hl
    obtain rfl : m = n := (List.cons.inj hl).1
    have hmem : m ∈ p.lineNumbers := by
      obtain ⟨l', hl', hm⟩ := List.mem_flatMap.mp hn
      obtain ⟨st', hst'⟩ := mem_lineNumbers_iff.mp hm
      exact mem_lineNumbers_iff.mpr ⟨st', (hget m st').mpr (.inr ⟨l', hl', hst'⟩)⟩
    have hone : t.position.line = 1 := hline.line_eq t (hbody ▸ List.mem_cons_self)
    refine ⟨t, ?_, ht.2, ?_⟩
    · rw [(Token.exists_scan_eq l).1, hbody]
      rfl
    · rw [hsource, hp, readLines_cons hd hline hrest hbody ht h, insert_of_mem ht.isLineNumber hmem]
      simp [Position.down, hone, Nat.add_comm]

end lines

/-- Lines that each make a program by themselves make one program together, if their numbers differ.
It holds the statement of each line under its number, and the order of the lines does not matter. If
two numbers are the same, the first line whose number has come before is refused at its number. -/
theorem ofSource_joinLines (lines : List String) (program : String → Program)
    (hnewline : ∀ l ∈ lines, '\n' ∉ l.toList)
    (hprogram : ∀ l ∈ lines, ofSource l = .ok (program l)) :
    (∀ l ∈ lines, (program l).size ≤ 1) ∧
      ((lines.flatMap fun l => (program l).lineNumbers).Nodup →
        ∃ p : Program, (∀ n st, p.get? n = some st ↔ ∃ l ∈ lines, (program l).get? n = some st) ∧
          ∀ lines', lines'.Perm lines → ofSource (Text.joinLines lines') = .ok p) ∧
      (¬ (lines.flatMap fun l => (program l).lineNumbers).Nodup →
        ∃ front l rest n t, lines = front ++ l :: rest ∧
          (front.flatMap fun l => (program l).lineNumbers).Nodup ∧ (program l).lineNumbers = [n] ∧
          n ∈ (front.flatMap fun l => (program l).lineNumbers) ∧
          (Token.scan l).head? = some t ∧ lineNumberOf? t.text = some n ∧
          ofSource (Text.joinLines lines) =
            .error ((Error.because .duplicateLine ("duplicate line number " ++ n.repr)).atPosition
              ⟨front.length + 1, t.position.column⟩)) := by
  have hlines := fun l hl => isProgramLine_of_ofSource (hnewline l hl) (hprogram l hl)
  refine ⟨fun l hl => ?_, fun hnodup => ?_, fun hrepeated => ?_⟩
  · rcases derivesLine_iff.mp (hlines l hl).derives with
      ⟨_, hempty⟩ | ⟨_, _, _, _, _, _, _, hsingle⟩
    · rw [hempty]
      exact Nat.zero_le 1
    · rw [hsingle, size_single]
  · obtain ⟨p, _, hp⟩ := exists_ofSource_joinLines hnewline hprogram hnodup
    refine ⟨p, hp, fun lines' hperm => ?_⟩
    have hnodup' : (numbersOf program lines').Nodup := (hperm.flatMap_right _).nodup_iff.mpr hnodup
    obtain ⟨p', hp', hget⟩ :=
      exists_ofSource_joinLines (fun l hl => hnewline l (hperm.mem_iff.mp hl))
      (fun l hl => hprogram l (hperm.mem_iff.mp hl)) hnodup'
    have heq : p' = p := ext_get? fun n st => by simp only [hget, hp, hperm.mem_iff]
    rw [hp', heq]
  · obtain ⟨front, l, rest, n, rfl, hnodup, hl, hn⟩ := exists_first_repeated hlines hrepeated
    obtain ⟨t, hhead, htext, herror⟩ :=
      ofSource_joinLines_of_repeated hnewline hprogram hnodup hl hn
    exact ⟨front, l, rest, n, t, rfl, hnodup, hl, hn, hhead, htext, herror⟩

/-- The programs of three lines. -/
def jumpOrEnd (l : String) : Program :=
  if l = "20 GOTO 10" then single 20 (.goto 10)
  else if l = "10 END" then single 10 .stop
  else .empty

theorem ofSource_joinLines_jumpOrEnd :
    (∃ p : Program, p.get? 10 = some .stop ∧ p.get? 20 = some (.goto 10) ∧
        ofSource (Text.joinLines ["20 GOTO 10", "", "10 END"]) = .ok p ∧
        ofSource (Text.joinLines ["10 END", "", "20 GOTO 10"]) = .ok p) ∧
      ∃ e : Error, e.code = .duplicateLine ∧
        ofSource (Text.joinLines ["10 END", "20 GOTO 10", "10 END"]) = .error e := by
  have hjump : '\n' ∉ "20 GOTO 10".toList ∧ ofSource "20 GOTO 10" = .ok (jumpOrEnd "20 GOTO 10") :=
    ⟨by decide, by with_unfolding_all rfl⟩
  have hend : '\n' ∉ "10 END".toList ∧ ofSource "10 END" = .ok (jumpOrEnd "10 END") :=
    ⟨by decide, by with_unfolding_all rfl⟩
  have hblank : '\n' ∉ "".toList ∧ ofSource "" = .ok (jumpOrEnd "") :=
    ⟨by decide, by with_unfolding_all rfl⟩
  constructor
  · have hlines : ∀ l ∈ ["20 GOTO 10", "", "10 END"], '\n' ∉ l.toList ∧
        ofSource l = .ok (jumpOrEnd l) := by
      simp only [List.forall_mem_cons]
      exact ⟨hjump, hblank, hend, List.forall_mem_nil _⟩
    obtain ⟨-, hdistinct, -⟩ :=
      ofSource_joinLines _ jumpOrEnd (fun l hl => (hlines l hl).1) fun l hl => (hlines l hl).2
    obtain ⟨p, hp, hperm⟩ := hdistinct (by decide)
    have hstop : p.get? 10 = some .stop :=
      (hp _ _).mpr ⟨"10 END", by simp, by rfl⟩
    have hgoto : p.get? 20 = some (.goto 10) :=
      (hp _ _).mpr ⟨"20 GOTO 10", by simp, by rfl⟩
    exact ⟨p, hstop, hgoto, hperm _ (.refl _), hperm _ (by decide)⟩
  · have hlines : ∀ l ∈ ["10 END", "20 GOTO 10", "10 END"], '\n' ∉ l.toList ∧
        ofSource l = .ok (jumpOrEnd l) := by
      simp only [List.forall_mem_cons]
      exact ⟨hend, hjump, hend, List.forall_mem_nil _⟩
    obtain ⟨-, -, hrepeated⟩ :=
      ofSource_joinLines _ jumpOrEnd (fun l hl => (hlines l hl).1) fun l hl => (hlines l hl).2
    obtain ⟨front, l, rest, n, t, -, -, -, -, -, -, herror⟩ := hrepeated (by decide)
    exact ⟨_, rfl, herror⟩

end Program

end LineBasic
