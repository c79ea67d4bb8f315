import LineBasic.Console.Transcript
import LineBasic.Proofs.Program.Insert
import LineBasic.Proofs.Run.Step
import LineBasic.Proofs.Statement.Likeness

/-!
# Where errors are met

An error gets its place once (`error_located_once`). What goes wrong while a source text is read is
met at a token, and an illegal token is reported before anything else (`Program.Misread`). The
errors of statements have no place; the run adds the line on which it stands. Without a line stay
the errors that are not those of a line: that of the limit, and that of a trace that could not be
written (`Program.StoppedAt`).
-/

namespace LineBasic

/-- The codes of illegal tokens. -/
def ErrorCode.OfScanning (code : ErrorCode) : Prop :=
  code = illegalCharacter ∨ code = unterminatedString

theorem ErrorCode.OfReading.not_ofScanning {code : ErrorCode} (h : code.OfReading) :
    ¬ code.OfScanning := by
  rintro (rfl | rfl) <;> rcases h with h | h | h <;> cases h

theorem Token.ofScanning_illegalError (t : Token) : t.illegalError.code.OfScanning := by
  unfold illegalError
  split
  · exact .inr rfl
  · exact .inl rfl

theorem Token.line_illegalError (t : Token) : t.illegalError.line = none := by
  unfold illegalError
  split <;> rfl

theorem Token.position_illegalError (t : Token) : t.illegalError.position = some t.position := by
  unfold illegalError
  split <;> rfl

/-! ## Errors of reading -/

/-- An error of reading that is met at one of some tokens. -/
structure Error.MetIn (ts : List Token) (e : Error) : Prop where
  code : e.code.OfReading
  line_eq : e.line = none
  position_eq : ∃ t ∈ ts, e.position = some t.position

/-- Tokens of a list without illegal ones are like themselves, and the errors that are met at them
have their places. -/
def Likeness.ofMem (ts : List Token) (hts : ∀ t ∈ ts, t.kind ≠ .illegal) : Likeness where
  token t u := u = t ∧ t ∈ ts
  error e _ := e.MetIn ts
  kind_eq h := congrArg Token.kind h.1
  line_eq h _ := congrArg Token.line h.1
  name_eq h _ := by rw [h.1]
  text_eq h _ := congrArg Token.text h.1
  error_of_token h _ hcode _ := ⟨hcode, rfl, _, h.2, rfl⟩
  illegalError h hkind := absurd hkind (hts _ h.2)

namespace Program

/-- What is known of the error with which a source text is refused. -/
structure Misread (source : String) (e : Error) : Prop where
  line_eq : e.line = none
  position_eq : ∃ t ∈ Token.scan source, e.position = some t.position
  ofScanning_iff : e.code.OfScanning ↔ ∃ t ∈ Token.scan source, t.kind = .illegal
  /-- Of illegal tokens the first is reported. -/
  eq_illegalError : ∀ ts t us, Token.scan source = ts ++ t :: us → (∀ u ∈ ts, u.kind ≠ .illegal) →
    t.kind = .illegal → e = t.illegalError

theorem metIn_of_ofSource {source : String} {e : Error}
    (hlegal : ∀ t ∈ Token.scan source, t.kind ≠ .illegal) (h : ofSource source = .error e) :
    e.MetIn (Token.scan source) := by
  have hresults : (Likeness.ofMem _ hlegal).Results (ofSource source) (ofSource source) := by
    apply Likeness.ofSource
    exact List.forall₂_same.mpr fun t ht => ⟨rfl, ht⟩
  rw [h] at hresults
  cases hresults with
  | error he => exact he

theorem misread_of_ofSource {source : String} {e : Error} (h : ofSource source = .error e) :
    Misread source e := by
  rcases hfind : (Token.scan source).find? (·.kind = .illegal) with _ | t
  · have hlegal : ∀ t ∈ Token.scan source, t.kind ≠ .illegal := by simpa using hfind
    have hmet := metIn_of_ofSource hlegal h
    refine ⟨hmet.line_eq, hmet.position_eq, iff_of_false hmet.code.not_ofScanning ?_, ?_⟩
    · rintro ⟨t, ht, hkind⟩
      exact hlegal t ht hkind
    · intro ts t us hscan _ hkind
      exact absurd hkind (hlegal t (by simp [hscan]))
  · obtain rfl : t.illegalError = e := by
      unfold ofSource ofTokens at h
      rw [hfind] at h
      exact Except.error.inj h
    have hmem := List.mem_of_find?_eq_some hfind
    have hkind : t.kind = .illegal := by simpa using List.find?_some hfind
    refine ⟨t.line_illegalError, ⟨t, hmem, t.position_illegalError⟩,
      iff_of_true t.ofScanning_illegalError ⟨t, hmem, hkind⟩, ?_⟩
    intro ts first us hscan hts hfirst
    have hfound : (Token.scan source).find? (·.kind = .illegal) = some first :=
      List.find?_eq_some_iff_append.mpr ⟨by simpa using hfirst, ts, us, hscan, by simpa using hts⟩
    rw [Option.some.inj (hfind.symm.trans hfound)]

end Program

/-! ## Errors of runs -/

theorem ErrorCode.OfStatements.ne_interrupted {code : ErrorCode} (h : code.OfStatements) :
    code ≠ .interrupted := by
  rintro rfl
  simp [ErrorCode.OfStatements, ErrorCode.OfValues] at h

theorem Statement.execute_error {κ : Type} [Console κ] {st : Statement} {m m' : Machine κ}
    {e : Error} (h : st.execute m = (.error e, m')) : e.Bare ErrorCode.OfStatements :=
  (st.execute_keeps_bare m trivial).2 e (by rw [h])

namespace Program

variable {κ : Type} [Console κ] {p : Program} {settings : Settings}

/-- How a run came to be stopped with an error, at a line to which it had come, and which line the
error names. -/
inductive StoppedAt (p : Program) (settings : Settings) (r : Run κ) (line : Entry Statement)
    (e : Error) : Prop
  | limited (hlimit : settings.isLimit r.steps = true) (hcode : e.code = .executionLimit)
      (hline : e.line = none)
  /-- The trace could not be written. -/
  | untraced {m : Machine κ} (htrace : traceLine settings line (r.entering line) = (.error e, m))
      (hcode : e.code.OfDevices) (hline : e.line = none)
  /-- The line was about to be executed. -/
  | interrupted (hinterrupt : (settings.breakable && r.machine.interrupt) = true)
      (hcode : e.code = .interrupted) (hline : e.line = some line.number)
  | executed {m : Machine κ} (h : p.Executes settings r line m) (hlimit : e.code ≠ .executionLimit)
      (hinterrupt : e.code ≠ .interrupted) (hline : e.line = some line.number)

omit [Console κ] in
theorem eq_undefinedLine_of_follow {r s : Run κ} {number : Nat} {e : Error}
    (h : p.follow number r = .halted (.error e) s) : ∃ n, e = (undefinedLine n).inLine number := by
  have hfollows := follows_follow p number r
  rw [h] at hfollows
  cases hfollows with
  | undefined => exact ⟨_, rfl⟩

theorem stoppedAt_of_step {r s : Run κ} {e : Error} (h : p.step settings r = .halted (.error e) s) :
    e.position = none ∧ ∃ line, p.line? r.index = some line ∧ p.StoppedAt settings r line e := by
  have hsteps := steps_step p settings r
  generalize hprogress : p.step settings r = progress at hsteps
  rw [h] at hprogress
  cases hsteps with
  | finished _ => cases hprogress
  | limited hline hlimit =>
    cases hprogress
    exact ⟨rfl, _, hline, .limited hlimit rfl rfl⟩
  | interrupted hline _ hinterrupt =>
    cases hprogress
    exact ⟨rfl, _, hline, .interrupted hinterrupt rfl rfl⟩
  | untraced hline _ _ htrace =>
    cases hprogress
    have hbare := traceLine_error htrace
    exact ⟨hbare.position_eq, _, hline, .untraced htrace hbare.code hbare.line_eq⟩
  | failed hexecutes hexecute =>
    cases hprogress
    have hbare := Statement.execute_error hexecute
    exact ⟨hbare.position_eq, _, hexecutes.line_eq,
      .executed hexecutes hbare.code.ne_executionLimit hbare.code.ne_interrupted rfl⟩
  | followed hexecutes _ =>
    obtain ⟨n, rfl⟩ := eq_undefinedLine_of_follow hprogress.symm
    exact ⟨rfl, _, hexecutes.line_eq, .executed hexecutes nofun nofun rfl⟩

end Program

/-- An error gets its place once. Reading meets errors at tokens, an illegal one before all else.
Statements give errors without a place, and the run adds the line that it was executing or about to
execute, and no place in the source. So the line of an error that comes out of a statement, and the
place of one that comes of putting a line into a program, are not yet known when they are added. -/
theorem error_located_once {κ : Type} [Console κ] :
    (∀ source e, Program.ofSource source = .error e → Program.Misread source e) ∧
    (∀ (st : Statement) (m : Machine κ) e, (st.execute m).1 = .error e → e.line = none ∧
      e.position = none) ∧
    (∀ (p : Program) settings (r s : Run κ) e, p.HaltsWith settings r (.error e) s →
      e.position = none ∧
      ∃ count q line, p.Reaches settings count r q ∧ p.step settings q = .halted (.error e) s ∧
        p.line? q.index = some line ∧ p.StoppedAt settings q line e) ∧
    ∀ (p : Program) n st e, (Program.insert n st p).1 = .error e → e.line = none ∧
      e.position = none := by
  refine ⟨fun _ _ h => Program.misread_of_ofSource h, ?_, ?_, ?_⟩
  · intro st m e h
    have hbare := (st.execute_keeps_bare m trivial).2 e h
    exact ⟨hbare.line_eq, hbare.position_eq⟩
  · rintro p settings r s e ⟨count, h⟩
    obtain ⟨before, q, hreaches, hstep⟩ := h.exists_step
    obtain ⟨hposition, line, hline, hstopped⟩ := Program.stoppedAt_of_step hstep
    exact ⟨hposition, before, q, line, hreaches, hstep, hline, hstopped⟩
  · intro p n st e h
    obtain ⟨code, detail, -, rfl⟩ := Program.exists_eq_because_of_insert h
    exact ⟨rfl, rfl⟩

/-- Goes to a line that is not there. -/
def Program.astray : Program :=
  .single 10 (.goto 99)

theorem error_located_once_astray :
    let r := Program.start (.ofSeed 7) ({} : Transcript) false
    let refused := Error.because .duplicateLine "duplicate line number 10"
    let stray := Error.atPosition (.because .illegalCharacter "illegal character '?'") ⟨1, 10⟩
    let unopened : Error := { code := .nextWithoutFor }
    let undefined := (Program.undefinedLine 99).inLine 10
    (Program.ofSource "10 PRINT ?, !" = .error stray ∧ Program.Misread "10 PRINT ?, !" stray) ∧
      (((Statement.next none).execute r.machine).1 = .error unopened ∧ unopened.line = none) ∧
      (∃ s, Program.astray.HaltsWith {} r (.error undefined) s) ∧
      (∃ count q line, Program.astray.Reaches {} count r q ∧
        Program.astray.StoppedAt {} q line undefined) ∧
      (Program.insert 10 .stop Program.astray).1 = .error refused ∧ refused.position = none := by
  intro r refused stray unopened undefined
  obtain ⟨hsource, hstatement, hrun, hinsert⟩ := error_located_once (κ := Transcript)
  have hstray : Program.ofSource "10 PRINT ?, !" = .error stray := by with_unfolding_all rfl
  have hunopened : ((Statement.next none).execute r.machine).1 = .error unopened := by rfl
  have hrefused : (Program.insert 10 .stop Program.astray).1 = .error refused := by
    with_unfolding_all rfl
  have hline : Program.astray.line? 0 = some ⟨10, .goto 99⟩ := by with_unfolding_all rfl
  let m : Machine Transcript := ⟨((Environment.ofSeed 7).begin.setCounter 10).jump 99, {}, false⟩
  have hstep : Program.astray.step {} r = .halted (.error undefined) ⟨m.rested, 0, 1⟩ := by
    rw [Program.step_of_line hline rfl rfl, Program.executeLine_eq]
    change Program.astray.follow 10 ⟨m, 0, 1⟩ = _
    with_unfolding_all rfl
  have hhalts := Program.HaltsIn.of_step hstep
  obtain ⟨-, count, q, line, hreaches, -, -, hstopped⟩ := hrun _ _ _ _ _ ⟨1, hhalts⟩
  exact ⟨⟨hstray, hsource _ _ hstray⟩, ⟨hunopened, (hstatement _ _ _ hunopened).1⟩, ⟨_, 1, hhalts⟩,
    ⟨count, q, line, hreaches, hstopped⟩, hrefused, (hinsert _ _ _ _ hrefused).2⟩

end LineBasic
