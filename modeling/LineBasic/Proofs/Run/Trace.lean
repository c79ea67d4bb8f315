import LineBasic.Console.Transcript
import LineBasic.Proofs.Run.Control
import LineBasic.Proofs.Run.Step

/-!
# The trace of a run

No statement looks at the traces that a transcript holds (`Statement.execute_withTraces`), so a run
with other traces in its transcript is the same run, and a run that writes traces goes step by step
along with one that does not (`Program.advance_withTraces`). What it writes are the lines that it
executes, in their order: `Program.executedLines` lists them, and `Program.getElem?_executedLines`
says that it lists those and no others.
-/

namespace LineBasic

/-- A transcript with other traces. -/
def Transcript.withTraces (ts : Array String) (t : Transcript) : Transcript :=
  { t with traces := ts }

/-- A machine with other traces in its transcript. -/
def Machine.withTraces (ts : Array String) (m : Machine Transcript) : Machine Transcript :=
  { m with console := m.console.withTraces ts }

/-- A run with other traces in its transcript. -/
def Run.withTraces (ts : Array String) (r : Run Transcript) : Run Transcript :=
  { r with machine := r.machine.withTraces ts }

/-- What came of a step, with other traces in the transcript. -/
def Progress.withTraces (ts : Array String) : Progress Transcript → Progress Transcript
  | .running r => .running (r.withTraces ts)
  | .halted result r => .halted result (r.withTraces ts)

/-! ## Statements do not look at traces -/

namespace Machine

open LineBasic.Action

variable {α : Type} (ts : Array String)

theorem onEnvironment_withTraces (x : Action Environment α) :
    (onEnvironment x : Action (Machine Transcript) α).Commutes (withTraces ts) :=
  fun _ => rfl

/-- A console call that does not look at traces. -/
theorem onConsole_withTraces {call : Transcript → Reply Transcript α}
    (h : ∀ t, call (t.withTraces ts) = { call t with console := (call t).console.withTraces ts }) :
    (onConsole call).Commutes (withTraces ts) := by
  intro m
  unfold onConsole withTraces
  dsimp only
  rw [h]
  rcases call m.console with ⟨_ | _, console, raised⟩ <;> rfl

theorem write_withTraces (text : String) :
    (onConsole (Console.write text)).Commutes (withTraces ts) :=
  onConsole_withTraces ts fun _ => rfl

theorem writeLine_withTraces (text : String) :
    (onConsole (Console.writeLine text)).Commutes (withTraces ts) :=
  onConsole_withTraces ts fun _ => rfl

theorem readLine_withTraces : (onConsole Console.readLine).Commutes (withTraces ts) := by
  apply onConsole_withTraces
  rintro ⟨_ | ⟨line, input⟩, output, traces⟩ <;> rfl

end Machine

namespace Statement

open LineBasic.Action Machine Environment

theorem executeLoop_withTraces (ts : Array String) (v : Ident) (line : Nat) (a b c : Value) :
    (executeLoop v line a b c).Commutes (Machine.withTraces ts) := by
  unfold executeLoop
  split
  · exact onEnvironment_withTraces ts _
  · exact .fail _

/-- A statement does not look at traces and leaves them alone. -/
theorem execute_withTraces (ts : Array String) (st : Statement) :
    (st.execute : Action (Machine Transcript) Unit).Commutes (Machine.withTraces ts) := by
  have henv : ∀ {α : Type} (x : Action Environment α),
      (onEnvironment x).Commutes (Machine.withTraces ts) :=
    fun x => onEnvironment_withTraces ts x
  induction st with
  | stop | goto n => exact fun _ => rfl
  | loop v start limit step line =>
    refine (henv _).bind fun a => ?_
    refine (henv _).bind fun b => ?_
    refine (henv _).bind fun c => ?_
    refine (henv _).bind fun _ => ?_
    exact executeLoop_withTraces ts v line a b c
  | cond condition body ih =>
    refine (henv _).bind fun value => ?_
    cases value with
    | text _ => exact .fail _
    | number x =>
      dsimp only
      split
      · exact ih
      · exact .pure _
  | input prompt v =>
    refine (henv _).bind fun _ => ?_
    refine (write_withTraces ts _).bind fun _ => ?_
    refine (readLine_withTraces ts).bind fun line => ?_
    refine (Commutes.ofExcept _).bind fun value => ?_
    exact henv _
  | assign v e =>
    refine (henv _).bind fun _ => ?_
    refine (henv _).bind fun value => ?_
    exact henv _
  | next v => exact henv _
  | print items =>
    refine (henv _).bind fun values => ?_
    exact writeLine_withTraces ts _
  | remark text => exact .pure _

end Statement

namespace Settings

variable (settings : Settings)

/-- The same settings with a trace. -/
def traced : Settings :=
  { settings with trace := true }

/-- The same settings without a trace. -/
def untraced : Settings :=
  { settings with trace := false }

end Settings

namespace Program

/-! ## The lines that a run executes -/

section executed

variable {κ : Type} [Console κ] {p : Program} {settings : Settings} {r s : Run κ}
  {line : Entry Statement}

/-- The line that the next step of a run executes, if the run writes no trace. -/
def executedLine? (p : Program) (settings : Settings) (r : Run κ) : Option (Entry Statement) :=
  if settings.isLimit r.steps || settings.breakable && r.machine.interrupt then none
  else p.line? r.index

/-- The lines that a number of steps of a run execute, in their order. -/
def executedLines (p : Program) (settings : Settings) :
    (count : Nat) → Run κ → List (Entry Statement)
  | 0, _ => []
  | count + 1, r =>
    (p.executedLine? settings r).toList ++
      match p.step settings r with
      | .running s => executedLines p settings count s
      | .halted _ _ => []

theorem executedLine?_eq_some_iff :
    p.executedLine? settings.untraced r = some line ↔
      ∃ m, p.Executes settings.untraced r line m := by
  unfold executedLine?
  constructor
  · intro h
    split at h
    · cases h
    · rename_i hstop
      obtain ⟨hlimit, hinterrupt⟩ := Bool.or_eq_false_iff.mp (Bool.not_eq_true _ ▸ hstop)
      exact ⟨r.entering line, h, hlimit, hinterrupt, rfl⟩
  · rintro ⟨m, hline, hlimit, hinterrupt, -⟩
    rw [if_neg (by rw [hlimit, hinterrupt]; exact Bool.false_ne_true)]
    exact hline

/-- A run that goes on has executed a line. -/
theorem exists_executes_of_running (h : p.step settings r = .running s) :
    ∃ line m, p.Executes settings r line m := by
  have hsteps := steps_step p settings r
  generalize hprogress : p.step settings r = progress at hsteps
  rw [h] at hprogress
  cases hsteps with
  | followed hexecutes hexecute => exact ⟨_, _, hexecutes⟩
  | _ => cases hprogress

theorem reaches_zero_iff : p.Reaches settings 0 r s ↔ s = r := by
  constructor
  · intro h
    exact (Progress.running.inj h).symm
  · rintro rfl
    exact .refl s

theorem reaches_succ_iff {count : Nat} {q : Run κ} (h : p.step settings r = .running s) :
    p.Reaches settings (count + 1) r q ↔ p.Reaches settings count s q := by
  unfold Reaches
  rw [advance_succ_running, h]

theorem not_reaches_succ {count : Nat} {q : Run κ} {result : Except Error Unit}
    (h : p.step settings r = .halted result s) : ¬ p.Reaches settings (count + 1) r q := by
  unfold Reaches
  rw [advance_succ_running, h, advance_halted]
  exact nofun

/-- The lines of a run that comes to its end are those that it executes, in their order. -/
theorem getElem?_executedLines {count k : Nat} {result : Except Error Unit}
    (h : p.HaltsIn settings.untraced count r result s) :
    (p.executedLines settings.untraced count r)[k]? = some line ↔
      ∃ q m, p.Reaches settings.untraced k r q ∧ p.Executes settings.untraced q line m := by
  induction count generalizing r k with
  | zero => cases h
  | succ count ih =>
    rw [executedLines]
    cases hstep : p.step settings.untraced r with
    | halted result' q =>
      dsimp only
      rw [List.append_nil]
      cases k with
      | zero =>
        simp only [reaches_zero_iff, exists_and_left, exists_eq_left, ← executedLine?_eq_some_iff]
        cases p.executedLine? settings.untraced r <;> simp
      | succ k =>
        constructor
        · intro hget
          cases hline : p.executedLine? settings.untraced r <;> simp [hline] at hget
        · rintro ⟨q', m, hreach, -⟩
          exact absurd hreach (not_reaches_succ hstep)
    | running q =>
      obtain ⟨l, m, hexecutes⟩ := exists_executes_of_running hstep
      have hl : p.executedLine? settings.untraced r = some l :=
        executedLine?_eq_some_iff.mpr ⟨m, hexecutes⟩
      have hhalts : p.HaltsIn settings.untraced count q result s := by
        unfold HaltsIn at h
        rwa [advance_succ_running, hstep] at h
      rw [hl]
      cases k with
      | zero =>
        simp only [reaches_zero_iff, exists_and_left, exists_eq_left,
          ← executedLine?_eq_some_iff, hl]
        simp
      | succ k =>
        simp only [reaches_succ_iff hstep]
        exact ih hhalts

end executed

/-! ## Running with and without a trace -/

section traces

variable {p : Program} {settings : Settings} {r s : Run Transcript}

/-- What a run writes to the trace when it executes lines. -/
def tracesOf (settings : Settings) (lines : List (Entry Statement)) : Array String :=
  if settings.trace then
    (lines.map fun line =>
      "Executing line " ++ line.number.repr ++ ": " ++ line.item.render).toArray
  else #[]

theorem tracesOf_nil : tracesOf settings [] = #[] := by
  unfold tracesOf
  split <;> rfl

theorem tracesOf_append (ls ms : List (Entry Statement)) :
    tracesOf settings (ls ++ ms) = tracesOf settings ls ++ tracesOf settings ms := by
  unfold tracesOf
  split <;> simp

theorem traceLine_withTraces (settings : Settings) (line : Entry Statement) (ts : Array String)
    (m : Machine Transcript) :
    traceLine settings line (m.withTraces ts) =
      (.ok (), m.withTraces (ts ++ tracesOf settings [line])) := by
  unfold traceLine tracesOf
  split
  · obtain ⟨env, console, interrupt⟩ := m
    rw [List.map_singleton, Array.append_singleton]
    cases interrupt <;> rfl
  · rw [Array.append_empty]
    rfl

theorem follow_withTraces (number : Nat) (ts : Array String) (r : Run Transcript) :
    p.follow number (r.withTraces ts) = (p.follow number r).withTraces ts := by
  obtain ⟨⟨⟨store, counter, frames, seed, generator, transfer, ended⟩, console, interrupt⟩,
      index, steps⟩ := r
  cases ended with
  | true => rfl
  | false =>
    cases transfer with
    | none => rfl
    | jump | loop =>
      unfold follow Environment.takeTransfer Run.withTraces Machine.withTraces
      dsimp only
      cases p.indexOf? counter <;> rfl

/-- A step that writes a trace does the same as one that writes none. -/
theorem step_withTraces (settings : Settings) (ts : Array String) (r : Run Transcript) :
    p.step settings (r.withTraces ts) =
      (p.step settings.untraced r).withTraces
        (ts ++ tracesOf settings (p.executedLine? settings.untraced r).toList) := by
  cases hline : p.line? r.index with
  | none =>
    have hexecuted : p.executedLine? settings.untraced r = none := by simp [executedLine?, hline]
    rw [hexecuted, step_of_none hline, step_of_none (r := r.withTraces ts) hline,
      Option.toList_none, tracesOf_nil, Array.append_empty]
    rfl
  | some line =>
    cases hlimit : settings.isLimit r.steps with
    | true =>
      have hlimit' : settings.untraced.isLimit r.steps = true := hlimit
      have hexecuted : p.executedLine? settings.untraced r = none := by
        simp [executedLine?, hlimit']
      rw [hexecuted, step_of_limit hline hlimit', step_of_limit (r := r.withTraces ts) hline hlimit,
        Option.toList_none, tracesOf_nil, Array.append_empty]
      rfl
    | false =>
      have hlimit' : settings.untraced.isLimit r.steps = false := hlimit
      cases hinterrupt : settings.breakable && r.machine.interrupt with
      | true =>
        have hinterrupt' : (settings.untraced.breakable && r.machine.interrupt) = true := hinterrupt
        have hexecuted : p.executedLine? settings.untraced r = none := by
          simp [executedLine?, hinterrupt']
        rw [hexecuted, step_of_interrupt hline hlimit' hinterrupt',
          step_of_interrupt (r := r.withTraces ts) hline hlimit hinterrupt, Option.toList_none,
            tracesOf_nil,
          Array.append_empty]
        rfl
      | false =>
        have hinterrupt' : (settings.untraced.breakable && r.machine.interrupt) = false :=
          hinterrupt
        have hexecuted : p.executedLine? settings.untraced r = some line :=
          executedLine?_eq_some_iff.mpr ⟨r.entering line, hline, hlimit', hinterrupt', rfl⟩
        have htrace : traceLine settings line ((r.withTraces ts).entering line) =
            (.ok (), (r.entering line).withTraces (ts ++ tracesOf settings [line])) :=
          traceLine_withTraces settings line ts (r.entering line)
        have huntraced : traceLine settings.untraced line (r.entering line) =
            (.ok (), r.entering line) := rfl
        rw [hexecuted, step_of_line hline hlimit' hinterrupt',
          step_of_line (r := r.withTraces ts) hline hlimit hinterrupt, executeLine_eq,
            executeLine_eq, htrace,
          huntraced]
        dsimp only [Option.toList_some]
        rw [line.item.execute_withTraces]
        rcases line.item.execute (r.entering line) with ⟨e | _, m⟩
        · rfl
        · exact follow_withTraces line.number _ ⟨m, r.index, r.steps + 1⟩

/-- A run that writes a trace goes along with the run that writes none. -/
theorem advance_withTraces (settings : Settings) (count : Nat) (ts : Array String)
    (r : Run Transcript) :
    p.advance settings count (.running (r.withTraces ts)) =
      (p.advance settings.untraced count (.running r)).withTraces
        (ts ++ tracesOf settings (p.executedLines settings.untraced count r)) := by
  induction count generalizing r ts with
  | zero =>
    rw [executedLines, tracesOf_nil, Array.append_empty]
    rfl
  | succ count ih =>
    rw [advance_succ_running, advance_succ_running, step_withTraces, executedLines, tracesOf_append,
      ← Array.append_assoc]
    cases p.step settings.untraced r with
    | halted result s =>
      dsimp only
      rw [tracesOf_nil, Array.append_empty, advance_halted]
      exact advance_halted count
    | running s => exact ih _ s

theorem withTraces_start (env : Environment) (t : Transcript) (interrupt : Bool) :
    (start env t interrupt).withTraces t.traces = start env t interrupt := rfl

theorem haltsIn_traced {env : Environment} {t : Transcript} {interrupt : Bool} {count : Nat}
    {result : Except Error Unit}
    (h : p.HaltsIn settings.untraced count (start env t interrupt) result s) :
    p.HaltsIn settings.traced count (start env t interrupt) result
      (s.withTraces (t.traces ++
        tracesOf settings.traced
          (p.executedLines settings.untraced count (start env t interrupt)))) := by
  have hadvance :=
    advance_withTraces (p := p) settings.traced count t.traces (start env t interrupt)
  unfold HaltsIn at h ⊢
  rw [withTraces_start] at hadvance
  rw [hadvance, show settings.traced.untraced = settings.untraced from rfl, h]
  rfl

/-- A run without a trace leaves the traces alone. -/
theorem traces_of_haltsIn {env : Environment} {t : Transcript} {interrupt : Bool} {count : Nat}
    {result : Except Error Unit}
    (h : p.HaltsIn settings.untraced count (start env t interrupt) result s) :
    s.machine.console.traces = t.traces := by
  have hadvance :=
    advance_withTraces (p := p) settings.untraced count t.traces (start env t interrupt)
  unfold HaltsIn at h
  rw [withTraces_start, show settings.untraced.untraced = settings.untraced from rfl, h] at hadvance
  have hs := (Progress.halted.inj hadvance).2
  rw [hs]
  exact Array.append_empty

/-- A run that comes to its end with a trace does so without one. -/
theorem exists_haltsIn_untraced {env : Environment} {t : Transcript} {interrupt : Bool}
    {count : Nat} {result : Except Error Unit}
    (h : p.HaltsIn settings.traced count (start env t interrupt) result s) :
    ∃ s', p.HaltsIn settings.untraced count (start env t interrupt) result s' := by
  have hadvance :=
    advance_withTraces (p := p) settings.traced count t.traces (start env t interrupt)
  unfold HaltsIn at h ⊢
  rw [withTraces_start, show settings.traced.untraced = settings.untraced from rfl, h] at hadvance
  cases hplain : p.advance settings.untraced count (.running (start env t interrupt)) with
  | running s' =>
    rw [hplain] at hadvance
    cases hadvance
  | halted result' s' =>
    rw [hplain] at hadvance
    obtain ⟨rfl, -⟩ := Progress.halted.inj hadvance
    exact ⟨s', rfl⟩

/-- A run on a transcript comes to its end with a trace if and only if it does without one. Then
both give the same result and leave the same environment, output, input and break flag. The run
without a trace adds nothing to the traces, and the other one adds a line for each statement that is
executed, in their order, and nothing else. -/
theorem trace_only_observes (p : Program) (settings : Settings) (env : Environment) (t : Transcript)
    (interrupt : Bool) :
    ((∃ result s, p.HaltsWith settings.traced (start env t interrupt) result s) ↔
        ∃ result s, p.HaltsWith settings.untraced (start env t interrupt) result s) ∧
      ∀ result s result' s', p.HaltsWith settings.traced (start env t interrupt) result s →
        p.HaltsWith settings.untraced (start env t interrupt) result' s' →
        result = result' ∧ s.machine.environment = s'.machine.environment ∧
        s.machine.console.output = s'.machine.console.output ∧
          s.machine.console.input = s'.machine.console.input ∧
        s.machine.interrupt = s'.machine.interrupt ∧ s'.machine.console.traces = t.traces ∧
        ∃ lines : List (Entry Statement),
          (∀ k line, lines[k]? = some line ↔
            ∃ q m, p.Reaches settings.untraced k (start env t interrupt) q ∧
            p.Executes settings.untraced q line m) ∧
          s.machine.console.traces.toList = t.traces.toList ++
            lines.map fun line =>
              "Executing line " ++ line.number.repr ++ ": " ++ line.item.render := by
  refine ⟨⟨?_, ?_⟩, ?_⟩
  · rintro ⟨result, s, count, h⟩
    obtain ⟨s', hs'⟩ := exists_haltsIn_untraced h
    exact ⟨result, s', count, hs'⟩
  · rintro ⟨result, s, count, h⟩
    exact ⟨result, _, count, haltsIn_traced h⟩
  · rintro result s result' s' htraced ⟨count, huntraced⟩
    obtain ⟨rfl, rfl⟩ := htraced.unique ⟨count, haltsIn_traced huntraced⟩
    refine ⟨rfl, rfl, rfl, rfl, rfl, traces_of_haltsIn huntraced, ?_⟩
    refine ⟨p.executedLines settings.untraced count (start env t interrupt), fun k line => ?_, ?_⟩
    · exact getElem?_executedLines huntraced
    · exact Array.toList_append

end traces

end Program

end LineBasic
