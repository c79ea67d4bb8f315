import LineBasic.Proofs.Console.Terminal
import LineBasic.Proofs.Program.Insert
import LineBasic.Runner

/-!
# Running a file and running in memory

To run a file on a terminal is to load its text, to make the program and to run that on a
transcript, with the lines of the input to read (`Runner.reports_of_exits`). The terminal then shows
what the transcript holds, and the exit code says whether all of this succeeded (`Runner.Reports`).
-/

namespace LineBasic.Runner

/-- Running a file comes to its end, with an exit code and a terminal. -/
def Exits (name : String) (content : List UInt8) (seed : UInt64) (settings : Settings)
    (terminal : Terminal) (exit : UInt32) (after : Terminal) : Prop :=
  match begin name (.ok content) seed terminal with
  | .error outcome => outcome = (exit, after)
  | .ok (p, r) => ∃ result s, p.HaltsWith settings r result s ∧
      finish result s.machine.console = (exit, after)

/-- Loading a source, making its program and running that on a transcript comes to a result, and
leaves a transcript. -/
inductive ComesTo (source : String) (seed : UInt64) (settings : Settings) (t : Transcript) :
    Except Error Unit → Transcript → Prop
  | unloaded {e : Error} {l : Listing} (h : Listing.load source .empty = (.error e, l)) :
      ComesTo source seed settings t (.error e) t
  | unread {e : Error} {l : Listing} (h : Listing.load source .empty = (.ok (), l))
      (hprogram : l.program = .error e) :
      ComesTo source seed settings t (.error e) t
  | ran {l : Listing} {p : Program} {result : Except Error Unit} {s : Run Transcript}
      (h : Listing.load source .empty = (.ok (), l)) (hprogram : l.program = .ok p)
      (hhalts : p.HaltsWith settings (Program.start (.ofSeed seed) t false) result s) :
      ComesTo source seed settings t result s.machine.console

/-- The exit code and the terminal that belong to a result and a transcript. -/
structure Reports (exit : UInt32) (after : Terminal) (result : Except Error Unit) (t : Transcript) :
    Prop where
  exit_eq : exit = match result with
    | .ok _ => 0
    | .error _ => 1
  output_eq : after.output = t.output
  errors_eq : after.errors = t.traceText ++ match result with
    | .ok _ => ""
    | .error e => bold e.message ++ "\n"

theorem reports_finish {terminal : Terminal} {t : Transcript} (h : terminal.Mirrors t)
    (result : Except Error Unit) :
    Reports (finish result terminal).1 (finish result terminal).2 result t := by
  cases result with
  | ok _ => exact ⟨rfl, h.output, by simpa [finish] using h.errors⟩
  | error e => exact ⟨rfl, h.output, by simp [finish, report, h.errors, String.append_assoc]⟩

section

variable {name source : String} {content : List UInt8} {seed : UInt64} {settings : Settings}
  {terminal after after' : Terminal} {t u : Transcript} {exit exit' : UInt32}
    {result : Except Error Unit}

theorem loadFile_of_error (hfile : Text.decode? content = some source) {e : Error} {l : Listing}
    (h : Listing.load source .empty = (.error e, l)) : loadFile name (.ok content) = .error e := by
  simp [loadFile, loadListing, Except.mapError, hfile, h, bind, Except.bind]

theorem loadFile_of_ok (hfile : Text.decode? content = some source) {l : Listing}
    (h : Listing.load source .empty = (.ok (), l)) : loadFile name (.ok content) = l.program := by
  simp [loadFile, loadListing, Except.mapError, hfile, h, bind, Except.bind]

theorem exits_of_error {e : Error} (h : loadFile name (.ok content) = .error e) :
    Exits name content seed settings terminal exit after ↔
      finish (.error e) terminal = (exit, after) := by
  unfold Exits begin
  rw [h]

theorem exits_of_ok {p : Program} (h : loadFile name (.ok content) = .ok p) :
    Exits name content seed settings terminal exit after ↔
      ∃ result s, p.HaltsWith settings (Program.start (.ofSeed seed) terminal false) result s ∧
        finish result s.machine.console = (exit, after) := by
  unfold Exits begin
  rw [h]

/-- A file comes to at most one end. -/
theorem Exits.unique (h : Exits name content seed settings terminal exit after)
    (h' : Exits name content seed settings terminal exit' after') :
    exit = exit' ∧ after = after' := by
  cases hload : loadFile name (.ok content) with
  | error e =>
    rw [exits_of_error hload] at h h'
    exact Prod.mk.inj (h.symm.trans h')
  | ok p =>
    rw [exits_of_ok hload] at h h'
    obtain ⟨result, s, hhalts, hfinish⟩ := h
    obtain ⟨result', s', hhalts', hfinish'⟩ := h'
    obtain ⟨rfl, rfl⟩ := hhalts.unique hhalts'
    exact Prod.mk.inj (hfinish.symm.trans hfinish')

/-- What comes to a result in memory exits on a terminal. -/
theorem ComesTo.exists_exits (h : ComesTo source seed settings t result u)
    (hfile : Text.decode? content = some source) (hmirrors : terminal.Mirrors t) :
    ∃ exit after, Exits name content seed settings terminal exit after ∧
      Reports exit after result u := by
  cases h with
  | unloaded hload =>
    exact ⟨_, _, (exits_of_error (loadFile_of_error hfile hload)).mpr rfl,
      reports_finish hmirrors (.error _)⟩
  | unread hload hprogram =>
    have hloads : loadFile name (.ok content) = .error _ :=
      (loadFile_of_ok hfile hload).trans hprogram
    exact ⟨_, _, (exits_of_error hloads).mpr rfl, reports_finish hmirrors (.error _)⟩
  | ran hload hprogram hhalts =>
    have hloads : loadFile name (.ok content) = .ok _ := (loadFile_of_ok hfile hload).trans hprogram
    have hstart : (Program.start (.ofSeed seed) t false).Alongside (flip Terminal.Mirrors)
        (Program.start (.ofSeed seed) terminal false) := ⟨⟨rfl, hmirrors, rfl⟩, rfl, rfl⟩
    obtain ⟨s', hhalts', hs⟩ := hhalts.alongside Terminal.answerAlike_mirrors.flip hstart
    exact ⟨_, _, (exits_of_ok hloads).mpr ⟨_, s', hhalts', rfl⟩,
      reports_finish hs.machine.console _⟩

/-- What exits on a terminal comes to a result in memory. -/
theorem Exits.exists_comesTo (h : Exits name content seed settings terminal exit after)
    (hfile : Text.decode? content = some source) (hmirrors : terminal.Mirrors t) :
    ∃ result u, ComesTo source seed settings t result u := by
  rcases hload : Listing.load source .empty with ⟨e | _, l⟩
  · exact ⟨_, _, .unloaded hload⟩
  · cases hprogram : l.program with
    | error e => exact ⟨_, _, .unread hload hprogram⟩
    | ok p =>
      obtain ⟨result, s, hhalts, -⟩ :=
        (exits_of_ok ((loadFile_of_ok hfile hload).trans hprogram)).mp h
      have hstart : (Program.start (.ofSeed seed) terminal false).Alongside Terminal.Mirrors
          (Program.start (.ofSeed seed) t false) := ⟨⟨rfl, hmirrors, rfl⟩, rfl, rfl⟩
      obtain ⟨s', hhalts', -⟩ := hhalts.alongside Terminal.answerAlike_mirrors hstart
      exact ⟨_, _, .ran hload hprogram hhalts'⟩

end

/-- Running a file on a terminal comes to an end if and only if loading its text and running it on a
transcript does, and then the exit code, the output and the stream for errors are those of the
result and of the transcript. -/
theorem reports_of_exits {content stdin : List UInt8} {source input : String}
    (hfile : Text.decode? content = some source) (hinput : Text.decode? stdin = some input)
    (name : String) (seed : UInt64) (settings : Settings) :
    ((∃ exit after, Exits name content seed settings { input := stdin } exit after) ↔
        ∃ result t, ComesTo source seed settings { input := Text.inputLines input } result t) ∧
      ∀ exit after result t, Exits name content seed settings { input := stdin } exit after →
        ComesTo source seed settings { input := Text.inputLines input } result t →
          Reports exit after result t := by
  have hmirrors : Terminal.Mirrors { input := stdin } { input := Text.inputLines input } :=
    ⟨rfl, ⟨input, Text.decode?_eq_some_iff.mp hinput, rfl⟩, rfl, rfl⟩
  refine ⟨⟨?_, ?_⟩, ?_⟩
  · rintro ⟨exit, after, hexits⟩
    exact hexits.exists_comesTo hfile hmirrors
  · rintro ⟨result, t, hcomes⟩
    obtain ⟨exit, after, hexits, -⟩ := hcomes.exists_exits hfile hmirrors
    exact ⟨exit, after, hexits⟩
  · intro exit after result t hexits hcomes
    obtain ⟨exit', after', hexits', hreports⟩ := hcomes.exists_exits hfile hmirrors
    obtain ⟨rfl, rfl⟩ := hexits.unique hexits'
    exact hreports

/-- Asks for a text that the input does not have. -/
def unanswered : Program :=
  .single 10 (.input "" ⟨"A$"⟩)

theorem load_unanswered :
    Listing.load "10 INPUT A$" .empty = (.ok (), ⟨Numbered.empty.put 10 "10 INPUT A$"⟩) := by
  have hlines : Text.lines "10 INPUT A$" = ["10 INPUT A$"] := by with_unfolding_all rfl
  have htext : Text.trimStart (Text.trimEnd "10 INPUT A$".toList) = "10 INPUT A$".toList := by
    decide
  have hdigits : "10 INPUT A$".toList.takeWhile Char.isDigit = ['1', '0'] := by decide
  have hrest : (Text.trim ("10 INPUT A$".toList.dropWhile Char.isDigit)).isEmpty = false := by
    decide
  have hnumber : lineNumberOf? (String.ofList ['1', '0']) = some 10 := by with_unfolding_all rfl
  have henter : Listing.empty.enter "10 INPUT A$" = .ok ⟨Numbered.empty.put 10 "10 INPUT A$"⟩ := by
    unfold Listing.enter
    dsimp only
    rw [htext, hdigits, hnumber, hrest]
    rfl
  rw [Listing.load, hlines, Listing.enterAll, henter]
  rfl

theorem reports_of_exits_unanswered :
    let e := Error.inLine { code := .inputPastEnd } 10
    ∃ exit after t, Exits "ask" (Text.bytes "10 INPUT A$") 7 { trace := true } {} exit after ∧
      ComesTo "10 INPUT A$" 7 { trace := true } {} (.error e) t ∧
        Reports exit after (.error e) t := by
  intro e
  have hsource : (⟨Numbered.empty.put 10 "10 INPUT A$"⟩ : Listing).source = "10 INPUT A$" := by
    with_unfolding_all rfl
  have hprogram : (⟨Numbered.empty.put 10 "10 INPUT A$"⟩ : Listing).program = .ok unanswered := by
    rw [Listing.program, hsource]
    with_unfolding_all rfl
  have hline : unanswered.line? 0 = some ⟨10, .input "" ⟨"A$"⟩⟩ := by with_unfolding_all rfl
  obtain ⟨s, hs⟩ : ∃ s, unanswered.executeLine { trace := true } ⟨10, .input "" ⟨"A$"⟩⟩
      (Program.start (.ofSeed 7) ({} : Transcript) false) = .halted (.error e) s := ⟨_, rfl⟩
  have hstep : unanswered.step { trace := true }
      (Program.start (.ofSeed 7) ({} : Transcript) false) =
      .halted (.error e) s := (Program.step_of_line hline rfl rfl).trans hs
  have hcomes : ComesTo "10 INPUT A$" 7 { trace := true } {} (.error e) s.machine.console :=
    .ran load_unanswered hprogram ⟨1, .of_step hstep⟩
  have hfile : Text.decode? (Text.bytes "10 INPUT A$") = some "10 INPUT A$" :=
    Text.decode?_eq_some_iff.mpr rfl
  have hinput : Text.decode? [] = some "" := Text.decode?_eq_some_iff.mpr rfl
  obtain ⟨hiff, hreports⟩ := reports_of_exits hfile hinput "ask" 7 { trace := true }
  obtain ⟨exit, after, hexits⟩ := hiff.mpr ⟨_, _, hcomes⟩
  exact ⟨exit, after, _, hexits, hcomes, hreports exit after _ _ hexits hcomes⟩

end LineBasic.Runner
