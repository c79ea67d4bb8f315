import LineBasic.Proofs.Program.Insert
import LineBasic.Proofs.Run.Advance
import LineBasic.Proofs.Run.Keeps

/-!
# What a step of a run does

`Program.Steps` lists the ways in which a step can go, each with what leads to it, and every step
goes in one of them (`Program.steps_step`). A line that is executed is one to which neither the
limit nor the break flag nor the trace has prevented the run from coming (`Program.Executes`). After
a statement that succeeded the run goes on as `Program.Follows` says. A step after which the run
goes on has executed one statement (`Program.steps_of_running`).
-/

namespace LineBasic

/-- Without a step limit and a trace, and without a look at the break flag. -/
def Settings.plain : Settings :=
  { breakable := false }

/-- The machine of a run that comes to a line. -/
def Run.entering {κ : Type} (r : Run κ) (line : Entry Statement) : Machine κ :=
  { r.machine with environment := r.machine.environment.setCounter line.number }

/-- A machine whose transfer has been taken up. -/
def Machine.rested {κ : Type} (m : Machine κ) : Machine κ :=
  { m with environment := { m.environment with transfer := .none } }

namespace Program

variable {κ : Type} [Console κ] {p : Program} {settings : Settings} {r s : Run κ}

/-- The next step of a run executes the statement on a line, from the given machine on. -/
structure Executes (p : Program) (settings : Settings) (r : Run κ) (line : Entry Statement)
    (m : Machine κ) : Prop where
  line_eq : p.line? r.index = some line
  limit_eq : settings.isLimit r.steps = false
  interrupt_eq : (settings.breakable && r.machine.interrupt) = false
  trace_eq : traceLine settings line (r.entering line) = (.ok (), m)

/-- A trace leaves the environment alone, and fails only because the console does. -/
theorem traceLine_keeps (I : Environment → Prop) (settings : Settings) (line : Entry Statement) :
    Action.Keeps (fun m : Machine κ =>
      I m.environment) (Error.Bare ErrorCode.OfDevices) (traceLine settings line) := by
  unfold traceLine
  split
  · apply Machine.onConsole_keeps
    exact DeviceFault.bare_toError
  · exact .pure _

theorem traceLine_error {line : Entry Statement} {m m' : Machine κ} {e : Error}
    (h : traceLine settings line m = (.error e, m')) : e.Bare ErrorCode.OfDevices :=
  (traceLine_keeps (fun _ => True) settings line m trivial).2 e (by rw [h])

/-- How a step of a run can go. -/
inductive Steps (p : Program) (settings : Settings) (r : Run κ) : Progress κ → Prop
  /-- The last line is behind the run. -/
  | finished (h : p.line? r.index = none) : Steps p settings r (.halted (.ok ()) r)
  | limited {line : Entry Statement} (h : p.line? r.index = some line)
      (hlimit : settings.isLimit r.steps = true) :
      Steps p settings r (.halted (.error (limitError (settings.maxSteps.getD 0))) r)
  | interrupted {line : Entry Statement} (h : p.line? r.index = some line)
      (hlimit : settings.isLimit r.steps = false)
      (hinterrupt : (settings.breakable && r.machine.interrupt) = true) :
      Steps p settings r (.halted (.error (Error.inLine { code := .interrupted } line.number))
        { r with machine := { r.machine with interrupt := false } })
  /-- The trace could not be written. -/
  | untraced {line : Entry Statement} {e : Error} {m : Machine κ}
      (h : p.line? r.index = some line) (hlimit : settings.isLimit r.steps = false)
      (hinterrupt : (settings.breakable && r.machine.interrupt) = false)
      (htrace : traceLine settings line (r.entering line) = (.error e, m)) :
      Steps p settings r (.halted (.error e) { r with machine := m })
  | failed {line : Entry Statement} {e : Error} {m m' : Machine κ}
      (h : p.Executes settings r line m) (hexecute : line.item.execute m = (.error e, m')) :
      Steps p settings r (.halted (.error (e.inLine line.number)) ⟨m', r.index, r.steps + 1⟩)
  | followed {line : Entry Statement} {m m' : Machine κ} (h : p.Executes settings r line m)
      (hexecute : line.item.execute m = (.ok (), m')) :
      Steps p settings r (p.follow line.number ⟨m', r.index, r.steps + 1⟩)

theorem executeLine_eq (line : Entry Statement) :
    p.executeLine settings line r =
      match traceLine settings line (r.entering line) with
      | (.error e, m) => .halted (.error e) { r with machine := m }
      | (.ok _, m) =>
        match line.item.execute m with
        | (.error e, m) => .halted (.error (e.inLine line.number)) ⟨m, r.index, r.steps + 1⟩
        | (.ok _, m) => p.follow line.number ⟨m, r.index, r.steps + 1⟩ := rfl

/-- Where a loop goes on that was opened on the line with this index: behind the line if that is the
loop itself. -/
def loopEntry (p : Program) (i : Nat) : Nat :=
  if (p.line? i).any (·.item.isLoop) then i + 1 else i

theorem loopTarget_eq {target i : Nat} (h : p.indexOf? target = some i) :
    p.loopTarget target i = p.loopEntry i := by
  obtain ⟨st, hline⟩ := indexOf?_eq_some_iff_line?.mp h
  have hget : p.get? target = some st := get?_of_line? hline
  rw [loopTarget, loopEntry, hget, hline]
  rfl

/-- A step looks its line up twice, the number first and then the statement, and every number has a
statement. -/
theorem step_eq (p : Program) (settings : Settings) (r : Run κ) :
    p.step settings r =
      match p.line? r.index with
      | none => .halted (.ok ()) r
      | some line =>
        if settings.isLimit r.steps then .halted (.error (limitError (settings.maxSteps.getD 0))) r
        else if settings.breakable && r.machine.interrupt then
          .halted (.error (Error.inLine { code := .interrupted } line.number))
            { r with machine := { r.machine with interrupt := false } }
        else p.executeLine settings line r := by
  unfold step
  cases hn : p.lineNumber? r.index with
  | none => rw [line?_eq_none_iff.mpr hn]
  | some n =>
    obtain ⟨st, hst⟩ := exists_get?_of_lineNumber? hn
    have hline : p.line? r.index = some ⟨n, st⟩ := line?_eq_some_iff.mpr ⟨hn, hst⟩
    rw [hline]
    dsimp only
    rw [hst]

theorem step_of_none (h : p.line? r.index = none) : p.step settings r = .halted (.ok ()) r := by
  rw [step_eq, h]

theorem step_of_limit {line : Entry Statement} (h : p.line? r.index = some line)
    (hlimit : settings.isLimit r.steps = true) :
    p.step settings r = .halted (.error (limitError (settings.maxSteps.getD 0))) r := by
  rw [step_eq, h]
  dsimp only
  rw [if_pos hlimit]

theorem step_of_interrupt {line : Entry Statement} (h : p.line? r.index = some line)
    (hlimit : settings.isLimit r.steps = false)
    (hinterrupt : (settings.breakable && r.machine.interrupt) = true) :
    p.step settings r = .halted (.error (Error.inLine { code := .interrupted } line.number))
      { r with machine := { r.machine with interrupt := false } } := by
  rw [step_eq, h]
  dsimp only
  rw [if_neg (by simp [hlimit]), if_pos hinterrupt]

theorem step_of_line {line : Entry Statement} (h : p.line? r.index = some line)
    (hlimit : settings.isLimit r.steps = false)
    (hinterrupt : (settings.breakable && r.machine.interrupt) = false) :
    p.step settings r = p.executeLine settings line r := by
  rw [step_eq, h]
  dsimp only
  rw [if_neg (by simp [hlimit]), if_neg (by simp [hinterrupt])]

/-- A step that executes a line does what its statement does, and then the run follows it. -/
theorem Executes.step_eq {line : Entry Statement} {m : Machine κ}
    (h : p.Executes settings r line m) :
    p.step settings r =
      match line.item.execute m with
      | (.error e, m) => .halted (.error (e.inLine line.number)) ⟨m, r.index, r.steps + 1⟩
      | (.ok _, m) => p.follow line.number ⟨m, r.index, r.steps + 1⟩ := by
  rw [step_of_line h.line_eq h.limit_eq h.interrupt_eq, executeLine_eq, h.trace_eq]

/-- Without a limit, a trace and breaks a line is executed without further ado. -/
theorem step_plain {line : Entry Statement} (h : p.line? r.index = some line) :
    p.step .plain r =
      match line.item.execute (r.entering line) with
      | (.error e, m) => .halted (.error (e.inLine line.number)) ⟨m, r.index, r.steps + 1⟩
      | (.ok _, m) => p.follow line.number ⟨m, r.index, r.steps + 1⟩ :=
  Executes.step_eq ⟨h, rfl, rfl, rfl⟩

/-- Every step goes in one of these ways. -/
theorem steps_step (p : Program) (settings : Settings) (r : Run κ) :
    p.Steps settings r (p.step settings r) := by
  cases h : p.line? r.index with
  | none =>
    rw [step_of_none h]
    exact .finished h
  | some line =>
    cases hlimit : settings.isLimit r.steps with
    | true =>
      rw [step_of_limit h hlimit]
      exact .limited h hlimit
    | false =>
      cases hinterrupt : settings.breakable && r.machine.interrupt with
      | true =>
        rw [step_of_interrupt h hlimit hinterrupt]
        exact .interrupted h hlimit hinterrupt
      | false =>
        rw [step_of_line h hlimit hinterrupt, executeLine_eq]
        rcases htrace : traceLine settings line (r.entering line) with ⟨e | _, m⟩
        · exact .untraced h hlimit hinterrupt htrace
        · have hexecutes : p.Executes settings r line m := ⟨h, hlimit, hinterrupt, htrace⟩
          rcases hexecute : line.item.execute m with ⟨e | _, m'⟩
          · dsimp only
            rw [hexecute]
            exact .failed hexecutes hexecute
          · dsimp only
            rw [hexecute]
            exact .followed hexecutes hexecute

/-- How a run goes on after a statement on the line with the given number. -/
inductive Follows (p : Program) (number : Nat) (r : Run κ) : Progress κ → Prop
  | ended (h : r.machine.environment.ended = true) : Follows p number r (.halted (.ok ()) r)
  | next (h : r.machine.environment.ended = false) (ht : r.machine.environment.transfer = .none) :
      Follows p number r (.running ⟨r.machine.rested, r.index + 1, r.steps⟩)
  | jumped {i : Nat} (h : r.machine.environment.ended = false)
      (ht : r.machine.environment.transfer = .jump)
      (hi : p.indexOf? r.machine.environment.counter = some i) :
      Follows p number r (.running ⟨r.machine.rested, i, r.steps⟩)
  | undefined (h : r.machine.environment.ended = false)
      (ht : r.machine.environment.transfer = .jump)
      (hi : p.indexOf? r.machine.environment.counter = none) :
      Follows p number r
        (.halted (.error ((undefinedLine r.machine.environment.counter).inLine number))
        ⟨r.machine.rested, r.index, r.steps⟩)
  | looped {i : Nat} (h : r.machine.environment.ended = false)
      (ht : r.machine.environment.transfer = .loop)
      (hi : p.indexOf? r.machine.environment.counter = some i) :
      Follows p number r (.running ⟨r.machine.rested, p.loopEntry i, r.steps⟩)
  /-- The line that opened the loop is not there. -/
  | lost (h : r.machine.environment.ended = false) (ht : r.machine.environment.transfer = .loop)
      (hi : p.indexOf? r.machine.environment.counter = none) :
      Follows p number r (.halted (.ok ()) ⟨r.machine.rested, r.index, r.steps⟩)

omit [Console κ] in
theorem follows_follow (p : Program) (number : Nat) (r : Run κ) :
    p.Follows number r (p.follow number r) := by
  obtain ⟨⟨⟨store, counter, frames, seed, generator, transfer, ended⟩, console, interrupt⟩,
      index, steps⟩ := r
  cases ended with
  | true => exact .ended rfl
  | false =>
    cases transfer with
    | none => exact .next rfl rfl
    | jump =>
      unfold follow Environment.takeTransfer
      dsimp only
      cases hi : p.indexOf? counter with
      | some i => exact .jumped rfl rfl hi
      | none => exact .undefined rfl rfl hi
    | loop =>
      unfold follow Environment.takeTransfer
      dsimp only
      cases hi : p.indexOf? counter with
      | some i =>
        dsimp only
        rw [loopTarget_eq hi]
        exact .looped rfl rfl hi
      | none => exact .lost rfl rfl hi

omit [Console κ] in
/-- What leads to a way of going on leads to no other. -/
theorem Follows.follow_eq {number : Nat} {progress : Progress κ} (h : p.Follows number r progress) :
    p.follow number r = progress := by
  have hfollows := follows_follow p number r
  generalize p.follow number r = progress' at hfollows
  -- the conditions of two different ways contradict each other
  cases h <;> cases hfollows <;> simp_all

omit [Console κ] in
theorem steps_of_follow {number : Nat} (h : p.follow number r = .running s) :
    s.steps = r.steps := by
  have hfollows := follows_follow p number r
  rw [h] at hfollows
  cases hfollows <;> rfl

/-- A run that goes on has executed one statement more. -/
theorem steps_of_running (h : p.step settings r = .running s) : s.steps = r.steps + 1 := by
  have hsteps := steps_step p settings r
  generalize hprogress : p.step settings r = progress at hsteps
  cases hsteps with
  | followed hexecutes hexecute =>
    rw [h] at hprogress
    exact steps_of_follow hprogress.symm
  | _ =>
    rw [h] at hprogress
    cases hprogress

theorem Reaches.steps_eq {count : Nat} (h : p.Reaches settings count r s) :
    s.steps = r.steps + count := by
  induction count generalizing r with
  | zero =>
    obtain rfl : r = s := Progress.running.inj h
    rfl
  | succ count ih =>
    unfold Reaches at h
    rw [advance_succ_running] at h
    cases hstep : p.step settings r with
    | halted result q =>
      rw [hstep, advance_halted] at h
      cases h
    | running q =>
      rw [hstep] at h
      rw [ih h, steps_of_running hstep]
      omega

/-- What holds of a state and is kept by the steps holds of every state that is reached. -/
theorem Reaches.induct {I : Run κ → Prop}
    (hstep : ∀ q t, I q → p.step settings q = .running t → I t) {count : Nat}
    (h : p.Reaches settings count r s) (hr : I r) : I s := by
  induction count generalizing r with
  | zero =>
    obtain rfl : r = s := Progress.running.inj h
    exact hr
  | succ count ih =>
    unfold Reaches at h
    rw [advance_succ_running] at h
    cases hfirst : p.step settings r with
    | halted result q =>
      rw [hfirst, advance_halted] at h
      cases h
    | running q =>
      rw [hfirst] at h
      exact ih h (hstep r q hr hfirst)

theorem Reaches.unique {count : Nat} {t : Run κ} (hs : p.Reaches settings count r s)
    (ht : p.Reaches settings count r t) : s = t :=
  Progress.running.inj (hs.symm.trans ht)

/-- A run that comes to its end does so in some step. -/
theorem HaltsIn.exists_step {count : Nat} {result : Except Error Unit}
    (h : p.HaltsIn settings count r result s) :
    ∃ before q, p.Reaches settings before r q ∧ p.step settings q = .halted result s := by
  induction count generalizing r with
  | zero => cases h
  | succ count ih =>
    unfold HaltsIn at h
    rw [advance_succ_running] at h
    cases hstep : p.step settings r with
    | halted result' q =>
      rw [hstep, advance_halted] at h
      exact ⟨0, r, .refl r, hstep.trans h⟩
    | running q =>
      rw [hstep] at h
      obtain ⟨before, q', hreach, hlast⟩ := ih h
      exact ⟨1 + before, q', (Reaches.of_step hstep).trans hreach, hlast⟩

end Program

end LineBasic
