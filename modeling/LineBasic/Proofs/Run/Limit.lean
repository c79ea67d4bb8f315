import LineBasic.Proofs.Run.Step

/-!
# The step limit

A limit makes no difference to a run before it is reached (`Program.advance_limited`), and when it
is reached the run stands where it would stand without a limit after as many statements. So a
limited run either comes to the end that it would have come to anyway, under every higher limit too,
or is stopped there (`Program.limit_only_cuts_short`).
-/

namespace LineBasic

namespace Settings

variable (settings : Settings) (n steps : Nat)

/-- The same settings with a limit of `n` statements. -/
def limited : Settings :=
  { settings with maxSteps := some n }

/-- The same settings without a limit. -/
def unlimited : Settings :=
  { settings with maxSteps := none }

theorem isLimit_unlimited : settings.unlimited.isLimit steps = false := rfl

theorem isLimit_limited : (settings.limited n).isLimit steps = decide (n ≤ steps) := rfl

end Settings

namespace Program

variable {κ : Type} [Console κ] {p : Program} {settings : Settings} {r s : Run κ}
  {result : Except Error Unit}

/-- A run was stopped by its limit. -/
def StoppedByLimit (result : Except Error Unit) : Prop :=
  ∃ e, result = .error e ∧ e.code = .executionLimit

/-- A run comes to its end by itself after `n` statements: without an error, or because the last of
them failed. It does not when the break flag, or a trace that cannot be written, stops it before
another statement. -/
def FinishesIn (p : Program) (settings : Settings) (n : Nat) (r : Run κ)
    (result : Except Error Unit) (s : Run κ) : Prop :=
  ∃ count q, p.Reaches settings count r q ∧ p.step settings q = .halted result s ∧
    s.steps = r.steps + n ∧
    (result = .ok () ∨ q.steps < s.steps)

/-! ## Below the limit -/

theorem executeLine_limited (n : Nat) (line : Entry Statement) :
    p.executeLine (settings.limited n) line r = p.executeLine settings.unlimited line r := rfl

/-- A limit that is not yet reached makes no difference to a step. -/
theorem step_limited {n : Nat} (h : r.steps < n) :
    p.step (settings.limited n) r = p.step settings.unlimited r := by
  have hlimit : (settings.limited n).isLimit r.steps = false := by
    rw [Settings.isLimit_limited]
    exact decide_eq_false (by omega)
  cases hline : p.line? r.index with
  | none => rw [step_of_none hline, step_of_none hline]
  | some line =>
    cases hinterrupt : settings.breakable && r.machine.interrupt with
    | true =>
      rw [step_of_interrupt hline hlimit hinterrupt,
        step_of_interrupt hline (settings.isLimit_unlimited _) hinterrupt]
    | false =>
      rw [step_of_line hline hlimit hinterrupt,
        step_of_line hline (settings.isLimit_unlimited _) hinterrupt, executeLine_limited]

theorem advance_limited {n count : Nat} (h : r.steps + count ≤ n) :
    p.advance (settings.limited n) count (.running r) =
      p.advance settings.unlimited count (.running r) := by
  induction count generalizing r with
  | zero => rfl
  | succ count ih =>
    rw [advance_succ_running, advance_succ_running, step_limited (by omega)]
    cases hstep : p.step settings.unlimited r with
    | halted result q => rw [advance_halted, advance_halted]
    | running q =>
      have hsteps := steps_of_running hstep
      apply ih
      omega

/-! ## Ends of runs without a limit -/

theorem not_stoppedByLimit_of_code {e : Error} (h : e.code ≠ .executionLimit) :
    ¬ StoppedByLimit (.error e) := by
  rintro ⟨e', he, hcode⟩
  obtain rfl : e = e' := Except.error.inj he
  exact h hcode

theorem not_stoppedByLimit_ok : ¬ StoppedByLimit (.ok ()) := by
  rintro ⟨e, he, -⟩
  cases he

/-- Without a limit no run is stopped by it: nothing else gives that error. -/
theorem not_stoppedByLimit_of_step (h : p.step settings.unlimited r = .halted result s) :
    ¬ StoppedByLimit result := by
  have hsteps := steps_step p settings.unlimited r
  generalize hprogress : p.step settings.unlimited r = progress at hsteps
  rw [h] at hprogress
  cases hsteps with
  | finished =>
    obtain ⟨rfl, rfl⟩ := Progress.halted.inj hprogress
    exact not_stoppedByLimit_ok
  | limited hline hlimit => cases hlimit
  | interrupted =>
    obtain ⟨rfl, rfl⟩ := Progress.halted.inj hprogress
    exact not_stoppedByLimit_of_code (by simp)
  | untraced hline hlimit hinterrupt htrace =>
    obtain ⟨rfl, rfl⟩ := Progress.halted.inj hprogress
    apply not_stoppedByLimit_of_code
    rcases (traceLine_error htrace).code with hcode | hcode <;> simp [hcode]
  | @failed line e m m' hexecutes hexecute =>
    obtain ⟨rfl, rfl⟩ := Progress.halted.inj hprogress
    have hbare := (line.item.execute_keeps_bare m trivial).2 e (by rw [hexecute])
    exact not_stoppedByLimit_of_code hbare.code.ne_executionLimit
  | @followed line m m' hexecutes hexecute =>
    have hfollows := follows_follow p line.number ⟨m', r.index, r.steps + 1⟩
    rw [← hprogress] at hfollows
    cases hfollows with
    | ended | lost => exact not_stoppedByLimit_ok
    | undefined => exact not_stoppedByLimit_of_code (by simp [undefinedLine, Error.because])

theorem not_stoppedByLimit_of_haltsIn {count : Nat}
    (h : p.HaltsIn settings.unlimited count r result s) : ¬ StoppedByLimit result := by
  obtain ⟨before, q, -, hstep⟩ := h.exists_step
  exact not_stoppedByLimit_of_step hstep

/-- A run that ends without an error has run past its last line or executed one statement more. -/
theorem line?_or_steps_of_ok (h : p.step settings r = .halted (.ok ()) s) :
    p.line? r.index = none ∨ s.steps = r.steps + 1 := by
  have hsteps := steps_step p settings r
  generalize hprogress : p.step settings r = progress at hsteps
  rw [h] at hprogress
  cases hsteps with
  | finished hline => exact .inl hline
  | limited | interrupted | untraced | failed => cases hprogress
  | @followed line m m' hexecutes hexecute =>
    have hfollows := follows_follow p line.number ⟨m', r.index, r.steps + 1⟩
    rw [← hprogress] at hfollows
    cases hfollows with
    | ended | lost => exact .inr rfl

/-! ## At the limit -/

/-- A run that goes on after `n` statements to another line has not finished in `n`. -/
theorem Reaches.not_finishesIn {n : Nat} {line : Entry Statement} (h : p.Reaches settings n r s)
    (hline : p.line? s.index = some line) {result' : Except Error Unit} {s' : Run κ} :
    ¬ p.FinishesIn settings n r result' s' := by
  rintro ⟨count, q, hreach, hstep, hsteps, hend⟩
  have hq := hreach.steps_eq
  have hle : n ≤ count := by
    have hhalts : p.HaltsIn settings (count + 1) r result' s' :=
      hreach.haltsIn_iff.mpr (.of_step hstep)
    have hlt := h.lt_of_haltsIn hhalts
    omega
  rcases hend with rfl | hlt
  · rcases line?_or_steps_of_ok hstep with hnone | hmore
    · -- Past the last line the run stands where it stood after `n` statements, and there is a line
      -- there.
      have hstay : s' = q := by
        rw [step_of_none hnone] at hstep
        exact (Progress.halted.inj hstep).2.symm
      obtain rfl : count = n := by
        rw [hstay] at hsteps
        omega
      obtain rfl := h.unique hreach
      rw [hline] at hnone
      cases hnone
    · omega
  · omega

/-- A run under a limit of `n` statements comes to an end. If the limit does not stop it, it comes
to the same end under every higher limit and without one. If the limit stops it, it has executed `n`
statements and stands where the run without a limit stands after `n` statements. A run that finishes
by itself in exactly `n` statements is not stopped. -/
theorem limit_only_cuts_short (p : Program) (settings : Settings) (env : Environment) (console : κ)
    (interrupt : Bool) (n : Nat) :
    ∃ result s, p.HaltsWith (settings.limited n) (start env console interrupt) result s ∧
      (¬ StoppedByLimit result →
        p.HaltsWith settings.unlimited (start env console interrupt) result s ∧
          ∀ m, n ≤ m → p.HaltsWith (settings.limited m) (start env console interrupt) result s) ∧
      (StoppedByLimit result → result = .error (limitError n) ∧ s.steps = n ∧
        p.Reaches settings.unlimited n (start env console interrupt) s) ∧
      ∀ result' s', p.FinishesIn settings.unlimited n (start env console interrupt) result' s' →
        result' = result ∧ s' = s ∧ ¬ StoppedByLimit result := by
  have hbelow : ∀ m, n ≤ m →
      p.advance (settings.limited m) n (.running (start env console interrupt)) =
      p.advance settings.unlimited n (.running (start env console interrupt)) :=
    fun m hm => advance_limited (by simpa [start] using hm)
  cases h : p.advance settings.unlimited n (.running (start env console interrupt)) with
  | halted result s =>
    have hhalts : p.HaltsIn settings.unlimited n (start env console interrupt) result s := h
    have hlimited : ∀ m, n ≤ m →
        p.HaltsWith (settings.limited m) (start env console interrupt) result s :=
      fun m hm => ⟨n, (hbelow m hm).trans h⟩
    have hnot := not_stoppedByLimit_of_haltsIn hhalts
    refine ⟨result, s, hlimited n (Nat.le_refl n), fun _ => ⟨⟨n, hhalts⟩, hlimited⟩, fun hstop =>
      absurd hstop hnot, ?_⟩
    rintro result' s' ⟨count, q, hreach, hstep, -, -⟩
    obtain ⟨rfl, rfl⟩ := (hreach.haltsIn_iff.mpr (.of_step hstep)).unique hhalts
    exact ⟨rfl, rfl, hnot⟩
  | running s =>
    have hreach : p.Reaches settings.unlimited n (start env console interrupt) s := h
    have hlimited : ∀ m, n ≤ m → p.Reaches (settings.limited m) n (start env console interrupt) s :=
      fun m hm => (hbelow m hm).trans h
    have hsteps : s.steps = n := by
      rw [hreach.steps_eq, start, Nat.zero_add]
    cases hline : p.line? s.index with
    | none =>
      have hends : ∀ settings, p.HaltsIn settings 1 s (.ok ()) s :=
        fun settings => .of_step (step_of_none hline)
      refine ⟨.ok (), s, ⟨n + 1, (hlimited n (Nat.le_refl n)).haltsIn_iff.mpr (hends _)⟩, fun _ =>
        ⟨?_, ?_⟩, fun hstop => absurd hstop not_stoppedByLimit_ok, ?_⟩
      · exact ⟨n + 1, hreach.haltsIn_iff.mpr (hends _)⟩
      · intro m hm
        exact ⟨n + 1, (hlimited m hm).haltsIn_iff.mpr (hends _)⟩
      · rintro result' s' ⟨count, q, hreach', hstep, -, -⟩
        obtain ⟨rfl, rfl⟩ :=
          (hreach'.haltsIn_iff.mpr (.of_step hstep)).unique (hreach.haltsIn_iff.mpr (hends _))
        exact ⟨rfl, rfl, not_stoppedByLimit_ok⟩
    | some line =>
      have hstop : p.step (settings.limited n) s = .halted (.error (limitError n)) s := by
        apply step_of_limit hline
        rw [Settings.isLimit_limited, hsteps]
        exact decide_eq_true (Nat.le_refl n)
      have hstopped : StoppedByLimit (.error (limitError n)) := ⟨_, rfl, rfl⟩
      refine ⟨.error (limitError n), s,
        ⟨n + 1, (hlimited n (Nat.le_refl n)).haltsIn_iff.mpr (.of_step hstop)⟩,
        fun hnot => absurd hstopped hnot, fun _ =>
          ⟨rfl, hsteps, hreach⟩, fun result' s' hfinishes => ?_⟩
      exact absurd hfinishes (hreach.not_finishesIn hline)

end Program

end LineBasic
