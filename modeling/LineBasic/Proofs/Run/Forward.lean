import LineBasic.Console.Transcript
import LineBasic.Proofs.Program.Insert
import LineBasic.Proofs.Run.Limit

/-!
# Programs that only go forward

If no line of a program closes a turn of a loop, and all jumps are to larger line numbers, every
step of a run that goes on leaves the run at a larger index (`Program.GoesForward.step`). So lines
are executed in the order of their numbers, each at most once, and the run comes to an end
(`Program.GoesForward.exists_haltsIn`), whatever the open loops are from which it is started. A
limit that is not below the number of lines does not come into it (`Program.forward_run_ends`).
-/

namespace LineBasic

/-- A statement on the line with the given number closes no turn of a loop and jumps to larger
numbers only, behind conditions too. -/
def Statement.GoesForward (number : Nat) : Statement → Prop
  | .goto n => number < n
  | .cond _ body => body.GoesForward number
  | .next _ => False
  | .stop | .loop .. | .input .. | .assign .. | .print _ | .remark _ => True

/-! ## One statement -/

/-- Execution goes on to the next line, or to a number that is larger than the given one. -/
def Environment.IsAhead (number : Nat) (env : Environment) : Prop :=
  env.transfer = .none ∨ env.transfer = .jump ∧ number < env.counter

namespace Environment

open LineBasic.Action

theorem checkName_keeps_isAhead (number : Nat) (v : Ident) :
    Keeps (IsAhead number) (fun _ => True) (checkName v) := by
  unfold checkName
  split
  · exact .fail trivial
  · exact .pure _

theorem assign_keeps_isAhead (number : Nat) (v : Ident) (value : Value) :
    Keeps (IsAhead number) (fun _ => True) (Environment.assign v value) :=
  fun _ henv => ⟨henv, fun _ _ => trivial⟩

theorem openLoop_keeps_isAhead (number : Nat) (v : Ident) (start limit step : Float) (line : Nat) :
    Keeps (IsAhead number) (fun _ => True) (openLoop v start limit step line) := by
  unfold openLoop
  split
  · exact .fail trivial
  · refine (assign_keeps_isAhead number v _).bind fun _ => ?_
    exact fun _ henv => ⟨henv, fun _ _ => trivial⟩

end Environment

open LineBasic.Action Environment in
/-- Where a statement that goes forward leaves execution. -/
theorem Statement.GoesForward.execute_keeps_isAhead {κ : Type} [Console κ] {number : Nat}
    {st : Statement} (h : st.GoesForward number) :
    Keeps (fun m : Machine κ => m.environment.IsAhead number) (fun _ => True) st.execute := by
  apply Statement.execute_keeps (fun _ _ henv => henv) (fun _ _ => trivial) (fun _ => trivial)
  induction st with
  | stop => exact fun _ henv => henv
  | loop v start limit step line =>
    exact ⟨checkName_keeps_isAhead number v, fun a b c =>
      openLoop_keeps_isAhead number v a b c line⟩
  | goto n => exact fun _ _ => .inr ⟨rfl, h⟩
  | cond condition body ih => exact ih h
  | input prompt v => exact ⟨checkName_keeps_isAhead number v, assign_keeps_isAhead number v⟩
  | assign v e => exact ⟨checkName_keeps_isAhead number v, assign_keeps_isAhead number v⟩
  | next v => exact h.elim
  | print items => trivial
  | remark text => trivial

namespace Program

variable {κ : Type} [Console κ] {p : Program} {settings : Settings} {q r s : Run κ}
  {line line' : Entry Statement}

/-- Every line of a program goes forward only. -/
def GoesForward (p : Program) : Prop :=
  ∀ n st, p.get? n = some st → st.GoesForward n

/-! ## The order of lines -/

theorem lt_size_of_line? {i : Nat} (h : p.line? i = some line) : i < p.size :=
  (Array.getElem?_eq_some_iff.mp (line?_eq_some_iff.mp h).1).1

/-- Lines come in the order of their numbers. -/
theorem number_lt_number_iff {i j : Nat} (hi : p.line? i = some line)
    (hj : p.line? j = some line') : line.number < line'.number ↔ i < j := by
  rw [← getElem?_lines] at hi hj
  constructor
  · intro hlt
    by_contra hle
    rcases Nat.lt_or_eq_of_le (Nat.le_of_not_lt hle) with hlt' | rfl
    · exact Nat.lt_asymm hlt (p.lines.number_lt_of_lt hlt' hj hi)
    · rw [Option.some.inj (hi.symm.trans hj)] at hlt
      exact Nat.lt_irrefl _ hlt
  · exact fun hlt => p.lines.number_lt_of_lt hlt hi hj

/-! ## One step -/

/-- A run between two steps, at one of the lines or just behind them. -/
structure OnItsWay (p : Program) (r : Run κ) : Prop where
  transfer_eq : r.machine.environment.transfer = .none
  index_le : r.index ≤ p.size

omit [Console κ] in
theorem onItsWay_start (p : Program) (env : Environment) (console : κ) (interrupt : Bool) :
    p.OnItsWay (start env console interrupt) :=
  ⟨rfl, Nat.zero_le _⟩

theorem Executes.isAhead {m m' : Machine κ} {result : Except Error Unit}
    (h : p.Executes settings r line m) (hp : p.GoesForward) (hr : p.OnItsWay r)
    (hexecute : line.item.execute m = (result, m')) : m'.environment.IsAhead line.number := by
  have hforward := hp _ _ (get?_of_line? h.line_eq)
  have htraced := (traceLine_keeps (Environment.IsAhead line.number) settings line (r.entering line)
    (.inl hr.transfer_eq)).1
  rw [h.trace_eq] at htraced
  have hahead := (hforward.execute_keeps_isAhead m htraced).1
  rwa [hexecute] at hahead

/-- A run that goes on has come to a larger index. -/
theorem GoesForward.step (hp : p.GoesForward) (hr : p.OnItsWay r)
    (h : p.step settings r = .running s) : p.OnItsWay s ∧ r.index < s.index := by
  have hsteps := steps_step p settings r
  rw [h] at hsteps
  generalize hprogress : Progress.running s = progress at hsteps
  cases hsteps with
  | @followed line m m' hexecutes hexecute =>
    have hahead := hexecutes.isAhead hp hr hexecute
    have hfollows := follows_follow p line.number ⟨m', r.index, r.steps + 1⟩
    rw [← hprogress] at hfollows
    cases hfollows with
    | next => exact ⟨⟨rfl, lt_size_of_line? hexecutes.line_eq⟩, Nat.lt_succ_self _⟩
    | @jumped i _ ht hi =>
      obtain ⟨st, hline⟩ := indexOf?_eq_some_iff_line?.mp hi
      rcases hahead with hnone | ⟨-, hlt⟩
      · cases hnone.symm.trans ht
      · exact ⟨⟨rfl, (lt_size_of_line? hline).le⟩,
          (number_lt_number_iff hexecutes.line_eq hline).mp hlt⟩
    | looped _ ht =>
      rcases hahead with hnone | ⟨hjump, -⟩
      · cases hnone.symm.trans ht
      · cases hjump.symm.trans ht
  | _ => cases hprogress

/-- A run that comes to its end has executed no more statements than before, or the one on its
line. -/
theorem steps_of_halted {result : Except Error Unit} (h : p.step settings r = .halted result s) :
    s.steps = r.steps ∨ s.steps = r.steps + 1 ∧ r.index < p.size := by
  have hsteps := steps_step p settings r
  rw [h] at hsteps
  generalize hprogress : Progress.halted result s = progress at hsteps
  cases hsteps with
  | finished | limited | interrupted | untraced =>
    cases hprogress
    exact .inl rfl
  | failed hexecutes =>
    cases hprogress
    exact .inr ⟨rfl, lt_size_of_line? hexecutes.line_eq⟩
  | @followed line m m' hexecutes hexecute =>
    have hfollows := follows_follow p line.number ⟨m', r.index, r.steps + 1⟩
    rw [← hprogress] at hfollows
    cases hfollows with
    | ended | undefined | lost => exact .inr ⟨rfl, lt_size_of_line? hexecutes.line_eq⟩

/-! ## All steps -/

/-- In every step the index grows. -/
theorem GoesForward.reaches (hp : p.GoesForward) (hq : p.OnItsWay q) {count : Nat}
    (h : p.Reaches settings count q r) : p.OnItsWay r ∧ q.index + count ≤ r.index := by
  have hkept : p.OnItsWay r ∧ q.index + r.steps ≤ r.index + q.steps := by
    apply h.induct (I := fun t => p.OnItsWay t ∧ q.index + t.steps ≤ t.index + q.steps)
    · rintro t t' ⟨ht, hle⟩ hstep
      obtain ⟨ht', hlt⟩ := hp.step ht hstep
      have hsteps := steps_of_running hstep
      exact ⟨ht', by omega⟩
    · exact ⟨hq, Nat.le_refl _⟩
  have hsteps := h.steps_eq
  exact ⟨hkept.1, by omega⟩

section

variable (settings : Settings) (env : Environment) (console : κ) (interrupt : Bool)

theorem GoesForward.exists_haltsIn (hp : p.GoesForward) :
    ∃ result s, p.HaltsIn settings (p.size + 1) (start env console interrupt) result s := by
  cases h : p.advance settings (p.size + 1) (.running (start env console interrupt)) with
  | halted result s => exact ⟨result, s, h⟩
  | running s =>
    obtain ⟨hs, hle⟩ := hp.reaches (onItsWay_start p env console interrupt) h
    have hindex := hs.index_le
    omega

variable {settings env console interrupt}

/-- The line that is executed later has the larger number. -/
theorem GoesForward.number_lt (hp : p.GoesForward) {k k' : Nat} {q' : Run κ} {m m' : Machine κ}
    (hk : k < k') (hq : p.Reaches settings k (start env console interrupt) q)
    (h : p.Executes settings q line m)
    (hq' : p.Reaches settings k' (start env console interrupt) q')
    (h' : p.Executes settings q' line' m') : line.number < line'.number := by
  obtain ⟨more, rfl⟩ := Nat.exists_eq_add_of_lt hk
  have hbetween : p.Reaches settings (more + 1) q q' := by
    unfold Reaches at hq hq'
    rwa [Nat.add_assoc, advance_add, hq] at hq'
  have hway := (hp.reaches (onItsWay_start p env console interrupt) hq).1
  have hindex := (hp.reaches hway hbetween).2
  exact (number_lt_number_iff h.line_eq h'.line_eq).mpr (by omega)

end

/-- A run of a program that only goes forward comes to an end, having executed no more statements
than the program has lines. What it executes it executes in the order of the line numbers. Under a
limit that is not below the number of lines it comes to the same end, so the limit does not stop
it. -/
theorem forward_run_ends (hp : p.GoesForward) (settings : Settings) (env : Environment)
    (console : κ) (interrupt : Bool) :
    ∃ result s, p.HaltsWith settings.unlimited (start env console interrupt) result s ∧
      s.steps ≤ p.size ∧
      (∀ k k' q q' line line' m m', k < k' →
        p.Reaches settings.unlimited k (start env console interrupt) q →
          p.Executes settings.unlimited q line m →
        p.Reaches settings.unlimited k' (start env console interrupt) q' →
          p.Executes settings.unlimited q' line' m' →
        line.number < line'.number) ∧
      ∀ n, p.size ≤ n → p.HaltsWith (settings.limited n) (start env console interrupt) result s ∧
        ¬ StoppedByLimit result := by
  obtain ⟨result, s, hhalts⟩ := hp.exists_haltsIn settings.unlimited env console interrupt
  obtain ⟨count, q, hreach, hstep⟩ := hhalts.exists_step
  obtain ⟨hq, hindex⟩ := hp.reaches (onItsWay_start p env console interrupt) hreach
  have hsteps : q.steps = count := by rw [hreach.steps_eq, start, Nat.zero_add]
  have hle : count ≤ q.index := by simpa [start] using hindex
  refine ⟨result, s, ⟨_, hhalts⟩, ?_, ?_, ?_⟩
  · have hbound := hq.index_le
    rcases steps_of_halted hstep with heq | ⟨heq, hlt⟩ <;> omega
  · intro k k' q q' line line' m m' hk hq h hq' h'
    exact hp.number_lt hk hq h hq' h'
  · intro n hn
    have hlimited : p.Reaches (settings.limited n) count (start env console interrupt) q := by
      have hbound := hq.index_le
      have hcount : (start env console interrupt).steps + count ≤ n := by
        rw [start, Nat.zero_add]
        omega
      exact (advance_limited hcount).trans hreach
    -- At the limit all lines are behind the run.
    have hlast : p.step (settings.limited n) q = p.step settings.unlimited q := by
      cases hline : p.line? q.index with
      | none => rw [step_of_none hline, step_of_none hline]
      | some line =>
        have hlt := lt_size_of_line? hline
        exact step_limited (by omega)
    refine ⟨⟨count + 1, hlimited.haltsIn_iff.mpr (.of_step (hlast.trans hstep))⟩, ?_⟩
    exact not_stoppedByLimit_of_haltsIn hhalts

/-- Jumps over a loop that is never closed. -/
def skipsAhead : Program :=
  ofLines (((Numbered.empty.put 10 (.cond (.var ⟨"A"⟩) (.goto 30))).put 20
    (.loop ⟨"I"⟩ (.number 1) (.number 3) (.number 1) 20)).put 30 (.print [.var ⟨"I"⟩]))

theorem forward_run_ends_skipsAhead :
    skipsAhead.GoesForward ∧ ∃ result s, skipsAhead.HaltsWith { trace := true, maxSteps := some 3 }
      (start (.ofSeed 7) ({} : Transcript) false) result s ∧ s.steps ≤ 3 ∧
        ¬ StoppedByLimit result := by
  have hforward : skipsAhead.GoesForward := by
    intro n st hget
    simp only [skipsAhead, get?_ofLines, Numbered.get?_put, Numbered.get?_empty] at hget
    split at hget
    · cases hget
      trivial
    · split at hget
      · cases hget
        trivial
      · split at hget
        · rename_i hn
          cases hget
          rw [hn]
          exact (by decide : 10 < 30)
        · cases hget
  obtain ⟨result, s, -, hsteps, -, hlimit⟩ :=
    forward_run_ends hforward { trace := true } (.ofSeed 7) ({} : Transcript) false
  obtain ⟨hhalts, hresult⟩ := hlimit 3 (Nat.le_refl 3)
  exact ⟨hforward, result, s, hhalts, hsteps, hresult⟩

end Program

end LineBasic
