import LineBasic.Proofs.Number.Ordered
import LineBasic.Proofs.Number.RoundTrip
import LineBasic.Proofs.Run.LoopBack
import LineBasic.Proofs.Run.Overflow

/-!
# When a loop takes another turn

At the end of a turn the step is added to the value of the innermost loop. The rule is that the loop
continues as long as its value has not gone past the limit in the direction of the step
(`Frame.Continues`). What is tested is whether the value has gone past the limit, which comes to the
same for values that can be compared. A value or a limit that is not a number is past nothing, so
such a loop takes another turn as well, against the rule (`Statement.next_loopsBack_or_pops`,
`Statement.next_loopsBack_unordered`).
-/

namespace LineBasic

namespace Frame

variable {f : Frame}

/-- The loop with its next value. -/
def advanced (f : Frame) : Frame :=
  { f with current := f.current + f.step }

/-- The value of a loop has not gone past the limit in the direction of the step. -/
def Continues (f : Frame) : Prop :=
  0 < f.step ∧ f.current ≤ f.limit ∨ f.step < 0 ∧ f.limit ≤ f.current

/-- The value and the limit of a loop cannot be compared. -/
def IsUnordered (f : Frame) : Prop :=
  f.current.isNaN = true ∨ f.limit.isNaN = true

theorem continues_iff_of_pos (h : 0 < f.step) : f.Continues ↔ f.current ≤ f.limit := by
  have hneg := Number.lt_asymm h
  simp [Continues, h, hneg]

theorem continues_iff_of_neg (h : f.step < 0) : f.Continues ↔ f.limit ≤ f.current := by
  have hpos := Number.lt_asymm h
  simp [Continues, h, hpos]

/-- A loop is not finished if it continues by the rule, or if its value and its limit cannot be
compared. -/
theorem isFinished_eq_false_iff (hstep : (f.step == 0) = false)
    (hnan : f.step.isNaN = true → f.IsUnordered) :
    f.isFinished = false ↔ f.Continues ∨ f.IsUnordered := by
  rcases Number.pos_or_neg hstep with hpos | hneg | hstep
  · rw [isFinished, if_pos hpos, decide_eq_false_iff_not, gt_iff_lt, Number.not_lt_iff,
      continues_iff_of_pos hpos, IsUnordered, or_comm (b := f.current.isNaN = true)]
  · rw [isFinished, if_neg (Number.lt_asymm hneg), decide_eq_false_iff_not, Number.not_lt_iff,
      continues_iff_of_neg hneg, IsUnordered]
  · rw [isFinished, if_neg (Number.not_lt_of_isNaN (.inr hstep)), decide_eq_false_iff_not]
    exact iff_of_true (Number.not_lt_of_isNaN (hnan hstep)) (.inr (hnan hstep))

/-- A step that is not a number makes the next value one that is not a number either. -/
theorem isUnordered_advanced (h : f.advanced.step.isNaN = true) : f.advanced.IsUnordered :=
  .inl (Number.isNaN_add (.inr h))

end Frame

namespace Environment

variable {env : Environment} {f : Frame} {v : Option Ident}

theorem nextTurn_eq_turn (htop : env.frames.top? = some f) (hv : v = none ∨ v = some f.counter) :
    nextTurn v env = turn f env := by
  unfold nextTurn
  rw [htop]
  rcases hv with rfl | rfl
  · rfl
  · exact if_pos rfl

theorem pop_setTop (htop : env.frames.top? = some f) (g : Frame) :
    (env.frames.setTop g).pop = env.frames.pop := by
  obtain ⟨rest, hrest⟩ := Array.back?_eq_some_iff.mp htop
  simp [Stack.setTop, Stack.pop, hrest]

/-- A turn of a loop whose variable has a value. -/
theorem turn_of_mem (htop : env.frames.top? = some f)
    (hstored : f.counter.name.toUpper ∈ env.store.cells) :
    turn f env = (.ok (),
      let stored := { env with
        store :=
          env.store.insert f.counter.name.toUpper (.number (f.current + f.step)) (.inl hstored) }
      if f.advanced.isFinished then { stored with frames := env.frames.pop }
      else
        { stored with frames := env.frames.setTop f.advanced, counter := f.line, transfer :=
          .loop }) := by
  have hadvanced : { f with current := f.current + f.step } = f.advanced := rfl
  have haccepts : (env.mapFrames (·.setTop f.advanced)).store.Accepts
      f.advanced.counter.name.toUpper := .inl hstored
  rw [LoopHead.turn_eq hadvanced, assign_of_accepts haccepts]
  dsimp only
  split
  · rw [← pop_setTop htop f.advanced]
    rfl
  · rfl

end Environment

namespace Statement

open Machine Environment

section

variable {κ : Type} [Console κ] {m : Machine κ} {f : Frame} {v : Option Ident}

theorem execute_next (htop : m.environment.frames.top? = some f)
    (hv : v = none ∨ v = some f.counter) : (next v).execute m = onEnvironment (turn f) m := by
  show onEnvironment (nextTurn v) m = _
  simp only [onEnvironment, nextTurn_eq_turn htop hv]

/-- The end of a turn gives the variable of the innermost loop its next value. If the loop
continues, or if its value and its limit cannot be compared, it stays open with the new value and
execution goes back to its line. Otherwise the loop is taken from the stack, and execution goes on
where it is. -/
theorem next_loopsBack_or_pops (htop : m.environment.frames.top? = some f)
    (hstored : f.counter.name.toUpper ∈ m.environment.store.cells)
    (hv : v = none ∨ v = some f.counter) (hstep : (f.step == 0) = false) :
    (f.advanced.Continues ∨ f.advanced.IsUnordered →
      (next v).execute m = (.ok (), { m with environment := { m.environment with
        store :=
          m.environment.store.insert f.counter.name.toUpper (.number (f.current + f.step))
            (.inl hstored)
        frames := m.environment.frames.setTop f.advanced
        counter := f.line
        transfer := .loop } })) ∧
    (¬ (f.advanced.Continues ∨ f.advanced.IsUnordered) →
      (next v).execute m = (.ok (), { m with environment := { m.environment with
        store :=
          m.environment.store.insert f.counter.name.toUpper (.number (f.current + f.step))
            (.inl hstored)
        frames := m.environment.frames.pop } })) := by
  rw [← Frame.isFinished_eq_false_iff (f := f.advanced) hstep Frame.isUnordered_advanced,
    execute_next htop hv]
  simp only [onEnvironment, turn_of_mem htop hstored]
  constructor
  · intro hunfinished
    rw [if_neg (by simp [hunfinished])]
  · intro hfinished
    rw [if_pos (by simpa using hfinished)]

end

theorem next_loopsBack_or_pops_countdown :
    (⟨⟨"I"⟩, 0 + -1, -1, -1, 10⟩ : Frame).Continues ∧
      ∃ m, (next (some ⟨"I"⟩)).execute (Program.countingDown 7).machine = (.ok (), m) ∧
        m.environment.frames.top? = some ⟨⟨"I"⟩, 0 + -1, -1, -1, 10⟩ ∧
          m.environment.transfer = .loop := by
  have hcontinues : (⟨⟨"I"⟩, 0 + -1, -1, -1, 10⟩ : Frame).Continues := .inr (by decide +kernel)
  have hname : "I".toUpper = "I" := by with_unfolding_all rfl
  have hstored : "I".toUpper ∈ (Program.countingDown 7).machine.environment.store.cells := by
    rw [hname]
    exact Std.HashMap.mem_insert_self
  have hnext :=
    (next_loopsBack_or_pops (m := (Program.countingDown 7).machine) (f := ⟨⟨"I"⟩, 0, -1, -1, 10⟩)
    (v := some ⟨"I"⟩) rfl hstored (.inr rfl) (by decide +kernel)).1 (.inl hcontinues)
  exact ⟨hcontinues, _, hnext, rfl, rfl⟩

/-! ## A loop without end -/

/-- What the text `NaN` spells. -/
def notANumber : Float :=
  Number.ofMagnitude false (Number.infinityMagnitude + Number.leadingBit / 2)

/-- A loop from one up to what is not a number. -/
def toNotANumber : Statement :=
  .loop ⟨"I"⟩ (.number 1) (.call ⟨"VAL"⟩ [.text "NaN"]) (.number 1) 10

/-- What the loop puts on the stack. -/
def endless : Frame :=
  ⟨⟨"I"⟩, 1, notANumber, 1, 10⟩

/-- A new machine. -/
def idle : Machine Transcript :=
  ⟨.ofSeed 7, {}, false⟩

/-- The machine after the loop has been opened. -/
def waiting : Machine Transcript where
  environment :=
    { Environment.ofSeed 7 with
      store := Store.empty.insert "I" (.number 1) (Program.accepts_empty "I")
      frames := ⟨#[endless], Program.one_le_memoryLimit⟩ }
  console := {}
  interrupt := false

theorem evaluate_idle {e : Expr} {value : Value} (h : ∀ g, e.evaluate .empty g = (.ok value, g)) :
    Machine.evaluate e idle = (.ok value, idle) :=
  Machine.evaluate_of_ok (h _)

theorem evaluate_notANumber (g : Generator) :
    (Expr.call ⟨"VAL"⟩ [.text "NaN"]).evaluate .empty g = (.ok (.number notANumber), g) := by
  have htext : Number.ofText? (Text.trim "NaN".toList) = some notANumber := by decide +kernel
  have hargument : (Expr.text "NaN").evaluate .empty g = (.ok (.text "NaN"), g) := rfl
  rw [Expr.evaluate_call_singleton (f := ⟨"VAL"⟩) (b := .val) (by decide +kernel) hargument]
  show ((Value.text "NaN").toNumber.map Value.number, g) = _
  rw [Value.toNumber, htext]
  rfl

theorem openLoop_idle :
    openLoop ⟨"I"⟩ 1 notANumber 1 10 idle.environment = (.ok (), waiting.environment) := by
  have hstep : ((1 : Float) == 0) = false := by decide +kernel
  have hname : "I".toUpper = "I" := by with_unfolding_all rfl
  have haccepts : idle.environment.store.Accepts "I".toUpper := Program.accepts_empty _
  rw [openLoop, if_neg (by simp [hstep]), Action.bind_of_ok (assign_of_accepts haccepts)]
  simp only [hname]
  rfl

theorem execute_toNotANumber : toNotANumber.execute idle = (.ok (), waiting) := by
  have hname : onEnvironment (checkName ⟨"I"⟩) idle = (.ok (), idle) := rfl
  rw [toNotANumber, Statement.execute, Action.bind_of_ok (evaluate_idle fun g => rfl),
    Action.bind_of_ok (evaluate_idle evaluate_notANumber),
      Action.bind_of_ok (evaluate_idle fun g => rfl),
    Action.bind_of_ok hname]
  exact congrArg (fun outcome : _ × Environment =>
    (outcome.1, (⟨outcome.2, {}, false⟩ : Machine Transcript)))
    openLoop_idle

/-- The limit of a loop is not a number, and no value is at most that. Nevertheless the loop takes
another turn. -/
theorem next_loopsBack_unordered :
    toNotANumber.execute idle = (.ok (), waiting) ∧ waiting.environment.frames.top? = some endless ∧
      ¬ endless.advanced.Continues ∧
      ∃ m, (next none).execute waiting = (.ok (), m) ∧ m.environment.transfer = .loop ∧
        m.environment.frames.size = 1 := by
  have hnan : endless.advanced.limit.isNaN = true := by decide +kernel
  have hunfinished : endless.advanced.isFinished = false := by decide +kernel
  have hname : "I".toUpper = "I" := by with_unfolding_all rfl
  have hstored : "I".toUpper ∈ waiting.environment.store.cells := by
    rw [hname]
    exact Std.HashMap.mem_insert_self
  have htop : waiting.environment.frames.top? = some endless := rfl
  refine ⟨execute_toNotANumber, htop, ?_, ?_⟩
  · rintro (⟨-, hle⟩ | ⟨hneg, -⟩)
    · exact Number.not_le_of_isNaN (.inr hnan) hle
    · exact absurd hneg (by decide +kernel)
  · have hturn := turn_of_mem htop hstored
    rw [hunfinished, if_neg Bool.false_ne_true] at hturn
    rw [execute_next (m := waiting) (f := endless) rfl (.inl rfl)]
    simp only [onEnvironment, hturn]
    exact ⟨_, rfl, rfl, rfl⟩

end Statement

end LineBasic
