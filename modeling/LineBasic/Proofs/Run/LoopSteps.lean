import LineBasic.Proofs.Run.Step
import LineBasic.Proofs.Run.Structured

/-!
# Steps over the lines of a structured program

What one step of a run does at each kind of line that a structured program has, said with the data
of the machine on one side and the index and the open loops on the other: the lemmas `step_simple`,
`step_opening` and `step_ending` of `Program`, one for each way that the step can go.
`Program.Performs` puts steps together into a stretch of a run that does what an outcome of the
interpreter says.
-/

namespace LineBasic

namespace Stack

variable {α : Type} {overflow : String} {a b : α} {s t : Stack α}

theorem push_of_lt (overflow : String) (a : α) (h : s.size < memoryLimit) :
    ∃ t, push overflow a s = (.ok (), t) := by
  unfold size at h
  unfold push
  rw [dif_pos h]
  exact ⟨_, rfl⟩

theorem size_of_push (h : push overflow a s = (.ok (), t)) : t.size = s.size + 1 := by
  unfold push at h
  split at h
  · obtain rfl := (Prod.mk.inj h).2
    simp [size]
  · cases (Prod.mk.inj h).1

/-- Changing what was put on top is putting something else there. -/
theorem push_setTop (h : push overflow a s = (.ok (), t)) :
    push overflow b s = (.ok (), t.setTop b) := by
  unfold push at h ⊢
  split at h
  · rename_i hlt
    obtain rfl := (Prod.mk.inj h).2
    rw [dif_pos hlt]
    simp [setTop]
  · cases (Prod.mk.inj h).1

end Stack

namespace Program

/-- These lines of a program stand one after the other, the first at an index. -/
def Holds (p : Program) (i : Nat) : List (Entry Statement) → Prop
  | [] => True
  | line :: lines => p.line? i = some line ∧ p.Holds (i + 1) lines

theorem holds_append {p : Program} {i : Nat} {ls ms : List (Entry Statement)} :
    p.Holds i (ls ++ ms) ↔ p.Holds i ls ∧ p.Holds (i + ls.length) ms := by
  induction ls generalizing i with
  | nil => simp [Holds]
  | cons l ls ih =>
    rw [List.cons_append, Holds, Holds, ih, List.length_cons, and_assoc,
      show i + 1 + ls.length = i + (ls.length + 1) by omega]

theorem holds_of_drop {p : Program} {i : Nat} {ls : List (Entry Statement)}
    (h : p.lines.entries.toList.drop i = ls) : p.Holds i ls := by
  induction ls generalizing i with
  | nil => trivial
  | cons l ls ih =>
    constructor
    · have hl : (p.lines.entries.toList.drop i)[0]? = some l := by rw [h]; rfl
      rw [List.getElem?_drop, Nat.add_zero, Array.getElem?_toList, getElem?_lines] at hl
      exact hl
    · apply ih
      rw [← List.drop_drop, h]
      rfl

/-- A line is found again by its number. -/
theorem indexOf?_of_line? {p : Program} {i : Nat} {line : Entry Statement}
    (h : p.line? i = some line) : p.indexOf? line.number = some i :=
  indexOf?_eq_some_iff_line?.mpr ⟨line.item, h⟩

end Program

/-- What the stack of open loops holds for a loop whose counter has come to a value. -/
def LoopHead.frame (head : LoopHead) (values : LoopValues) (current : Float) : Frame :=
  ⟨head.counter, current, values.limit, values.step, head.number⟩

namespace LoopHead

open Machine Environment

variable {κ : Type} (head : LoopHead)

theorem enter_commutes (c : Control) (a b d : Value) :
    (head.enter a b d : Action (Machine κ) LoopValues).Commutes (Machine.withControl c) := by
  unfold enter
  split
  · split
    · exact .fail _
    · exact (onEnvironment_commutes c (assign_commutes c _ _)).bind fun _ => .pure _
  · exact .fail _

theorem begin_commutes (c : Control) :
    (head.begin : Action (Machine κ) LoopValues).Commutes (Machine.withControl c) := by
  refine (evaluate_commutes c head.start).bind fun _ => ?_
  refine (evaluate_commutes c head.limit).bind fun _ => ?_
  refine (evaluate_commutes c head.step).bind fun _ => ?_
  refine (onEnvironment_commutes c (checkName_commutes c head.counter)).bind fun _ => ?_
  exact head.enter_commutes c _ _ _

theorem executeLoop_eq_enter (a b d : Value) :
    (Statement.executeLoop head.counter head.number a b d : Action (Machine κ) Unit) =
      head.enter a b d >>= fun values =>
        onEnvironment (pushFrame (head.frame values values.start)) := by
  cases a with
  | text => rfl
  | number start =>
    cases b with
    | text => rfl
    | number limit =>
      cases d with
      | text => rfl
      | number step =>
        unfold Statement.executeLoop enter openLoop
        dsimp only
        split
        · rfl
        · funext m
          simp only [Action.bind_apply, onEnvironment]
          rcases assign head.counter (.number start) m.environment with ⟨_ | _, env⟩ <;> rfl

/-- The line that opens a loop begins it and puts it on the stack. -/
theorem execute_opening [Console κ] :
    (head.opening.execute : Action (Machine κ) Unit) =
      head.begin >>= fun values => onEnvironment (pushFrame (head.frame values values.start)) := by
  unfold begin
  simp only [Action.bind_assoc, ← head.executeLoop_eq_enter]
  rfl

theorem turn_eq {frame next : Frame}
    (h : { frame with current := frame.current + frame.step } = next) (env : Environment) :
    turn frame env =
      match assign next.counter (.number next.current) (env.mapFrames (·.setTop next)) with
      | (.error e, env) => (.error e, env)
      | (.ok _, env) =>
        (.ok (), if next.isFinished then env.mapFrames Stack.pop else env.loopBack next.line) := by
  subst h
  rfl

/-- A turn gives the variable the next value. Then the loop goes from the stack, or execution is
sent back with the new value on the stack. -/
theorem turn_frame {values : LoopValues} {current : Float} {frames inner : Stack Frame}
    (number : Nat)
    (hpush : Stack.push overflow (head.frame values current) frames = (.ok (), inner))
    (env : Environment) :
    turn (head.frame values current) (env.withControl (.resting number inner)) =
      match assign head.counter (.number (current + values.step)) env with
      | (.error e, env) =>
        (.error e,
          env.withControl
          (.resting number (inner.setTop (head.frame values (current + values.step)))))
      | (.ok _, env) =>
        (.ok (),
          env.withControl (if values.isPassed (current + values.step) then .resting number frames
          else
            ⟨head.number, inner.setTop (head.frame values (current + values.step)), .loop,
              false⟩)) := by
  have hframe : { head.frame values current with current := current + values.step } =
      head.frame values (current + values.step) := rfl
  rw [turn_eq hframe]
  generalize current + values.step = next
  have hpop := Stack.pop_of_push (Stack.push_setTop hpush (b := head.frame values next))
  have hassign :=
    assign_commutes (.resting number (inner.setTop (head.frame values next))) head.counter
    (.number next) env
  change (match assign head.counter (.number next)
    (env.withControl (.resting number (inner.setTop (head.frame values next)))) with
    | (.error e, env) => (Except.error e, env)
    | (.ok _, env) =>
      (.ok (),
        if values.isPassed next then env.mapFrames Stack.pop else env.loopBack head.number)) = _
  rw [hassign]
  rcases assign head.counter (.number next) env with ⟨_ | _, env⟩
  · rfl
  · dsimp only
    split
    · rw [← hpop]
      rfl
    · rfl

/-- The line that closes a loop makes a turn of it. -/
theorem execute_ending [Console κ] {values : LoopValues} {current : Float}
    {frames inner : Stack Frame}
    (hpush : Stack.push overflow (head.frame values current) frames = (.ok (), inner))
    (m : Machine κ) :
    head.ending.execute (m.withControl (.resting head.closing inner)) =
      match onEnvironment (assign head.counter (.number (current + values.step))) m with
      | (.error e, m) =>
        (.error e,
          m.withControl
          (.resting head.closing (inner.setTop (head.frame values (current + values.step)))))
      | (.ok _, m) =>
        (.ok (),
          m.withControl
          (if values.isPassed (current + values.step) then .resting head.closing frames
          else
            ⟨head.number, inner.setTop (head.frame values (current + values.step)), .loop,
              false⟩)) := by
  have htop := Stack.top?_of_push hpush
  have hturn : nextTurn (if head.named then some head.counter else none)
      (m.environment.withControl (.resting head.closing inner)) =
      turn (head.frame values current)
        (m.environment.withControl (.resting head.closing inner)) := by
    unfold nextTurn
    rw [show (m.environment.withControl (.resting head.closing inner)).frames.top? = _ from htop]
    cases head.named with
    | false => rfl
    | true => exact if_pos rfl
  unfold ending Statement.execute onEnvironment Machine.withControl
  dsimp only
  rw [hturn, head.turn_frame head.closing hpush]
  rcases assign head.counter (.number (current + values.step)) m.environment with
    ⟨_ | _, env⟩ <;> rfl

end LoopHead

namespace Program

variable {κ : Type} {p : Program} {i steps counter : Nat} {frames : Stack Frame} {m m' : Machine κ}

/-- A run at an index, between two statements. -/
def runAt (frames : Stack Frame) (i : Nat) (m : Machine κ) (counter steps : Nat) : Run κ :=
  ⟨m.withControl (.resting counter frames), i, steps⟩

/-- A statement that leaves control at rest is followed by the next line. -/
theorem follow_resting (number counter : Nat) :
    p.follow number ⟨m.withControl (.resting counter frames), i, steps⟩ =
      .running (runAt frames (i + 1) m counter steps) := rfl

/-- A loop that goes on comes back behind the line that opened it. -/
theorem follow_loop {number j : Nat} {head : LoopHead}
    (h : p.line? j = some ⟨head.number, head.opening⟩) :
    p.follow number ⟨m.withControl ⟨head.number, frames, .loop, false⟩, i, steps⟩ =
      .running (runAt frames (j + 1) m head.number steps) := by
  have hindex : p.indexOf? head.number = some j := indexOf?_of_line? h
  have hentry : p.loopEntry j = j + 1 := by
    unfold loopEntry
    rw [h]
    rfl
  rw [(Follows.looped rfl rfl hindex).follow_eq, hentry]
  rfl

variable [Console κ]

/-- A step executes its line and goes on as the statement left it. -/
theorem step_runAt {line : Entry Statement} (h : p.line? i = some line) :
    p.step .plain (runAt frames i m counter steps) =
      match line.item.execute (m.withControl (.resting line.number frames)) with
      | (.error e, m) => .halted (.error (e.inLine line.number)) ⟨m, i, steps + 1⟩
      | (.ok _, m) => p.follow line.number ⟨m, i, steps + 1⟩ :=
  step_plain h

/-- A line with a simple statement that fails. -/
theorem step_simple_error {number : Nat} {statement : Statement} {e : Error}
    (h : p.line? i = some ⟨number, statement⟩) (hs : statement.isSimple = true)
    (hexec : statement.execute m = (.error e, m')) :
    p.step .plain (runAt frames i m counter steps) =
      .halted (.error (e.inLine number)) (runAt frames i m' number (steps + 1)) := by
  rw [step_runAt h, statement.execute_commutes _ hs, hexec]
  rfl

/-- A line with a simple statement. -/
theorem step_simple_ok {number : Nat} {statement : Statement}
    (h : p.line? i = some ⟨number, statement⟩) (hs : statement.isSimple = true)
    (hexec : statement.execute m = (.ok (), m')) :
    p.step .plain (runAt frames i m counter steps) =
      .running (runAt frames (i + 1) m' number (steps + 1)) := by
  rw [step_runAt h, statement.execute_commutes _ hs, hexec]
  rfl

/-- A line that opens a loop, with an error. -/
theorem step_opening_error {head : LoopHead} {e : Error}
    (h : p.line? i = some ⟨head.number, head.opening⟩) (hbegin : head.begin m = (.error e, m')) :
    p.step .plain (runAt frames i m counter steps) =
      .halted (.error (e.inLine head.number)) (runAt frames i m' head.number (steps + 1)) := by
  rw [step_runAt h, head.execute_opening, Action.bind_apply, head.begin_commutes, hbegin]
  rfl

/-- A line that opens a loop. -/
theorem step_opening_ok {head : LoopHead} {values : LoopValues} {inner : Stack Frame}
    (h : p.line? i = some ⟨head.number, head.opening⟩) (hbegin : head.begin m = (.ok values, m'))
      (hpush : Stack.push Environment.loopOverflow (head.frame values values.start) frames =
      (.ok (), inner)) :
    p.step .plain (runAt frames i m counter steps) =
      .running (runAt inner (i + 1) m' head.number (steps + 1)) := by
  have hexec : head.opening.execute (m.withControl (.resting head.number frames)) =
      (.ok (), m'.withControl (.resting head.number inner)) := by
    rw [head.execute_opening, Action.bind_apply, head.begin_commutes, hbegin]
    unfold Machine.onEnvironment Environment.pushFrame Machine.withControl Environment.withControl
      Control.resting
    dsimp only
    rw [hpush]
  rw [step_runAt h]
  dsimp only
  rw [hexec]
  rfl

section ending

variable {head : LoopHead} {values : LoopValues} {current : Float} {inner : Stack Frame}

/-- A line that closes a loop whose variable cannot be stored. -/
theorem step_ending_error {e : Error} (h : p.line? i = some ⟨head.closing, head.ending⟩)
    (hpush : Stack.push Environment.loopOverflow (head.frame values current) frames =
    (.ok (), inner))
      (hassign : Machine.onEnvironment
      (Environment.assign head.counter (.number (current + values.step))) m = (.error e, m')) :
    p.step .plain (runAt inner i m counter steps) = .halted (.error (e.inLine head.closing))
      (runAt (inner.setTop (head.frame values (current + values.step))) i m' head.closing
        (steps + 1)) := by
  rw [step_runAt h]
  dsimp only
  rw [head.execute_ending hpush, hassign]
  rfl

/-- A line that closes a loop which has passed its limit. -/
theorem step_ending_passed (h : p.line? i = some ⟨head.closing, head.ending⟩)
    (hpush : Stack.push Environment.loopOverflow (head.frame values current) frames =
    (.ok (), inner))
      (hassign : Machine.onEnvironment
      (Environment.assign head.counter (.number (current + values.step))) m = (.ok (), m'))
    (hpassed : values.isPassed (current + values.step) = true) :
    p.step .plain (runAt inner i m counter steps) =
      .running (runAt frames (i + 1) m' head.closing (steps + 1)) := by
  rw [step_runAt h]
  dsimp only
  rw [head.execute_ending hpush, hassign]
  dsimp only
  rw [if_pos hpassed]
  exact follow_resting head.closing head.closing

/-- A line that closes a loop which goes on: the run comes back behind the opening line, with the
next value on the stack. -/
theorem step_ending_back {j : Nat} (h : p.line? i = some ⟨head.closing, head.ending⟩)
    (hj : p.line? j = some ⟨head.number, head.opening⟩)
      (hpush : Stack.push Environment.loopOverflow (head.frame values current) frames =
      (.ok (), inner)) (hassign : Machine.onEnvironment
      (Environment.assign head.counter (.number (current + values.step))) m = (.ok (), m'))
    (hpassed : values.isPassed (current + values.step) = false) :
    p.step .plain (runAt inner i m counter steps) = .running
      (runAt (inner.setTop (head.frame values (current + values.step))) (j + 1) m' head.number
        (steps + 1)) := by
  rw [step_runAt h]
  dsimp only
  rw [head.execute_ending hpush, hassign]
  dsimp only
  rw [if_neg (by rw [hpassed]; exact Bool.false_ne_true)]
  exact follow_loop hj

end ending

/-- A run gets from an index to another, whatever line it came from. -/
def Gets (p : Program) (frames : Stack Frame) (i : Nat) (m : Machine κ) (frames' : Stack Frame)
    (j : Nat) (m' : Machine κ) : Prop :=
  ∀ counter steps, ∃ count counter' steps',
    p.Reaches .plain count (runAt frames i m counter steps) (runAt frames' j m' counter' steps')

/-- A run from an index comes to its end with an error. -/
def Fails (p : Program) (frames : Stack Frame) (i : Nat) (m : Machine κ) (e : Error)
    (m' : Machine κ) : Prop :=
  ∀ counter steps, ∃ r, p.HaltsWith .plain (runAt frames i m counter steps) (.error e) r ∧
    r.machine.SameData m'

/-- A run from an index does what an outcome says, and is at another index if that is a success. -/
def Performs (p : Program) (frames : Stack Frame) (i : Nat) (m : Machine κ)
    (frames' : Stack Frame) (j : Nat) :
    Outcome κ → Prop
  | (.ok _, m') => p.Gets frames i m frames' j m'
  | (.error e, m') => p.Fails frames i m e m'

variable {frames' frames'' : Stack Frame} {j k : Nat} {m'' : Machine κ}

theorem Gets.refl : p.Gets frames i m frames i m :=
  fun counter steps => ⟨0, counter, steps, .refl _⟩

theorem Gets.trans (h : p.Gets frames i m frames' j m') (h' : p.Gets frames' j m' frames'' k m'') :
    p.Gets frames i m frames'' k m'' := by
  intro counter steps
  obtain ⟨count, counter', steps', hr⟩ := h counter steps
  obtain ⟨more, counter'', steps'', hr'⟩ := h' counter' steps'
  exact ⟨count + more, counter'', steps'', hr.trans hr'⟩

theorem Gets.fails {e : Error} (h : p.Gets frames i m frames' j m')
    (h' : p.Fails frames' j m' e m'') : p.Fails frames i m e m'' := by
  intro counter steps
  obtain ⟨count, counter', steps', hr⟩ := h counter steps
  obtain ⟨r, ⟨more, hh⟩, hsame⟩ := h' counter' steps'
  exact ⟨r, ⟨count + more, hr.haltsIn_iff.mpr hh⟩, hsame⟩

/-- What is performed after a stretch of a run is performed by both together. -/
theorem Gets.performs {outcome : Outcome κ} (h : p.Gets frames i m frames' j m')
    (h' : p.Performs frames' j m' frames'' k outcome) :
    p.Performs frames i m frames'' k outcome := by
  obtain ⟨_ | _, m''⟩ := outcome
  · exact h.fails h'
  · exact h.trans h'

theorem Gets.of_step {number : Nat}
    (h : ∀ counter steps, p.step .plain (runAt frames i m counter steps) =
      .running (runAt frames' j m' number (steps + 1))) : p.Gets frames i m frames' j m' :=
  fun counter steps => ⟨1, number, steps + 1, .of_step (h counter steps)⟩

theorem Fails.of_step {e : Error} {number : Nat}
    (h : ∀ counter steps, p.step .plain (runAt frames i m counter steps) =
      .halted (.error e) (runAt frames' j m' number (steps + 1))) : p.Fails frames i m e m' :=
  fun counter steps => ⟨_, ⟨1, .of_step (h counter steps)⟩, Machine.sameData_withControl _ m'⟩

end Program

end LineBasic
