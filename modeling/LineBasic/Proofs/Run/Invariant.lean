import LineBasic.Console.Transcript
import LineBasic.Proofs.Program.WellFormed
import LineBasic.Proofs.Run.Step
import Mathlib.Data.List.Infix

/-!
# What holds between two steps of a run

An open loop of a run was opened by a line of the program, has a step other than zero, and its
variable has a value (`Frame.IsSound`). Every statement of a program that was read from source text
keeps this (`Program.execute_keeps_sound`), so it holds at the beginning of every step of a run
(`Program.between_of_reaches`). That is why such a run never loses the line of a loop, and why
closing a turn of a loop, which gives a value to a variable that has one, never lacks room
(`Program.reachable_between`).
-/

namespace LineBasic

namespace Statement

/-- A statement opens a loop on a variable, perhaps behind conditions. -/
def Opens (v : Ident) : Statement → Prop
  | .loop w _ _ _ _ => w = v
  | .cond _ body => body.Opens v
  | _ => False

/-- Whether a statement closes a turn of a loop, perhaps behind conditions. -/
def closesTurn : Statement → Bool
  | .next _ => true
  | .cond _ body => body.closesTurn
  | _ => false

end Statement

namespace Store

variable {s : Store} {name other : String} {value : Value}

/-- Names that have a value keep having one. -/
theorem mem_store_of_mem (h : other ∈ s.cells) : other ∈ (store name value s).2.cells := by
  unfold store
  split
  · exact Std.HashMap.mem_insert.mpr (.inr h)
  · exact h

theorem mem_store_of_ok (h : (store name value s).1 = .ok ()) :
    name ∈ (store name value s).2.cells := by
  unfold store at h ⊢
  split
  · exact Std.HashMap.mem_insert_self
  · rename_i hrefused
    rw [dif_neg hrefused] at h
    cases h

/-- There is always room for another value of a name that has one. -/
theorem store_ok_of_mem (h : name ∈ s.cells) : (store name value s).1 = .ok () := by
  unfold store
  rw [dif_pos (.inl h)]

end Store

/-- An open loop was opened by a line of the program, moves, and its variable has a value. -/
structure Frame.IsSound (p : Program) (store : Store) (f : Frame) : Prop where
  opened : ∃ st, p.get? f.line = some st ∧ st.Opens f.counter
  moves : (f.step == 0) = false
  defined : f.counter.name.toUpper ∈ store.cells

/-- The open loops are sound, and execution goes back only to a line of the program. -/
structure Environment.IsSound (p : Program) (env : Environment) : Prop where
  frames : ∀ f ∈ env.frames.items, f.IsSound p env.store
  target : env.transfer = .loop → env.counter ∈ p.lineNumbers

/-- An error is not that of an impossible name, and closing a turn of a loop does not lack room. -/
def Error.Expected (closing : Bool) (e : Error) : Prop :=
  e.code ≠ .invalidVariable ∧ (e.code = .outOfMemory → closing = false)

/-! ## One statement -/

theorem Frame.IsSound.store {p : Program} {s : Store} {f : Frame} (h : f.IsSound p s)
    (name : String) (value : Value) : f.IsSound p (Store.store name value s).2 :=
  ⟨h.opened, h.moves, Store.mem_store_of_mem h.defined⟩

namespace Stack

variable {α : Type} {s : Stack α} {a b : α}

theorem mem_of_mem_pop (h : b ∈ s.pop.items) : b ∈ s.items := by
  rw [pop, ← Array.mem_toList_iff, Array.toList_pop] at h
  exact Array.mem_toList_iff.mp (List.mem_of_mem_dropLast h)

theorem mem_of_mem_setTop (h : b ∈ (s.setTop a).items) : b = a ∨ b ∈ s.items := by
  unfold setTop at h
  split at h
  · rcases Array.mem_push.mp h with h | h
    · exact .inr (mem_of_mem_pop h)
    · exact .inl h
  · exact .inr h

end Stack

namespace Environment

variable {p : Program} {env : Environment} {v : Ident} {value : Value} {frame : Frame}
  {closing : Bool}

theorem checkName_keeps {I : Environment → Prop} {F : Error → Prop} (hv : v.IsVariable) :
    Action.Keeps I F (checkName v) := by
  unfold checkName
  rw [if_neg (by simp [hv.1, hv.2])]
  exact .pure _

theorem IsSound.assign (h : env.IsSound p) (v : Ident) (value : Value) :
    (Environment.assign v value env).2.IsSound p :=
  ⟨fun f hf => (h.frames f hf).store v.name.toUpper value, h.target⟩

theorem assign_keeps_sound (v : Ident) (value : Value) :
    Action.Keeps (IsSound p) (Error.Expected false) (Environment.assign v value) := by
  intro env henv
  refine ⟨henv.assign v value, fun e he => ?_⟩
  simp [Error.Expected, (assign_error he).code]

/-- A sound loop that is opened leaves the open loops sound. -/
theorem IsSound.pushFrame (h : env.IsSound p) (hframe : frame.IsSound p env.store) :
    (Environment.pushFrame frame env).2.IsSound p := by
  unfold Environment.pushFrame Stack.push
  dsimp only
  split
  · refine ⟨fun f hf => ?_, h.target⟩
    rcases Array.mem_push.mp hf with hf | rfl
    · exact h.frames f hf
    · exact hframe
  · exact h

theorem openLoop_keeps_sound {start limit step : Float} {line : Nat}
    (hopened : ∃ st, p.get? line = some st ∧ st.Opens v) :
    Action.Keeps (IsSound p) (Error.Expected false) (openLoop v start limit step line) := by
  intro env henv
  constructor
  · unfold openLoop
    split
    · exact henv
    · rename_i hstep
      have hassigned := henv.assign v (.number start)
      have hdefined : (Environment.assign v (.number start) env).1 = .ok () →
          v.name.toUpper ∈ (Environment.assign v (.number start) env).2.store.cells :=
            Store.mem_store_of_ok
      rw [Action.bind_apply]
      generalize Environment.assign v (.number start) env = outcome at hassigned hdefined ⊢
      rcases outcome with ⟨e | _, env'⟩
      · exact hassigned
      · exact hassigned.pushFrame ⟨hopened, by simpa using hstep, hdefined rfl⟩
  · intro e he
    rcases (openLoop_error he).code with h | h <;> simp [Error.Expected, h]

theorem IsSound.mapFrames {f : Stack Frame → Stack Frame} (h : env.IsSound p)
    (hf : ∀ frame ∈ (f env.frames).items, frame.IsSound p env.store) :
    (env.mapFrames f).IsSound p :=
  ⟨hf, h.target⟩

/-- The variable of a sound loop has a value, so it can always be given its next one. -/
theorem turn_keeps_sound (h : env.IsSound p) (htop : env.frames.top? = some frame) :
    (turn frame env).1 = .ok () ∧ (turn frame env).2.IsSound p := by
  have hframe : frame.IsSound p env.store := h.frames frame (Array.mem_of_back? htop)
  unfold turn
  generalize hmoved : ({ frame with current := frame.current + frame.step } : Frame) = moved
  have hsound : moved.IsSound p env.store := by
    subst hmoved
    exact ⟨hframe.opened, hframe.moves, hframe.defined⟩
  have hset : (env.mapFrames (·.setTop moved)).IsSound p := by
    refine h.mapFrames fun f hf => ?_
    rcases Stack.mem_of_mem_setTop hf with rfl | hf
    · exact hsound
    · exact h.frames f hf
  have hok :
      (Environment.assign moved.counter (.number moved.current)
      (env.mapFrames (·.setTop moved))).1 = .ok () :=
    Store.store_ok_of_mem hsound.defined
  have hassigned := hset.assign moved.counter (.number moved.current)
  dsimp only
  generalize Environment.assign moved.counter (.number moved.current)
    (env.mapFrames (·.setTop moved)) = outcome at hok hassigned ⊢
  obtain ⟨result, env'⟩ := outcome
  obtain rfl : result = .ok () := hok
  refine ⟨rfl, ?_⟩
  dsimp only
  split
  · exact hassigned.mapFrames fun f hf => hassigned.frames f (Stack.mem_of_mem_pop hf)
  · refine ⟨hassigned.frames, fun _ => Program.mem_lineNumbers_iff.mpr ?_⟩
    obtain ⟨st, hst, -⟩ := hsound.opened
    exact ⟨st, hst⟩

theorem nextTurn_keeps_sound (counter : Option Ident) :
    Action.Keeps (IsSound p) (Error.Expected true) (nextTurn counter) := by
  intro env henv
  have hturn : ∀ frame, env.frames.top? = some frame →
      (turn frame env).2.IsSound p ∧ ∀ e, (turn frame env).1 = .error e → e.Expected true := by
    intro frame htop
    obtain ⟨hok, hsound⟩ := turn_keeps_sound henv htop
    exact ⟨hsound, fun e he => nomatch hok.symm.trans he⟩
  have hrefused : ∀ {e e' : Error}, e'.code = .nextWithoutFor →
      (.error e' : Except Error Unit) = .error e →
      e.Expected true := by
    rintro e e' hcode he
    obtain rfl := Except.error.inj he
    simp [Error.Expected, hcode]
  unfold nextTurn
  split
  · exact ⟨henv, fun e => hrefused rfl⟩
  · rename_i frame htop
    split
    · exact hturn frame htop
    · split
      · exact hturn frame htop
      · exact ⟨henv, fun e => hrefused rfl⟩

end Environment

namespace Program

variable {κ : Type} [Console κ] {p : Program} {settings : Settings} {r s : Run κ}

/-- The statement of a line of a well-formed program keeps the environment sound. -/
theorem execute_keeps_sound {number : Nat} {st : Statement} (hst : st.WellFormed number)
    (hopens : ∀ v, st.Opens v → ∃ top, p.get? number = some top ∧ top.Opens v) :
    Action.Keeps (fun m : Machine κ =>
      m.environment.IsSound p) (Error.Expected st.closesTurn) st.execute := by
  apply Statement.execute_keeps
  · intro env g h
    exact ⟨h.frames, h.target⟩
  · intro e he
    constructor
    · intro hcode
      simpa [hcode, ErrorCode.OfValues] using he.code
    · intro hcode
      simpa [hcode, ErrorCode.OfValues] using he.code
  · intro fault
    rcases fault.bare_toError.code with h | h <;> simp [Error.Expected, h]
  · induction st with
    | stop =>
      intro env h
      exact ⟨h.frames, h.target⟩
    | loop v start limit step line =>
      obtain ⟨hv, rfl⟩ := hst
      exact ⟨Environment.checkName_keeps hv, fun _ _ _ =>
        Environment.openLoop_keeps_sound (hopens v rfl)⟩
    | goto n =>
      intro env h
      exact ⟨h.frames, nofun⟩
    | cond condition body ih => exact ih hst hopens
    | input prompt v => exact ⟨Environment.checkName_keeps hst, Environment.assign_keeps_sound v⟩
    | assign v e => exact ⟨Environment.checkName_keeps hst, Environment.assign_keeps_sound v⟩
    | next v => exact Environment.nextTurn_keeps_sound v
    | print items => trivial
    | remark text => trivial

/-! ## One step -/

/-- What holds of the environment between two steps of a run. -/
structure Between (p : Program) (env : Environment) : Prop where
  transfer_eq : env.transfer = .none
  ended_eq : env.ended = false
  frames_le : env.frames.size ≤ 65535
  store_le : env.store.size ≤ 65535
  frames : ∀ f ∈ env.frames.items, f.IsSound p env.store

theorem between_of_isSound {env : Environment} (h : env.IsSound p) (hended : env.ended = false) :
    p.Between { env with transfer := .none } where
  transfer_eq := rfl
  ended_eq := hended
  frames_le := env.frames.size_le
  store_le := env.store.size_le
  frames := h.frames

section

variable {line : Entry Statement} {m m' : Machine κ}

/-- A statement that is executed finds a sound environment. -/
theorem Executes.isSound (h : p.Executes settings r line m) (hr : p.Between r.machine.environment) :
    m.environment.IsSound p := by
  have hentering : (r.entering line).environment.IsSound p := by
    refine ⟨hr.frames, fun hloop => ?_⟩
    cases hr.transfer_eq.symm.trans hloop
  have htraced := (traceLine_keeps (fun env => env.IsSound p) settings line _ hentering).1
  rwa [h.trace_eq] at htraced

theorem Executes.keeps (h : p.Executes settings r line m) (hp : p.WellFormed) :
    Action.Keeps (fun m : Machine κ =>
      m.environment.IsSound p) (Error.Expected line.item.closesTurn) line.item.execute := by
  have hget := get?_of_line? h.line_eq
  exact execute_keeps_sound (hp _ _ hget) fun v hv => ⟨line.item, hget, hv⟩

theorem Executes.isSound_execute (h : p.Executes settings r line m) (hp : p.WellFormed)
    (hr : p.Between r.machine.environment) (hexecute : line.item.execute m = (.ok (), m')) :
    m'.environment.IsSound p := by
  have hkept := (h.keeps hp m (h.isSound hr)).1
  rwa [hexecute] at hkept

end

/-- A run that goes on is between two steps again. -/
theorem Between.step (hp : p.WellFormed) (hr : p.Between r.machine.environment)
    (h : p.step settings r = .running s) : p.Between s.machine.environment := by
  have hsteps := steps_step p settings r
  rw [h] at hsteps
  generalize hprogress : Progress.running s = progress at hsteps
  cases hsteps with
  | @followed line m m' hexecutes hexecute =>
    have hsound := hexecutes.isSound_execute hp hr hexecute
    have hfollows := follows_follow p line.number ⟨m', r.index, r.steps + 1⟩
    rw [← hprogress] at hfollows
    cases hfollows with
    | next hended => exact between_of_isSound hsound hended
    | jumped hended => exact between_of_isSound hsound hended
    | looped hended => exact between_of_isSound hsound hended
  | _ => cases hprogress

/-- A step ends a run without an error only past the last line or by the end of the program: the
line of a loop to which execution goes back is there. -/
theorem Between.of_halted_ok (hp : p.WellFormed) (hr : p.Between r.machine.environment)
    (h : p.step settings r = .halted (.ok ()) s) :
    p.line? s.index = none ∨ s.machine.environment.ended = true := by
  have hsteps := steps_step p settings r
  rw [h] at hsteps
  generalize hprogress : Progress.halted (.ok ()) s = progress at hsteps
  cases hsteps with
  | finished hline =>
    cases hprogress
    exact .inl hline
  | @followed line m m' hexecutes hexecute =>
    have hsound := hexecutes.isSound_execute hp hr hexecute
    have hfollows := follows_follow p line.number ⟨m', r.index, r.steps + 1⟩
    rw [← hprogress] at hfollows
    cases hfollows with
    | ended hended => exact .inr hended
    | lost _ ht hi =>
      have hsome : (p.indexOf? m'.environment.counter).isSome = true :=
        isSome_indexOf?_iff.mpr (hsound.target ht)
      rw [hi] at hsome
      cases hsome
  | limited | interrupted | untraced | failed => cases hprogress

/-- A step fails only with an error that is expected of the statement. -/
theorem Between.of_halted_error (hp : p.WellFormed) (hr : p.Between r.machine.environment)
    {e : Error} (h : p.step settings r = .halted (.error e) s) :
    ∃ line, p.line? r.index = some line ∧ e.Expected line.item.closesTurn := by
  have hsteps := steps_step p settings r
  rw [h] at hsteps
  generalize hprogress : Progress.halted (.error e) s = progress at hsteps
  cases hsteps with
  | finished => cases hprogress
  | limited hline =>
    cases hprogress
    exact ⟨_, hline, by simp [Error.Expected, limitError, Error.because]⟩
  | interrupted hline =>
    cases hprogress
    exact ⟨_, hline, by simp [Error.Expected, Error.inLine]⟩
  | untraced hline _ _ htrace =>
    cases hprogress
    refine ⟨_, hline, ?_⟩
    rcases (traceLine_error htrace).code with hcode | hcode <;> simp [Error.Expected, hcode]
  | @failed line e' m m' hexecutes hexecute =>
    cases hprogress
    exact ⟨line, hexecutes.line_eq,
      (hexecutes.keeps hp m (hexecutes.isSound hr)).2 e' (by rw [hexecute])⟩
  | @followed line m m' hexecutes hexecute =>
    have hfollows := follows_follow p line.number ⟨m', r.index, r.steps + 1⟩
    rw [← hprogress] at hfollows
    cases hfollows with
    | undefined =>
      exact ⟨line,
        hexecutes.line_eq, by simp [Error.Expected, undefinedLine, Error.inLine, Error.because]⟩

/-! ## All steps -/

omit [Console κ] in
theorem between_start (p : Program) (seed : UInt64) (console : κ) (interrupt : Bool) :
    p.Between (start (.ofSeed seed) console interrupt).machine.environment := by
  have hsound : (Environment.ofSeed seed).IsSound p :=
    ⟨fun f hf => absurd hf (Array.not_mem_empty f), nofun⟩
  exact between_of_isSound hsound rfl

theorem between_of_reaches (hp : p.WellFormed) {seed : UInt64} {console : κ} {interrupt : Bool}
    {count : Nat} (h : p.Reaches settings count (start (.ofSeed seed) console interrupt) r) :
    p.Between r.machine.environment := by
  apply h.induct (I := fun q => p.Between q.machine.environment)
  · intro q t hq hstep
    exact hq.step hp hstep
  · exact between_start p seed console interrupt

end Program

/-! ## A run within a loop -/

theorem Machine.evaluate_of_ok {κ : Type} {m : Machine κ} {e : Expr} {value : Value}
    (h : e.evaluate m.environment.store m.environment.generator =
    (.ok value, m.environment.generator)) : Machine.evaluate e m = (.ok value, m) := by
  unfold Machine.evaluate Machine.onEnvironment Environment.evaluate Environment.withGenerator
  dsimp only
  rw [h]

/-- A variable without a value reads as its default. -/
theorem Expr.evaluate_var_empty {v : Ident} {value : Value}
    (h : Store.defaultValue v.name.toUpper = value) (g : Generator) :
    (Expr.var v).evaluate .empty g = (.ok value, g) := by
  rw [Expr.evaluate, Store.fetch_empty, h]
  rfl

/-- A variable without a value is equal to itself. -/
theorem Expr.evaluate_equal_self_empty (v : Ident) (g : Generator) :
    (Expr.binary .equal (.var v) (.var v)).evaluate .empty g = (.ok (.number (-1)), g) := by
  have hvar := Expr.evaluate_var_empty (v := v) rfl g
  have hzero : ((0 : Float) == 0) = true := by decide +kernel
  have hequal : Operator.equal.apply (Store.defaultValue v.name.toUpper)
      (Store.defaultValue v.name.toUpper) = .ok (.number (-1)) := by
    unfold Store.defaultValue
    split
    · rfl
    · exact congrArg (fun b => Except.ok (Value.ofBool b)) hzero
  rw [Expr.evaluate]
  change ((Expr.var v).evaluate .empty >>= fun a => (Expr.var v).evaluate .empty >>= fun b =>
    Action.ofExcept (Operator.equal.apply a b)) g = _
  rw [Action.bind_of_ok hvar, Action.bind_of_ok hvar, hequal]
  rfl

namespace Program

/-- The statement that opens a loop behind a condition. -/
def conditionalOpening : Statement :=
  .cond (.binary .equal (.var ⟨"A$"⟩) (.var ⟨"A$"⟩))
    (.loop ⟨"I"⟩ (.var ⟨"A"⟩) (.var ⟨"B"⟩) (.number 1) 10)

/-- A program with a loop behind a condition. -/
def conditionalLoop : Program :=
  ofLines ((Numbered.empty.put 10 conditionalOpening).put 20 (.next none))

/-- A run of this program within the loop. -/
def insideLoop (seed : UInt64) : Run Transcript where
  machine :=
    { environment :=
        { Environment.ofSeed seed with
          store := Store.empty.insert "I" (.number 0) (.inr (by decide))
          counter := 10
          frames := ⟨#[⟨⟨"I"⟩, 0, 0, 1, 10⟩], by decide⟩ }
      console := {}
      interrupt := false }
  index := 1
  steps := 1

theorem openLoop_insideLoop (seed : UInt64) :
    Environment.openLoop ⟨"I"⟩ 0 0 1 10 ((Environment.ofSeed seed).setCounter 10) =
      (.ok (), (insideLoop seed).machine.environment) := by
  have hstep : ((1 : Float) == 0) = false := by decide +kernel
  have hname : "I".toUpper = "I" := by with_unfolding_all rfl
  have hstore : Store.store "I" (.number 0) .empty =
      (.ok (), (insideLoop seed).machine.environment.store) :=
    dif_pos (.inr (by decide))
  rw [Environment.openLoop, if_neg (by simp [hstep]), Action.bind_apply]
  simp only [Environment.assign, Environment.set, Environment.ofSeed, Environment.setCounter,
    hname, hstore]
  rfl

theorem execute_conditionalOpening (seed : UInt64) :
    conditionalOpening.execute
      ((start (.ofSeed seed) ({} : Transcript) false).entering ⟨10, conditionalOpening⟩) =
      (.ok (), (insideLoop seed).machine) := by
  generalize hm : (start (.ofSeed seed) ({} : Transcript) false).entering ⟨10, conditionalOpening⟩ =
    m
  have hevaluate : ∀ {e : Expr} {value : Value}, (∀ g, e.evaluate .empty g = (.ok value, g)) →
      Machine.evaluate e m = (.ok value, m) := by
    intro e value h
    subst hm
    exact Machine.evaluate_of_ok (h _)
  have hnumber : ((-1 : Float) != 0) = true := by decide +kernel
  have hstart : Store.defaultValue "A".toUpper = .number 0 := by decide +kernel
  have hlimit : Store.defaultValue "B".toUpper = .number 0 := by decide +kernel
  have hname : Machine.onEnvironment (Environment.checkName ⟨"I"⟩) m = (.ok (), m) := by
    subst hm
    rfl
  rw [conditionalOpening, Statement.execute,
    Action.bind_of_ok (hevaluate (Expr.evaluate_equal_self_empty ⟨"A$"⟩))]
  dsimp only
  rw [if_pos hnumber, Statement.execute,
    Action.bind_of_ok (hevaluate (Expr.evaluate_var_empty (v := ⟨"A"⟩) hstart)),
    Action.bind_of_ok (hevaluate (Expr.evaluate_var_empty (v := ⟨"B"⟩) hlimit)),
    Action.bind_of_ok (hevaluate (e := .number 1) fun g => rfl), Action.bind_of_ok hname, ← hm]
  exact congrArg (fun outcome : _ × Environment =>
    (outcome.1, (⟨outcome.2, {}, false⟩ : Machine Transcript))) (openLoop_insideLoop seed)

end Program

end LineBasic
