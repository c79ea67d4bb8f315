import LineBasic.Console.Transcript
import LineBasic.Proofs.Run.Keeps

/-!
# What a statement that fails leaves behind

Every statement evaluates and checks what it needs before it changes anything, so one that fails has
at most drawn random numbers (`Statement.execute_error_unchanged`). Two things are not of this kind:
running out of memory, which a loop and its end meet halfway, and the console, which `INPUT` writes
to and reads from before it looks at what was read.

`Action.FailsWithin` says how the states before and after a failing action are related. An action
behind another one fails within a relation if the first keeps to it in any case (`Action.Moves`).
-/

namespace LineBasic

namespace Action

variable {σ α β : Type} {R : σ → σ → Prop} {F : Error → Prop}

/-- Whatever comes of an action, the states before and after it are related. -/
def Moves (R : σ → σ → Prop) (x : Action σ α) : Prop :=
  ∀ s, R s (x s).2

/-- If an action fails with an error of some kind, the states before and after it are related. -/
def FailsWithin (R : σ → σ → Prop) (F : Error → Prop) (x : Action σ α) : Prop :=
  ∀ s e, (x s).1 = .error e → F e → R s (x s).2

theorem Moves.failsWithin {x : Action σ α} (hx : Moves R x) : FailsWithin R F x :=
  fun s _ _ _ => hx s

theorem FailsWithin.ofExcept (hrefl : ∀ s, R s s) (r : Except Error α) :
    FailsWithin R F (ofExcept r : Action σ α) :=
  fun s _ _ _ => hrefl s

/-- An action that never fails with such an error. -/
theorem FailsWithin.of_not {x : Action σ α} (h : ∀ s e, (x s).1 = .error e → ¬ F e) :
    FailsWithin R F x :=
  fun s e he hF => absurd hF (h s e he)

theorem FailsWithin.bind (htrans : ∀ r s t, R r s → R s t → R r t) {x : Action σ α}
    {f : α → Action σ β} (hx : Moves R x) (hf : ∀ a, FailsWithin R F (f a)) :
    FailsWithin R F (x >>= f) := by
  intro s e he hF
  have hmoved := hx s
  rw [bind_apply] at he ⊢
  generalize x s = outcome at he hmoved ⊢
  rcases outcome with ⟨_ | a, s'⟩
  · exact hmoved
  · exact htrans _ _ _ hmoved (hf a s' e he hF)

end Action

/-! ## What is done to the environment -/

namespace Environment

open LineBasic.Action

theorem checkName_moves (v : Ident) : Moves Eq (checkName v) := by
  intro env
  unfold checkName
  split <;> rfl

theorem assign_failsWithin (v : Ident) (value : Value) :
    FailsWithin Eq (·.code ≠ .outOfMemory) (assign v value) :=
  .of_not fun _ _ he hmemory => hmemory (assign_error he).code

theorem openLoop_failsWithin (v : Ident) (start limit step : Float) (line : Nat) :
    FailsWithin Eq (·.code ≠ .outOfMemory) (openLoop v start limit step line) := by
  unfold openLoop
  split
  · exact .ofExcept (fun _ => rfl) _
  · refine .of_not fun env e he hmemory => hmemory ?_
    rw [bind_apply] at he
    split at he
    · exact (pushFrame_error he).code
    · rename_i hassign
      cases he
      exact (assign_error (by rw [hassign])).code

theorem turn_failsWithin (frame : Frame) : FailsWithin Eq (·.code ≠ .outOfMemory) (turn frame) := by
  refine .of_not fun env e he hmemory => hmemory ?_
  unfold turn at he
  dsimp only at he
  split at he
  · rename_i hassign
    cases he
    exact (assign_error (by rw [hassign])).code
  · cases he

theorem nextTurn_failsWithin (counter : Option Ident) :
    FailsWithin Eq (·.code ≠ .outOfMemory) (nextTurn counter) := by
  intro env e he hmemory
  unfold nextTurn at he ⊢
  cases hframe : env.frames.top? with
  | none => rfl
  | some frame =>
    rw [hframe] at he
    cases counter with
    | none => exact turn_failsWithin frame env e he hmemory
    | some v =>
      dsimp only at he ⊢
      by_cases hv : v = frame.counter
      · rw [if_pos hv] at he ⊢
        exact turn_failsWithin frame env e he hmemory
      · rw [if_neg hv]

end Environment

/-! ## What is done to the machine -/

/-- A machine with another generator. -/
def Machine.withGenerator {κ : Type} (g : Generator) (m : Machine κ) : Machine κ :=
  { m with environment := { m.environment with generator := g } }

theorem Machine.onEnvironment_unchanged {κ α : Type} {x : Action Environment α} {m : Machine κ}
    (h : m.environment = (x m.environment).2) : (onEnvironment x m).2 = m := by
  unfold onEnvironment
  dsimp only
  rw [← h]

/-- A relation of the machines before and after a statement that fails with an error of some kind.
It allows for drawing random numbers and for what a console call does that fails, and the errors are
not for want of memory. -/
structure Machine.AllowsFailure {κ : Type} (R : Machine κ → Machine κ → Prop) (F : Error → Prop) :
    Prop where
  refl : ∀ m, R m m
  trans : ∀ m₁ m₂ m₃, R m₁ m₂ → R m₂ m₃ → R m₁ m₃
  withGenerator : ∀ g m, R m (m.withGenerator g)
  onConsole : ∀ {α : Type} (call : κ → Reply κ α), Action.FailsWithin R F (onConsole call)
  ne_outOfMemory : ∀ e, F e → e.code ≠ .outOfMemory

namespace Machine.AllowsFailure

open LineBasic.Action Environment

variable {κ α : Type} {R : Machine κ → Machine κ → Prop} {F : Error → Prop} (h : AllowsFailure R F)
include h

theorem onEnvironment_moves {x : Action Environment α} (hx : Moves Eq x) :
    Moves R (onEnvironment x) := by
  intro m
  rw [onEnvironment_unchanged (hx m.environment)]
  exact h.refl m

theorem onEnvironment_failsWithin {x : Action Environment α}
    (hx : FailsWithin Eq (·.code ≠ .outOfMemory) x) : FailsWithin R F (onEnvironment x) := by
  intro m e he hF
  rw [onEnvironment_unchanged (hx m.environment e he (h.ne_outOfMemory e hF))]
  exact h.refl m

theorem evaluate_moves (e : Expr) : Moves R (evaluate e) :=
  fun m => h.withGenerator _ m

theorem executeLoop_failsWithin (v : Ident) (line : Nat) (a b c : Value) :
    FailsWithin R F (Statement.executeLoop v line a b c) := by
  unfold Statement.executeLoop
  split
  · exact h.onEnvironment_failsWithin (openLoop_failsWithin _ _ _ _ _)
  · exact .ofExcept h.refl _

end Machine.AllowsFailure

namespace Statement

open LineBasic.Action Machine Environment

variable {κ : Type}

/-- The statement that is executed in the end: behind conditions that hold it is the one that they
guard. -/
def reached (m : Machine κ) : Statement → Statement
  | .cond condition body =>
    match Machine.evaluate condition m with
    | (.ok (.number x), m) => if x != 0 then body.reached m else .cond condition body
    | _ => .cond condition body
  | st => st

theorem execute_cond [Console κ] (condition : Expr) (body : Statement) (m : Machine κ) :
    (cond condition body).execute m =
      match Machine.evaluate condition m with
      | (.ok (.number x), m) => if x != 0 then body.execute m else (.ok (), m)
      | (.ok (.text _), m) => (.error { code := .typeMismatch }, m)
      | (.error e, m) => (.error e, m) := by
  rw [execute, bind_apply]
  rcases Machine.evaluate condition m with ⟨e | x | s, m⟩
  · rfl
  · dsimp only
    split <;> rfl
  · rfl

/-- A statement that fails keeps to a relation which allows for that. If it is `INPUT`, the relation
has to allow for every console call. -/
theorem execute_failsWithin [Console κ] {R : Machine κ → Machine κ → Prop} {F : Error → Prop}
    (hR : AllowsFailure R F) (st : Statement) (m : Machine κ)
      (hinput : ∀ prompt v, st.reached m = .input prompt v →
      ∀ {α : Type} (call : κ → Reply κ α), Moves R (onConsole call)) {e : Error}
    (he : (st.execute m).1 = .error e) (hF : F e) : R m (st.execute m).2 := by
  have hname : ∀ v, Moves R (onEnvironment (checkName v)) :=
    fun v => hR.onEnvironment_moves (checkName_moves v)
  have hassign : ∀ v value, FailsWithin R F (onEnvironment (Environment.assign v value)) :=
    fun v value => hR.onEnvironment_failsWithin (assign_failsWithin v value)
  induction st generalizing m with
  | stop => cases he
  | goto n => cases he
  | remark text => cases he
  | loop v start limit step line =>
    suffices FailsWithin R F (loop v start limit step line).execute from this m e he hF
    refine .bind hR.trans (hR.evaluate_moves start) fun a => ?_
    refine .bind hR.trans (hR.evaluate_moves limit) fun b => ?_
    refine .bind hR.trans (hR.evaluate_moves step) fun c => ?_
    refine .bind hR.trans (hname v) fun _ => ?_
    exact hR.executeLoop_failsWithin v line a b c
  | cond condition body ih =>
    have hmoved : R m (Machine.evaluate condition m).2 := hR.evaluate_moves condition m
    rw [execute_cond] at he ⊢
    rw [reached] at hinput
    generalize Machine.evaluate condition m = outcome at hmoved hinput he ⊢
    obtain ⟨e' | x | s, m₁⟩ := outcome
    · exact hmoved
    · dsimp only at hinput he ⊢
      by_cases hx : (x != 0) = true
      · rw [if_pos hx] at hinput he ⊢
        exact hR.trans _ _ _ hmoved (ih m₁ hinput he)
      · rw [if_neg hx] at he
        cases he
    · exact hmoved
  | input prompt v =>
    have hcalls : ∀ {α : Type} (call : κ → Reply κ α), Moves R (onConsole call) :=
      hinput prompt v rfl
    suffices FailsWithin R F (input prompt v).execute from this m e he hF
    refine .bind hR.trans (hname v) fun _ => ?_
    refine .bind hR.trans (hcalls _) fun _ => ?_
    refine .bind hR.trans (hcalls _) fun line => ?_
    refine .bind hR.trans hR.refl fun value => ?_
    exact hassign v value
  | assign v value =>
    suffices FailsWithin R F (assign v value).execute from this m e he hF
    refine .bind hR.trans (hname v) fun _ => ?_
    refine .bind hR.trans (hR.evaluate_moves value) fun a => ?_
    exact hassign v a
  | next v => exact hR.onEnvironment_failsWithin (nextTurn_failsWithin v) m e he hF
  | print items =>
    suffices FailsWithin R F (print items).execute from this m e he hF
    refine .bind hR.trans (fun m => hR.withGenerator _ m) fun values => ?_
    exact hR.onConsole _

end Statement

/-! ## The two relations -/

namespace Machine

open LineBasic.Action

variable {κ α : Type}

theorem environment_onConsole (call : κ → Reply κ α) (m : Machine κ) :
    (onConsole call m).2.environment = m.environment := by
  unfold onConsole
  dsimp only
  rcases call m.console with ⟨_ | _, console, raised⟩ <;> rfl

theorem onConsole_error {call : κ → Reply κ α} {m : Machine κ} {e : Error}
    (h : (onConsole call m).1 = .error e) : ∃ fault : DeviceFault, e = fault.toError := by
  unfold onConsole at h
  dsimp only at h
  rcases hcall : call m.console with ⟨fault | _, console, raised⟩
  · rw [hcall] at h
    exact ⟨fault, (Except.error.inj h).symm⟩
  · rw [hcall] at h
    cases h

/-- The environment is the same but for the generator, and the console may be any. -/
def SameEnvironment (m m' : Machine κ) : Prop :=
  m'.environment = { m.environment with generator := m'.environment.generator }

/-- All is the same but for the generator. -/
def OnlyDrew (m m' : Machine κ) : Prop :=
  m' = m.withGenerator m'.environment.generator

theorem sameEnvironment_moves (call : κ → Reply κ α) : Moves SameEnvironment (onConsole call) := by
  intro m
  unfold SameEnvironment
  rw [environment_onConsole]

theorem sameEnvironment_allowsFailure :
    AllowsFailure (SameEnvironment (κ := κ)) fun e => e.code ≠ .outOfMemory where
  refl _ := rfl
  trans m₁ m₂ m₃ h₁ h₂ := by
    unfold SameEnvironment at *
    rw [h₂, h₁]
  withGenerator _ _ := rfl
  onConsole call := (sameEnvironment_moves call).failsWithin
  ne_outOfMemory _ h := h

theorem onlyDrew_allowsFailure :
    AllowsFailure (OnlyDrew (κ := κ)) fun e =>
      e.code ≠ .outOfMemory ∧ ∀ fault : DeviceFault, e ≠ fault.toError where
  refl _ := rfl
  trans m₁ m₂ m₃ h₁ h₂ := by
    unfold OnlyDrew at *
    rw [h₂, h₁]
    rfl
  withGenerator _ _ := rfl
  onConsole call := .of_not fun m e he h => by
    obtain ⟨fault, hfault⟩ := onConsole_error he
    exact h.2 fault hfault
  ne_outOfMemory _ h := h.1

end Machine

namespace Statement

open LineBasic.Action Machine Environment

variable {κ : Type} [Console κ]

/-- A statement that fails, if not for want of memory, leaves the environment as it was but for the
generator. If it is not `INPUT` and it was not the console that failed, it leaves the console as it
was too; so nothing is written if an item of `PRINT` fails. -/
theorem execute_error_unchanged {st : Statement} {m m' : Machine κ} {e : Error}
    (h : st.execute m = (.error e, m')) (hmemory : e.code ≠ .outOfMemory) :
    m'.environment = { m.environment with generator := m'.environment.generator } ∧
      ((∀ prompt v, st.reached m ≠ .input prompt v) → (∀ fault : DeviceFault, e ≠ fault.toError) →
        m' = m.withGenerator m'.environment.generator) ∧
      ∀ items e' g, st = .print items →
        Expr.evaluateAll m.environment.store items m.environment.generator = (.error e', g) →
        e' = e ∧ m' = m.withGenerator g := by
  have he : (st.execute m).1 = .error e := by rw [h]
  refine ⟨?_, fun hinput hdevice => ?_, ?_⟩
  · have hsame := execute_failsWithin sameEnvironment_allowsFailure st m
      (fun _ _ _ {_} call => sameEnvironment_moves call) he hmemory
    rwa [h] at hsame
  · have hsame := execute_failsWithin onlyDrew_allowsFailure st m
      (fun prompt v hreached => absurd hreached (hinput prompt v)) he ⟨hmemory, hdevice⟩
    rwa [h] at hsame
  · rintro items e' g rfl hitems
    have hall : (onEnvironment (evaluateAll items) : Action (Machine κ) _) m =
        (.error e', m.withGenerator g) := by
      unfold onEnvironment evaluateAll Environment.withGenerator
      dsimp only
      rw [hitems]
      rfl
    obtain ⟨hresult, hmachine⟩ := Prod.mk.inj (h.symm.trans (bind_of_error hall))
    exact ⟨(Except.error.inj hresult).symm, hmachine⟩

/-- Draws a random number and then calls a function that there is not. -/
def drawsAndFails : Statement :=
  .print [.call ⟨"RND"⟩ [], .call ⟨"FN"⟩ []]

theorem execute_error_unchanged_drawsAndFails :
    let m : Machine Transcript := ⟨(Environment.ofSeed 7).jump 20, { output := "A" }, true⟩
    ∃ m', drawsAndFails.execute m =
      (.error (.because .unknownFunction "unknown function: FN"), m') ∧
      m' = m.withGenerator m'.environment.generator := by
  intro m
  refine ⟨m.withGenerator (Generator.ofSeed 7).draw.2, ?_⟩
  have hrnd : Builtin.ofName? "RND" = some .rnd := by decide +kernel
  have hfn : Builtin.ofName? "FN" = none := by decide +kernel
  have h : drawsAndFails.execute m =
      (.error (.because .unknownFunction "unknown function: FN"),
        m.withGenerator (Generator.ofSeed 7).draw.2) := by
    simp only [drawsAndFails, execute]
    apply bind_of_error
    simp only [evaluateAll, onEnvironment, Environment.withGenerator, Expr.evaluateAll,
      Expr.evaluate, hrnd, hfn]
    rfl
  have hdevice : ∀ fault : DeviceFault, Error.because .unknownFunction "unknown function: FN" ≠
      fault.toError := by
    intro fault
    cases fault <;> simp [DeviceFault.toError, Error.because]
  exact ⟨h, (execute_error_unchanged h (by decide)).2.1 nofun hdevice⟩

end Statement

end LineBasic
