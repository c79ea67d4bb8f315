import LineBasic.Run.Machine

/-!
# What only directs execution

The counter, the open loops, the transfer and the end flag of an environment say where execution
goes; the variables and the generator are what a program computes with. An action that never looks
at the first four and never changes them commutes with overwriting them (`Action.Commutes`), and
conversely: it computes the same whatever they are, and hands them on. Evaluation, assignment and
console calls are of this kind, and so is every statement that neither moves execution nor has to do
with loops (`Statement.execute_commutes`).
-/

namespace LineBasic

namespace Action

variable {σ α β : Type}

theorem bind_assoc {γ : Type} (x : Action σ α) (f : α → Action σ β) (g : β → Action σ γ) :
    (x >>= f) >>= g = x >>= fun a => f a >>= g := by
  funext s
  rw [bind_apply, bind_apply, bind_apply]
  rcases x s with ⟨_ | _, s⟩ <;> rfl

/-- An action gives the same before and after a change of the state, and the change can be made
afterwards. -/
def Commutes (f : σ → σ) (x : Action σ α) : Prop :=
  ∀ s, x (f s) = ((x s).1, f (x s).2)

variable {f : σ → σ}

theorem Commutes.pure (a : α) : Commutes f (pure a : Action σ α) :=
  fun _ => rfl

theorem Commutes.fail (e : Error) : Commutes f (fail e : Action σ α) :=
  fun _ => rfl

theorem Commutes.ofExcept (r : Except Error α) : Commutes f (ofExcept r : Action σ α) :=
  fun _ => rfl

theorem Commutes.bind {x : Action σ α} {g : α → Action σ β} (hx : Commutes f x)
    (hg : ∀ a, Commutes f (g a)) : Commutes f (x >>= g) := by
  intro s
  rw [bind_apply, bind_apply, hx s]
  rcases x s with ⟨e | a, s⟩
  · rfl
  · exact hg a s

end Action

/-- Where execution goes. -/
structure Control where
  counter : Nat
  frames : Stack Frame
  transfer : Transfer
  ended : Bool

/-- Control between two statements of a run, behind a statement on the line `counter`. -/
def Control.resting (counter : Nat) (frames : Stack Frame) : Control :=
  ⟨counter, frames, .none, false⟩

/-- An environment with another control. -/
def Environment.withControl (c : Control) (env : Environment) : Environment :=
  { env with counter := c.counter, frames := c.frames, transfer := c.transfer, ended := c.ended }

/-- A machine with another control. -/
def Machine.withControl {κ : Type} (c : Control) (m : Machine κ) : Machine κ :=
  { m with environment := m.environment.withControl c }

/-- Two machines agree in everything but control. -/
structure Machine.SameData {κ : Type} (m m' : Machine κ) : Prop where
  store : m.environment.store = m'.environment.store
  seed : m.environment.seed = m'.environment.seed
  generator : m.environment.generator = m'.environment.generator
  console : m.console = m'.console
  interrupt : m.interrupt = m'.interrupt

theorem Machine.sameData_withControl {κ : Type} (c : Control) (m : Machine κ) :
    (m.withControl c).SameData m :=
  ⟨rfl, rfl, rfl, rfl, rfl⟩

namespace Environment

variable {α : Type} (c : Control)

theorem withGenerator_commutes (x : Store → Action Generator α) :
    (withGenerator x).Commutes (withControl c) :=
  fun _ => rfl

theorem checkName_commutes (v : Ident) : (checkName v).Commutes (withControl c) := by
  unfold checkName
  split
  · exact .fail _
  · exact .pure _

theorem assign_commutes (v : Ident) (value : Value) : (assign v value).Commutes (withControl c) :=
  fun _ => rfl

end Environment

namespace Machine

variable {κ α : Type} (c : Control)

theorem onEnvironment_commutes {x : Action Environment α}
    (hx : x.Commutes (Environment.withControl c)) :
    (onEnvironment x : Action (Machine κ) α).Commutes (withControl c) := by
  intro m
  have h := hx m.environment
  unfold onEnvironment withControl
  dsimp only
  rw [h]

theorem onConsole_commutes (call : κ → Reply κ α) :
    (onConsole call : Action (Machine κ) α).Commutes (withControl c) := by
  intro m
  unfold onConsole withControl
  dsimp only
  rcases call m.console with ⟨_ | _, console, raised⟩ <;> rfl

theorem evaluate_commutes (e : Expr) :
    (evaluate e : Action (Machine κ) Value).Commutes (withControl c) :=
  onEnvironment_commutes c (Environment.withGenerator_commutes c _)

end Machine

/-- Whether a statement neither moves execution nor opens or closes a loop. -/
def Statement.isSimple : Statement → Bool
  | .assign .. | .print _ | .input .. | .remark _ => true
  | .cond _ body => body.isSimple
  | .stop | .loop .. | .goto _ | .next _ => false

open Machine Environment in
/-- A simple statement does not look at control and hands it on. -/
theorem Statement.execute_commutes {κ : Type} [Console κ] (c : Control) (s : Statement)
    (hs : s.isSimple = true) :
    (s.execute : Action (Machine κ) Unit).Commutes (Machine.withControl c) := by
  induction s with
  | stop => exact nomatch hs
  | loop v start limit step line => exact nomatch hs
  | goto n => exact nomatch hs
  | next v => exact nomatch hs
  | remark text => exact .pure _
  | cond condition body ih =>
    refine (evaluate_commutes c condition).bind fun value => ?_
    cases value with
    | text _ => exact .fail _
    | number x =>
      dsimp only
      split
      · exact ih hs
      · exact .pure _
  | input prompt v =>
    refine (onEnvironment_commutes c (checkName_commutes c v)).bind fun _ => ?_
    refine (onConsole_commutes c _).bind fun _ => ?_
    refine (onConsole_commutes c _).bind fun line => ?_
    refine (Action.Commutes.ofExcept _).bind fun value => ?_
    exact onEnvironment_commutes c (assign_commutes c v value)
  | assign v e =>
    refine (onEnvironment_commutes c (checkName_commutes c v)).bind fun _ => ?_
    refine (evaluate_commutes c e).bind fun value => ?_
    exact onEnvironment_commutes c (assign_commutes c v value)
  | print items =>
    refine (onEnvironment_commutes c (withGenerator_commutes c _)).bind fun values => ?_
    exact onConsole_commutes c _

end LineBasic
