import LineBasic.Proofs.Run.Invariant
import LineBasic.Proofs.Statement.Written
import Mathlib.Data.Set.Function

/-!
# Runs that go along with one another

Two actions are alike if they give the same from related states and leave related states behind
(`Action.Alike`). Here the states are environments that correspond: they have the same variables,
the line numbers in the one are those in the other under a map, and their generators are related. A
statement, and the same one with its line numbers mapped, are alike on them
(`Statement.execute_alike`), as long as its expressions are alike on the generators. So a program
and the same program with other line numbers go on step by step together
(`Program.Corresponds.advance`). What is asked of the map is that no two of the line numbers become
one.
-/

namespace LineBasic

namespace Action

variable {σ τ α β : Type} {R : σ → τ → Prop}

/-- Two actions give the same from related states, and leave related states behind. -/
def Alike (R : σ → τ → Prop) (x : Action σ α) (y : Action τ α) : Prop :=
  ∀ s t, R s t → (x s).1 = (y t).1 ∧ R (x s).2 (y t).2

theorem Alike.refl (x : Action σ α) : Alike Eq x x := by
  rintro s _ rfl
  exact ⟨rfl, rfl⟩

theorem Alike.pure (a : α) : Alike R (pure a) (pure a) :=
  fun _ _ h => ⟨rfl, h⟩

theorem Alike.fail (e : Error) : Alike R (fail e : Action σ α) (fail e) :=
  fun _ _ h => ⟨rfl, h⟩

theorem Alike.ofExcept (r : Except Error α) : Alike R (ofExcept r) (ofExcept r) :=
  fun _ _ h => ⟨rfl, h⟩

theorem Alike.bind {x : Action σ α} {y : Action τ α} {f : α → Action σ β} {g : α → Action τ β}
    (hx : Alike R x y) (hf : ∀ a, Alike R (f a) (g a)) : Alike R (x >>= f) (y >>= g) := by
  intro s t h
  have houtcome := hx s t h
  rw [bind_apply, bind_apply]
  generalize x s = u at houtcome ⊢
  generalize y t = v at houtcome ⊢
  obtain ⟨result, s'⟩ := u
  obtain ⟨result', t'⟩ := v
  obtain ⟨rfl, hstate⟩ := houtcome
  cases result with
  | error e => exact ⟨rfl, hstate⟩
  | ok a => exact hf a s' t' hstate

theorem Alike.within {x : Action σ α} {y : Action τ α} (context : String) (hx : Alike R x y) :
    Alike R (x.within context) (y.within context) := by
  intro s t h
  have houtcome := hx s t h
  unfold Action.within mapError
  generalize x s = u at houtcome ⊢
  generalize y t = v at houtcome ⊢
  obtain ⟨result, s'⟩ := u
  obtain ⟨result', t'⟩ := v
  obtain ⟨rfl, hstate⟩ := houtcome
  cases result with
  | error e => exact ⟨rfl, hstate⟩
  | ok a => exact ⟨rfl, hstate⟩

end Action

namespace Stack

variable {α β : Type} (g : α → β) (s : Stack α)

/-- A stack with its elements mapped. -/
def map : Stack β :=
  ⟨s.items.map g, by rw [Array.size_map]; exact s.size_le⟩

theorem map_empty : (empty : Stack α).map g = empty := by
  simp [map, empty]

theorem top?_map : (s.map g).top? = s.top?.map g := by
  simp [map, top?, Array.back?]

theorem pop_map : (s.map g).pop = s.pop.map g := by
  simp [map, pop]

theorem setTop_map (a : α) : (s.map g).setTop (g a) = (s.setTop a).map g := by
  unfold setTop map
  by_cases h : 0 < s.items.size
  · simp [h]
  · simp [h]

theorem push_map (overflow : String) (a : α) :
    push overflow (g a) (s.map g) = ((push overflow a s).1, (push overflow a s).2.map g) := by
  unfold push map
  by_cases h : s.items.size < memoryLimit
  · simp [h]
  · simp [h]

end Stack

/-! ## Other line numbers -/

/-- An open loop with its line number mapped. -/
def Frame.renumber (f : Nat → Nat) (frame : Frame) : Frame :=
  { frame with line := f frame.line }

namespace Statement

/-- A statement with its line numbers mapped: those that it goes to, and that of a loop. -/
def renumber (f : Nat → Nat) : Statement → Statement
  | .loop v start limit step line => .loop v start limit step (f line)
  | .goto n => .goto (f n)
  | .cond condition body => .cond condition (body.renumber f)
  | .stop => .stop
  | .input prompt v => .input prompt v
  | .assign v e => .assign v e
  | .next v => .next v
  | .print items => .print items
  | .remark text => .remark text

/-- The line numbers that a statement mentions. -/
def mentioned : Statement → List Nat
  | .loop _ _ _ _ line => [line]
  | .goto n => [n]
  | .cond _ body => body.mentioned
  | .stop | .input _ _ | .assign _ _ | .next _ | .print _ | .remark _ => []

theorem isLoop_renumber (f : Nat → Nat) (st : Statement) : (st.renumber f).isLoop = st.isLoop := by
  cases st <;> rfl

theorem renumber_id (st : Statement) : st.renumber id = st := by
  induction st with
  | cond condition body ih => rw [renumber, ih]
  | _ => rfl

end Statement

/-- A line with its line numbers mapped. -/
def Entry.renumber (f : Nat → Nat) (line : Entry Statement) : Entry Statement :=
  ⟨f line.number, line.item.renumber f⟩

/-! ## Environments that correspond -/

/-- An expression gives the same with related generators, and leaves related ones behind. -/
def Expr.Respects (G : Generator → Generator → Prop) (e : Expr) : Prop :=
  ∀ store, Action.Alike G (e.evaluate store) (e.evaluate store)

/-- What a program computes with is the same in two environments: the variables, the open loops,
whose lines are mapped, and the generators, which are related. The lines of the loops are among the
given ones. -/
structure Environment.Matches (f : Nat → Nat) (S : Set Nat) (G : Generator → Generator → Prop)
    (env env' : Environment) : Prop where
  store : env'.store = env.store
  frames : env'.frames = env.frames.map (·.renumber f)
  lines_mem : ∀ frame ∈ env.frames.items, frame.line ∈ S
  generator : G env.generator env'.generator

/-- Two environments match, and execution goes to the same place. -/
structure Environment.Corresponds (f : Nat → Nat) (S : Set Nat) (G : Generator → Generator → Prop)
    (env env' : Environment) : Prop extends Matches f S G env env' where
  counter : env'.counter = f env.counter
  counter_mem : env.counter ∈ S
  transfer : env'.transfer = env.transfer
  ended : env'.ended = env.ended

namespace Environment

open LineBasic.Action

variable {f : Nat → Nat} {S : Set Nat} {G : Generator → Generator → Prop} {env env' : Environment}

theorem withGenerator_alike {α : Type} {x : Store → Action Generator α}
    (hx : ∀ store, Alike G (x store) (x store)) :
    Alike (Corresponds f S G) (withGenerator x) (withGenerator x) := by
  rintro env ⟨store, counter, frames, seed, generator, transfer, ended⟩ h
  obtain ⟨hresult, hgenerator⟩ := hx env.store _ _ h.generator
  obtain rfl : store = env.store := h.store
  exact ⟨hresult,
    ⟨⟨rfl, h.frames, h.lines_mem, hgenerator⟩, h.counter, h.counter_mem, h.transfer, h.ended⟩⟩

theorem evaluate_alike {e : Expr} (he : e.Respects G) :
    Alike (Corresponds f S G) (evaluate e) (evaluate e) :=
  withGenerator_alike he

theorem evaluateAll_alike {es : List Expr} (hes : ∀ e ∈ es, e.Respects G) :
    Alike (Corresponds f S G) (evaluateAll es) (evaluateAll es) := by
  apply withGenerator_alike
  intro store
  induction es with
  | nil =>
    rw [Expr.evaluateAll]
    exact .pure _
  | cons e es ih =>
    obtain ⟨he, hes⟩ := List.forall_mem_cons.mp hes
    rw [Expr.evaluateAll]
    exact (he store).bind fun v => (ih hes).bind fun vs => .pure _

theorem checkName_alike (v : Ident) : Alike (Corresponds f S G) (checkName v) (checkName v) := by
  unfold checkName
  split
  · exact .fail _
  · exact .pure _

theorem assign_alike (v : Ident) (value : Value) :
    Alike (Corresponds f S G) (assign v value) (assign v value) := by
  rintro env ⟨store, counter, frames, seed, generator, transfer, ended⟩ h
  obtain rfl : store = env.store := h.store
  exact ⟨rfl,
    ⟨⟨rfl, h.frames, h.lines_mem, h.generator⟩, h.counter, h.counter_mem, h.transfer, h.ended⟩⟩

theorem Corresponds.mapFrames (h : env.Corresponds f S G env') {g : Stack Frame → Stack Frame}
    {g' : Stack Frame → Stack Frame} (hg : g' env'.frames = (g env.frames).map (·.renumber f))
    (hmem : ∀ frame ∈ (g env.frames).items, frame.line ∈ S) :
    (env.mapFrames g).Corresponds f S G (env'.mapFrames g') :=
  ⟨⟨h.store, hg, hmem, h.generator⟩, h.counter, h.counter_mem, h.transfer, h.ended⟩

theorem Corresponds.finish (h : env.Corresponds f S G env') :
    env.finish.Corresponds f S G env'.finish :=
  ⟨⟨h.store, h.frames, h.lines_mem, h.generator⟩, h.counter, h.counter_mem, h.transfer, rfl⟩

theorem Corresponds.jump (h : env.Corresponds f S G env') {n : Nat} (hn : n ∈ S) :
    (env.jump n).Corresponds f S G (env'.jump (f n)) :=
  ⟨⟨h.store, h.frames, h.lines_mem, h.generator⟩, rfl, hn, rfl, h.ended⟩

theorem Corresponds.turnedBack (h : env.Corresponds f S G env') {n : Nat} (hn : n ∈ S) :
    (env.loopBack n).Corresponds f S G (env'.loopBack (f n)) :=
  ⟨⟨h.store, h.frames, h.lines_mem, h.generator⟩, rfl, hn, rfl, h.ended⟩

theorem pushFrame_alike {frame : Frame} (hline : frame.line ∈ S) :
    Alike (Corresponds f S G) (pushFrame frame) (pushFrame (frame.renumber f)) := by
  intro env env' h
  have hpush := Stack.push_map (·.renumber f) env.frames loopOverflow frame
  rw [← h.frames] at hpush
  refine ⟨(congrArg Prod.fst hpush).symm, ⟨h.store, congrArg Prod.snd hpush, ?_, h.generator⟩,
    h.counter, h.counter_mem, h.transfer, h.ended⟩
  intro other hother
  unfold pushFrame Stack.push at hother
  dsimp only at hother
  split at hother
  · rcases Array.mem_push.mp hother with hother | rfl
    · exact h.lines_mem other hother
    · exact hline
  · exact h.lines_mem other hother

theorem openLoop_alike {v : Ident} {start limit step : Float} {line : Nat} (hline : line ∈ S) :
    Alike (Corresponds f S G) (openLoop v start limit step line)
      (openLoop v start limit step (f line)) := by
  unfold openLoop
  split
  · exact .fail _
  · exact (assign_alike v _).bind fun _ => pushFrame_alike hline

theorem turn_alike {frame : Frame} (hline : frame.line ∈ S) :
    Alike (Corresponds f S G) (turn frame) (turn (frame.renumber f)) := by
  intro env env' h
  unfold turn
  generalize hmoved : ({ frame with current := frame.current + frame.step } : Frame) = moved
  have hmoved' : ({ frame.renumber f with
      current := (frame.renumber f).current + (frame.renumber f).step } : Frame) =
        moved.renumber f := by
    rw [← hmoved]
    rfl
  have hline' : moved.line ∈ S := by
    rw [← hmoved]
    exact hline
  have hset : (env.mapFrames (·.setTop moved)).Corresponds f S G
      (env'.mapFrames (·.setTop (moved.renumber f))) := by
    apply h.mapFrames
    · rw [h.frames]
      exact Stack.setTop_map _ _ _
    · intro other hother
      rcases Stack.mem_of_mem_setTop hother with rfl | hother
      · exact hline'
      · exact h.lines_mem other hother
  have houtcome := assign_alike moved.counter (.number moved.current) _ _ hset
  have hassign : assign (moved.renumber f).counter (.number (moved.renumber f).current) =
      assign moved.counter (.number moved.current) := rfl
  rw [hmoved']
  dsimp only
  rw [hassign]
  generalize assign moved.counter (.number moved.current) (env.mapFrames (·.setTop moved)) = u
    at houtcome ⊢
  generalize assign moved.counter (.number moved.current) (env'.mapFrames _) = u' at houtcome ⊢
  obtain ⟨result, env₁⟩ := u
  obtain ⟨result', env₁'⟩ := u'
  obtain ⟨rfl, hassigned⟩ := houtcome
  cases result with
  | error e => exact ⟨rfl, hassigned⟩
  | ok _ =>
    refine ⟨rfl, ?_⟩
    have hfinished : (moved.renumber f).isFinished = moved.isFinished := rfl
    dsimp only
    rw [hfinished]
    split
    · apply hassigned.mapFrames
      · rw [hassigned.frames, Stack.pop_map]
      · exact fun other hother => hassigned.lines_mem other (Stack.mem_of_mem_pop hother)
    · exact hassigned.turnedBack hline'

theorem nextTurn_alike (counter : Option Ident) :
    Alike (Corresponds f S G) (nextTurn counter) (nextTurn counter) := by
  intro env env' h
  have htop := Stack.top?_map (·.renumber f) env.frames
  rw [← h.frames] at htop
  unfold nextTurn
  rw [htop]
  cases hframe : env.frames.top? with
  | none => exact ⟨rfl, h⟩
  | some frame =>
    have hturn := turn_alike (h.lines_mem frame (Array.mem_of_back? hframe)) env env' h
    cases counter with
    | none => exact hturn
    | some v =>
      dsimp only [Option.map_some]
      by_cases hv : v = frame.counter
      · rw [if_pos hv, if_pos (show v = (frame.renumber f).counter from hv)]
        exact hturn
      · rw [if_neg hv, if_neg (show ¬ v = (frame.renumber f).counter from hv)]
        exact ⟨rfl, h⟩

end Environment

/-! ## Machines that correspond -/

/-- Two machines have related environments, and the same console and break flag. -/
structure Machine.Agrees {κ : Type} (R : Environment → Environment → Prop) (m m' : Machine κ) :
    Prop where
  environment : R m.environment m'.environment
  console : m'.console = m.console
  interrupt : m'.interrupt = m.interrupt

namespace Machine

open LineBasic.Action

variable {κ α : Type} {R : Environment → Environment → Prop}

theorem onEnvironment_alike {x y : Action Environment α} (h : Alike R x y) :
    Alike (Agrees R) (onEnvironment x : Action (Machine κ) α) (onEnvironment y) := by
  intro m m' hm
  obtain ⟨hresult, henvironment⟩ := h _ _ hm.environment
  exact ⟨hresult, henvironment, hm.console, hm.interrupt⟩

theorem onConsole_alike (call : κ → Reply κ α) :
    Alike (Agrees R) (onConsole call : Action (Machine κ) α) (onConsole call) := by
  rintro ⟨env, console, interrupt⟩ ⟨env', console', interrupt'⟩ ⟨henvironment, hconsole, hinterrupt⟩
  obtain rfl : console' = console := hconsole
  obtain rfl : interrupt' = interrupt := hinterrupt
  unfold onConsole
  dsimp only
  rcases call console' with ⟨fault | a, console, raised⟩
  · exact ⟨rfl, henvironment, rfl, rfl⟩
  · exact ⟨rfl, henvironment, rfl, rfl⟩

end Machine

namespace Statement

open LineBasic.Action Machine Environment

variable {κ : Type} {f : Nat → Nat} {S : Set Nat} {G : Generator → Generator → Prop}

theorem executeLoop_alike {v : Ident} {line : Nat} (hline : line ∈ S) (a b c : Value) :
    Alike (Agrees (Corresponds f S G)) (executeLoop v line a b c : Action (Machine κ) Unit)
      (executeLoop v (f line) a b c) := by
  unfold executeLoop
  split
  · exact onEnvironment_alike (openLoop_alike hline)
  · exact .fail _

/-- A statement does the same with its line numbers mapped, if its expressions do not tell the
generators apart. -/
theorem execute_alike [Console κ] {st : Statement} (hlines : ∀ n ∈ st.mentioned, n ∈ S)
    (hexprs : ∀ e ∈ st.exprs, e.Respects G) :
    Alike (Agrees (Corresponds f S G)) (st.execute : Action (Machine κ) Unit)
      (st.renumber f).execute := by
  have hevaluate : ∀ e : Expr, e.Respects G →
      Alike (Agrees (Corresponds f S G)) (Machine.evaluate e : Action (Machine κ) Value)
        (Machine.evaluate e) :=
    fun e he => onEnvironment_alike (evaluate_alike he)
  have hname : ∀ v : Ident, Alike (Agrees (Corresponds f S G))
      (onEnvironment (checkName v) : Action (Machine κ) Unit) (onEnvironment (checkName v)) :=
    fun v => onEnvironment_alike (checkName_alike v)
  have hassign : ∀ v value, Alike (Agrees (Corresponds f S G))
      (onEnvironment (Environment.assign v value) : Action (Machine κ) Unit)
      (onEnvironment (Environment.assign v value)) :=
    fun v value => onEnvironment_alike (assign_alike v value)
  induction st with
  | stop =>
    intro m m' h
    exact ⟨rfl, h.environment.finish, h.console, h.interrupt⟩
  | loop v start limit step line =>
    obtain ⟨hstart, hexprs⟩ := List.forall_mem_cons.mp hexprs
    obtain ⟨hlimit, hexprs⟩ := List.forall_mem_cons.mp hexprs
    refine (hevaluate start hstart).bind fun a => ?_
    refine (hevaluate limit hlimit).bind fun b => ?_
    refine (hevaluate step (hexprs step List.mem_cons_self)).bind fun c => ?_
    refine (hname v).bind fun _ => ?_
    exact executeLoop_alike (hlines line List.mem_cons_self) a b c
  | goto n =>
    intro m m' h
    exact ⟨rfl, h.environment.jump (hlines n List.mem_cons_self), h.console, h.interrupt⟩
  | cond condition body ih =>
    obtain ⟨hcondition, hexprs⟩ := List.forall_mem_cons.mp hexprs
    refine (hevaluate condition hcondition).bind fun value => ?_
    cases value with
    | text _ => exact .fail _
    | number x =>
      dsimp only
      split
      · exact ih hlines hexprs
      · exact .pure _
  | input prompt v =>
    refine (hname v).bind fun _ => ?_
    refine (onConsole_alike _).bind fun _ => ?_
    refine (onConsole_alike _).bind fun line => ?_
    refine (Alike.ofExcept _).bind fun value => ?_
    exact hassign v value
  | assign v e =>
    refine (hname v).bind fun _ => ?_
    refine (hevaluate e (hexprs e List.mem_cons_self)).bind fun value => ?_
    exact hassign v value
  | next v => exact onEnvironment_alike (nextTurn_alike v)
  | print items =>
    refine (onEnvironment_alike (evaluateAll_alike hexprs)).bind fun values => ?_
    exact onConsole_alike _
  | remark text => exact .pure _

end Statement

/-! ## Programs that correspond -/

/-- A program is another one with its line numbers mapped, no two of them to one, and its
expressions do not tell related generators apart. -/
structure Program.Corresponds (f : Nat → Nat) (S : Set Nat) (G : Generator → Generator → Prop)
    (p p' : Program) : Prop where
  entries_eq : p'.lines.entries = p.lines.entries.map (·.renumber f)
  injOn : Set.InjOn f S
  number_mem : ∀ i line, p.line? i = some line → line.number ∈ S
  mentioned_mem : ∀ i line, p.line? i = some line → ∀ n ∈ line.item.mentioned, n ∈ S
  respects : ∀ i line, p.line? i = some line → ∀ e ∈ line.item.exprs, e.Respects G

/-- An error with its line number mapped. -/
def Error.renumber (f : Nat → Nat) (e : Error) : Error :=
  { e with line := e.line.map f }

/-- The same result of a run, but for line numbers: an error is met in the line with the mapped
number, and a line that is not there is named by its mapped number. -/
inductive Program.SameResult (f : Nat → Nat) : Except Error Unit → Except Error Unit → Prop
  | ok : SameResult f (.ok ()) (.ok ())
  | error {e : Error} (hcode : e.code ≠ .undefinedLine) :
      SameResult f (.error e) (.error (e.renumber f))
  | undefined (target number : Nat) :
      SameResult f (.error ((undefinedLine target).inLine number))
        (.error ((undefinedLine (f target)).inLine (f number)))

/-- Two runs stand at the same line, after as many statements, and their machines match. -/
structure Run.Corresponds {κ : Type} (f : Nat → Nat) (S : Set Nat)
    (G : Generator → Generator → Prop) (r r' : Run κ) : Prop where
  machine : r.machine.Agrees (Environment.Matches f S G) r'.machine
  index : r'.index = r.index
  steps : r'.steps = r.steps

/-- An environment between two statements of a run. -/
def Environment.IsResting (env : Environment) : Prop :=
  env.transfer = .none ∧ env.ended = false

/-- Two runs go on together, or have come to the same end. -/
inductive Progress.Corresponds {κ : Type} (f : Nat → Nat) (S : Set Nat)
    (G : Generator → Generator → Prop) :
    Progress κ → Progress κ → Prop
  | running {r r' : Run κ} (h : r.Corresponds f S G r') (hrest : r.machine.environment.IsResting)
      (hrest' : r'.machine.environment.IsResting) : Corresponds f S G (.running r) (.running r')
  | halted {r r' : Run κ} {result result' : Except Error Unit}
      (hresult : Program.SameResult f result result') (h : r.Corresponds f S G r') :
      Corresponds f S G (.halted result r) (.halted result' r')

namespace Progress.Corresponds

variable {κ : Type} {f : Nat → Nat} {S : Set Nat} {G : Generator → Generator → Prop} {r r' : Run κ}
  {result result' : Except Error Unit} {progress : Progress κ}

theorem of_running (h : Corresponds f S G (.running r) progress) :
    ∃ r', progress = .running r' ∧ r.Corresponds f S G r' ∧ r.machine.environment.IsResting ∧
      r'.machine.environment.IsResting := by
  cases h with
  | running hr hrest hrest' => exact ⟨_, rfl, hr, hrest, hrest'⟩

theorem to_running (h : Corresponds f S G progress (.running r')) :
    ∃ r, progress = .running r ∧ r.Corresponds f S G r' ∧ r.machine.environment.IsResting ∧
      r'.machine.environment.IsResting := by
  cases h with
  | running hr hrest hrest' => exact ⟨_, rfl, hr, hrest, hrest'⟩

theorem of_halted (h : Corresponds f S G (.halted result r) progress) :
    ∃ result' r', progress = .halted result' r' ∧ Program.SameResult f result result' ∧
      r.Corresponds f S G r' := by
  cases h with
  | halted hresult hr => exact ⟨_, _, rfl, hresult, hr⟩

theorem to_halted (h : Corresponds f S G progress (.halted result' r')) :
    ∃ result r, progress = .halted result r ∧ Program.SameResult f result result' ∧
      r.Corresponds f S G r' := by
  cases h with
  | halted hresult hr => exact ⟨_, _, rfl, hresult, hr⟩

end Progress.Corresponds

namespace Program

open LineBasic.Action

variable {κ : Type} {p p' : Program} {f : Nat → Nat} {S : Set Nat}
  {G : Generator → Generator → Prop}

/-- How two runs go on after the same statement, where a line at the place `i` of the one program is
at the place `g i` of the other: they go to places that belong together under `P`, or come to the
same end. -/
theorem follow_related {m m' : Machine κ} {P : Nat → Nat → Prop}
    {T : Progress κ → Progress κ → Prop} {g : Nat → Nat} {number index index' steps steps' : Nat}
    (hm : m.Agrees (Environment.Corresponds f S G) m')
    (hindex : p'.indexOf? (f m.environment.counter) = (p.indexOf? m.environment.counter).map g)
    (hnext : P (index + 1) (index' + 1)) (hjump : ∀ i, P i (g i))
    (hloop : ∀ i, P (p.loopEntry i) (p'.loopEntry (g i)))
      (hrunning : ∀ (n n' : Machine κ) (i i' : Nat), n.Agrees (Environment.Matches f S G) n' →
      n.environment.IsResting → n'.environment.IsResting → P i i' →
      T (.running ⟨n, i, steps⟩) (.running ⟨n', i', steps'⟩))
      (hhalted : ∀ (n n' : Machine κ) (result result' : Except Error Unit),
      n.Agrees (Environment.Matches f S G) n' → SameResult f result result' →
      T (.halted result ⟨n, index, steps⟩) (.halted result' ⟨n', index', steps'⟩)) :
    T (p.follow number ⟨m, index, steps⟩) (p'.follow (f number) ⟨m', index', steps'⟩) := by
  obtain ⟨⟨store, counter, frames, seed, generator, transfer, ended⟩, console, interrupt⟩ := m
  obtain ⟨⟨store', counter', frames', seed', generator', transfer', ended'⟩, console',
      interrupt'⟩ := m'
  obtain ⟨⟨hmatches, hcounter, _, htransfer, hended⟩, hconsole, hinterrupt⟩ := hm
  dsimp only at hcounter htransfer hended hindex
  subst hcounter htransfer hended
  have hagrees : ∀ t, Machine.Agrees (Environment.Matches f S G)
      (⟨⟨store, counter, frames, seed, generator, t, ended'⟩, console, interrupt⟩ : Machine κ)
      ⟨⟨store', f counter, frames', seed', generator', t, ended'⟩, console', interrupt'⟩ :=
    fun t =>
      ⟨⟨hmatches.store, hmatches.frames, hmatches.lines_mem, hmatches.generator⟩,
        hconsole, hinterrupt⟩
  cases ended' with
  | true => exact hhalted _ _ _ _ (hagrees transfer') .ok
  | false =>
    cases transfer' with
    | none => exact hrunning _ _ _ _ (hagrees .none) ⟨rfl, rfl⟩ ⟨rfl, rfl⟩ hnext
    | jump =>
      unfold follow Environment.takeTransfer
      dsimp only
      rw [hindex]
      cases p.indexOf? counter with
      | none => exact hhalted _ _ _ _ (hagrees .none) (.undefined counter number)
      | some i => exact hrunning _ _ _ _ (hagrees .none) ⟨rfl, rfl⟩ ⟨rfl, rfl⟩ (hjump i)
    | loop =>
      unfold follow Environment.takeTransfer
      dsimp only
      rw [hindex]
      cases hi : p.indexOf? counter with
      | none => exact hhalted _ _ _ _ (hagrees .none) .ok
      | some i =>
        have hi' : p'.indexOf? (f counter) = some (g i) := by rw [hindex, hi, Option.map_some]
        refine hrunning _ _ _ _ (hagrees .none) ⟨rfl, rfl⟩ ⟨rfl, rfl⟩ ?_
        rw [loopTarget_eq hi, loopTarget_eq hi']
        exact hloop i

namespace Corresponds

variable (hp : p.Corresponds f S G p')
include hp

theorem line?_eq (i : Nat) : p'.line? i = (p.line? i).map (·.renumber f) := by
  rw [← getElem?_lines, hp.entries_eq, Array.getElem?_map, getElem?_lines]

/-- A line keeps its place. -/
theorem indexOf?_eq {n : Nat} (hn : n ∈ S) : p'.indexOf? (f n) = p.indexOf? n := by
  apply Option.ext
  intro i
  rw [indexOf?_eq_some_iff_line?, indexOf?_eq_some_iff_line?]
  constructor
  · rintro ⟨st, h⟩
    have hline := hp.line?_eq i
    rw [h, eq_comm, Option.map_eq_some_iff] at hline
    obtain ⟨line, hline, heq⟩ := hline
    have hnumber : line.number = n :=
      hp.injOn (hp.number_mem i line hline) hn (congrArg Entry.number heq)
    exact ⟨line.item, by rw [← hnumber]; exact hline⟩
  · rintro ⟨st, h⟩
    refine ⟨st.renumber f, (hp.line?_eq i).trans ?_⟩
    rw [h]
    rfl

theorem loopEntry_eq (i : Nat) : p'.loopEntry i = p.loopEntry i := by
  have hloop : (p'.line? i).any (·.item.isLoop) = (p.line? i).any (·.item.isLoop) := by
    rw [hp.line?_eq]
    cases p.line? i with
    | none => rfl
    | some line => exact line.item.isLoop_renumber f
  simp only [loopEntry, hloop]

/-- Two runs go on together after a statement. -/
theorem follow {m m' : Machine κ} (hm : m.Agrees (Environment.Corresponds f S G) m')
    (number index steps : Nat) :
    (p.follow number ⟨m, index, steps⟩).Corresponds f S G
      (p'.follow (f number) ⟨m', index, steps⟩) := by
  have hindex : p'.indexOf? (f m.environment.counter) =
      (p.indexOf? m.environment.counter).map id := by
    rw [hp.indexOf?_eq hm.environment.counter_mem, Option.map_id_apply]
  refine follow_related (P := Eq) hm hindex rfl (fun _ => rfl) (fun i =>
    (hp.loopEntry_eq i).symm) ?_ ?_
  · rintro n n' i _ hn hrest hrest' rfl
    exact .running ⟨hn, rfl, rfl⟩ hrest hrest'
  · intro n n' result result' hn hresult
    exact .halted hresult ⟨hn, rfl, rfl⟩

end Corresponds

variable [Console κ] {settings : Settings} {r r' : Run κ} {line : Entry Statement} {m : Machine κ}

/-- A trace does not depend on the line numbers, because there is none or because the map changes
none. -/
def TracesAlike (κ : Type) [Console κ] (f : Nat → Nat) (settings : Settings) : Prop :=
  ∀ line : Entry Statement,
    (traceLine settings (line.renumber f) : Action (Machine κ) Unit) = traceLine settings line

theorem traceLine_alike {R : Environment → Environment → Prop} (htrace : TracesAlike κ f settings)
    (line : Entry Statement) :
    Alike (Machine.Agrees R) (traceLine settings line : Action (Machine κ) Unit)
      (traceLine settings (line.renumber f)) := by
  rw [htrace line]
  unfold traceLine
  split
  · exact Machine.onConsole_alike _
  · exact .pure _

theorem sameResult_of_trace {e : Error} {m m' : Machine κ}
    (h : traceLine settings line m = (.error e, m')) : SameResult f (.error e) (.error e) := by
  have hkeeps : Keeps (fun _ : Machine κ => True) (fun e =>
      e.line = none) (traceLine settings line) := by
    unfold traceLine
    split
    · refine Machine.onConsole_keeps (I := fun _ => True) _ fun fault => ?_
      cases fault <;> rfl
    · exact .pure _
  have hline : e.line = none := (hkeeps m trivial).2 e (by rw [h])
  have hcode : e.code ≠ .undefinedLine := by
    rcases (traceLine_error h).code with hcode | hcode <;> simp [hcode]
  have hsame : e.renumber f = e := by
    obtain ⟨code, line, position, detail⟩ := e
    obtain rfl : line = none := hline
    rfl
  have hresult : SameResult f (.error e) (.error (e.renumber f)) := .error hcode
  rwa [hsame] at hresult

omit [Console κ] in
theorem entering_agrees (hm : r.machine.Agrees (Environment.Matches f S G) r'.machine)
    (hrest : r.machine.environment.IsResting) (hrest' : r'.machine.environment.IsResting)
    (hline : line.number ∈ S) :
    (r.entering line).Agrees (Environment.Corresponds f S G) (r'.entering (line.renumber f)) := by
  have henv := hm.environment
  refine ⟨⟨⟨henv.store, henv.frames, henv.lines_mem, henv.generator⟩, rfl, hline, ?_, ?_⟩,
    hm.console, hm.interrupt⟩
  · exact hrest'.1.trans hrest.1.symm
  · exact hrest'.2.trans hrest.2.symm

namespace Corresponds

variable (hp : p.Corresponds f S G p') (htrace : TracesAlike κ f settings)
include hp htrace

/-- Two runs at a line execute it together. -/
theorem executeLine (hline : p.line? r.index = some line) (hr : r.Corresponds f S G r')
    (hrest : r.machine.environment.IsResting) (hrest' : r'.machine.environment.IsResting) :
    (p.executeLine settings line r).Corresponds f S G
      (p'.executeLine settings (line.renumber f) r') := by
  have hentering := entering_agrees hr.machine hrest hrest' (hp.number_mem _ _ hline)
  have htraced := traceLine_alike htrace line _ _ hentering
  have hfailed := @sameResult_of_trace κ f _ settings line
  rw [executeLine_eq, executeLine_eq, hr.index, hr.steps]
  generalize hu : traceLine settings line (r.entering line) = u at htraced ⊢
  generalize traceLine settings (line.renumber f) (r'.entering (line.renumber f)) = u' at htraced ⊢
  obtain ⟨result, m⟩ := u
  obtain ⟨result', m'⟩ := u'
  obtain ⟨rfl, hm⟩ := htraced
  have hmatches : ∀ {m m' : Machine κ} (steps : Nat), m.Agrees (Environment.Corresponds f S G) m' →
      Run.Corresponds f S G (⟨m, r.index, steps⟩ : Run κ) ⟨m', r.index, steps⟩ :=
    fun _ h => ⟨⟨h.environment.toMatches, h.console, h.interrupt⟩, rfl, rfl⟩
  cases result with
  | error e => exact .halted (hfailed hu) (hmatches _ hm)
  | ok _ =>
    have hexecuted :=
      Statement.execute_alike (hp.mentioned_mem _ _ hline) (hp.respects _ _ hline) _ _ hm
    have hbare := line.item.execute_keeps_bare m trivial
    dsimp only [Entry.renumber] at hexecuted hbare ⊢
    generalize line.item.execute m = v at hexecuted hbare ⊢
    generalize (line.item.renumber f).execute m' = v' at hexecuted ⊢
    obtain ⟨result, m₁⟩ := v
    obtain ⟨result', m₁'⟩ := v'
    obtain ⟨rfl, hm₁⟩ := hexecuted
    cases result with
    | error e =>
      have hcode : (e.inLine line.number).code ≠ .undefinedLine := by
        intro hundefined
        have hstatement := (hbare.2 e rfl).code
        simp [show e.code = .undefinedLine from
          hundefined, ErrorCode.OfStatements, ErrorCode.OfValues] at hstatement
      exact .halted (.error hcode) (hmatches _ hm₁)
    | ok _ => exact hp.follow hm₁ line.number r.index (r.steps + 1)

/-- Two runs take a step together. -/
theorem step (hr : r.Corresponds f S G r') (hrest : r.machine.environment.IsResting)
    (hrest' : r'.machine.environment.IsResting) :
    (p.step settings r).Corresponds f S G (p'.step settings r') := by
  have hline' := hp.line?_eq r'.index
  cases hline : p.line? r.index with
  | none =>
    rw [hr.index, hline] at hline'
    rw [step_of_none hline, step_of_none (hr.index ▸ hline')]
    exact .halted .ok hr
  | some line =>
    rw [hr.index, hline, Option.map_some, ← hr.index] at hline'
    cases hlimit : settings.isLimit r.steps with
    | true =>
      rw [step_of_limit hline hlimit, step_of_limit hline' (by rw [hr.steps, hlimit])]
      exact .halted (.error (e := limitError _) (by simp [limitError, Error.because])) hr
    | false =>
      have hlimit' : settings.isLimit r'.steps = false := by rw [hr.steps, hlimit]
      cases hinterrupt : settings.breakable && r.machine.interrupt with
      | true =>
        rw [step_of_interrupt hline hlimit hinterrupt,
          step_of_interrupt hline' hlimit' (by rw [hr.machine.interrupt, hinterrupt])]
        refine .halted (.error (e := Error.inLine { code := .interrupted } line.number) (by simp))
          ?_
        exact ⟨⟨hr.machine.environment, hr.machine.console, rfl⟩, hr.index, hr.steps⟩
      | false =>
        rw [step_of_line hline hlimit hinterrupt,
          step_of_line hline' hlimit' (by rw [hr.machine.interrupt, hinterrupt])]
        exact hp.executeLine htrace hline hr hrest hrest'

/-- Two runs go on together for any number of steps. -/
theorem advance {progress progress' : Progress κ} (h : progress.Corresponds f S G progress')
    (count : Nat) :
    (p.advance settings count progress).Corresponds f S G
      (p'.advance settings count progress') := by
  induction count generalizing progress progress' with
  | zero => exact h
  | succ count ih =>
    cases h with
    | running hr hrest hrest' =>
      rw [advance_succ_running, advance_succ_running]
      exact ih (hp.step htrace hr hrest hrest')
    | halted hresult hr =>
      rw [advance_halted, advance_halted]
      exact .halted hresult hr

/-- If the one run executes a line, the other executes the corresponding one. -/
theorem executes (hr : r.Corresponds f S G r') (hrest : r.machine.environment.IsResting)
    (hrest' : r'.machine.environment.IsResting) (h : p.Executes settings r line m) :
    ∃ m', p'.Executes settings r' (line.renumber f) m' := by
  have hentering := entering_agrees hr.machine hrest hrest' (hp.number_mem _ _ h.line_eq)
  have htraced := (traceLine_alike htrace line _ _ hentering).1
  rw [h.trace_eq] at htraced
  refine ⟨(traceLine settings (line.renumber f) (r'.entering (line.renumber f))).2, ?_, ?_, ?_, ?_⟩
  · rw [hp.line?_eq, hr.index, h.line_eq]
    rfl
  · rw [hr.steps, h.limit_eq]
  · rw [hr.machine.interrupt, h.interrupt_eq]
  · exact Prod.ext htraced.symm rfl

/-- If the other run executes a line, it is one that corresponds to a line that the one run
executes. -/
theorem exists_executes {line' : Entry Statement} {m' : Machine κ} (hr : r.Corresponds f S G r')
    (hrest : r.machine.environment.IsResting) (hrest' : r'.machine.environment.IsResting)
    (h : p'.Executes settings r' line' m') :
    ∃ line m, line' = line.renumber f ∧ p.Executes settings r line m := by
  have hline := h.line_eq
  rw [hp.line?_eq, hr.index, Option.map_eq_some_iff] at hline
  obtain ⟨line, hline, rfl⟩ := hline
  have hentering := entering_agrees hr.machine hrest hrest' (hp.number_mem _ _ hline)
  have htraced := (traceLine_alike htrace line _ _ hentering).1
  rw [h.trace_eq] at htraced
  refine ⟨line, (traceLine settings line (r.entering line)).2, rfl, hline, ?_, ?_, ?_⟩
  · rw [← hr.steps, h.limit_eq]
  · rw [← hr.machine.interrupt, h.interrupt_eq]
  · exact Prod.ext htraced rfl

end Corresponds

omit [Console κ] in
theorem isResting_start (env : Environment) (console : κ) (interrupt : Bool) :
    (start env console interrupt).machine.environment.IsResting :=
  ⟨rfl, rfl⟩

omit [Console κ] in
/-- Runs from matching environments begin together. -/
theorem start_corresponds {env env' : Environment} (h : env.Matches f S G env') (console : κ)
    (interrupt : Bool) :
    Progress.Corresponds f S G (.running (start env console interrupt))
      (.running (start env' console interrupt)) :=
  .running ⟨⟨⟨h.store, h.frames, h.lines_mem, h.generator⟩, rfl, rfl⟩, rfl, rfl⟩
    (isResting_start env console interrupt) (isResting_start env' console interrupt)

end Program

/-- An environment without variables, as a program leaves it that has stopped behind a jump. -/
def Environment.leftBehind (seed : UInt64) (generator : Generator) : Environment :=
  { Environment.ofSeed seed with generator, counter := 5, transfer := .jump, ended := true }

end LineBasic
