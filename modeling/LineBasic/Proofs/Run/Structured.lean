import LineBasic.Proofs.Program.Insert
import LineBasic.Proofs.Run.Control

/-!
# Structured programs

A `Block` is a program written as a tree: simple statements one after the other, and loops around
blocks. `Block.lines` writes it down as program lines, a loop as the line that opens it, the lines
of its body and the line that closes it. `Block.interpret` is the meaning of the tree, with no
index, no stack of open loops and no transfer: a loop runs its body and counts in a counter of its
own until the limit is passed. A bound on the turns of each loop makes the interpreter a function:
it has no outcome if a loop takes more turns, and a block comes to an end if it has one under some
bound.
-/

namespace LineBasic

/-- The lines around the body of a loop. -/
structure LoopHead where
  /-- The number of the line that opens the loop. -/
  number : Nat
  counter : Ident
  start : Expr
  limit : Expr
  step : Expr
  /-- The number of the line that closes the loop. -/
  closing : Nat
  /-- Whether the closing line names the variable. -/
  named : Bool

/-- A structured program. -/
inductive Block where
  | done
  | simple (number : Nat) (statement : Statement) (isSimple : statement.isSimple = true)
      (rest : Block)
  | loop (head : LoopHead) (body rest : Block)

/-- The statement that opens a loop. -/
def LoopHead.opening (head : LoopHead) : Statement :=
  .loop head.counter head.start head.limit head.step head.number

/-- The statement that closes a loop. -/
def LoopHead.ending (head : LoopHead) : Statement :=
  .next (if head.named then some head.counter else none)

namespace Block

/-- The program lines of a block. -/
def lines : Block → List (Entry Statement)
  | done => []
  | simple number statement _ rest => ⟨number, statement⟩ :: rest.lines
  | loop head body rest =>
    ⟨head.number, head.opening⟩ :: (body.lines ++ ⟨head.closing, head.ending⟩ :: rest.lines)

/-- How deep the loops of a block are nested. -/
def depth : Block → Nat
  | done => 0
  | simple _ _ _ rest => rest.depth
  | loop _ body rest => max (body.depth + 1) rest.depth

end Block

/-- A block whose line numbers ascend. -/
structure StructuredProgram where
  block : Block
  ascending : block.lines.Pairwise (·.number < ·.number)

/-- The program that a structured program spells. -/
def StructuredProgram.program (s : StructuredProgram) : Program :=
  .ofLines ⟨s.block.lines.toArray, s.ascending⟩

/-- The values between which a loop counts. -/
structure LoopValues where
  start : Float
  limit : Float
  step : Float

/-- Whether a counter has passed the limit, upwards or downwards as the step says. -/
def LoopValues.isPassed (values : LoopValues) (current : Float) : Bool :=
  if values.step > 0 then current > values.limit else current < values.limit

/-- How a computation ended, and the machine it left. -/
abbrev Outcome (κ : Type) := Except Error Unit × Machine κ

namespace LoopHead

open Machine Environment

variable {κ : Type}

/-- Checks the values of a loop and gives the variable its start value. -/
def enter (head : LoopHead) : Value → Value → Value → Action (Machine κ) LoopValues
  | .number start, .number limit, .number step =>
    if step == 0 then .fail { code := .stepZero }
    else do
      onEnvironment (assign head.counter (.number start))
      pure ⟨start, limit, step⟩
  | _, _, _ => .fail (.because .typeMismatch "FOR values must be numeric")

/-- Begins a loop. -/
def begin (head : LoopHead) : Action (Machine κ) LoopValues := do
  let start ← Machine.evaluate head.start
  let limit ← Machine.evaluate head.limit
  let step ← Machine.evaluate head.step
  onEnvironment (checkName head.counter)
  head.enter start limit step

/-- What comes after the body of a loop: its variable gets the next value. With the outcome comes
whether the loop takes another turn, which it does until the limit is passed. -/
def close (head : LoopHead) (values : LoopValues) (next : Float) : Outcome κ → Bool × Outcome κ
  | (.error e, m) => (false, .error e, m)
  | (.ok _, m) =>
    match onEnvironment (assign head.counter (.number next)) m with
    | (.error e, m) => (false, .error (e.inLine head.closing), m)
    | (.ok _, m) => (!values.isPassed next, .ok (), m)

section close

variable {head : LoopHead} {values : LoopValues} {next : Float} {m m' : Machine κ} {e : Error}

theorem close_of_assign_error
    (h : onEnvironment (assign head.counter (.number next)) m = (.error e, m')) :
    head.close values next (.ok (), m) = (false, .error (e.inLine head.closing), m') := by
  simp only [close, h]

theorem close_of_assign_ok
    (h : onEnvironment (assign head.counter (.number next)) m = (.ok (), m')) :
    head.close values next (.ok (), m) = (!values.isPassed next, .ok (), m') := by
  simp only [close, h]

end close

/-- Turns of a loop, from a value of its counter on and as many as the bound allows. -/
def turns (head : LoopHead) (body : Machine κ → Option (Outcome κ)) (values : LoopValues) :
    Nat → Float → Machine κ → Option (Outcome κ)
  | 0, _, _ => none
  | bound + 1, current, m => do
    let outcome ← body m
    let closed := head.close values (current + values.step) outcome
    if closed.1 then head.turns body values bound (current + values.step) closed.2.2
    else some closed.2

end LoopHead

/-- The meaning of a block, in which no loop takes more turns than the bound allows. -/
def Block.interpret {κ : Type} [Console κ] (bound : Nat) : Block → Machine κ → Option (Outcome κ)
  | .done, m => some (.ok (), m)
  | .simple number statement _ rest, m =>
    match statement.execute m with
    | (.error e, m) => some (.error (e.inLine number), m)
    | (.ok _, m) => rest.interpret bound m
  | .loop head body rest, m =>
    match head.begin m with
    | (.error e, m) => some (.error (e.inLine head.number), m)
    | (.ok values, m) => do
      let outcome ← head.turns (body.interpret bound) values bound values.start m
      match outcome with
      | (.error e, m) => some (.error e, m)
      | (.ok _, m) => rest.interpret bound m

end LineBasic
