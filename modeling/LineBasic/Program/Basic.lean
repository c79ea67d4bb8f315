import LineBasic.Program.Table

/-!
# Programs

A program has one statement under each of its line numbers, and is executed in ascending order of
them. It is a table of lines with the proof that the two parts of the table are in step.
-/

namespace LineBasic

/-- A program: a table of lines whose map and array are in step. -/
structure Program where
  table : LineTable
  inStep : table.InStep

namespace Program

/-- The program without lines. -/
def empty : Program :=
  ⟨.empty, LineTable.inStep_empty⟩

/-- How many lines a program has. The interpreter's `len`. -/
def size (p : Program) : Nat :=
  p.table.lineNumbers.size

/-- Whether a program has no lines. -/
def isEmpty (p : Program) : Bool :=
  p.table.lineNumbers.isEmpty

/-- The line numbers of a program, in ascending order. -/
def lineNumbers (p : Program) : List Nat :=
  p.table.lineNumbers.toList

/-- The line number at an index, in the order of execution. -/
def lineNumber? (p : Program) (i : Nat) : Option Nat :=
  p.table.lineNumbers[i]?

/-- The index of a line number in the order of execution. -/
def indexOf? (p : Program) (n : Nat) : Option Nat :=
  p.table.indexOf? n

/-- The statement under a line number. -/
def get? (p : Program) (n : Nat) : Option Statement :=
  p.table.get? n

/-- Puts a statement under a line number, which must be within the bounds and new to the program. -/
def insert (n : Nat) (statement : Statement) : Action Program Unit := fun p =>
  let outcome := LineTable.insert n statement p.table
  (outcome.1, ⟨outcome.2, p.inStep.insert n statement⟩)

/-- A line is refused for its number. -/
theorem eq_because_of_insert {p : Program} {n : Nat} {statement : Statement} {e : Error}
    (h : (insert n statement p).1 = .error e) :
    e = .because .invalidLineNumber ("invalid line number " ++ n.repr) ∨
      e = .because .duplicateLine ("duplicate line number " ++ n.repr) := by
  change (LineTable.insert n statement p.table).1 = .error e at h
  revert h
  fun_cases LineTable.insert n statement p.table with
  | case1 => exact fun h => .inl (Except.error.inj h).symm
  | case2 => exact fun h => .inr (Except.error.inj h).symm
  | case3 =>
    intro h
    cases h

end Program

end LineBasic
