import Std.Data.HashMap
import LineBasic.Action
import LineBasic.Ident
import LineBasic.Value

/-!
# The variable store

A store holds values under names, at most `memoryLimit` of them. A name that has no value reads as
zero, or as the empty text if it ends in a dollar sign.

This is the variable store of section 3 of the language specification.
-/

namespace LineBasic

/-- How many variables a store and how many elements a stack can hold. -/
def memoryLimit : Nat := 65535

/-- The values of variables. The interpreter's `Var`. -/
structure Store where
  cells : Std.HashMap String Value
  size_le : cells.size ≤ memoryLimit

namespace Store

/-- The store without values. -/
def empty : Store :=
  ⟨∅, by simp⟩

/-- How many names have a value. -/
def size (s : Store) : Nat :=
  s.cells.size

/-- Whether no name has a value. -/
def isEmpty (s : Store) : Bool :=
  s.cells.isEmpty

/-- What a name without a value reads as. -/
def defaultValue (name : String) : Value :=
  if endsInDollar name then .text "" else .number 0

/-- The value of a name. -/
def fetch (s : Store) (name : String) : Value :=
  s.cells.getD name (defaultValue name)

/-- Whether a value can be stored under a name: it has one, or there is room. -/
def Accepts (s : Store) (name : String) : Prop :=
  name ∈ s.cells ∨ s.cells.size < memoryLimit

instance (s : Store) (name : String) : Decidable (s.Accepts name) :=
  inferInstanceAs (Decidable (_ ∨ _))

/-- A store with a value under a name that it accepts. -/
def insert (s : Store) (name : String) (value : Value) (h : s.Accepts name) : Store where
  cells := s.cells.insert name value
  size_le := by
    have hle := s.size_le
    rw [Std.HashMap.size_insert]
    split
    · exact hle
    · rename_i hmem
      exact Nat.succ_le_of_lt (h.resolve_left hmem)

theorem fetch_empty (name : String) : empty.fetch name = defaultValue name := by
  simp [fetch, empty]

/-- A value that was stored is read back, and the values of other names stay. -/
theorem fetch_insert (s : Store) (name other : String) (value : Value) (h : s.Accepts name) :
    (s.insert name value h).fetch other = if name = other then value else s.fetch other := by
  simp [fetch, insert, Std.HashMap.getD_insert]

/-- The error of a full store. -/
def tooManyVariables : Error :=
  .because .outOfMemory "too many variables"

/-- Stores a value under a name. -/
def store (name : String) (value : Value) : Action Store Unit :=
  fun s =>
    if h : s.Accepts name then (.ok (), s.insert name value h) else (.error tooManyVariables, s)

end Store

end LineBasic
