/-!
# Names

Variables and functions are named without regard to case, so a name is kept in upper case. A name
that ends in a dollar sign stands for a text.
-/

namespace LineBasic

/-- The name of a variable or function. -/
structure Ident where
  /-- The name in upper case. -/
  name : String
  deriving DecidableEq, Repr

/-- Whether a name is one of a text. -/
def endsInDollar (name : String) : Bool :=
  name.toList.getLast? == some '$'

namespace Ident

/-- The name that a text spells. The `new` of the interpreter's `Ident`. -/
def ofText (s : String) : Ident :=
  ⟨s.toUpper⟩

/-- Whether the name is one of a text. The interpreter's `is_string`. -/
def isText (v : Ident) : Bool :=
  endsInDollar v.name

end Ident

end LineBasic
