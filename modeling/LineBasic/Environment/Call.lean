import LineBasic.Builtin
import LineBasic.Environment.Generator
import LineBasic.Action
import LineBasic.Text.Utf8
import LineBasic.Value

/-!
# Calling a built-in function

A call is checked for the number of its arguments and then for their types, from the first on.
Lengths and slices of texts count bytes.

The checks and the functions are those of sections 4.3 and 10.3 of the language specification.
-/

namespace LineBasic

namespace Builtin

/-- The error of a wrong number of arguments. -/
def countError (f : Builtin) (count : Nat) : Error :=
  .because .argumentCount
    ("function " ++ f.name ++ " expects " ++ f.arity.repr ++ " argument(s), got " ++ count.repr)

/-- The error of the first argument that has the wrong type, the arguments being counted from
`index`. The function registry's `number` and `string` report it. -/
def mismatch (index : Nat) : List Parameter → List Value → Error
  | .number :: ps, .number _ :: vs => mismatch (index + 1) ps vs
  | .text :: ps, .text _ :: vs => mismatch (index + 1) ps vs
  | .number :: _, _ => .because .typeMismatch ("argument " ++ index.repr ++ " must be numeric")
  | .text :: _, _ => .because .typeMismatch ("argument " ++ index.repr ++ " must be string")
  | [], _ => { code := .typeMismatch }

/-- The error of arguments that a function does not take. -/
def argumentError (f : Builtin) (arguments : List Value) : Error :=
  if arguments.length = f.arity then mismatch 1 f.parameters arguments
  else f.countError arguments.length

/-- The bytes of a text from the index `first` up to the index `last`, read as text again. There is
no such slice where the indices are in the wrong order or beyond the text. -/
def slice? (s : String) (first last : Nat) : Option String :=
  if first ≤ last ∧ last ≤ s.utf8ByteSize then
    some (String.ofList (Text.decodeLossy ((Text.bytes s).extract first last)))
  else none

/-- The part of a text from the byte with number `start` on, at most `length` bytes long. Fractions
are cut off; a start outside the text, a length that is not positive, and what is not a number give
the text without characters. The function registry's `mid`, and none if the slice that it takes were
not one of the text. -/
def middle? (s : String) (start length : Float) : Option String :=
  let start := Number.truncate start
  let length := Number.truncate length
  let size := Number.ofNat s.utf8ByteSize
  if start.isNaN ∨ length.isNaN then some ""
  else if start < 1 ∨ length ≤ 0 ∨ size < start then some ""
  else
    let first := start.toUInt64.toNat - 1
    slice? s first (min (Number.ofNat first + length) size).toUInt64.toNat

/-- Calls a function. The function registry's `call`, with the bodies of its entries. A text of less
than `2 ^ 53` bytes always has a middle part (`exists_middle?`). -/
def call : Builtin → List Value → Action Generator Value
  | .abs, [.number x] => pure (.number x.abs)
  | .cos, [.number x] => pure (.number x.cos)
  | .int, [.number x] => pure (.number (Number.truncate x))
  | .len, [.text s] => pure (.number (Number.ofNat s.utf8ByteSize))
  | .mid, [.text s, .number start, .number length] =>
    pure (.text ((middle? s start length).getD ""))
  | .rnd, [] => fun g =>
    let (x, g) := g.draw
    (.ok (.number x), g)
  | .sin, [.number x] => pure (.number x.sin)
  | .sqr, [.number x] =>
    if x < 0 then .fail (.because .illegalFunctionCall "SQR of negative number")
    else pure (.number x.sqrt)
  | .str, [.number x] => pure (.text (Value.number x).toText)
  | .val, [.text s] => .ofExcept ((Value.text s).toNumber.map .number)
  | f, arguments => .fail (f.argumentError arguments)

end Builtin

end LineBasic
