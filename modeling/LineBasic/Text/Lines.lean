/-!
# Lines of a text

A text is cut after each line feed. The line feed is dropped, and so is one carriage return just
before it. A text that ends in a line feed has no empty last line, and a last line without a line
feed keeps its carriage return.
-/

namespace LineBasic.Text

/-- A line without the carriage return at its end, if there is one. -/
def dropReturn (cs : List Char) : List Char :=
  if cs.getLast? = some '\r' then cs.dropLast else cs

/-- The lines of a text, without their terminators. -/
def splitLines (cs : List Char) : List (List Char) :=
  match _h : cs.dropWhile (· ≠ '\n') with
  | [] => if cs.isEmpty then [] else [cs]
  | _ :: rest => dropReturn (cs.takeWhile (· ≠ '\n')) :: splitLines rest
termination_by cs.length
decreasing_by
  have hle := (List.dropWhile_suffix (l := cs) (fun c => decide (c ≠ '\n'))).length_le
  rw [_h] at hle
  exact hle

/-- The lines of a string, without their terminators. -/
def lines (s : String) : List String :=
  (splitLines s.toList).map String.ofList

/-- Lines put together again with a line feed between neighbours. -/
def joinLines (ls : List String) : String :=
  "\n".intercalate ls

end LineBasic.Text
