import LineBasic.Action
import LineBasic.Environment.Store

/-!
# Stacks

A stack holds at most `memoryLimit` elements.
-/

namespace LineBasic

/-- A stack of bounded height, the top at the end. -/
structure Stack (α : Type) where
  items : Array α
  size_le : items.size ≤ memoryLimit

namespace Stack

variable {α : Type}

/-- The stack without elements. -/
def empty : Stack α :=
  ⟨#[], by simp⟩

/-- How many elements a stack has. -/
def size (s : Stack α) : Nat :=
  s.items.size

/-- Whether a stack has no elements. -/
def isEmpty (s : Stack α) : Bool :=
  s.items.isEmpty

/-- The top element. The interpreter's `last`. -/
def top? (s : Stack α) : Option α :=
  s.items.back?

/-- Puts an element on top. A full stack fails with the given words. -/
def push (overflow : String) (a : α) : Action (Stack α) Unit :=
  fun s =>
    if h : s.items.size < memoryLimit then
      (.ok (), ⟨s.items.push a, by rw [Array.size_push]; exact h⟩)
    else (.error (.because .outOfMemory overflow), s)

/-- A stack without its top element. -/
def pop (s : Stack α) : Stack α :=
  ⟨s.items.pop, Nat.le_trans (by simp) s.size_le⟩

/-- A stack with another top element. The empty stack stays empty. The interpreter writes it through
`last_mut`. -/
def setTop (s : Stack α) (a : α) : Stack α :=
  if h : 0 < s.items.size then
    ⟨s.items.pop.push a, by have := s.size_le; simp; omega⟩
  else s

/-- What was put on top is the top. -/
theorem top?_of_push {overflow : String} {a : α} {s t : Stack α}
    (h : push overflow a s = (.ok (), t)) : t.top? = some a := by
  unfold push at h
  split at h
  · obtain rfl := (Prod.mk.inj h).2
    simp [top?]
  · exact nomatch (Prod.mk.inj h).1

/-- Taking away what was put on top gives the stack before. -/
theorem pop_of_push {overflow : String} {a : α} {s t : Stack α}
    (h : push overflow a s = (.ok (), t)) : t.pop = s := by
  unfold push at h
  split at h
  · obtain rfl := (Prod.mk.inj h).2
    simp [pop]
  · exact nomatch (Prod.mk.inj h).1

/-- The elements of a stack from the bottom up, in brackets. -/
def describe (element : α → String) (s : Stack α) : String :=
  "[" ++ ", ".intercalate (s.items.toList.map element) ++ "]"

end Stack

end LineBasic
