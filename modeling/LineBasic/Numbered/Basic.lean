/-!
# Numbered lines

Items under numbers, in ascending order of the numbers. The source text of a program is kept this
way.
-/

namespace LineBasic

/-- An item under a number. -/
structure Entry (α : Type) where
  number : Nat
  item : α
  deriving DecidableEq, Repr

/-- Items under numbers, in ascending order. -/
structure Numbered (α : Type) where
  entries : Array (Entry α)
  ascending : entries.toList.Pairwise (·.number < ·.number)

namespace Numbered

variable {α : Type}

/-- No items. -/
def empty : Numbered α :=
  ⟨#[], .nil⟩

instance : Inhabited (Numbered α) := ⟨empty⟩

/-- How many items there are. -/
def size (l : Numbered α) : Nat :=
  l.entries.size

/-- Whether there are no items. -/
def isEmpty (l : Numbered α) : Bool :=
  l.entries.isEmpty

/-- The numbers, in ascending order. -/
def numbers (l : Numbered α) : List Nat :=
  l.entries.toList.map (·.number)

/-- The items, in ascending order of their numbers. -/
def items (l : Numbered α) : List α :=
  l.entries.toList.map (·.item)

/-- The item under a number. -/
def get? (l : Numbered α) (n : Nat) : Option α :=
  (l.entries.find? (·.number = n)).map (·.item)

/-- The entries with one more at its place, instead of any with the same number. -/
def entriesWith (l : Numbered α) (e : Entry α) : List (Entry α) :=
  l.entries.toList.filter (·.number < e.number) ++ e ::
    l.entries.toList.filter (e.number < ·.number)

theorem entriesWith_ascending (l : Numbered α) (e : Entry α) :
    (l.entriesWith e).Pairwise (·.number < ·.number) := by
  refine List.pairwise_append.mpr
    ⟨l.ascending.filter _, List.pairwise_cons.mpr ⟨?_, l.ascending.filter _⟩, ?_⟩
  · intro x hx
    simpa using (List.mem_filter.mp hx).2
  · intro x hx y hy
    have hlow : x.number < e.number := by simpa using (List.mem_filter.mp hx).2
    rcases List.mem_cons.mp hy with rfl | hy
    · exact hlow
    · have hhigh : e.number < y.number := by simpa using (List.mem_filter.mp hy).2
      exact Nat.lt_trans hlow hhigh

/-- Puts an item under a number, instead of any that is there. -/
def put (l : Numbered α) (n : Nat) (a : α) : Numbered α :=
  ⟨(l.entriesWith ⟨n, a⟩).toArray, by simpa using l.entriesWith_ascending ⟨n, a⟩⟩

/-- Takes the item under a number away. -/
def erase (l : Numbered α) (n : Nat) : Numbered α :=
  ⟨(l.entries.toList.filter (·.number ≠ n)).toArray, by simpa using l.ascending.filter _⟩

end Numbered

end LineBasic
