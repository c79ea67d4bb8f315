import LineBasic.Action
import LineBasic.Statement.Basic
import Std.Data.ExtTreeMap

/-!
# Line tables

The lines of a program are kept twice: the statements in a map from line numbers, and the line
numbers alone in an array in the order of execution. A number is found in the array by bisection
(`LineTable.search`), which also gives the place of a number that is not there. `LineTable.insert`
puts a line into both. The two are in step (`LineTable.InStep`) if the array is in ascending order
and has the numbers of the map, and insertion keeps them so (`LineTable.InStep.insert`).

Both parts, the bounds and the order are those of section 3 of the language specification.
-/

namespace LineBasic

/-- The greatest number that a program line can have. -/
def maxLineNumber : Nat := 99999

/-- Whether a program line can have this number. -/
def isLineNumber (n : Nat) : Bool :=
  1 ≤ n && n ≤ maxLineNumber

/-- The lines of a program: its statements under their line numbers, and the numbers in the order of
execution. The two fields of the interpreter's `Program`. -/
structure LineTable where
  statements : Std.ExtTreeMap Nat Statement
  lineNumbers : Array Nat

namespace LineTable

/-- The table without lines. -/
def empty : LineTable :=
  ⟨∅, #[]⟩

/-- The least index from `low` on whose number is not below `n`, and `high` if there is none before
it. -/
def lowerBound (numbers : Array Nat) (n low high : Nat) : Nat :=
  if low < high then
    let middle := (low + high) / 2
    if numbers[middle]?.any (· < n) then lowerBound numbers n (middle + 1) high
    else lowerBound numbers n low middle
  else low
termination_by high - low

theorem lowerBound_le (numbers : Array Nat) (n low high : Nat) (h : low ≤ high) :
    lowerBound numbers n low high ≤ high := by
  fun_induction lowerBound numbers n low high with
  | case1 low high hlt middle _ ih => exact ih (by omega)
  | case2 low high hlt middle _ ih => exact Nat.le_trans (ih (by omega)) (by omega)
  | case3 low high hge => exact h

/-- Looks for a number by bisection: its index, or as an error the index at which it belongs. -/
def search (numbers : Array Nat) (n : Nat) : Except { i // i ≤ numbers.size } Nat :=
  let i := lowerBound numbers n 0 numbers.size
  if numbers[i]? = some n then .ok i
  else .error ⟨i, lowerBound_le numbers n 0 numbers.size (Nat.zero_le _)⟩

/-- The index of a line number in the order of execution. The interpreter's `index_of`. -/
def indexOf? (t : LineTable) (n : Nat) : Option Nat :=
  (search t.lineNumbers n).toOption

/-- The statement under a line number. -/
def get? (t : LineTable) (n : Nat) : Option Statement :=
  t.statements[n]?

/-- Puts a statement under a line number, which must be within the bounds and new to the table. -/
def insert (n : Nat) (statement : Statement) : Action LineTable Unit := fun t =>
  if !isLineNumber n then
    (.error (.because .invalidLineNumber ("invalid line number " ++ n.repr)), t)
  else
    match search t.lineNumbers n with
    | .ok _ => (.error (.because .duplicateLine ("duplicate line number " ++ n.repr)), t)
    | .error i =>
      (.ok (), {
        statements := t.statements.insert n statement
        lineNumbers := t.lineNumbers.insertIdx i n i.property })

/-! ## Bisection -/

theorem pairwise_lt_iff {numbers : Array Nat} :
    numbers.toList.Pairwise (· < ·) ↔
      ∀ i j m n : Nat, i < j → numbers[i]? = some m → numbers[j]? = some n → m < n := by
  rw [List.pairwise_iff_getElem]
  constructor
  · intro h i j m n hij hi hj
    obtain ⟨hisize, rfl⟩ := Array.getElem?_eq_some_iff.mp hi
    obtain ⟨hjsize, rfl⟩ := Array.getElem?_eq_some_iff.mp hj
    exact h i j hisize hjsize hij
  · intro h i j hi hj hij
    exact h i j _ _ hij (Array.getElem?_eq_getElem hi) (Array.getElem?_eq_getElem hj)

section Ascending

variable {numbers : Array Nat} (hascending : numbers.toList.Pairwise (· < ·))
include hascending

/-- Bisection ends where the numbers stop being below `n`. -/
theorem lowerBound_spec (n low high : Nat) (hle : low ≤ high) (hsize : high ≤ numbers.size)
    (hbelow : ∀ i m, i < low → numbers[i]? = some m → m < n)
    (habove : ∀ i m, high ≤ i → numbers[i]? = some m → n ≤ m) :
    (∀ i m, i < lowerBound numbers n low high → numbers[i]? = some m → m < n) ∧
      ∀ i m, lowerBound numbers n low high ≤ i → numbers[i]? = some m → n ≤ m := by
  have hordered := pairwise_lt_iff.mp hascending
  fun_induction lowerBound numbers n low high with
  | case1 low high hlt middle hsmall ih =>
    have hmiddle : numbers[middle]? = some numbers[middle] := Array.getElem?_eq_getElem (by omega)
    have hkn : numbers[middle] < n := by
      rw [hmiddle] at hsmall
      simpa using hsmall
    refine ih (by omega) hsize ?_ habove
    intro i m hi hm
    rcases Nat.lt_or_eq_of_le (Nat.lt_succ_iff.mp hi) with hi | rfl
    · exact Nat.lt_trans (hordered i middle m _ hi hm hmiddle) hkn
    · rw [hmiddle] at hm
      exact Option.some.inj hm ▸ hkn
  | case2 low high hlt middle hlarge ih =>
    have hmiddle : numbers[middle]? = some numbers[middle] := Array.getElem?_eq_getElem (by omega)
    have hkn : n ≤ numbers[middle] := by
      rw [hmiddle] at hlarge
      simpa using hlarge
    refine ih (by omega) (by omega) hbelow ?_
    intro i m hi hm
    rcases Nat.lt_or_eq_of_le hi with hi | rfl
    · exact Nat.le_trans hkn (Nat.le_of_lt (hordered middle i _ m hi hmiddle hm))
    · rw [hmiddle] at hm
      exact Option.some.inj hm ▸ hkn
  | case3 low high hge =>
    obtain rfl : low = high := by omega
    exact ⟨hbelow, habove⟩

/-- The place that bisection gives parts the numbers below `n` from the others. -/
theorem lowerBound_parts (n : Nat) :
    (∀ i m, i < lowerBound numbers n 0 numbers.size → numbers[i]? = some m → m < n) ∧
      ∀ i m, lowerBound numbers n 0 numbers.size ≤ i → numbers[i]? = some m → n ≤ m := by
  refine lowerBound_spec hascending n 0 numbers.size (Nat.zero_le _) (Nat.le_refl _) ?_ ?_
  · intro i m hi
    exact absurd hi (Nat.not_lt_zero i)
  · intro i m hi hm
    rw [Array.getElem?_eq_none hi] at hm
    cases hm

/-- Bisection finds a number at its index and nowhere else. -/
theorem search_eq_ok_iff {n i : Nat} : search numbers n = .ok i ↔ numbers[i]? = some n := by
  obtain ⟨hbelow, habove⟩ := lowerBound_parts hascending n
  have hordered := pairwise_lt_iff.mp hascending
  unfold search
  dsimp only
  constructor
  · intro h
    split at h
    · rename_i hfound
      cases h
      exact hfound
    · cases h
  · intro h
    have hle : lowerBound numbers n 0 numbers.size ≤ i :=
      Nat.le_of_not_lt fun hlt => Nat.lt_irrefl n (hbelow i n hlt h)
    have heq : lowerBound numbers n 0 numbers.size = i := by
      refine Nat.le_antisymm hle (Nat.le_of_not_lt fun hlt => ?_)
      -- a number before that of index `i` is below it, but not below `n`
      have hsize : i < numbers.size := (Array.getElem?_eq_some_iff.mp h).1
      have hk : numbers[lowerBound numbers n 0 numbers.size]? =
          some numbers[lowerBound numbers n 0 numbers.size] :=
        Array.getElem?_eq_getElem (Nat.lt_trans hlt hsize)
      exact Nat.lt_irrefl n
        (Nat.lt_of_le_of_lt (habove _ _ (Nat.le_refl _) hk) (hordered _ i _ n hlt hk h))
    rw [if_pos (heq ▸ h), heq]

/-- A number that bisection does not find is not there, and belongs where the smaller numbers
end. -/
theorem search_eq_error {n : Nat} {i : { i // i ≤ numbers.size }}
    (h : search numbers n = .error i) :
    (∀ j m, j < i.val → numbers[j]? = some m → m < n) ∧ ∀ j m, i.val ≤ j →
      numbers[j]? = some m → n < m := by
  obtain ⟨hbelow, habove⟩ := lowerBound_parts hascending n
  have hi : lowerBound numbers n 0 numbers.size = i.val := by
    unfold search at h
    dsimp only at h
    split at h
    · cases h
    · cases h
      rfl
  rw [hi] at hbelow habove
  refine ⟨hbelow, fun j m hj hm => Nat.lt_of_le_of_ne (habove j m hj hm) ?_⟩
  rintro rfl
  rw [(search_eq_ok_iff hascending).mpr hm] at h
  cases h

/-- A number that is put where it belongs leaves the numbers in ascending order. -/
theorem pairwise_insertIdx {n : Nat} {i : { i // i ≤ numbers.size }}
    (h : search numbers n = .error i) :
    (numbers.insertIdx i n i.property).toList.Pairwise (· < ·) := by
  obtain ⟨hbelow, habove⟩ := search_eq_error hascending h
  obtain ⟨i, hi⟩ := i
  have hordered := pairwise_lt_iff.mp hascending
  -- behind the new number the indices are one higher than before
  have hplace : ∀ {j m : Nat}, (numbers.insertIdx i n hi)[j]? = some m →
      j < i ∧ numbers[j]? = some m ∨ j = i ∧ m = n ∨ i ≤ j - 1 ∧ i < j ∧
        numbers[j - 1]? = some m := by
    intro j m hm
    rw [Array.getElem?_insertIdx] at hm
    grind
  rw [pairwise_lt_iff]
  intro j k l m hjk hl hm
  rcases hplace hl with ⟨hj, hl'⟩ | ⟨rfl, rfl⟩ | ⟨hj, hij, hl'⟩
  · rcases hplace hm with ⟨hk, hm'⟩ | ⟨rfl, rfl⟩ | ⟨hk, hik, hm'⟩
    · exact hordered j k l m hjk hl' hm'
    · exact hbelow j l hj hl'
    · exact hordered j (k - 1) l m (by omega) hl' hm'
  · rcases hplace hm with ⟨hk, hm'⟩ | ⟨rfl, rfl⟩ | ⟨hk, hik, hm'⟩
    · omega
    · omega
    · exact habove (k - 1) m hk hm'
  · rcases hplace hm with ⟨hk, hm'⟩ | ⟨rfl, rfl⟩ | ⟨hk, hik, hm'⟩
    · omega
    · omega
    · exact hordered (j - 1) (k - 1) l m (by omega) hl' hm'

end Ascending

/-! ## The map and the array in step -/

/-- The array has the numbers of the map, in ascending order. -/
structure InStep (t : LineTable) : Prop where
  ascending : t.lineNumbers.toList.Pairwise (· < ·)
  mem_iff : ∀ n, n ∈ t.lineNumbers ↔ n ∈ t.statements

theorem inStep_empty : empty.InStep where
  ascending := .nil
  mem_iff n := by simp [empty]

theorem InStep.insert {t : LineTable} (ht : t.InStep) (n : Nat) (statement : Statement) :
    (LineTable.insert n statement t).2.InStep := by
  fun_cases LineTable.insert n statement t with
  | case1 hn => exact ht
  | case2 hn i h => exact ht
  | case3 hn i h =>
    refine ⟨pairwise_insertIdx ht.ascending h, fun m => ?_⟩
    rw [Array.mem_insertIdx, Std.ExtTreeMap.mem_insert, Nat.compare_eq_eq, ht.mem_iff, eq_comm]

end LineTable

end LineBasic
