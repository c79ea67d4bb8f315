import LineBasic.Numbered.Basic
import LineBasic.Program.Table
import Mathlib.Data.List.Sort

/-!
# What a line table holds

As long as the map and the array of a table are in step, the array lists the numbers that have a
statement (`LineTable.InStep.mem_lineNumbers_iff`), bisection finds exactly these
(`LineTable.InStep.indexOf?_eq_some_iff`), and the statements determine the table
(`LineTable.InStep.ext`). An insertion is refused for its number alone and then leaves the table as
it is.
-/

namespace LineBasic

theorem isLineNumber_iff {n : Nat} : isLineNumber n = true ↔ 1 ≤ n ∧ n ≤ 99999 := by
  rw [isLineNumber, Bool.and_eq_true, decide_eq_true_eq, decide_eq_true_eq, maxLineNumber]

/-- Numbers in ascending order are determined by which they are. -/
theorem eq_of_mem_iff_of_pairwise_lt {l l' : List Nat} (hl : l.Pairwise (· < ·))
    (hl' : l'.Pairwise (· < ·)) (h : ∀ n, n ∈ l ↔ n ∈ l') : l = l' := by
  have hperm := (List.perm_ext_iff_of_nodup (hl.imp Nat.ne_of_lt) (hl'.imp Nat.ne_of_lt)).mpr h
  exact hperm.eq_of_pairwise (fun a b _ _ hab hba => absurd hab (Nat.lt_asymm hba)) hl hl'

namespace LineTable

variable {t t' : LineTable} {n : Nat} {st : Statement}

theorem get?_empty (n : Nat) : empty.get? n = none :=
  Std.ExtTreeMap.getElem?_empty

namespace InStep

/-- The array lists the numbers that have a statement. -/
theorem mem_lineNumbers_iff (ht : t.InStep) : n ∈ t.lineNumbers ↔ ∃ st, t.get? n = some st := by
  rw [ht.mem_iff, Std.ExtTreeMap.mem_iff_isSome_getElem?, Option.isSome_iff_exists]
  rfl

theorem get?_eq_none (ht : t.InStep) (h : n ∉ t.lineNumbers) : t.get? n = none := by
  cases hget : t.get? n with
  | none => rfl
  | some st => exact absurd (ht.mem_lineNumbers_iff.mpr ⟨st, hget⟩) h

/-- Bisection finds the place of a number in the array. -/
theorem indexOf?_eq_some_iff (ht : t.InStep) {i : Nat} :
    t.indexOf? n = some i ↔ t.lineNumbers[i]? = some n := by
  rw [← search_eq_ok_iff ht.ascending, indexOf?]
  cases search t.lineNumbers n <;> simp [Except.toOption]

/-- The array has its numbers from the map, so the map determines the table. -/
theorem ext (ht : t.InStep) (ht' : t'.InStep) (h : ∀ n, t.get? n = t'.get? n) : t = t' := by
  have hstatements : t.statements = t'.statements := Std.ExtTreeMap.ext_getElem? h
  have hnumbers : t.lineNumbers.toList = t'.lineNumbers.toList := by
    apply eq_of_mem_iff_of_pairwise_lt ht.ascending ht'.ascending
    intro n
    rw [Array.mem_toList_iff, Array.mem_toList_iff, ht.mem_iff, ht'.mem_iff, hstatements]
  obtain ⟨statements, numbers⟩ := t
  obtain ⟨statements', numbers'⟩ := t'
  obtain rfl : statements = statements' := hstatements
  obtain rfl : numbers = numbers' := Array.toList_inj.mp hnumbers
  rfl

end InStep

/-! ## Insertion -/

theorem insert_of_not_isLineNumber (hn : isLineNumber n = false) :
    insert n st t =
      (.error (.because .invalidLineNumber ("invalid line number " ++ n.repr)), t) := by
  simp [insert, hn]

theorem InStep.insert_of_mem (ht : t.InStep) (hn : isLineNumber n = true) (h : n ∈ t.lineNumbers)
    (st : Statement) :
    LineTable.insert n st t =
      (.error (.because .duplicateLine ("duplicate line number " ++ n.repr)), t) := by
  obtain ⟨i, hi⟩ := Array.mem_iff_getElem?.mp h
  have hfound := (search_eq_ok_iff ht.ascending).mpr hi
  fun_cases LineTable.insert n st t with
  | case1 hinvalid => simp [hn] at hinvalid
  | case2 => rfl
  | case3 _ i hmissing => cases hfound.symm.trans hmissing

/-- A new line goes into the map, and its number into the array. -/
theorem InStep.insert_of_not_mem (ht : t.InStep) (hn : isLineNumber n = true)
    (h : n ∉ t.lineNumbers) (st : Statement) :
    (LineTable.insert n st t).1 = .ok () ∧
      ∀ m, (LineTable.insert n st t).2.get? m = if n = m then some st else t.get? m := by
  fun_cases LineTable.insert n st t with
  | case1 hinvalid => simp [hn] at hinvalid
  | case2 _ i hfound =>
    exact absurd (Array.mem_iff_getElem?.mpr ⟨i, (search_eq_ok_iff ht.ascending).mp hfound⟩) h
  | case3 =>
    refine ⟨rfl, fun m => ?_⟩
    simp only [get?, Std.ExtTreeMap.getElem?_insert, Nat.compare_eq_eq]

/-- A line is refused for its number: it is out of bounds, or the table has it. -/
theorem InStep.insert_eq_error_iff (ht : t.InStep) {e : Error} :
    (LineTable.insert n st t).1 = .error e ↔
      isLineNumber n = false ∧ e = .because .invalidLineNumber ("invalid line number " ++ n.repr) ∨
        isLineNumber n = true ∧ n ∈ t.lineNumbers ∧
          e = .because .duplicateLine ("duplicate line number " ++ n.repr) := by
  cases hn : isLineNumber n with
  | false => simp [insert_of_not_isLineNumber hn, eq_comm]
  | true =>
    by_cases hmem : n ∈ t.lineNumbers
    · simp [ht.insert_of_mem hn hmem st, hmem, eq_comm]
    · simp [(ht.insert_of_not_mem hn hmem st).1, hmem]

/-- A line that is refused leaves the table as it is. -/
theorem insert_of_error {e : Error} (h : (insert n st t).1 = .error e) : (insert n st t).2 = t := by
  revert h
  fun_cases insert n st t with
  | case1 | case2 => exact fun _ => rfl
  | case3 =>
    intro h
    cases h

/-- A line that is inserted does not take the place of another one. -/
theorem InStep.get?_insert (ht : t.InStep) (line : Entry Statement) (n : Nat) :
    (LineTable.insert line.number line.item t).2.get? n =
      if isLineNumber n = true ∧ line.number = n then (t.get? n).or (some line.item)
      else t.get? n := by
  cases hn : isLineNumber line.number with
  | false =>
    rw [insert_of_not_isLineNumber hn, if_neg]
    rintro ⟨hvalid, rfl⟩
    rw [hn] at hvalid
    cases hvalid
  | true =>
    by_cases hmem : line.number ∈ t.lineNumbers
    · rw [ht.insert_of_mem hn hmem line.item]
      split
      · rename_i hline
        obtain ⟨st, hst⟩ := ht.mem_lineNumbers_iff.mp hmem
        rw [← hline.2, hst, Option.some_or]
      · rfl
    · rw [(ht.insert_of_not_mem hn hmem line.item).2]
      by_cases hline : line.number = n
      · subst hline
        rw [if_pos rfl, if_pos ⟨hn, rfl⟩, ht.get?_eq_none hmem, Option.none_or]
      · rw [if_neg hline, if_neg fun h => hline h.2]

end LineTable

end LineBasic
