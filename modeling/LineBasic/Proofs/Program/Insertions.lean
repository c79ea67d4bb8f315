import LineBasic.Program.Basic
import LineBasic.Proofs.Program.Table

/-!
# Line tables that were made line by line

`LineTable.ofInsertions` is the table that a sequence of insertions makes, where one that is refused
counts with the table that it leaves. Insertion by insertion the map and the array stay in step
(`LineTable.inStep_ofInsertions`). Under a line number stands what was inserted there first
(`LineTable.get?_ofInsertions`), so lines with different numbers can come in any order
(`LineTable.ofInsertions_perm`).
-/

namespace LineBasic.LineTable

variable {t : LineTable} {n : Nat} {st : Statement}

/-- A table after further insertions. -/
def insertAll (t : LineTable) (lines : List (Entry Statement)) : LineTable :=
  lines.foldl (fun t line => (insert line.number line.item t).2) t

/-- The table that a sequence of insertions makes. -/
def ofInsertions (lines : List (Entry Statement)) : LineTable :=
  empty.insertAll lines

theorem InStep.insertAll (ht : t.InStep) (lines : List (Entry Statement)) :
    (t.insertAll lines).InStep := by
  induction lines generalizing t with
  | nil => exact ht
  | cons line lines ih => exact ih (ht.insert line.number line.item)

theorem inStep_ofInsertions (lines : List (Entry Statement)) : (ofInsertions lines).InStep :=
  inStep_empty.insertAll lines

/-- Insertions keep what a table has, and the first one under a number adds to it. -/
theorem InStep.get?_insertAll (ht : t.InStep) (lines : List (Entry Statement)) (n : Nat) :
    (t.insertAll lines).get? n =
      if isLineNumber n = true then (t.get? n).or ((lines.find? (·.number = n)).map (·.item))
      else t.get? n := by
  induction lines generalizing t with
  | nil => simp [LineTable.insertAll]
  | cons line lines ih =>
    have htail := ih (ht.insert line.number line.item)
    rw [ht.get?_insert] at htail
    rw [LineTable.insertAll, List.foldl_cons, ← LineTable.insertAll, htail, List.find?_cons]
    by_cases hn : isLineNumber n = true
    · by_cases hline : line.number = n
      · simp [hn, hline]
      · simp [hn, hline]
    · simp [hn]

theorem get?_ofInsertions (lines : List (Entry Statement)) (n : Nat) :
    (ofInsertions lines).get? n =
      if isLineNumber n = true then (lines.find? (·.number = n)).map (·.item) else none := by
  rw [ofInsertions, inStep_empty.get?_insertAll, get?_empty, Option.none_or]

/-- Lines with different numbers all get their place. -/
theorem get?_ofInsertions_of_nodup {lines : List (Entry Statement)}
    (h : (lines.map (·.number)).Nodup) :
    (ofInsertions lines).get? n = some st ↔
      isLineNumber n = true ∧ (⟨n, st⟩ : Entry Statement) ∈ lines := by
  have hfind : ∀ line : Entry Statement,
      lines.find? (·.number = n) = some line ↔ line ∈ lines ∧ line.number = n := by
    intro line
    constructor
    · intro hline
      exact ⟨List.mem_of_find?_eq_some hline, by simpa using List.find?_some hline⟩
    · rintro ⟨hmem, hnumber⟩
      have hsome : (lines.find? (·.number = n)).isSome = true :=
        List.find?_isSome.mpr ⟨line, hmem, decide_eq_true hnumber⟩
      obtain ⟨other, hother⟩ := Option.isSome_iff_exists.mp hsome
      have hsame : other.number = line.number := by
        rw [hnumber]
        simpa using List.find?_some hother
      rw [hother, List.inj_on_of_nodup_map h (List.mem_of_find?_eq_some hother) hmem hsame]
  rw [get?_ofInsertions]
  split
  · rename_i hn
    rw [Option.map_eq_some_iff]
    constructor
    · rintro ⟨⟨m, st'⟩, hline, rfl⟩
      obtain ⟨hmem, rfl⟩ := (hfind _).mp hline
      exact ⟨hn, hmem⟩
    · rintro ⟨-, hmem⟩
      exact ⟨_, (hfind _).mpr ⟨hmem, rfl⟩, rfl⟩
  · rename_i hn
    simp [hn]

theorem ofInsertions_perm {lines lines' : List (Entry Statement)} (h : (lines.map (·.number)).Nodup)
    (hperm : lines.Perm lines') : ofInsertions lines = ofInsertions lines' := by
  have h' : (lines'.map (·.number)).Nodup := (hperm.map _).nodup_iff.mp h
  apply (inStep_ofInsertions lines).ext (inStep_ofInsertions lines')
  intro n
  apply Option.ext
  intro st
  rw [get?_ofInsertions_of_nodup h, get?_ofInsertions_of_nodup h', hperm.mem_iff]

/-- The table of a program after further insertions. -/
theorem table_insertAll (p : Program) (lines : List (Entry Statement)) :
    (lines.foldl (fun p line => (Program.insert line.number line.item p).2) p).table =
      p.table.insertAll lines := by
  induction lines generalizing p with
  | nil => rfl
  | cons line lines ih => exact ih (Program.insert line.number line.item p).2

/-- Whatever lines are inserted into a new program, refused ones among them: its table is
`ofInsertions`. The array is in ascending order, its numbers are within the bounds, and they are the
numbers that have a statement in the map. Looking a number up in the array gives its place there. A
number has the statement that was first inserted under it. A further line is refused if and only if
its number is out of bounds or in the array, and then map and array stay as they are. Lines with
different numbers make the same table in any order. -/
theorem ofInsertions_keeps_first (lines : List (Entry Statement)) :
    (lines.foldl (fun p line => (Program.insert line.number line.item p).2) .empty).table =
      ofInsertions lines ∧
      (ofInsertions lines).lineNumbers.toList.Pairwise (· < ·) ∧
      (∀ n ∈ (ofInsertions lines).lineNumbers, 1 ≤ n ∧ n ≤ 99999) ∧
      (∀ n, n ∈ (ofInsertions lines).lineNumbers ↔ ∃ st, (ofInsertions lines).get? n = some st) ∧
      (∀ n i, (ofInsertions lines).indexOf? n = some i ↔
        (ofInsertions lines).lineNumbers[i]? = some n) ∧
      (∀ n, (ofInsertions lines).get? n =
        if 1 ≤ n ∧ n ≤ 99999 then (lines.find? (·.number = n)).map (·.item) else none) ∧
      (∀ n st e, (insert n st (ofInsertions lines)).1 = .error e ↔
        ¬ (1 ≤ n ∧ n ≤ 99999) ∧ e = .because .invalidLineNumber ("invalid line number " ++ n.repr) ∨
          n ∈ (ofInsertions lines).lineNumbers ∧
            e = .because .duplicateLine ("duplicate line number " ++ n.repr)) ∧
      (∀ n st e, (insert n st (ofInsertions lines)).1 = .error e →
        (insert n st (ofInsertions lines)).2 = ofInsertions lines) ∧
      ∀ lines', (lines.map (·.number)).Nodup → lines.Perm lines' →
        ofInsertions lines = ofInsertions lines' := by
  have hstep := inStep_ofInsertions lines
  have hget : ∀ n, (ofInsertions lines).get? n =
      if 1 ≤ n ∧ n ≤ 99999 then (lines.find? (·.number = n)).map (·.item) else none := by
    intro n
    simp only [get?_ofInsertions, isLineNumber_iff]
  have hbounds : ∀ n ∈ (ofInsertions lines).lineNumbers, 1 ≤ n ∧ n ≤ 99999 := by
    intro n hn
    obtain ⟨st, hst⟩ := hstep.mem_lineNumbers_iff.mp hn
    rw [hget] at hst
    split at hst
    · assumption
    · cases hst
  refine ⟨table_insertAll .empty lines, hstep.ascending, hbounds, fun n =>
    hstep.mem_lineNumbers_iff, ?_, hget, ?_, ?_, ?_⟩
  · intro n i
    exact hstep.indexOf?_eq_some_iff
  · intro n st e
    rw [hstep.insert_eq_error_iff, isLineNumber_iff, ← Bool.not_eq_true, isLineNumber_iff]
    constructor
    · rintro (h | ⟨-, h⟩)
      · exact .inl h
      · exact .inr h
    · rintro (h | h)
      · exact .inl h
      · exact .inr ⟨hbounds n h.1, h⟩
  · intro n st e h
    exact insert_of_error h
  · intro lines' h hperm
    exact ofInsertions_perm h hperm

end LineBasic.LineTable
