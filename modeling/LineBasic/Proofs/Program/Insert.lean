import LineBasic.Numbered.Lemmas
import LineBasic.Program.Basic
import LineBasic.Proofs.Program.Table

/-!
# What a program holds

A program is determined by the statements under its line numbers (`Program.ext_get?`), so the order
in which lines came to it does not show. Its lines in the order of execution are `Program.lines`,
one at each index that has a line number (`Program.line?`). `Program.insert` takes every line with a
new number and refuses one that the program has.
-/

namespace LineBasic

namespace Numbered

variable {α : Type}

theorem mem_numbers_iff {l : Numbered α} {n : Nat} : n ∈ l.numbers ↔ ∃ a, l.get? n = some a := by
  simp only [numbers, get?_eq_some_iff, List.mem_map, Array.mem_toList_iff]
  constructor
  · rintro ⟨e, he, rfl⟩
    exact ⟨e.item, he⟩
  · rintro ⟨a, ha⟩
    exact ⟨_, ha, rfl⟩

theorem getElem?_numbers (l : Numbered α) (i : Nat) :
    l.numbers[i]? = l.entries[i]?.map (·.number) := by
  rw [numbers, List.getElem?_map, Array.getElem?_toList]

theorem pairwise_numbers (l : Numbered α) : l.numbers.Pairwise (· < ·) :=
  List.pairwise_map.mpr l.ascending

theorem nodup_numbers (l : Numbered α) : l.numbers.Nodup :=
  l.pairwise_numbers.imp Nat.ne_of_lt

theorem ext_get? {l l' : Numbered α} (h : ∀ n, l.get? n = l'.get? n) : l = l' := by
  have hmem : ∀ e, e ∈ l.entries.toList ↔ e ∈ l'.entries.toList := by
    intro e
    rw [Array.mem_toList_iff, Array.mem_toList_iff, ← get?_eq_some_iff, ← get?_eq_some_iff, h]
  have hnodup : ∀ l : Numbered α, l.entries.toList.Nodup := by
    intro l
    refine l.ascending.imp ?_
    rintro a b hlt rfl
    exact Nat.lt_irrefl _ hlt
  have hperm := (List.perm_ext_iff_of_nodup (hnodup l) (hnodup l')).mpr hmem
  have heq : l.entries.toList = l'.entries.toList :=
    hperm.eq_of_pairwise (fun a b _ _ hab hba =>
      absurd hab (Nat.lt_asymm hba)) l.ascending l'.ascending
  obtain ⟨entries, _⟩ := l
  obtain ⟨entries', _⟩ := l'
  obtain rfl : entries = entries' := Array.toList_inj.mp heq
  rfl

end Numbered

namespace Program

variable {p q : Program} {n : Nat} {st : Statement}

/-! ## The line numbers -/

theorem mem_lineNumbers_iff : n ∈ p.lineNumbers ↔ ∃ st, p.get? n = some st :=
  Array.mem_toList_iff.trans p.inStep.mem_lineNumbers_iff

theorem pairwise_lineNumbers (p : Program) : p.lineNumbers.Pairwise (· < ·) :=
  p.inStep.ascending

theorem getElem?_lineNumbers (p : Program) (i : Nat) : p.lineNumbers[i]? = p.lineNumber? i :=
  Array.getElem?_toList

/-- Bisection finds the place of a number among the line numbers. -/
theorem indexOf?_eq_some_iff {i : Nat} : p.indexOf? n = some i ↔ p.lineNumbers[i]? = some n := by
  rw [getElem?_lineNumbers]
  exact p.inStep.indexOf?_eq_some_iff

theorem isSome_indexOf?_iff : (p.indexOf? n).isSome = true ↔ n ∈ p.lineNumbers := by
  rw [Option.isSome_iff_exists, List.mem_iff_getElem?]
  simp only [indexOf?_eq_some_iff]

theorem eq_of_table_eq (h : p.table = q.table) : p = q := by
  obtain ⟨table, _⟩ := p
  obtain ⟨table', _⟩ := q
  obtain rfl : table = table' := h
  rfl

theorem ext_get? (h : ∀ n st, p.get? n = some st ↔ q.get? n = some st) : p = q :=
  eq_of_table_eq (p.inStep.ext q.inStep fun n => Option.ext (h n))

/-! ## The lines -/

/-- The line at an index, in the order of execution. -/
def line? (p : Program) (i : Nat) : Option (Entry Statement) :=
  (p.lineNumber? i).bind fun n => (p.get? n).map (⟨n, ·⟩)

theorem line?_eq_some_iff {i : Nat} {line : Entry Statement} :
    p.line? i = some line ↔ p.lineNumber? i = some line.number ∧
      p.get? line.number = some line.item := by
  obtain ⟨number, item⟩ := line
  simp only [line?, Option.bind_eq_some_iff, Option.map_eq_some_iff, Entry.mk.injEq]
  constructor
  · rintro ⟨n, hn, st, hst, rfl, rfl⟩
    exact ⟨hn, hst⟩
  · rintro ⟨hn, hst⟩
    exact ⟨number, hn, item, hst, rfl, rfl⟩

/-- Every line number has a statement. -/
theorem exists_get?_of_lineNumber? {i : Nat} (h : p.lineNumber? i = some n) :
    ∃ st, p.get? n = some st :=
  mem_lineNumbers_iff.mp (List.mem_iff_getElem?.mpr ⟨i, (p.getElem?_lineNumbers i).trans h⟩)

theorem line?_eq_none_iff {i : Nat} : p.line? i = none ↔ p.lineNumber? i = none := by
  constructor
  · intro h
    cases hn : p.lineNumber? i with
    | none => rfl
    | some n =>
      obtain ⟨st, hst⟩ := exists_get?_of_lineNumber? hn
      have hline : p.line? i = some ⟨n, st⟩ := line?_eq_some_iff.mpr ⟨hn, hst⟩
      cases h.symm.trans hline
  · intro h
    rw [line?, h, Option.bind_none]

theorem get?_of_line? {i : Nat} {line : Entry Statement} (h : p.line? i = some line) :
    p.get? line.number = some line.item :=
  (line?_eq_some_iff.mp h).2

theorem indexOf?_eq_some_iff_line? {i : Nat} :
    p.indexOf? n = some i ↔ ∃ st, p.line? i = some ⟨n, st⟩ := by
  rw [indexOf?_eq_some_iff, getElem?_lineNumbers]
  simp only [line?_eq_some_iff]
  constructor
  · intro h
    obtain ⟨st, hst⟩ := exists_get?_of_lineNumber? h
    exact ⟨st, h, hst⟩
  · rintro ⟨st, h, -⟩
    exact h

/-- The lines of a program, in the order of execution. -/
def lines (p : Program) : Numbered Statement where
  entries := (p.table.statements.toList.map fun line => ⟨line.1, line.2⟩).toArray
  ascending := by
    rw [List.toList_toArray, List.pairwise_map]
    exact p.table.statements.ordered_keys_toList.imp Nat.compare_eq_lt.mp

theorem mem_lines_iff : (⟨n, st⟩ : Entry Statement) ∈ p.lines.entries ↔ p.get? n = some st := by
  rw [lines, List.mem_toArray, List.mem_map]
  constructor
  · rintro ⟨⟨m, st'⟩, hmem, heq⟩
    cases heq
    exact Std.ExtTreeMap.mem_toList_iff_getElem?_eq_some.mp hmem
  · intro h
    exact ⟨(n, st), Std.ExtTreeMap.mem_toList_iff_getElem?_eq_some.mpr h, rfl⟩

theorem get?_lines (p : Program) (n : Nat) : p.lines.get? n = p.get? n := by
  apply Option.ext
  intro st
  rw [Numbered.get?_eq_some_iff, mem_lines_iff]

theorem numbers_lines (p : Program) : p.lines.numbers = p.lineNumbers := by
  apply eq_of_mem_iff_of_pairwise_lt p.lines.pairwise_numbers p.pairwise_lineNumbers
  intro n
  rw [Numbered.mem_numbers_iff, mem_lineNumbers_iff]
  simp only [get?_lines]

theorem getElem?_lines (p : Program) (i : Nat) : p.lines.entries[i]? = p.line? i := by
  have hnumber : p.lines.entries[i]?.map (·.number) = p.lineNumber? i := by
    rw [← Numbered.getElem?_numbers, numbers_lines, getElem?_lineNumbers]
  cases h : p.lines.entries[i]? with
  | none =>
    rw [h] at hnumber
    exact (line?_eq_none_iff.mpr hnumber.symm).symm
  | some line =>
    rw [h] at hnumber
    have hget : p.get? line.number = some line.item :=
      mem_lines_iff.mp (Array.mem_iff_getElem?.mpr ⟨i, h⟩)
    exact (line?_eq_some_iff.mpr ⟨hnumber.symm, hget⟩).symm

/-- The program that has the given lines. -/
def ofLines (l : Numbered Statement) : Program where
  table := {
    statements := .ofList (l.entries.toList.map fun e => (e.number, e.item))
    lineNumbers := l.numbers.toArray }
  inStep := {
    ascending := l.pairwise_numbers
    mem_iff := fun n => by
      rw [List.mem_toArray, Std.ExtTreeMap.mem_ofList, List.contains_iff_mem, List.map_map]
      rfl }

theorem get?_ofLines (l : Numbered Statement) (n : Nat) : (ofLines l).get? n = l.get? n := by
  have hdistinct : (l.entries.toList.map fun e => (e.number, e.item)).Pairwise
      fun a b => ¬ compare a.1 b.1 = .eq := by
    rw [List.pairwise_map]
    exact l.ascending.imp fun hlt => by simpa using Nat.ne_of_lt hlt
  cases h : l.get? n with
  | none =>
    refine (ofLines l).inStep.get?_eq_none fun hmem => ?_
    obtain ⟨st, hst⟩ := Numbered.mem_numbers_iff.mp (List.mem_toArray.mp hmem)
    cases h.symm.trans hst
  | some st =>
    have hmem := Array.mem_toList_iff.mpr (l.get?_eq_some_iff.mp h)
    exact Std.ExtTreeMap.getElem?_ofList_of_mem (Nat.compare_eq_eq.mpr rfl) hdistinct
      (List.mem_map_of_mem hmem)

theorem lines_ofLines (l : Numbered Statement) : (ofLines l).lines = l :=
  Numbered.ext_get? fun n => by rw [get?_lines, get?_ofLines]

/-! ## Insertion -/

theorem insert_of_mem (hn : isLineNumber n = true) (h : n ∈ p.lineNumbers) :
    insert n st p = (.error (.because .duplicateLine ("duplicate line number " ++ n.repr)), p) := by
  have htable := p.inStep.insert_of_mem hn (Array.mem_toList_iff.mp h) st
  exact Prod.ext (Prod.ext_iff.mp htable).1 (eq_of_table_eq (Prod.ext_iff.mp htable).2)

theorem insert_of_not_mem (hn : isLineNumber n = true) (h : n ∉ p.lineNumbers) :
    insert n st p = (.ok (), ofLines (p.lines.put n st)) := by
  obtain ⟨hok, hget⟩ :=
    p.inStep.insert_of_not_mem hn (fun hmem => h (Array.mem_toList_iff.mpr hmem)) st
  refine Prod.ext hok (eq_of_table_eq ((p.inStep.insert n st).ext (ofLines _).inStep fun m => ?_))
  refine (hget m).trans ?_
  rw [← get?, ← get?, get?_ofLines, Numbered.get?_put, get?_lines]
  simp only [eq_comm]

theorem get?_empty (n : Nat) : empty.get? n = none :=
  LineTable.get?_empty n

theorem lineNumbers_empty : empty.lineNumbers = [] := rfl

/-- The program of one line. -/
def single (n : Nat) (st : Statement) : Program :=
  ofLines (Numbered.empty.put n st)

theorem get?_single {m : Nat} {st' : Statement} :
    (single n st).get? m = some st' ↔ m = n ∧ st' = st := by
  rw [single, get?_ofLines, Numbered.get?_put, Numbered.get?_empty]
  split
  · rename_i hm
    simp [hm, eq_comm]
  · rename_i hm
    simp [hm]

theorem insert_empty (st : Statement) (hn : isLineNumber n = true) :
    insert n st empty = (.ok (), single n st) := by
  rw [insert_of_not_mem hn (by simp [lineNumbers_empty])]
  refine congrArg (fun p => (Except.ok (), p)) (ext_get? fun m st' => ?_)
  rw [get?_single, get?_ofLines, Numbered.get?_put, get?_lines, get?_empty]
  split
  · rename_i hm
    simp [hm, eq_comm]
  · rename_i hm
    simp [hm]

theorem lineNumbers_single : (single n st).lineNumbers = [n] := rfl

theorem size_single : (single n st).size = 1 := rfl

end Program

end LineBasic
