import LineBasic.Numbered.Basic

/-!
# What numbered lines hold

The view of numbered lines is `Numbered.get?`. It is that of the entries (`get?_eq_some_iff`), and
it changes at one number when an item is put there or taken away.
-/

namespace LineBasic.Numbered

variable {α : Type}

/-- A later entry has a larger number. -/
theorem number_lt_of_lt (l : Numbered α) {i j : Nat} {e d : Entry α} (hij : i < j)
    (he : l.entries[i]? = some e) (hd : l.entries[j]? = some d) : e.number < d.number := by
  obtain ⟨hi, rfl⟩ := Array.getElem?_eq_some_iff.mp he
  obtain ⟨hj, rfl⟩ := Array.getElem?_eq_some_iff.mp hd
  exact List.pairwise_iff_getElem.mp l.ascending i j hi hj hij

/-- There is one entry for a number. -/
theorem eq_of_number_eq (l : Numbered α) {e d : Entry α} (he : e ∈ l.entries) (hd : d ∈ l.entries)
    (h : e.number = d.number) : e = d := by
  obtain ⟨i, hi⟩ := Array.mem_iff_getElem?.mp he
  obtain ⟨j, hj⟩ := Array.mem_iff_getElem?.mp hd
  rcases Nat.lt_trichotomy i j with hij | rfl | hij
  · exact absurd h (Nat.ne_of_lt (l.number_lt_of_lt hij hi hj))
  · exact Option.some.inj (hi.symm.trans hj)
  · exact absurd h (Nat.ne_of_gt (l.number_lt_of_lt hij hj hi))

/-- The items under numbers are those of the entries. -/
theorem get?_eq_some_iff (l : Numbered α) {n : Nat} {a : α} :
    l.get? n = some a ↔ (⟨n, a⟩ : Entry α) ∈ l.entries := by
  rw [get?, Option.map_eq_some_iff]
  constructor
  · rintro ⟨⟨m, b⟩, hfind, rfl⟩
    obtain rfl : m = n := by simpa using Array.find?_some hfind
    exact Array.mem_of_find?_eq_some hfind
  · intro hmem
    have hsome : (l.entries.find? (·.number = n)).isSome = true :=
      Array.find?_isSome.mpr ⟨_, hmem, decide_eq_true rfl⟩
    obtain ⟨e, he⟩ := Option.isSome_iff_exists.mp hsome
    have hnumber : e.number = n := by simpa using Array.find?_some he
    rw [l.eq_of_number_eq (Array.mem_of_find?_eq_some he) hmem hnumber] at he
    exact ⟨_, he, rfl⟩

/-- The entries after an item was put under a number. -/
theorem mem_put (l : Numbered α) {n : Nat} {a : α} {e : Entry α} :
    e ∈ (l.put n a).entries ↔ e = ⟨n, a⟩ ∨ e ∈ l.entries ∧ e.number ≠ n := by
  simp only [put, entriesWith, List.mem_toArray, List.mem_append, List.mem_cons, List.mem_filter,
    decide_eq_true_eq, Array.mem_toList_iff]
  constructor
  · rintro (⟨he, hlt⟩ | rfl | ⟨he, hlt⟩)
    · exact .inr ⟨he, Nat.ne_of_lt hlt⟩
    · exact .inl rfl
    · exact .inr ⟨he, Nat.ne_of_gt hlt⟩
  · rintro (rfl | ⟨he, hne⟩)
    · exact .inr (.inl rfl)
    · rcases Nat.lt_or_gt_of_ne hne with hlt | hgt
      · exact .inl ⟨he, hlt⟩
      · exact .inr (.inr ⟨he, hgt⟩)

/-- The entries after an item was taken away. -/
theorem mem_erase (l : Numbered α) {n : Nat} {e : Entry α} :
    e ∈ (l.erase n).entries ↔ e ∈ l.entries ∧ e.number ≠ n := by
  simp [erase]

@[simp] theorem get?_empty (n : Nat) : (empty : Numbered α).get? n = none := by
  apply Option.eq_none_iff_forall_ne_some.mpr
  intro a h
  exact absurd ((get?_eq_some_iff _).mp h) (Array.not_mem_empty _)

theorem get?_put (l : Numbered α) (n m : Nat) (a : α) :
    (l.put n a).get? m = if m = n then some a else l.get? m := by
  apply Option.ext
  intro b
  rw [get?_eq_some_iff, mem_put]
  split
  · subst m
    simp [eq_comm]
  · rename_i hne
    simp [hne, get?_eq_some_iff]

theorem get?_erase (l : Numbered α) (n m : Nat) :
    (l.erase n).get? m = if m = n then none else l.get? m := by
  apply Option.ext
  intro b
  rw [get?_eq_some_iff, mem_erase]
  split
  · subst m
    simp
  · rename_i hne
    simp [hne, get?_eq_some_iff]

end LineBasic.Numbered
