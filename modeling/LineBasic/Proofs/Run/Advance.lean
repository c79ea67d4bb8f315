import LineBasic.Run.Basic

/-!
# Runs of many steps

`Program.Reaches` says that a run gets from one state to another in a number of steps, and
`Program.HaltsIn` that it comes to an end within a number of steps. Runs are put together and cut
apart by `Reaches.trans` and `Reaches.haltsIn_iff`, and a run has at most one end
(`HaltsIn.unique`).
-/

namespace LineBasic.Program

variable {κ : Type} [Console κ] {p : Program} {settings : Settings} {r s t : Run κ}
  {result result' : Except Error Unit} {count more : Nat}

@[simp] theorem advance_halted (count : Nat) :
    p.advance settings count (.halted result r) = .halted result r := by
  cases count <;> rfl

@[simp] theorem advance_succ_running (count : Nat) :
    p.advance settings (count + 1) (.running r) = p.advance settings count (p.step settings r) :=
      rfl

theorem advance_add (count more : Nat) (progress : Progress κ) :
    p.advance settings (count + more) progress =
      p.advance settings more (p.advance settings count progress) := by
  induction count generalizing progress with
  | zero => rw [Nat.zero_add]; rfl
  | succ count ih =>
    cases progress with
    | halted result r => simp only [advance_halted]
    | running r =>
      rw [Nat.succ_add, advance_succ_running, advance_succ_running]
      exact ih (p.step settings r)

/-- A run gets from one state to another in `count` steps. -/
def Reaches (p : Program) (settings : Settings) (count : Nat) (r s : Run κ) : Prop :=
  p.advance settings count (.running r) = .running s

/-- A run comes to its end in at most `count` steps. -/
def HaltsIn (p : Program) (settings : Settings) (count : Nat) (r : Run κ)
    (result : Except Error Unit) (s : Run κ) : Prop :=
  p.advance settings count (.running r) = .halted result s

/-- A run comes to its end. -/
def HaltsWith (p : Program) (settings : Settings) (r : Run κ) (result : Except Error Unit)
    (s : Run κ) : Prop :=
  ∃ count, p.HaltsIn settings count r result s

theorem Reaches.refl (r : Run κ) : p.Reaches settings 0 r r := rfl

theorem Reaches.of_step (h : p.step settings r = .running s) : p.Reaches settings 1 r s := h

theorem HaltsIn.of_step (h : p.step settings r = .halted result s) :
    p.HaltsIn settings 1 r result s := h

theorem Reaches.trans (hr : p.Reaches settings count r s) (hs : p.Reaches settings more s t) :
    p.Reaches settings (count + more) r t := by
  unfold Reaches at *
  rw [advance_add, hr, hs]

/-- What comes after a stretch of a run decides how the run ends. -/
theorem Reaches.haltsIn_iff (h : p.Reaches settings count r s) :
    p.HaltsIn settings (count + more) r result t ↔ p.HaltsIn settings more s result t := by
  unfold Reaches at h
  unfold HaltsIn
  rw [advance_add, h]

/-- A run that has not come to its end on the way takes longer than the way. -/
theorem Reaches.lt_of_haltsIn (hr : p.Reaches settings count r s)
    (hh : p.HaltsIn settings more r result t) : count < more := by
  refine Nat.lt_of_not_le fun hle => ?_
  obtain ⟨extra, rfl⟩ := Nat.exists_eq_add_of_le hle
  unfold Reaches at hr
  unfold HaltsIn at hh
  rw [advance_add, hh, advance_halted] at hr
  exact nomatch hr

/-- The rest of a run that comes to its end does so too. -/
theorem Reaches.exists_haltsIn (hr : p.Reaches settings count r s)
    (hh : p.HaltsIn settings more r result t) :
    ∃ left, more = count + left ∧ p.HaltsIn settings left s result t := by
  obtain ⟨left, rfl⟩ := Nat.exists_eq_add_of_le (Nat.le_of_lt (hr.lt_of_haltsIn hh))
  exact ⟨left, rfl, hr.haltsIn_iff.mp hh⟩

/-- A step brings the end of a run nearer. -/
theorem HaltsIn.tail (h : p.HaltsIn settings more r result t)
    (hstep : p.step settings r = .running s) :
    ∃ left < more, p.HaltsIn settings left s result t := by
  obtain ⟨left, rfl, hleft⟩ := (Reaches.of_step hstep).exists_haltsIn h
  exact ⟨left, by omega, hleft⟩

/-- A run has at most one end. -/
theorem HaltsIn.unique (h : p.HaltsIn settings count r result s)
    (h' : p.HaltsIn settings more r result' t) : result = result' ∧ s = t := by
  unfold HaltsIn at h h'
  have hs : p.advance settings (count + more) (.running r) = .halted result s := by
    rw [advance_add, h, advance_halted]
  have ht : p.advance settings (count + more) (.running r) = .halted result' t := by
    rw [Nat.add_comm, advance_add, h', advance_halted]
  exact Progress.halted.inj (hs.symm.trans ht)

theorem HaltsWith.unique (h : p.HaltsWith settings r result s)
    (h' : p.HaltsWith settings r result' t) : result = result' ∧ s = t := by
  obtain ⟨_, h⟩ := h
  obtain ⟨_, h'⟩ := h'
  exact h.unique h'

end LineBasic.Program
