import LineBasic.Console.Transcript
import LineBasic.Proofs.Run.Corresponding
import Mathlib.Order.Monotone.Defs

/-!
# Only the order of line numbers matters

`Program.renumber` gives the lines of a program other numbers in the same order, and changes the
line numbers that statements mention along with them. A run of that program goes step by step along
with a run of the first one, and they tell the difference only by the line numbers in open loops and
errors (`Program.advance_renumber`). It is enough that the map keeps the order of those line numbers
that occur.
-/

namespace LineBasic

namespace Program

variable {κ : Type} {p : Program} {f : Nat → Nat} {S : Set Nat}

/-- A program with its line numbers mapped, where the map keeps their order. -/
def renumber (p : Program) (f : Nat → Nat) (hf : StrictMonoOn f {n | n ∈ p.lineNumbers}) :
    Program :=
  ofLines
    { entries := p.lines.entries.map (·.renumber f)
      ascending := by
        have hmem : ∀ e ∈ p.lines.entries.toList, e.number ∈ p.lineNumbers := by
          intro e he
          rw [← numbers_lines]
          exact List.mem_map_of_mem he
        rw [Array.toList_map, List.pairwise_map]
        exact p.lines.ascending.imp_of_mem fun ha hb hlt => hf (hmem _ ha) (hmem _ hb) hlt }

theorem corresponds_renumber (hf : StrictMonoOn f S) (hlines : ∀ n ∈ p.lineNumbers, n ∈ S)
    (hmentioned : ∀ n st, p.get? n = some st → ∀ k ∈ st.mentioned, k ∈ S) :
    p.Corresponds f S Eq (p.renumber f (hf.mono hlines)) where
  entries_eq := by rw [renumber, lines_ofLines]
  injOn := hf.injOn
  number_mem _ _ hline := hlines _ (mem_lineNumbers_iff.mpr ⟨_, get?_of_line? hline⟩)
  mentioned_mem _ _ hline := hmentioned _ _ (get?_of_line? hline)
  respects _ _ _ _ _ _ := .refl _

/-- Only the order of line numbers matters. Let a map keep the order of the lines of a program, of
the lines that its statements mention and of the lines of the loops that are open. The program and
the one with these numbers mapped, run without a trace from environments that agree in all but line
numbers, are after every number of steps at the same line with the same variables, generator,
console, break flag and open loops, or have come to the same end. -/
theorem advance_renumber [Console κ] (hf : StrictMonoOn f S) (hlines : ∀ n ∈ p.lineNumbers, n ∈ S)
    (hmentioned : ∀ n st, p.get? n = some st → ∀ k ∈ st.mentioned, k ∈ S) {env env' : Environment}
    (hstore : env'.store = env.store) (hgenerator : env'.generator = env.generator)
    (hframes : env'.frames = env.frames.map (·.renumber f))
    (hframe : ∀ frame ∈ env.frames.items, frame.line ∈ S) {settings : Settings}
    (htrace : settings.trace = false) (console : κ) (interrupt : Bool) (count : Nat) :
    (p.advance settings count (.running (start env console interrupt))).Corresponds f S Eq
      ((p.renumber f (hf.mono hlines)).advance settings count
        (.running (start env' console interrupt))) := by
  have huntraced : TracesAlike κ f settings := by
    intro line
    simp [traceLine, htrace]
  exact (corresponds_renumber hf hlines hmentioned).advance huntraced
    (start_corresponds ⟨hstore, hframes, hframe, hgenerator.symm⟩ console interrupt) count

/-- A program with a loop that ends in a jump to a line that is not there. -/
def jumpsAway : Program :=
  ofLines
    (((Numbered.empty.put 1 (.loop ⟨"I"⟩ (.number 1) (.number 2) (.number 1) 1)).put 2
      (.next none)).put 3 (.goto 7))

theorem mem_lineNumbers_jumpsAway : ∀ n ∈ jumpsAway.lineNumbers, n ∈ Set.Icc 1 7 := by
  have hnumbers : jumpsAway.lineNumbers = [1, 2, 3] := rfl
  simp [hnumbers]

theorem mentioned_jumpsAway {n : Nat} {st : Statement} (h : jumpsAway.get? n = some st) :
    ∀ k ∈ st.mentioned, k ∈ Set.Icc 1 7 := by
  have hmentioned : ∀ e ∈ jumpsAway.lines.entries.toList, ∀ k ∈ e.item.mentioned,
      1 ≤ k ∧ k ≤ 7 := by
    rw [jumpsAway, lines_ofLines]
    decide +kernel
  exact hmentioned _ (Array.mem_toList_iff.mpr (mem_lines_iff.mpr h))

theorem strictMonoOn_tens : StrictMonoOn (10 * ·) (Set.Icc 1 7) :=
  fun _ _ _ _ hlt => Nat.mul_lt_mul_of_pos_left hlt (by decide)

/-- The same program on the lines 10, 20 and 30. -/
def jumpsAwayByTens : Program :=
  jumpsAway.renumber (10 * ·) (strictMonoOn_tens.mono mem_lineNumbers_jumpsAway)

theorem advance_renumber_tens :
    jumpsAwayByTens.lineNumbers = [10, 20, 30] ∧
      (jumpsAway.advance {} 6 (.running (start (.ofSeed 7) ({} : Transcript) false))).Corresponds
        (10 * ·) (Set.Icc 1 7) Eq
        (jumpsAwayByTens.advance {} 6
          (.running (start (.leftBehind 9 (.ofSeed 7)) ({} : Transcript) false))) := by
  generalize henv : Environment.ofSeed 7 = env
  have hstore : (Environment.leftBehind 9 (.ofSeed 7)).store = env.store := by rw [← henv]; rfl
  have hgenerator : (Environment.leftBehind 9 (.ofSeed 7)).generator = env.generator := by
    rw [← henv]; rfl
  have hframes : (Environment.leftBehind 9 (.ofSeed 7)).frames =
      env.frames.map (·.renumber (10 * ·)) := by
    rw [← henv]
    exact (Stack.map_empty _).symm
  have hframe : ∀ frame ∈ env.frames.items, frame.line ∈ Set.Icc 1 7 := by
    intro frame hmem
    rw [← henv] at hmem
    exact absurd hmem (Array.not_mem_empty frame)
  have htrace : ({} : Settings).trace = false := rfl
  refine ⟨by decide +kernel, ?_⟩
  exact advance_renumber strictMonoOn_tens mem_lineNumbers_jumpsAway (fun _ _ =>
    mentioned_jumpsAway) hstore hgenerator hframes hframe htrace ({} : Transcript) false 6

end Program

end LineBasic
