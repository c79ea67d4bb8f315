import LineBasic.Console.Transcript
import LineBasic.Proofs.Run.LoopSteps

/-!
# Structured programs run as they mean

The walk over the lines of a structured program does what the tree says. From the first line of a
block, with any loops open outside, the run gets behind the last one if the interpreter succeeds,
with the same loops open, and it comes to its end with the same error if the interpreter fails
(`Block.performs`). A run that comes to its end makes the interpreter end as well
(`Block.isSome_interpret`), because every turn of a loop takes the run further. So one halts if and
only if the other does, and they give the same (`StructuredProgram.haltsWith_iff_interpret`).
-/

namespace LineBasic

variable {κ : Type} [Console κ] {p : Program} {frames : Stack Frame}

namespace LoopHead

variable {head : LoopHead} {body : Block} {values : LoopValues} {j bound : Nat}
  (hopening : p.line? j = some ⟨head.number, head.opening⟩)
  (hclosing : p.line? (j + 1 + body.lines.length) = some ⟨head.closing, head.ending⟩)
  (hbody : ∀ (inner : Stack Frame) (m : Machine κ) (outcome : Outcome κ),
    inner.size = frames.size + 1 →
    body.interpret bound m = some outcome →
      p.Performs inner (j + 1) m inner (j + 1 + body.lines.length) outcome)
include hopening hclosing hbody

/-- The turns of a loop are performed by a run from the first line of the body on, if the body
is. -/
theorem turns_performs (turns : Nat) {current : Float} {m : Machine κ} {outcome : Outcome κ}
    {inner : Stack Frame}
      (hpush : Stack.push Environment.loopOverflow (head.frame values current) frames =
      (.ok (), inner))
    (h : head.turns (body.interpret bound) values turns current m = some outcome) :
    p.Performs inner (j + 1) m frames (j + 1 + body.lines.length + 1) outcome := by
  induction turns generalizing current m inner with
  | zero => cases h
  | succ turns ih =>
    obtain ⟨⟨result, m₁⟩, hb, h⟩ := Option.bind_eq_some_iff.mp h
    have hperf := hbody inner m _ (Stack.size_of_push hpush) hb
    cases result with
    | error e =>
      obtain rfl := Option.some.inj h
      exact hperf
    | ok _ =>
      refine Program.Gets.performs hperf ?_
      dsimp only at h
      rcases hassign : Machine.onEnvironment
        (Environment.assign head.counter (.number (current + values.step))) m₁ with ⟨e | _, m₂⟩
      · rw [close_of_assign_error hassign] at h
        obtain rfl := Option.some.inj h
        exact Program.Fails.of_step fun counter steps =>
          Program.step_ending_error hclosing hpush hassign
      · rw [close_of_assign_ok hassign] at h
        cases hpassed : values.isPassed (current + values.step) with
        | true =>
          rw [hpassed] at h
          obtain rfl := Option.some.inj h
          exact Program.Gets.of_step fun counter steps =>
            Program.step_ending_passed hclosing hpush hassign hpassed
        | false =>
          rw [hpassed] at h
          have hback : p.Gets inner (j + 1 + body.lines.length) m₁
              (inner.setTop (head.frame values (current + values.step))) (j + 1) m₂ :=
            Program.Gets.of_step fun counter steps =>
              Program.step_ending_back hclosing hopening hpush hassign hpassed
          exact hback.performs (ih (Stack.push_setTop hpush) h)

/-- If a run over the body of a loop comes to its end, the turns of the loop do, in fewer turns than
the run has steps. -/
theorem isSome_turns {result : Except Error Unit} {r : Run κ}
    (hsome : ∀ (inner : Stack Frame) (m : Machine κ) (count counter steps : Nat),
    inner.size = frames.size + 1 → count < bound →
    p.HaltsIn .plain count (Program.runAt inner (j + 1) m counter steps) result r →
    (body.interpret bound m).isSome) (turns : Nat) {count counter steps : Nat} {current : Float}
    {m : Machine κ} {inner : Stack Frame} (hbound : count < bound) (hturns : count < turns)
      (hpush : Stack.push Environment.loopOverflow (head.frame values current) frames =
      (.ok (), inner))
    (h : p.HaltsIn .plain count (Program.runAt inner (j + 1) m counter steps) result r) :
    (head.turns (body.interpret bound) values turns current m).isSome := by
  -- Every turn ends with a step at the closing line, so what is left of the run gets shorter.
  induction turns generalizing count counter steps current m inner with
  | zero => exact absurd hturns (Nat.not_lt_zero count)
  | succ turns ih =>
    have hsize := Stack.size_of_push hpush
    obtain ⟨⟨result₁, m₁⟩, hb⟩ :=
      Option.isSome_iff_exists.mp (hsome inner m count counter steps hsize hbound h)
    have hperf := hbody inner m _ hsize hb
    rw [LoopHead.turns, hb, Option.bind_eq_bind, Option.bind_some]
    cases result₁ with
    | error e => rfl
    | ok _ =>
      obtain ⟨used, counter₁, steps₁, hreach⟩ := hperf counter steps
      obtain ⟨left, rfl, hleft⟩ := hreach.exists_haltsIn h
      dsimp only
      rcases hassign : Machine.onEnvironment
        (Environment.assign head.counter (.number (current + values.step))) m₁ with ⟨e | _, m₂⟩
      · rw [close_of_assign_error hassign]
        rfl
      · rw [close_of_assign_ok hassign]
        cases hpassed : values.isPassed (current + values.step) with
        | true => rfl
        | false =>
          obtain ⟨left', hlt, hleft'⟩ :=
            hleft.tail (Program.step_ending_back hclosing hopening hpush hassign hpassed)
          exact ih (by omega) (by omega) (Stack.push_setTop hpush) hleft'

end LoopHead

/-- The room for a loop is room for its body with one more loop open, and for what follows it. -/
theorem Block.room_of_loop {head : LoopHead} {body rest : Block} {n : Nat}
    (h : n + (Block.loop head body rest).depth ≤ memoryLimit) :
    n < memoryLimit ∧ n + 1 + body.depth ≤ memoryLimit ∧ n + rest.depth ≤ memoryLimit := by
  rw [depth] at h
  omega

/-- A run over the lines of a block does what the block means. -/
theorem Block.performs {bound : Nat} (b : Block) {i : Nat} {frames : Stack Frame} {m : Machine κ}
    {outcome : Outcome κ} (hlines : p.Holds i b.lines)
    (hroom : frames.size + b.depth ≤ memoryLimit) (h : b.interpret bound m = some outcome) :
    p.Performs frames i m frames (i + b.lines.length) outcome := by
  induction b generalizing i frames m outcome with
  | done =>
    obtain rfl := Option.some.inj h
    exact .refl
  | simple number statement hs rest ih =>
    obtain ⟨hline, hrest⟩ := hlines
    rw [interpret] at h
    split at h
    · rename_i e m₁ hexec
      obtain rfl := Option.some.inj h
      exact Program.Fails.of_step fun counter steps => Program.step_simple_error hline hs hexec
    · rename_i m₁ hexec
      have hstep : p.Gets frames i m frames (i + 1) m₁ :=
        Program.Gets.of_step fun counter steps => Program.step_simple_ok hline hs hexec
      have hperf := hstep.performs (ih hrest hroom h)
      rwa [Nat.add_assoc, Nat.add_comm 1] at hperf
  | loop head body rest ihbody ihrest =>
    obtain ⟨hopening, hlines⟩ := hlines
    obtain ⟨hbody, hclosing, hrest⟩ := Program.holds_append.mp hlines
    obtain ⟨hlt, hroombody, hroomrest⟩ := room_of_loop hroom
    rw [interpret] at h
    split at h
    · rename_i e m₁ hbegin
      obtain rfl := Option.some.inj h
      exact Program.Fails.of_step fun counter steps => Program.step_opening_error hopening hbegin
    · rename_i values m₁ hbegin
      obtain ⟨inner, hpush⟩ :=
        Stack.push_of_lt Environment.loopOverflow (head.frame values values.start) hlt
      obtain ⟨⟨result, m₂⟩, hturns, h⟩ := Option.bind_eq_some_iff.mp h
      have hstep : p.Gets frames i m inner (i + 1) m₁ :=
        Program.Gets.of_step fun counter steps => Program.step_opening_ok hopening hbegin hpush
      have hperf := LoopHead.turns_performs hopening hclosing
        (fun inner m outcome hsize => ihbody hbody (hsize ▸ hroombody)) bound hpush hturns
      cases result with
      | error e =>
        obtain rfl := Option.some.inj h
        exact hstep.performs hperf
      | ok _ =>
        have hall := (hstep.trans hperf).performs (ihrest hrest hroomrest h)
        rw [lines, List.length_cons, List.length_append, List.length_cons]
        rwa [show i + (body.lines.length + (rest.lines.length + 1) + 1) =
          i + 1 + body.lines.length + 1 + rest.lines.length by omega]

/-- If a run over the lines of a block comes to its end, there or later, the interpreter does under
every bound that is greater than the number of steps. -/
theorem Block.isSome_interpret (b : Block) {i bound count counter steps : Nat}
    {frames : Stack Frame} {m : Machine κ} {result : Except Error Unit} {r : Run κ}
    (hlines : p.Holds i b.lines) (hroom : frames.size + b.depth ≤ memoryLimit)
    (hbound : count < bound)
    (h : p.HaltsIn .plain count (Program.runAt frames i m counter steps) result r) :
    (b.interpret bound m).isSome := by
  induction b generalizing i count counter steps frames m with
  | done => rfl
  | simple number statement hs rest ih =>
    obtain ⟨hline, hrest⟩ := hlines
    rw [interpret]
    split
    · rfl
    · rename_i m₁ hexec
      obtain ⟨left, hlt, hleft⟩ := h.tail (Program.step_simple_ok hline hs hexec)
      exact ih hrest hroom (by omega) hleft
  | loop head body rest ihbody ihrest =>
    obtain ⟨hopening, hlines⟩ := hlines
    obtain ⟨hbody, hclosing, hrest⟩ := Program.holds_append.mp hlines
    obtain ⟨hlt, hroombody, hroomrest⟩ := room_of_loop hroom
    rw [interpret]
    split
    · rfl
    · rename_i values m₁ hbegin
      obtain ⟨inner, hpush⟩ :=
        Stack.push_of_lt Environment.loopOverflow (head.frame values values.start) hlt
      have hperforms : ∀ (inner : Stack Frame) (m : Machine κ) (outcome : Outcome κ),
          inner.size = frames.size + 1 →
          body.interpret bound m = some outcome →
          p.Performs inner (i + 1) m inner (i + 1 + body.lines.length) outcome :=
        fun inner m outcome hsize => body.performs hbody (hsize ▸ hroombody)
      obtain ⟨left, hleftlt, hleft⟩ := h.tail (Program.step_opening_ok hopening hbegin hpush)
      have hleftbound : left < bound := by omega
      obtain ⟨⟨result₁, m₂⟩, hturns⟩ :=
        Option.isSome_iff_exists.mp (LoopHead.isSome_turns hopening hclosing hperforms
        (fun inner m count counter steps hsize =>
          ihbody hbody (hsize ▸ hroombody)) bound hleftbound hleftbound hpush
        hleft)
      have hperf := LoopHead.turns_performs hopening hclosing hperforms bound hpush hturns
      rw [hturns, Option.bind_eq_bind, Option.bind_some]
      cases result₁ with
      | error e => rfl
      | ok _ =>
        obtain ⟨_, _, _, hreach⟩ := hperf _ _
        obtain ⟨left', hsum, hleft'⟩ := hreach.exists_haltsIn hleft
        exact ihrest hrest hroomrest (by omega) hleft'

namespace StructuredProgram

variable (s : StructuredProgram)

theorem holds_lines : s.program.Holds 0 s.block.lines := by
  apply Program.holds_of_drop
  rw [program, Program.lines_ofLines, List.drop_zero]

/-- The run of a structured program comes to the end that the interpreter gives. -/
theorem exists_haltsWith {env : Environment} {console : κ} {interrupt : Bool}
    {result : Except Error Unit} {m : Machine κ} {bound : Nat}
    (hroom : env.frames.size + s.block.depth ≤ memoryLimit)
    (h : s.block.interpret bound ⟨env.begin, console, interrupt⟩ = some (result, m)) :
    ∃ r, s.program.HaltsWith .plain (Program.start env console interrupt) result r ∧
      r.machine.SameData m ∧
      (result = .ok () → r.machine.environment.frames = env.frames) := by
  have hperf := s.block.performs s.holds_lines hroom h
  cases result with
  | error e =>
    obtain ⟨r, hhalts, hsame⟩ := hperf env.counter 0
    exact ⟨r, hhalts, hsame, fun h => nomatch h⟩
  | ok _ =>
    obtain ⟨count, counter, steps, hreach⟩ := hperf env.counter 0
    have hend : s.program.line? (0 + s.block.lines.length) = none := by
      rw [← Program.getElem?_lines, program, Program.lines_ofLines, Nat.zero_add,
        List.getElem?_toArray]
      exact List.getElem?_eq_none (Nat.le_refl _)
    have hhalts := hreach.haltsIn_iff.mpr (.of_step (Program.step_of_none hend))
    exact ⟨_, ⟨count + 1, hhalts⟩, Machine.sameData_withControl _ m, fun _ => rfl⟩

/-- A structured program, run without limit, trace and break flag from any environment that has room
for its loops, comes to an end if and only if the interpreter of its tree does under some bound.
Then both give the same result, with the same error on the same line, and leave the same variables,
generator and console, and after a success the loops that were open before are open again. -/
theorem haltsWith_iff_interpret (env : Environment) (console : κ) (interrupt : Bool)
    (hroom : env.frames.size + s.block.depth ≤ memoryLimit) :
    ((∃ result r, s.program.HaltsWith .plain (Program.start env console interrupt) result r) ↔
        ∃ bound, (s.block.interpret bound ⟨env.begin, console, interrupt⟩).isSome) ∧
      ∀ result r bound result' m,
        s.program.HaltsWith .plain (Program.start env console interrupt) result r →
        s.block.interpret bound ⟨env.begin, console, interrupt⟩ = some (result', m) →
        result = result' ∧ r.machine.SameData m ∧
          (result = .ok () → r.machine.environment.frames = env.frames) := by
  refine ⟨⟨?_, ?_⟩, ?_⟩
  · rintro ⟨result, r, count, hhalts⟩
    have hhalts : s.program.HaltsIn .plain count
        (Program.runAt env.frames 0 ⟨env.begin, console, interrupt⟩ env.counter 0) result r :=
          hhalts
    exact ⟨count + 1, s.block.isSome_interpret s.holds_lines hroom (Nat.lt_succ_self count) hhalts⟩
  · rintro ⟨bound, hsome⟩
    obtain ⟨⟨result, m⟩, h⟩ := Option.isSome_iff_exists.mp hsome
    obtain ⟨r, hhalts, _⟩ := s.exists_haltsWith hroom h
    exact ⟨result, r, hhalts⟩
  · intro result r bound result' m hhalts h
    obtain ⟨r', hhalts', hsame, hframes⟩ := s.exists_haltsWith hroom h
    obtain ⟨rfl, rfl⟩ := hhalts.unique hhalts'
    exact ⟨rfl, hsame, hframes⟩

/-- A loop within a loop, the inner one closed without its variable. -/
def nestedLoops : StructuredProgram where
  block :=
    .loop ⟨10, ⟨"I"⟩, .number 1, .number 2, .number 1, 50, true⟩
      (.loop ⟨20, ⟨"J"⟩, .var ⟨"I"⟩, .number 0, .number (-1), 40, false⟩
        (.simple 30 (.print [.var ⟨"I"⟩, .var ⟨"J"⟩]) rfl .done) .done) .done
  ascending := by decide

theorem nestedLoops_haltsWith_iff_interpret :
    (Environment.ofSeed 7).frames.size + nestedLoops.block.depth ≤ memoryLimit ∧
      ((∃ result r,
        nestedLoops.program.HaltsWith .plain
        (Program.start (.ofSeed 7) ({} : Transcript) false) result r) ↔
        ∃ bound,
          (nestedLoops.block.interpret bound
          ⟨(Environment.ofSeed 7).begin, ({} : Transcript), false⟩).isSome) :=
  have hroom : (Environment.ofSeed 7).frames.size + nestedLoops.block.depth ≤ memoryLimit := by
    decide
  ⟨hroom, (nestedLoops.haltsWith_iff_interpret (.ofSeed 7) ({} : Transcript) false hroom).1⟩

end StructuredProgram

end LineBasic
