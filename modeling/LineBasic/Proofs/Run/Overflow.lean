import LineBasic.Proofs.Run.Failure

/-!
# Loops that cannot be opened

A loop is opened in two steps, each of which can run out of memory: its variable gets the start
value, and a frame is put on the stack. A loop that cannot be opened never leaves a frame behind. It
leaves the variables as they were too, unless it was the stack that was full: then its variable has
got the start value already (`Statement.loop_error_leaves`, `Statement.loop_error_stores_start`).
-/

namespace LineBasic

namespace Action

variable {σ α β : Type} {x : Action σ α} {f : α → Action σ β} {s t : σ} {e : Error}

/-- An action behind another one fails because the first does, or by itself. -/
theorem cases_of_bind_error (h : (x >>= f) s = (.error e, t)) :
    x s = (.error e, t) ∨ ∃ a s', x s = (.ok a, s') ∧ f a s' = (.error e, t) := by
  rcases hx : x s with ⟨e' | a, s'⟩
  · rw [bind_of_error hx] at h
    cases h
    exact .inl rfl
  · rw [bind_of_ok hx] at h
    exact .inr ⟨a, s', rfl, h⟩

/-- An action that fails with another kind of error hands over to the one behind it. -/
theorem exists_of_bind_error {F : Error → Prop} (h : (x >>= f) s = (.error e, t)) (he : F e)
    (hx : ∀ e', (x s).1 = .error e' → ¬ F e') :
    ∃ a s', x s = (.ok a, s') ∧ f a s' = (.error e, t) := by
  rcases cases_of_bind_error h with hfailed | hwent
  · exact absurd he (hx e (by rw [hfailed]))
  · exact hwent

end Action

namespace Environment

open LineBasic.Action

/-- The error of opening a loop when the stack is full. -/
def tooManyLoops : Error :=
  .because .outOfMemory loopOverflow

theorem tooManyLoops_ne : tooManyLoops ≠ Store.tooManyVariables := by decide

variable {v : Ident} {value : Value} {frame : Frame} {env env' : Environment} {e : Error}

theorem assign_eq_error (h : assign v value env = (.error e, env')) :
    e = Store.tooManyVariables ∧ env' = env := by
  unfold assign set Store.store at h
  dsimp only at h
  split at h
  · cases h
  · cases h
    exact ⟨rfl, rfl⟩

theorem assign_eq_ok (h : assign v value env = (.ok (), env')) :
    ∃ haccepts, env' = { env with store := env.store.insert v.name.toUpper value haccepts } := by
  unfold assign set Store.store at h
  dsimp only at h
  split at h
  · rename_i haccepts
    cases h
    exact ⟨haccepts, rfl⟩
  · cases h

theorem pushFrame_eq_error (h : pushFrame frame env = (.error e, env')) :
    e = tooManyLoops ∧ env.frames.size = memoryLimit ∧ env' = env := by
  unfold pushFrame Stack.push at h
  dsimp only at h
  split at h
  · cases h
  · rename_i hfull
    cases h
    exact ⟨rfl, Nat.le_antisymm env.frames.size_le (Nat.le_of_not_lt hfull), rfl⟩

/-- Where the memory for a loop runs out: either nothing has been done, or the variable has its
value and the stack is full. -/
theorem openLoop_outOfMemory {start limit step : Float} {line : Nat}
    (h : openLoop v start limit step line env = (.error e, env'))
    (hmemory : e.code = .outOfMemory) :
    e = Store.tooManyVariables ∧ env' = env ∨
      e = tooManyLoops ∧ env.frames.size = memoryLimit ∧
        ∃ haccepts, env' =
          { env with store := env.store.insert v.name.toUpper (.number start) haccepts } := by
  unfold openLoop at h
  split at h
  · cases h
    cases hmemory
  · rcases cases_of_bind_error h with hassign | ⟨_, env₁, hassign, hpush⟩
    · exact .inl (assign_eq_error hassign)
    · obtain ⟨haccepts, rfl⟩ := assign_eq_ok hassign
      obtain ⟨he, hfull, rfl⟩ := pushFrame_eq_error hpush
      exact .inr ⟨he, hfull, haccepts, rfl⟩

end Environment

namespace Machine

open Environment

variable {κ : Type} {m m' : Machine κ}

theorem evaluate_ne_outOfMemory (expr : Expr) (m : Machine κ) :
    ∀ e, (Machine.evaluate expr m).1 = .error e → ¬ e.code = .outOfMemory := by
  intro e he hmemory
  have hcode :=
    ((expr.evaluate_keeps m.environment.store m.environment.generator trivial).2 e he).code
  rw [hmemory] at hcode
  simp [ErrorCode.OfValues] at hcode

theorem checkName_ne_outOfMemory (v : Ident) (m : Machine κ) :
    ∀ e, (onEnvironment (checkName v) m).1 = .error e → ¬ e.code = .outOfMemory := by
  intro e he hmemory
  have hcode : e.code = .invalidVariable := (checkName_error he).code
  rw [hcode] at hmemory
  cases hmemory

theorem evaluate_eq_ok {expr : Expr} {value : Value} (h : evaluate expr m = (.ok value, m')) :
    ∃ g, expr.evaluate m.environment.store m.environment.generator = (.ok value, g) ∧
      m' = m.withGenerator g := by
  cases h' : expr.evaluate m.environment.store m.environment.generator with
  | mk result g =>
    have heq : evaluate expr m = (result, m.withGenerator g) := by
      unfold evaluate onEnvironment Environment.evaluate Environment.withGenerator
      dsimp only
      rw [h']
      rfl
    rw [heq] at h
    cases h
    exact ⟨g, rfl, rfl⟩

end Machine

namespace Statement

open LineBasic.Action Machine Environment

variable {κ : Type} {v : Ident} {start limit step : Expr} {line : Nat}
  {m m' : Machine κ} {e : Error}

/-- A loop that runs out of memory has been evaluated and checked. -/
theorem loop_outOfMemory [Console κ] (h : (loop v start limit step line).execute m = (.error e, m'))
    (hmemory : e.code = .outOfMemory) :
    ∃ x y z g g', start.evaluate m.environment.store m.environment.generator =
      (.ok (.number x), g) ∧
      openLoop v x y z line (m.withGenerator g').environment = (.error e, m'.environment) := by
  obtain ⟨a, m₁, hstart, h⟩ :=
    exists_of_bind_error h hmemory (Machine.evaluate_ne_outOfMemory start m)
  obtain ⟨b, m₂, hlimit, h⟩ :=
    exists_of_bind_error h hmemory (Machine.evaluate_ne_outOfMemory limit m₁)
  obtain ⟨c, m₃, hstep, h⟩ :=
    exists_of_bind_error h hmemory (Machine.evaluate_ne_outOfMemory step m₂)
  obtain ⟨_, m₄, hname, h⟩ := exists_of_bind_error h hmemory (checkName_ne_outOfMemory v m₃)
  obtain ⟨g₁, hg₁, rfl⟩ := Machine.evaluate_eq_ok hstart
  obtain ⟨g₂, -, rfl⟩ := Machine.evaluate_eq_ok hlimit
  obtain ⟨g₃, -, rfl⟩ := Machine.evaluate_eq_ok hstep
  have hsame := onEnvironment_unchanged (checkName_moves v (m.withGenerator g₃).environment)
  obtain rfl : m₄ = m.withGenerator g₃ := (congrArg Prod.snd hname).symm.trans hsame
  unfold executeLoop at h
  split at h
  · obtain ⟨hresult, rfl⟩ := Prod.mk.inj h
    exact ⟨_, _, _, g₁, g₃, hg₁, Prod.ext hresult rfl⟩
  · cases h
    cases hmemory

/-- A loop that cannot be opened leaves the open loops as they were. It leaves the variables as they
were too, unless the stack is full: then the loop variable has the start value, and the other
variables are as they were. -/
theorem loop_error_leaves [Console κ]
    (h : (loop v start limit step line).execute m = (.error e, m')) :
    m'.environment.frames = m.environment.frames ∧
      (e ≠ tooManyLoops → m'.environment.store = m.environment.store) ∧
      (e = tooManyLoops → m.environment.frames.size = memoryLimit ∧
        ∃ x g haccepts, start.evaluate m.environment.store m.environment.generator =
          (.ok (.number x), g) ∧
          m'.environment.store = m.environment.store.insert v.name.toUpper (.number x)
            haccepts) := by
  by_cases hmemory : e.code = .outOfMemory
  · obtain ⟨x, y, z, g, g', hstart, hopen⟩ := loop_outOfMemory h hmemory
    rcases openLoop_outOfMemory hopen hmemory with ⟨rfl, henv⟩ | ⟨rfl, hfull, haccepts, henv⟩
    · rw [henv]
      exact ⟨rfl, fun _ => rfl, fun he => absurd he.symm tooManyLoops_ne⟩
    · rw [henv]
      exact ⟨rfl, fun he => absurd rfl he, fun _ => ⟨hfull, x, g, haccepts, hstart, rfl⟩⟩
  · have hsame :=
      execute_failsWithin sameEnvironment_allowsFailure (loop v start limit step line) m nofun
      (by rw [h]) hmemory
    rw [h] at hsame
    have henv : m'.environment = { m.environment with generator := m'.environment.generator } :=
      hsame
    rw [henv]
    refine ⟨rfl, fun _ => rfl, ?_⟩
    rintro rfl
    exact absurd rfl hmemory

end Statement

/-! ## A loop that finds the stack full -/

namespace Environment

open LineBasic.Action

variable {v : Ident} {value : Value} {frame : Frame} {env : Environment}

theorem assign_of_accepts (haccepts : env.store.Accepts v.name.toUpper) :
    assign v value env =
      (.ok (), { env with store := env.store.insert v.name.toUpper value haccepts }) := by
  unfold assign set Store.store
  dsimp only
  rw [dif_pos haccepts]

theorem pushFrame_of_full (hfull : env.frames.size = memoryLimit) :
    pushFrame frame env = (.error tooManyLoops, env) := by
  have hnot : ¬ env.frames.items.size < memoryLimit := Nat.not_lt.mpr (Nat.le_of_eq hfull.symm)
  unfold pushFrame Stack.push
  dsimp only
  rw [dif_neg hnot]
  rfl

/-- With a full stack the variable gets its value all the same. -/
theorem openLoop_of_full {start limit step : Float} {line : Nat} (hstep : (step == 0) = false)
    (haccepts : env.store.Accepts v.name.toUpper) (hfull : env.frames.size = memoryLimit) :
    openLoop v start limit step line env =
      (.error tooManyLoops,
        { env with store := env.store.insert v.name.toUpper (.number start) haccepts }) := by
  rw [openLoop, if_neg (by simp [hstep]), bind_of_ok (assign_of_accepts haccepts)]
  exact pushFrame_of_full hfull

/-- An environment with as many open loops as there can be, and some variables. -/
def crowded (store : Store) : Environment :=
  { Environment.ofSeed 7 with
    store
    frames :=
      ⟨Array.replicate memoryLimit ⟨⟨"J"⟩, 1, 2, 1, 10⟩, Nat.le_of_eq Array.size_replicate⟩ }

/-- The variables with five in one of them. -/
def holdingFive : Store :=
  (Store.store "I" (.number 5) .empty).2

theorem holdingFive_eq (haccepts : Store.empty.Accepts "I") :
    holdingFive = Store.empty.insert "I" (.number 5) haccepts := by
  rw [holdingFive, Store.store, dif_pos haccepts]

theorem openLoop_crowded :
    openLoop ⟨"I"⟩ 5 6 1 20 (crowded .empty) = (.error tooManyLoops, crowded holdingFive) := by
  have hstep : ((1 : Float) == 0) = false := by decide +kernel
  have hname : "I".toUpper = "I" := by decide +kernel
  have haccepts : (crowded .empty).store.Accepts "I".toUpper := .inr (by decide)
  rw [openLoop_of_full hstep haccepts Array.size_replicate, holdingFive_eq (.inr (by decide))]
  simp only [hname]
  rfl

end Environment

namespace Statement

open Environment

/-- A loop from five. -/
def fromFive : Statement :=
  .loop ⟨"I"⟩ (.number 5) (.number 6) (.number 1) 20

theorem execute_crowded :
    fromFive.execute (⟨crowded .empty, {}, false⟩ : Machine Transcript) =
      (.error tooManyLoops, ⟨crowded holdingFive, {}, false⟩) :=
  congrArg (fun outcome : _ × Environment =>
    (outcome.1, (⟨outcome.2, {}, false⟩ : Machine Transcript)))
    openLoop_crowded

theorem loop_error_leaves_crowded :
    fromFive.execute (⟨crowded .empty, {}, false⟩ : Machine Transcript) =
        (.error tooManyLoops, ⟨crowded holdingFive, {}, false⟩) ∧
      (crowded holdingFive).frames = (crowded .empty).frames ∧
        (crowded .empty).frames.size = memoryLimit := by
  obtain ⟨hframes, -, hfull⟩ := loop_error_leaves execute_crowded
  exact ⟨execute_crowded, hframes, (hfull rfl).1⟩

/-- A loop that finds the stack full has given its variable the start value. -/
theorem loop_error_stores_start :
    ∃ m', fromFive.execute (⟨crowded .empty, {}, false⟩ : Machine Transcript) =
      (.error tooManyLoops, m') ∧
      (crowded .empty).store.fetch "I" = .number 0 ∧ m'.environment.store.fetch "I" = .number 5 ∧
      m'.environment.store ≠ (crowded .empty).store := by
  have hbefore : (crowded .empty).store.fetch "I" = .number 0 := by
    rw [crowded, Store.fetch_empty]
    decide
  have hafter : (crowded holdingFive).store.fetch "I" = .number 5 := by
    have haccepts : Store.empty.Accepts "I" := .inr (by decide)
    show holdingFive.fetch "I" = .number 5
    rw [holdingFive_eq haccepts, Store.fetch_insert, if_pos rfl]
  refine ⟨⟨crowded holdingFive, {}, false⟩, execute_crowded, hbefore, hafter, fun hsame => ?_⟩
  have hfive : (crowded holdingFive).store = (crowded .empty).store := hsame
  rw [hfive, hbefore] at hafter
  exact absurd hafter (by decide +kernel)

end Statement

end LineBasic
