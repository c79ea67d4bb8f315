import LineBasic.Error

/-!
# Actions

An action works on a state and gives a value or fails with an error. The state that it reached is
there in both cases: what was done before a failure stays done.
-/

namespace LineBasic

/-- A computation on a state that may fail. -/
def Action (σ α : Type) : Type :=
  σ → Except Error α × σ

namespace Action

variable {σ α β : Type}

/-- Gives a value and leaves the state alone. -/
protected def pure (a : α) : Action σ α :=
  fun s => (.ok a, s)

/-- Goes on with the value of an action, unless it failed. -/
protected def bind (x : Action σ α) (f : α → Action σ β) : Action σ β :=
  fun s =>
    match x s with
    | (.ok a, s) => f a s
    | (.error e, s) => (.error e, s)

instance : Monad (Action σ) where
  pure := Action.pure
  bind := Action.bind

/-- Fails and leaves the state alone. -/
def fail (e : Error) : Action σ α :=
  fun s => (.error e, s)

/-- Gives or fails as told and leaves the state alone. -/
def ofExcept (r : Except Error α) : Action σ α :=
  fun s => (r, s)

/-- Changes the error of an action that fails. -/
def mapError (f : Error → Error) (x : Action σ α) : Action σ α :=
  fun s =>
    match x s with
    | (.ok a, s) => (.ok a, s)
    | (.error e, s) => (.error (f e), s)

/-- Puts into the error of an action what was being done. -/
def within (context : String) (x : Action σ α) : Action σ α :=
  x.mapError (·.within context)

@[simp] theorem pure_apply (a : α) (s : σ) : (pure a : Action σ α) s = (.ok a, s) := rfl

@[simp] theorem fail_apply (e : Error) (s : σ) : (fail e : Action σ α) s = (.error e, s) := rfl

theorem bind_apply (x : Action σ α) (f : α → Action σ β) (s : σ) :
    (x >>= f) s = match x s with
      | (.ok a, s) => f a s
      | (.error e, s) => (.error e, s) := rfl

theorem bind_of_ok {x : Action σ α} {f : α → Action σ β} {s s' : σ} {a : α}
    (h : x s = (.ok a, s')) : (x >>= f) s = f a s' := by
  rw [bind_apply, h]

theorem bind_of_error {x : Action σ α} {f : α → Action σ β} {s s' : σ} {e : Error}
    (h : x s = (.error e, s')) : (x >>= f) s = (.error e, s') := by
  rw [bind_apply, h]

end Action

end LineBasic
