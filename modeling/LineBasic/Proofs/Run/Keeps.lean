import LineBasic.Run.Machine

/-!
# What actions keep, and how they fail

`Action.Keeps` says of an action that it keeps an invariant of its state, whether it succeeds or
fails, and that its errors are of some kind. The rules for putting actions together are those of an
invariant. Evaluation changes nothing but the generator, so it keeps whatever does not depend on
that (`Environment.evaluate_keeps`), and it fails only with the errors of `ErrorCode.OfValues`. The
errors of statements are those of `ErrorCode.OfStatements` (`Statement.execute_keeps_bare`): running
a line never gives the error of a run that is stopped from outside. None of these errors has a place
(`Error.Bare`); that is for those to add who know it.
-/

namespace LineBasic

namespace Action

variable {σ α β : Type} {I : σ → Prop} {F G : Error → Prop}

/-- An action keeps an invariant and fails only with certain errors. -/
def Keeps (I : σ → Prop) (F : Error → Prop) (x : Action σ α) : Prop :=
  ∀ s, I s → I (x s).2 ∧ ∀ e, (x s).1 = .error e → F e

theorem Keeps.pure (a : α) : Keeps I F (pure a : Action σ α) := by
  intro s hs
  exact ⟨hs, fun e h => nomatch h⟩

theorem Keeps.fail {e : Error} (he : F e) : Keeps I F (fail e : Action σ α) := by
  intro s hs
  refine ⟨hs, fun e' h => ?_⟩
  obtain rfl : e = e' := Except.error.inj h
  exact he

theorem Keeps.ofExcept {r : Except Error α} (hr : ∀ e, r = .error e → F e) :
    Keeps I F (ofExcept r : Action σ α) := by
  intro s hs
  exact ⟨hs, hr⟩

theorem Keeps.bind {x : Action σ α} {f : α → Action σ β} (hx : Keeps I F x)
    (hf : ∀ a, Keeps I F (f a)) : Keeps I F (x >>= f) := by
  intro s hs
  have hkept := hx s hs
  rw [bind_apply]
  generalize x s = outcome at hkept ⊢
  rcases outcome with ⟨e | a, s'⟩
  · exact ⟨hkept.1, fun e' h => hkept.2 e' (congrArg Except.error (Except.error.inj h))⟩
  · exact hf a s' hkept.1

theorem Keeps.mono {x : Action σ α} (hx : Keeps I F x) (h : ∀ e, F e → G e) : Keeps I G x := by
  intro s hs
  exact ⟨(hx s hs).1, fun e he => h e ((hx s hs).2 e he)⟩

/-- The errors of an action are still of their kind if it does not depend on what was being done. -/
theorem Keeps.within {x : Action σ α} (context : String) (hx : Keeps I F x)
    (hF : ∀ e, F e → F (e.within context)) : Keeps I F (x.within context) := by
  intro s hs
  have hkept := hx s hs
  unfold Action.within mapError
  generalize x s = outcome at hkept ⊢
  rcases outcome with ⟨e | a, s'⟩
  · refine ⟨hkept.1, fun e' h => ?_⟩
    obtain rfl : e.within context = e' := Except.error.inj h
    exact hF e (hkept.2 e rfl)
  · exact ⟨hkept.1, fun e' h => nomatch h⟩

end Action

/-- An error with a code of some kind, and without a place: it says neither on which program line
nor where in the source it was met. -/
structure Error.Bare (C : ErrorCode → Prop) (e : Error) : Prop where
  code : C e.code
  line_eq : e.line = none
  position_eq : e.position = none

namespace Error

variable {C D : ErrorCode → Prop} {e : Error}

theorem bare_because {code : ErrorCode} (h : C code) (detail : String) :
    (because code detail).Bare C :=
  ⟨h, rfl, rfl⟩

theorem Bare.mono (he : e.Bare C) (h : ∀ code, C code → D code) : e.Bare D :=
  ⟨h _ he.code, he.line_eq, he.position_eq⟩

/-- Saying what was being done leaves the code of an error alone and adds no place. -/
theorem Bare.within (he : e.Bare C) (context : String) : (e.within context).Bare C :=
  ⟨he.code, he.line_eq, he.position_eq⟩

end Error

/-! ## Errors of evaluation -/

theorem eq_error_of_map {α β : Type} {r : Except Error α} {f : α → β} {e : Error}
    (h : r.map f = .error e) : r = .error e := by
  cases r with
  | error e' => exact congrArg Except.error (Except.error.inj h)
  | ok a => cases h

/-- The codes of errors that come of computing with values. -/
def ErrorCode.OfValues (code : ErrorCode) : Prop :=
  code ∈
    [typeMismatch, divisionByZero, cannotConvert, unknownFunction, argumentCount,
    illegalFunctionCall]

namespace Value

variable {a b : Value} {e : Error}

theorem toNumber_error (h : a.toNumber = .error e) : e.Bare ErrorCode.OfValues := by
  unfold toNumber at h
  split at h
  · cases h
  · split at h
    · cases h
    · cases h
      exact Error.bare_because (by simp [ErrorCode.OfValues]) _

theorem add_error (h : a.add b = .error e) : e.Bare ErrorCode.OfValues := by
  unfold add at h
  split at h
  · cases h
  · cases ha : a.toNumber with
    | error e' =>
      rw [ha] at h
      obtain rfl : e' = e := Except.error.inj h
      exact toNumber_error ha
    | ok x =>
      cases hb : b.toNumber with
      | error e' =>
        rw [ha, hb] at h
        obtain rfl : e' = e := Except.error.inj h
        exact toNumber_error hb
      | ok y =>
        rw [ha, hb] at h
        cases h

theorem onNumbers_error {verb : String} {f : Float → Float → Except Error Float}
    (h : onNumbers verb f a b = .error e)
    (hf : ∀ x y, f x y = .error e → e.Bare ErrorCode.OfValues) : e.Bare ErrorCode.OfValues := by
  unfold onNumbers at h
  split at h
  · exact hf _ _ (eq_error_of_map h)
  · cases h
    exact Error.bare_because (by simp [ErrorCode.OfValues]) _

theorem divide_error (h : a.divide b = .error e) : e.Bare ErrorCode.OfValues := by
  refine onNumbers_error h fun x y hxy => ?_
  split at hxy
  · cases hxy
    exact ⟨by simp [ErrorCode.OfValues], rfl, rfl⟩
  · cases hxy

theorem test_error {numbers : Float → Float → Bool} {texts : String → String → Bool}
    (h : test numbers texts a b = .error e) : e.Bare ErrorCode.OfValues := by
  unfold test at h
  split at h
  · cases h
  · cases h
  · cases h
    exact ⟨by simp [ErrorCode.OfValues], rfl, rfl⟩

end Value

theorem Operator.apply_error {op : Operator} {a b : Value} {e : Error}
    (h : op.apply a b = .error e) : e.Bare ErrorCode.OfValues := by
  cases op with
  | power | multiply | subtract => exact Value.onNumbers_error h fun _ _ hxy => nomatch hxy
  | divide => exact Value.divide_error h
  | add => exact Value.add_error h
  | equal | notEqual | less | lessEqual | greater | greaterEqual => exact Value.test_error h

namespace Builtin

theorem bare_mismatch (index : Nat) (ps : List Parameter) (vs : List Value) :
    (mismatch index ps vs).Bare (· = .typeMismatch) := by
  fun_induction mismatch index ps vs with
  | case1 _ _ _ _ ih => exact ih
  | case2 _ _ _ _ ih => exact ih
  | case3 => exact ⟨rfl, rfl, rfl⟩
  | case4 => exact ⟨rfl, rfl, rfl⟩
  | case5 => exact ⟨rfl, rfl, rfl⟩

theorem bare_argumentError (f : Builtin) (arguments : List Value) :
    (f.argumentError arguments).Bare ErrorCode.OfValues := by
  unfold argumentError
  split
  · exact (bare_mismatch _ _ _).mono fun code hcode => by simp [hcode, ErrorCode.OfValues]
  · exact Error.bare_because (by simp [ErrorCode.OfValues]) _

open LineBasic.Action in
theorem call_keeps (f : Builtin) (arguments : List Value) :
    Keeps (fun _ => True) (Error.Bare ErrorCode.OfValues) (f.call arguments) := by
  fun_cases call f arguments with
  | case6 => exact fun g _ => ⟨trivial, fun e h => nomatch h⟩
  | case8 => exact .fail (Error.bare_because (by simp [ErrorCode.OfValues]) _)
  | case11 s => exact .ofExcept fun e h => Value.toNumber_error (eq_error_of_map h)
  | case12 =>
    apply Keeps.fail
    exact f.bare_argumentError arguments
  | _ => exact .pure _

end Builtin

namespace Expr

open LineBasic.Action

theorem inLeft_keeps {op : Operator} {x : Action Generator Value}
    (hx : Keeps (fun _ => True) (Error.Bare ErrorCode.OfValues) x) :
    Keeps (fun _ => True) (Error.Bare ErrorCode.OfValues) (inLeft op x) := by
  unfold inLeft
  split
  · exact hx
  · exact hx.within _ fun e he => he.within _

theorem inRight_keeps {op : Operator} {x : Action Generator Value}
    (hx : Keeps (fun _ => True) (Error.Bare ErrorCode.OfValues) x) :
    Keeps (fun _ => True) (Error.Bare ErrorCode.OfValues) (inRight op x) := by
  unfold inRight
  split
  · exact hx
  · exact hx.within _ fun e he => he.within _

mutual

/-- An expression fails only because of the values in it. -/
theorem evaluate_keeps (store : Store) :
    (e : Expr) → Keeps (fun _ => True) (Error.Bare ErrorCode.OfValues) (e.evaluate store)
  | .number x | .text s | .var v => by
    rw [evaluate]
    exact .pure _
  | .call f arguments => by
    rw [evaluate]
    split
    · exact (evaluateAll_keeps store arguments).bind fun values => Builtin.call_keeps _ values
    · exact .fail (Error.bare_because (by simp [ErrorCode.OfValues]) _)
  | .paren e => by
    rw [evaluate]
    exact (evaluate_keeps store e).within _ fun e he => he.within _
  | .binary op l r => by
    rw [evaluate]
    refine (inLeft_keeps (evaluate_keeps store l)).bind fun a => ?_
    refine (inRight_keeps (evaluate_keeps store r)).bind fun b => ?_
    exact .ofExcept fun e h => Operator.apply_error h

theorem evaluateAll_keeps (store : Store) :
    (es : List Expr) → Keeps (fun _ => True) (Error.Bare ErrorCode.OfValues) (evaluateAll store es)
  | [] => by
    rw [evaluateAll]
    exact .pure _
  | e :: es => by
    rw [evaluateAll]
    refine (evaluate_keeps store e).bind fun v => ?_
    exact (evaluateAll_keeps store es).bind fun vs => .pure _

end

end Expr

/-! ## Actions of a machine -/

namespace Machine

open LineBasic.Action

variable {κ α : Type} {I : Environment → Prop} {F : Error → Prop}

theorem onEnvironment_keeps {x : Action Environment α} (hx : Keeps I F x) :
    Keeps (fun m : Machine κ => I m.environment) F (onEnvironment x) := by
  intro m hm
  exact hx m.environment hm

theorem onConsole_keeps (call : κ → Reply κ α) (hF : ∀ fault : DeviceFault, F fault.toError) :
    Keeps (fun m : Machine κ => I m.environment) F (onConsole call) := by
  intro m hm
  unfold onConsole
  dsimp only
  rcases call m.console with ⟨fault | a, console, raised⟩
  · refine ⟨hm, fun e h => ?_⟩
    obtain rfl : fault.toError = e := Except.error.inj h
    exact hF fault
  · exact ⟨hm, fun e h => nomatch h⟩

end Machine

namespace Environment

open LineBasic.Action

variable {α : Type} {I : Environment → Prop} {F : Error → Prop}

theorem withGenerator_keeps {x : Store → Action Generator α}
    (hI : ∀ env g, I env → I { env with generator := g })
    (hx : ∀ store, Keeps (fun _ => True) F (x store)) : Keeps I F (withGenerator x) := by
  intro env henv
  exact ⟨hI env _ henv, fun e h => (hx env.store env.generator trivial).2 e h⟩

theorem evaluate_keeps (hI : ∀ env g, I env → I { env with generator := g })
    (hF : ∀ e : Error, e.Bare ErrorCode.OfValues → F e) (e : Expr) : Keeps I F (evaluate e) :=
  withGenerator_keeps hI fun store => (e.evaluate_keeps store).mono hF

theorem evaluateAll_keeps (hI : ∀ env g, I env → I { env with generator := g })
    (hF : ∀ e : Error, e.Bare ErrorCode.OfValues → F e) (es : List Expr) :
    Keeps I F (evaluateAll es) :=
  withGenerator_keeps hI fun store => (Expr.evaluateAll_keeps store es).mono hF

end Environment

/-! ## Statements -/

theorem Statement.inputValue_error {v : Ident} {line : String} {e : Error}
    (h : inputValue v line = .error e) : e.Bare ErrorCode.OfValues := by
  unfold inputValue at h
  split at h
  · cases h
  · exact Value.toNumber_error (eq_error_of_map h)

namespace Statement

open LineBasic.Action Machine Environment

variable {κ : Type} {I : Environment → Prop} {F : Error → Prop}

/-- What a statement does to the environment by itself, evaluation apart, keeps an invariant and
fails only with certain errors. -/
def Obeys (I : Environment → Prop) (F : Error → Prop) : Statement → Prop
  | .stop => ∀ env, I env → I env.finish
  | .loop v _ _ _ line =>
    Keeps I F (checkName v) ∧ ∀ start limit step, Keeps I F (openLoop v start limit step line)
  | .goto n => ∀ env, I env → I (env.jump n)
  | .cond _ body => body.Obeys I F
  | .input _ v | .assign v _ => Keeps I F (checkName v) ∧
      ∀ value, Keeps I F (Environment.assign v value)
  | .next v => Keeps I F (nextTurn v)
  | .print _ | .remark _ => True

theorem modify_keeps {f : Environment → Environment} (hf : ∀ env, I env → I (f env)) :
    Keeps (fun m : Machine κ => I m.environment) F (modify f) := by
  intro m hm
  exact ⟨hf m.environment hm, fun e h => nomatch h⟩

theorem executeLoop_keeps {v : Ident} {line : Nat}
    (hF : ∀ e : Error, e.Bare ErrorCode.OfValues → F e)
    (hopen : ∀ start limit step, Keeps I F (openLoop v start limit step line)) (a b c : Value) :
    Keeps (fun m : Machine κ => I m.environment) F (executeLoop v line a b c) := by
  unfold executeLoop
  split
  · exact onEnvironment_keeps (hopen _ _ _)
  · exact .fail (hF _ (Error.bare_because (by simp [ErrorCode.OfValues]) _))

/-- Apart from what a statement does to the environment by itself there is only evaluation and the
console. -/
theorem execute_keeps [Console κ] (hI : ∀ env g, I env → I { env with generator := g })
    (hvalues : ∀ e : Error, e.Bare ErrorCode.OfValues → F e)
    (hdevice : ∀ fault : DeviceFault, F fault.toError) {st : Statement} (hst : st.Obeys I F) :
    Keeps (fun m : Machine κ => I m.environment) F st.execute := by
  have hevaluate : ∀ e, Keeps (fun m : Machine κ => I m.environment) F (Machine.evaluate e) :=
    fun e => onEnvironment_keeps (Environment.evaluate_keeps hI hvalues e)
  induction st with
  | stop => exact modify_keeps hst
  | loop v start limit step line =>
    refine (hevaluate start).bind fun a => ?_
    refine (hevaluate limit).bind fun b => ?_
    refine (hevaluate step).bind fun c => ?_
    refine (onEnvironment_keeps hst.1).bind fun _ => ?_
    exact executeLoop_keeps hvalues hst.2 a b c
  | goto n => exact modify_keeps hst
  | cond condition body ih =>
    refine (hevaluate condition).bind fun value => ?_
    cases value with
    | text _ => exact .fail (hvalues _ ⟨by simp [ErrorCode.OfValues], rfl, rfl⟩)
    | number x =>
      dsimp only
      split
      · exact ih hst
      · exact .pure _
  | input prompt v =>
    refine (onEnvironment_keeps hst.1).bind fun _ => ?_
    refine (onConsole_keeps _ hdevice).bind fun _ => ?_
    refine (onConsole_keeps _ hdevice).bind fun line => ?_
    refine Keeps.bind (.ofExcept fun e h => hvalues e (inputValue_error h)) fun value => ?_
    exact onEnvironment_keeps (hst.2 value)
  | assign v e =>
    refine (onEnvironment_keeps hst.1).bind fun _ => ?_
    refine (hevaluate e).bind fun value => ?_
    exact onEnvironment_keeps (hst.2 value)
  | next v => exact onEnvironment_keeps hst
  | print items =>
    refine (onEnvironment_keeps (evaluateAll_keeps hI hvalues items)).bind fun values => ?_
    exact onConsole_keeps _ hdevice
  | remark text => exact .pure _

end Statement

/-! ## Errors of statements -/

/-- The codes of errors that come of executing a statement. -/
def ErrorCode.OfStatements (code : ErrorCode) : Prop :=
  code.OfValues ∨
    code ∈ [invalidVariable, stepZero, nextWithoutFor, outOfMemory, inputPastEnd, device]

theorem ErrorCode.OfStatements.ne_executionLimit {code : ErrorCode} (h : code.OfStatements) :
    code ≠ .executionLimit := by
  rintro rfl
  simp [ErrorCode.OfStatements, ErrorCode.OfValues] at h

/-- The codes of errors that a console gives. -/
def ErrorCode.OfDevices (code : ErrorCode) : Prop :=
  code = inputPastEnd ∨ code = device

theorem DeviceFault.bare_toError (fault : DeviceFault) :
    fault.toError.Bare ErrorCode.OfDevices := by
  cases fault with
  | endOfInput => exact ⟨.inl rfl, rfl, rfl⟩
  | failure text => exact Error.bare_because (.inr rfl) _

namespace Environment

open LineBasic.Action

variable {v : Ident} {value : Value} {frame : Frame} {env env' : Environment} {e : Error}

theorem checkName_error (h : (checkName v env).1 = .error e) : e.Bare (· = .invalidVariable) := by
  unfold checkName at h
  split at h
  · cases h
    exact ⟨rfl, rfl, rfl⟩
  · cases h

theorem assign_error (h : (assign v value env).1 = .error e) : e.Bare (· = .outOfMemory) := by
  unfold assign set Store.store at h
  dsimp only at h
  split at h
  · cases h
  · cases h
    exact ⟨rfl, rfl, rfl⟩

theorem pushFrame_error (h : (pushFrame frame env).1 = .error e) : e.Bare (· = .outOfMemory) := by
  unfold pushFrame Stack.push at h
  dsimp only at h
  split at h
  · cases h
  · cases h
    exact ⟨rfl, rfl, rfl⟩

theorem openLoop_error {start limit step : Float} {line : Nat}
    (h : (openLoop v start limit step line env).1 = .error e) :
    e.Bare fun code => code = .stepZero ∨ code = .outOfMemory := by
  unfold openLoop at h
  split at h
  · cases h
    exact ⟨.inl rfl, rfl, rfl⟩
  · rw [bind_apply] at h
    split at h
    · exact (pushFrame_error h).mono fun _ => .inr
    · rename_i hassign
      cases h
      exact (assign_error (by rw [hassign])).mono fun _ => .inr

theorem nextTurn_error {counter : Option Ident} (h : (nextTurn counter env).1 = .error e) :
    e.Bare fun code => code = .nextWithoutFor ∨ code = .outOfMemory := by
  have hturn : ∀ frame, (turn frame env).1 = .error e → e.Bare (· = .outOfMemory) := by
    intro frame hframe
    unfold turn at hframe
    dsimp only at hframe
    split at hframe
    · rename_i hassign
      cases hframe
      exact assign_error (by rw [hassign])
    · cases hframe
  unfold nextTurn at h
  split at h
  · cases h
    exact ⟨.inl rfl, rfl, rfl⟩
  · split at h
    · exact (hturn _ h).mono fun _ => .inr
    · split at h
      · exact (hturn _ h).mono fun _ => .inr
      · cases h
        exact Error.bare_because (.inl rfl) _

end Environment

open LineBasic.Action Environment in
/-- Executing a statement fails only with the errors of statements, and these have no place. -/
theorem Statement.execute_keeps_bare {κ : Type} [Console κ] (st : Statement) :
    Keeps (fun _ : Machine κ => True) (Error.Bare ErrorCode.OfStatements) st.execute := by
  have hname : ∀ v, Keeps (fun _ => True) (Error.Bare ErrorCode.OfStatements) (checkName v) := by
    intro v env _
    exact ⟨trivial, fun e h => (checkName_error h).mono (by simp [ErrorCode.OfStatements])⟩
  have hassign : ∀ v value,
      Keeps (fun _ => True) (Error.Bare ErrorCode.OfStatements) (Environment.assign v value) := by
    intro v value env _
    exact ⟨trivial, fun e h => (assign_error h).mono (by simp [ErrorCode.OfStatements])⟩
  refine execute_keeps (I := fun _ => True) (fun _ _ _ => trivial) (fun e h => h.mono fun _ => .inl)
    (fun fault => ?_) ?_
  · exact fault.bare_toError.mono (by simp [ErrorCode.OfStatements, ErrorCode.OfDevices])
  · induction st with
    | stop | goto n => exact fun _ _ => trivial
    | loop v start limit step line =>
      refine ⟨hname v, fun _ _ _ env _ => ⟨trivial, fun e h => ?_⟩⟩
      exact (openLoop_error h).mono (by simp [ErrorCode.OfStatements])
    | cond condition body ih => exact ih
    | input prompt v => exact ⟨hname v, hassign v⟩
    | assign v e => exact ⟨hname v, hassign v⟩
    | next v =>
      refine fun env _ => ⟨trivial, fun e h => ?_⟩
      exact (nextTurn_error h).mono (by simp [ErrorCode.OfStatements])
    | print items | remark text => trivial

end LineBasic
