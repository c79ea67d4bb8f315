import LineBasic.Proofs.Environment.FirstFailure
import LineBasic.Proofs.Run.Dependence

/-!
# What evaluation does to the environment

An expression reads variables and draws random numbers. `Expr.Evaluates` says what comes of an
expression if the calls of the random function that are performed receive certain numbers, in the
order in which they are performed; it knows no generator. Evaluation is this with the numbers that
the generator gives next, one for each such call, and it leaves the rest of the environment alone
(`Environment.evaluate_only_draws`). So the result depends only on the variables that occur in the
expression and on the generator, and without a call of the random function not on that either.
-/

namespace LineBasic

/-! ## Successive draws -/

/-- The numbers are those that a generator gives next, one draw after the other, and another
generator is left. -/
def Generator.Gives (g : Generator) : List Float → Generator → Prop
  | [], g' => g' = g
  | x :: xs, g' => x = g.draw.1 ∧ g.draw.2.Gives xs g'

theorem Generator.gives_append {xs ys : List Float} {g g' : Generator} :
    g.Gives (xs ++ ys) g' ↔ ∃ middle, g.Gives xs middle ∧ middle.Gives ys g' := by
  induction xs generalizing g with
  | nil => simp [Gives]
  | cons x xs ih =>
    simp only [List.cons_append, Gives, ih]
    constructor
    · rintro ⟨hx, middle, hxs, hys⟩
      exact ⟨middle, ⟨hx, hxs⟩, hys⟩
    · rintro ⟨middle, ⟨hx, hxs⟩, hys⟩
      exact ⟨hx, middle, hxs, hys⟩

/-- A call is one of the random function, which gives the number it draws, or has nothing to do with
the generator. -/
theorem Builtin.call_cases (b : Builtin) (values : List Value) :
    b = .rnd ∧ values = [] ∨ ∃ result, ∀ g, b.call values g = (result, g) := by
  fun_cases call b values with
  | case6 => exact .inl ⟨rfl, rfl⟩
  | case11 s => exact .inr ⟨(Value.text s).toNumber.map .number, fun _ => rfl⟩
  | _ => exact .inr ⟨_, fun _ => rfl⟩

namespace Expr

/-! ## Evaluation with given random numbers -/

mutual

/-- What comes of an expression if the random numbers that it draws are the given ones, in this
order. -/
inductive Evaluates (store : Store) : Expr → List Float → Except Error Value → Prop
  | number (x : Float) : Evaluates store (.number x) [] (.ok (.number x))
  | text (s : String) : Evaluates store (.text s) [] (.ok (.text s))
  | var (v : Ident) : Evaluates store (.var v) [] (.ok (store.fetch v.name.toUpper))
  | unknown {f : Ident} {arguments : List Expr} (hf : Builtin.ofName? f.name = none) :
    Evaluates store (.call f arguments) []
      (.error (.because .unknownFunction ("unknown function: " ++ f.name)))
  | random {f : Ident} (hf : Builtin.ofName? f.name = some .rnd) (x : Float) :
    Evaluates store (.call f []) [x] (.ok (.number x))
  | call {f : Ident} {b : Builtin} {arguments : List Expr} {xs : List Float} {values : List Value}
      {result : Except Error Value} (hf : Builtin.ofName? f.name = some b)
      (harguments : EvaluatesAll store arguments xs (.ok values))
      (hcall : ∀ g, b.call values g = (result, g)) :
    Evaluates store (.call f arguments) xs result
  | argument {f : Ident} {b : Builtin} {arguments : List Expr} {xs : List Float} {e : Error}
      (hf : Builtin.ofName? f.name = some b)
      (harguments : EvaluatesAll store arguments xs (.error e)) :
    Evaluates store (.call f arguments) xs (.error e)
  | paren {e : Expr} {xs : List Float} {result : Except Error Value}
      (he : Evaluates store e xs result) :
    Evaluates store (.paren e) xs (result.mapError Place.inside.wrap)
  | left {op : Operator} {l r : Expr} {xs : List Float} {e : Error}
      (hl : Evaluates store l xs (.error e)) :
    Evaluates store (.binary op l r) xs (.error ((Place.left op).wrap e))
  | right {op : Operator} {l r : Expr} {xs ys : List Float} {a : Value} {e : Error}
      (hl : Evaluates store l xs (.ok a)) (hr : Evaluates store r ys (.error e)) :
    Evaluates store (.binary op l r) (xs ++ ys) (.error ((Place.right op).wrap e))
  | binary {op : Operator} {l r : Expr} {xs ys : List Float} {a b : Value}
      (hl : Evaluates store l xs (.ok a)) (hr : Evaluates store r ys (.ok b)) :
      Evaluates store (.binary op l r) (xs ++ ys) (op.apply a b)

/-- The same of expressions that are evaluated one after the other. -/
inductive EvaluatesAll (store : Store) : List Expr → List Float → Except Error (List Value) → Prop
  | nil : EvaluatesAll store [] [] (.ok [])
  | head {e : Expr} {es : List Expr} {xs : List Float} {err : Error}
      (he : Evaluates store e xs (.error err)) :
    EvaluatesAll store (e :: es) xs (.error err)
  | cons {e : Expr} {es : List Expr} {xs ys : List Float} {v : Value}
      {result : Except Error (List Value)} (he : Evaluates store e xs (.ok v))
      (hes : EvaluatesAll store es ys result) :
    EvaluatesAll store (e :: es) (xs ++ ys) (result.map (v :: ·))

end

variable {store : Store}

theorem EvaluatesAll.eq_nil_of_ok_nil {es : List Expr} {xs : List Float}
    (h : EvaluatesAll store es xs (.ok [])) : es = [] ∧ xs = [] := by
  generalize hresult : Except.ok [] = result at h
  cases h with
  | nil => exact ⟨rfl, rfl⟩
  | head he => cases hresult
  | @cons _ _ _ _ _ result he hes => cases result <;> cases hresult

mutual

/-- Evaluation uses up numbers that its generator gives. -/
theorem exists_evaluates : (e : Expr) → (g : Generator) →
    ∃ xs, e.Evaluates store xs (e.evaluate store g).1 ∧ g.Gives xs (e.evaluate store g).2
  | .number x, g => ⟨[], by rw [evaluate]; exact .number x, rfl⟩
  | .text s, g => ⟨[], by rw [evaluate]; exact .text s, rfl⟩
  | .var v, g => ⟨[], by rw [evaluate]; exact .var v, rfl⟩
  | .call f arguments, g => by
    cases hf : Builtin.ofName? f.name with
    | none =>
      rw [evaluate_call_of_none store hf]
      exact ⟨[], .unknown hf, rfl⟩
    | some b =>
      obtain ⟨xs, harguments, hxs⟩ := exists_evaluatesAll arguments g
      rw [evaluate_call_of_some store hf]
      generalize evaluateAll store arguments g = values at harguments hxs ⊢
      rcases values with ⟨e | values, g'⟩
      · exact ⟨xs, .argument hf harguments, hxs⟩
      rcases b.call_cases values with ⟨rfl, rfl⟩ | ⟨result, hcall⟩
      · obtain ⟨rfl, rfl⟩ := harguments.eq_nil_of_ok_nil
        obtain rfl : g' = g := hxs
        exact ⟨[g'.draw.1], .random hf _, rfl, rfl⟩
      · dsimp only
        rw [hcall]
        exact ⟨xs, .call hf harguments hcall, hxs⟩
  | .paren e, g => by
    obtain ⟨xs, he, hxs⟩ := exists_evaluates e g
    rw [evaluate_paren]
    exact ⟨xs, .paren he, hxs⟩
  | .binary op l r, g => by
    obtain ⟨xs, hl, hxs⟩ := exists_evaluates l g
    rw [evaluate_binary]
    generalize l.evaluate store g = left at hl hxs ⊢
    rcases left with ⟨e | a, middle⟩
    · exact ⟨xs, .left hl, hxs⟩
    obtain ⟨ys, hr, hys⟩ := exists_evaluates r middle
    dsimp only
    generalize r.evaluate store middle = right at hr hys ⊢
    have hgives := Generator.gives_append.mpr ⟨middle, hxs, hys⟩
    rcases right with ⟨e | b, g'⟩
    · exact ⟨xs ++ ys, .right hl hr, hgives⟩
    · exact ⟨xs ++ ys, .binary hl hr, hgives⟩

theorem exists_evaluatesAll : (es : List Expr) → (g : Generator) →
    ∃ xs, EvaluatesAll store es xs (evaluateAll store es g).1 ∧
      g.Gives xs (evaluateAll store es g).2
  | [], g => ⟨[], by rw [evaluateAll]; exact .nil, rfl⟩
  | e :: es, g => by
    obtain ⟨xs, he, hxs⟩ := exists_evaluates e g
    rw [evaluateAll_cons]
    generalize e.evaluate store g = head at he hxs ⊢
    rcases head with ⟨err | v, middle⟩
    · exact ⟨xs, .head he, hxs⟩
    obtain ⟨ys, hes, hys⟩ := exists_evaluatesAll es middle
    exact ⟨xs ++ ys, .cons he hes, Generator.gives_append.mpr ⟨middle, hxs, hys⟩⟩

end

mutual

/-- With a generator that gives its numbers, an expression evaluates to what it comes to. -/
theorem Evaluates.evaluate_eq {e : Expr} {xs : List Float} {result : Except Error Value}
    {g g' : Generator} (h : e.Evaluates store xs result) (hg : g.Gives xs g') :
    e.evaluate store g = (result, g') := by
  cases h with
  | number | text | var =>
    rw [evaluate, show g' = g from hg]
    rfl
  | unknown hf => rw [evaluate_call_of_none store hf, show g' = g from hg]
  | random hf x =>
    obtain ⟨rfl, rfl⟩ := hg
    rw [evaluate_call_of_some store hf, evaluateAll]
    rfl
  | call hf harguments hcall =>
    rw [evaluate_call_of_some store hf, harguments.evaluateAll_eq hg]
    exact hcall g'
  | argument hf harguments => rw [evaluate_call_of_some store hf, harguments.evaluateAll_eq hg]
  | paren he => rw [evaluate_paren, he.evaluate_eq hg]
  | left hl => rw [evaluate_binary, hl.evaluate_eq hg]
  | right hl hr =>
    obtain ⟨middle, hxs, hys⟩ := Generator.gives_append.mp hg
    rw [evaluate_binary, hl.evaluate_eq hxs]
    dsimp only
    rw [hr.evaluate_eq hys]
  | binary hl hr =>
    obtain ⟨middle, hxs, hys⟩ := Generator.gives_append.mp hg
    rw [evaluate_binary, hl.evaluate_eq hxs]
    dsimp only
    rw [hr.evaluate_eq hys]

theorem EvaluatesAll.evaluateAll_eq {es : List Expr} {xs : List Float}
    {result : Except Error (List Value)} {g g' : Generator} (h : EvaluatesAll store es xs result)
    (hg : g.Gives xs g') : evaluateAll store es g = (result, g') := by
  cases h with
  | nil =>
    rw [evaluateAll, show g' = g from hg]
    rfl
  | head he => rw [evaluateAll_cons, he.evaluate_eq hg]
  | cons he hes =>
    obtain ⟨middle, hxs, hys⟩ := Generator.gives_append.mp hg
    rw [evaluateAll_cons, he.evaluate_eq hxs]
    dsimp only
    rw [hes.evaluateAll_eq hys]

end

/-! ## What the result depends on -/

mutual

/-- The variables that occur in an expression. -/
def vars : Expr → List Ident
  | .number _ | .text _ => []
  | .var v => [v]
  | .call _ arguments => varsAll arguments
  | .paren e => e.vars
  | .binary _ l r => l.vars ++ r.vars

/-- The variables that occur in expressions. -/
def varsAll : List Expr → List Ident
  | [] => []
  | e :: es => e.vars ++ varsAll es

end

/-- Two stores have the same value in each of some variables. -/
def SameIn (vs : List Ident) (store store' : Store) : Prop :=
  ∀ v ∈ vs, store'.fetch v.name.toUpper = store.fetch v.name.toUpper

theorem sameIn_append {vs ws : List Ident} {store store' : Store} :
    SameIn (vs ++ ws) store store' ↔ SameIn vs store store' ∧ SameIn ws store store' :=
  List.forall_mem_append

mutual

/-- What comes of an expression is the same with other variables, as long as those in it have the
same values. -/
theorem Evaluates.of_sameIn {store' : Store} {e : Expr} {xs : List Float}
    {result : Except Error Value} (h : e.Evaluates store xs result)
    (hsame : SameIn e.vars store store') : e.Evaluates store' xs result := by
  cases h with
  | number x => exact .number x
  | text s => exact .text s
  | var v =>
    rw [← hsame v (by simp [vars])]
    exact .var v
  | unknown hf => exact .unknown hf
  | random hf x => exact .random hf x
  | call hf harguments hcall => exact .call hf (harguments.of_sameIn hsame) hcall
  | argument hf harguments => exact .argument hf (harguments.of_sameIn hsame)
  | paren he => exact .paren (he.of_sameIn hsame)
  | left hl => exact .left (hl.of_sameIn (sameIn_append.mp hsame).1)
  | right hl hr =>
    exact .right (hl.of_sameIn (sameIn_append.mp hsame).1) (hr.of_sameIn (sameIn_append.mp hsame).2)
  | binary hl hr =>
    exact .binary (hl.of_sameIn (sameIn_append.mp hsame).1)
      (hr.of_sameIn (sameIn_append.mp hsame).2)

theorem EvaluatesAll.of_sameIn {store' : Store} {es : List Expr} {xs : List Float}
    {result : Except Error (List Value)} (h : EvaluatesAll store es xs result)
    (hsame : SameIn (varsAll es) store store') : EvaluatesAll store' es xs result := by
  cases h with
  | nil => exact .nil
  | head he => exact .head (he.of_sameIn (sameIn_append.mp hsame).1)
  | cons he hes =>
    exact .cons (he.of_sameIn (sameIn_append.mp hsame).1) (hes.of_sameIn (sameIn_append.mp hsame).2)

end

mutual

/-- An expression in which no call of the random function stands draws nothing. -/
theorem Evaluates.eq_nil_of_not_draws {e : Expr} {xs : List Float} {result : Except Error Value}
    (h : e.Evaluates store xs result) (hdraws : e.draws = false) : xs = [] := by
  cases h with
  | number | text | var | unknown => rfl
  | random hf x => simp [draws, hf] at hdraws
  | call hf harguments hcall =>
    exact harguments.eq_nil_of_not_draws (Bool.or_eq_false_iff.mp hdraws).2
  | argument hf harguments =>
    exact harguments.eq_nil_of_not_draws (Bool.or_eq_false_iff.mp hdraws).2
  | paren he => exact he.eq_nil_of_not_draws hdraws
  | left hl => exact hl.eq_nil_of_not_draws (Bool.or_eq_false_iff.mp hdraws).1
  | right hl hr =>
    obtain ⟨hl', hr'⟩ := Bool.or_eq_false_iff.mp hdraws
    rw [hl.eq_nil_of_not_draws hl', hr.eq_nil_of_not_draws hr', List.append_nil]
  | binary hl hr =>
    obtain ⟨hl', hr'⟩ := Bool.or_eq_false_iff.mp hdraws
    rw [hl.eq_nil_of_not_draws hl', hr.eq_nil_of_not_draws hr', List.append_nil]

theorem EvaluatesAll.eq_nil_of_not_draws {es : List Expr} {xs : List Float}
    {result : Except Error (List Value)} (h : EvaluatesAll store es xs result)
    (hdraws : drawsAny es = false) : xs = [] := by
  cases h with
  | nil => rfl
  | head he => exact he.eq_nil_of_not_draws (Bool.or_eq_false_iff.mp hdraws).1
  | cons he hes =>
    obtain ⟨he', hes'⟩ := Bool.or_eq_false_iff.mp hdraws
    rw [he.eq_nil_of_not_draws he', hes.eq_nil_of_not_draws hes', List.append_nil]

end

end Expr

namespace Environment

/-- Evaluation changes nothing but the generator. It draws one number for each call of the random
function that is performed, and the calls receive the numbers in the order in which they are
performed. The result, be it a value or an error, is the same in each environment with the same
values of the variables that occur in the expression, if the generator is the same or no call of the
random function stands in the expression. -/
theorem evaluate_only_draws (e : Expr) (env : Environment) :
    (∀ result env', evaluate e env = (result, env') ↔
        ∃ xs g', e.Evaluates env.store xs result ∧ env.generator.Gives xs g' ∧
          env' = { env with generator := g' }) ∧
      ∀ env', (∀ v ∈ e.vars, env'.get v.name = env.get v.name) →
        env'.generator = env.generator ∨ e.draws = false →
          (evaluate e env').1 = (evaluate e env).1 := by
  have heval (env : Environment) : evaluate e env =
      ((e.evaluate env.store env.generator).1,
        { env with generator := (e.evaluate env.store env.generator).2 }) := rfl
  constructor
  · intro result env'
    constructor
    · intro h
      rw [heval] at h
      obtain ⟨rfl, rfl⟩ := Prod.ext_iff.mp h
      obtain ⟨xs, he, hxs⟩ := @Expr.exists_evaluates env.store e env.generator
      exact ⟨xs, _, he, hxs, rfl⟩
    · rintro ⟨xs, g', he, hxs, rfl⟩
      rw [heval, he.evaluate_eq hxs]
  · intro env' hsame hgenerator
    obtain ⟨xs, he, hxs⟩ := @Expr.exists_evaluates env.store e env.generator
    have he' : e.Evaluates env'.store xs (evaluate e env).1 := he.of_sameIn hsame
    -- The other generator gives these numbers too: it is the same one, or there are none.
    have hxs' : ∃ g', env'.generator.Gives xs g' := by
      rcases hgenerator with hgenerator | hdraws
      · exact ⟨_, hgenerator ▸ hxs⟩
      · obtain rfl := he.eq_nil_of_not_draws hdraws
        exact ⟨_, rfl⟩
    obtain ⟨g', hg'⟩ := hxs'
    rw [heval env', he'.evaluate_eq hg']

/-- The difference of two random numbers. -/
def difference : Expr :=
  .binary .subtract (.call ⟨"RND"⟩ []) (.call ⟨"RND"⟩ [])

theorem evaluate_only_draws_difference :
    (∃ x y g', (Generator.ofSeed 7).Gives [x, y] g' ∧
        evaluate difference (.ofSeed 7) =
          (Operator.subtract.apply (.number x) (.number y), { ofSeed 7 with generator := g' })) ∧
      (evaluate difference ((ofSeed 7).jump 10)).1 = (evaluate difference (.ofSeed 7)).1 ∧
      (evaluate (.paren (.var ⟨"A"⟩)) (.ofSeed 8)).1 =
        (evaluate (.paren (.var ⟨"A"⟩)) (.ofSeed 7)).1 := by
  have hrnd : Builtin.ofName? "RND" = some .rnd := by decide +kernel
  refine ⟨?_, ?_, ?_⟩
  · have hgives : (Generator.ofSeed 7).Gives [_, _] _ := ⟨rfl, rfl, rfl⟩
    refine ⟨_, _, _, hgives,
      ((evaluate_only_draws difference (.ofSeed 7)).1 _ _).mpr ⟨_, _, ?_, hgives, rfl⟩⟩
    exact .binary (.random hrnd _) (.random hrnd _)
  · exact (evaluate_only_draws difference (.ofSeed 7)).2 _ (fun _ _ => rfl) (.inl rfl)
  · exact (evaluate_only_draws (.paren (.var ⟨"A"⟩)) (.ofSeed 7)).2 _ (fun _ _ => rfl) (.inr rfl)

end Environment

end LineBasic
