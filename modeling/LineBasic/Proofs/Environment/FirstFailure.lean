import LineBasic.Environment.Evaluate

/-!
# Which error an expression reports

The parts of an expression are visited from left to right, operands before the operation on them;
only a function that there is not is found before its arguments. `Expr.visits` lists the parts in
this order, each with the way to it. An expression fails if the own operation of one of its parts
fails on the values of its operands, and then with the error of the first such part
(`Environment.evaluate_reports_first`). The text of the error says in front what was being done on
the way: for each operand of arithmetic and each parenthesis, and neither for comparisons nor for
arguments.
-/

namespace LineBasic

/-! ## Where an operand stands -/

/-- The place of an operand in an expression. -/
inductive Place where
  | left (op : Operator)
  | right (op : Operator)
  | inside
  | argument
  deriving DecidableEq, Repr

namespace Place

/-- What the error of an operand says about its place. -/
def context? : Place → Option String
  | left op => if op.isComparison then none else some "error evaluating left operand"
  | right op => if op.isComparison then none else some "error evaluating right operand"
  | inside => some "error evaluating parenthesized expression"
  | argument => none

/-- The error of an operand as the expression around it passes it on. -/
def wrap (p : Place) (e : Error) : Error :=
  match p.context? with
  | some context => e.within context
  | none => e

/-- What an error says about the way to the place where it was met, the outermost place first. -/
def words : List Place → String
  | [] => ""
  | p :: way =>
    match p.context? with
    | some context => context ++ ": " ++ words way
    | none => words way

theorem code_wrap (p : Place) (e : Error) : (p.wrap e).code = e.code := by
  unfold wrap
  split <;> rfl

theorem text_within (e : Error) (context : String) :
    (e.within context).text = context ++ ": " ++ e.text := by
  have hne : ¬ (context ++ ": " ++ e.text).isEmpty = true := by simp
  exact if_neg hne

theorem text_wrap (p : Place) (way : List Place) {e e' : Error}
    (h : e.text = words way ++ e'.text) : (p.wrap e).text = words (p :: way) ++ e'.text := by
  rw [wrap, words]
  split
  · rw [text_within, h]
    simp [String.append_assoc]
  · exact h

end Place

/-! ## The parts of an expression -/

/-- A part of an expression that evaluation comes to. -/
structure Visit where
  /-- The places on the way from the whole expression to the part. -/
  way : List Place
  part : Expr
  /-- The generator with which the evaluation of the part begins. -/
  generator : Generator

/-- The same visit, seen from the expression around the one that it belongs to. -/
def Visit.behind (p : Place) (v : Visit) : Visit :=
  { v with way := p :: v.way }

namespace Expr

mutual

/-- The parts of an expression in the order in which their own operations are performed. -/
def visits (store : Store) : Expr → Generator → List Visit
  | .number x, g => [⟨[], .number x, g⟩]
  | .text s, g => [⟨[], .text s, g⟩]
  | .var v, g => [⟨[], .var v, g⟩]
  | .call f arguments, g =>
    let inner := (visitsAll store arguments g).map (.behind .argument)
    if Builtin.isName f.name then inner ++ [⟨[], .call f arguments, g⟩]
    else ⟨[], .call f arguments, g⟩ :: inner
  | .paren e, g => (visits store e g).map (.behind .inside) ++ [⟨[], .paren e, g⟩]
  | .binary op l r, g =>
    (visits store l g).map (.behind (.left op)) ++
      (visits store r (l.evaluate store g).2).map (.behind (.right op)) ++ [⟨[], .binary op l r, g⟩]

/-- The parts of expressions that are evaluated one after the other. -/
def visitsAll (store : Store) : List Expr → Generator → List Visit
  | [], _ => []
  | e :: es, g => visits store e g ++ visitsAll store es (e.evaluate store g).2

end

end Expr

/-- The error of a result, if it is one. -/
def failureOf {α : Type} : Except Error α → Option Error
  | .ok _ => none
  | .error e => some e

namespace Visit

/-- The error of the own operation of a part on the values of its operands. There is none if an
operand has no value. -/
def failure? (store : Store) (v : Visit) : Option Error :=
  match v.part with
  | .number _ | .text _ | .var _ | .paren _ => none
  | .call f arguments =>
    match Builtin.ofName? f.name with
    | none => some (.because .unknownFunction ("unknown function: " ++ f.name))
    | some b =>
      match Expr.evaluateAll store arguments v.generator with
      | (.ok values, g) => failureOf (b.call values g).1
      | (.error _, _) => none
  | .binary op l r =>
    match l.evaluate store v.generator with
    | (.ok a, g) =>
      match (r.evaluate store g).1 with
      | .ok b => failureOf (op.apply a b)
      | .error _ => none
    | (.error _, _) => none

/-- The error of a part as the whole expression reports it. -/
def report? (store : Store) (v : Visit) : Option Error :=
  (v.failure? store).map (v.way.foldr Place.wrap)

/-- The expression itself reports its own error as it is. -/
theorem report?_of_nil (store : Store) (part : Expr) (g : Generator) :
    report? store ⟨[], part, g⟩ = failure? store ⟨[], part, g⟩ :=
  Option.map_id_apply

theorem report?_behind (store : Store) (p : Place) (v : Visit) :
    (v.behind p).report? store = (v.report? store).map p.wrap := by
  simp only [report?, Option.map_map]
  rfl

/-- The report of the first part that fails goes through the expression around. -/
theorem findSome?_map_behind (store : Store) (p : Place) (vs : List Visit) :
    (vs.map (behind p)).findSome? (report? store) = (vs.findSome? (report? store)).map p.wrap := by
  rw [List.findSome?_map, List.map_findSome?]
  congr 1
  funext v
  exact report?_behind store p v

/-- A report has the code of the error, and its text behind the words of the way. -/
theorem exists_of_report? {store : Store} {v : Visit} {e : Error} (h : v.report? store = some e) :
    ∃ own, v.failure? store = some own ∧ e.code = own.code ∧
      e.text = Place.words v.way ++ own.text := by
  obtain ⟨own, hown, rfl⟩ := Option.map_eq_some_iff.mp h
  refine ⟨own, hown, ?_⟩
  induction v.way with
  | nil => exact ⟨rfl, by simp [Place.words]⟩
  | cons p way ih => exact ⟨(Place.code_wrap p _).trans ih.1, Place.text_wrap p way ih.2⟩

end Visit

/-! ## Evaluation -/

theorem failureOf_mapError {α : Type} (f : Error → Error) (r : Except Error α) :
    failureOf (r.mapError f) = (failureOf r).map f := by
  cases r <;> rfl

/-- What comes of an operand at a place, depending on whether the place is named. -/
theorem Place.ite_within_apply {p : Place} {silent : Bool} {context : String}
    (hp : p.context? = if silent then none else some context) (x : Action Generator Value)
    (g : Generator) :
    (if silent then x else x.within context) g = ((x g).1.mapError p.wrap, (x g).2) := by
  cases silent with
  | false =>
    have hwrap : p.wrap = (·.within context) := by
      funext e
      rw [wrap, hp]
      rfl
    rw [hwrap, if_neg Bool.false_ne_true, Action.within, Action.mapError]
    rcases x g with ⟨_ | _, _⟩ <;> rfl
  | true =>
    have hwrap : p.wrap = id := by
      funext e
      rw [wrap, hp]
      rfl
    rw [hwrap, if_pos rfl]
    rcases x g with ⟨_ | _, _⟩ <;> rfl

namespace Expr

open LineBasic.Action

variable (store : Store)

theorem inLeft_apply (op : Operator) (x : Action Generator Value) (g : Generator) :
    inLeft op x g = ((x g).1.mapError (Place.left op).wrap, (x g).2) :=
  Place.ite_within_apply rfl x g

theorem inRight_apply (op : Operator) (x : Action Generator Value) (g : Generator) :
    inRight op x g = ((x g).1.mapError (Place.right op).wrap, (x g).2) :=
  Place.ite_within_apply rfl x g

theorem evaluate_paren (e : Expr) (g : Generator) :
    (paren e).evaluate store g =
      ((e.evaluate store g).1.mapError Place.inside.wrap, (e.evaluate store g).2) := by
  rw [evaluate]
  exact @Place.ite_within_apply .inside false _ rfl _ g

theorem evaluate_binary (op : Operator) (l r : Expr) (g : Generator) :
    (binary op l r).evaluate store g =
      match l.evaluate store g with
      | (.error e, g) => (.error ((Place.left op).wrap e), g)
      | (.ok a, g) =>
        match r.evaluate store g with
        | (.error e, g) => (.error ((Place.right op).wrap e), g)
        | (.ok b, g) => (op.apply a b, g) := by
  rw [evaluate, bind_apply, inLeft_apply]
  rcases l.evaluate store g with ⟨e | a, g⟩
  · rfl
  · dsimp only [Except.mapError]
    rw [bind_apply, inRight_apply]
    rcases r.evaluate store g with ⟨e | b, g⟩ <;> rfl

theorem evaluate_call_of_none {f : Ident} (hf : Builtin.ofName? f.name = none)
    (arguments : List Expr) (g : Generator) :
    (call f arguments).evaluate store g =
      (.error (.because .unknownFunction ("unknown function: " ++ f.name)), g) := by
  rw [evaluate, hf]
  rfl

theorem evaluate_call_of_some {f : Ident} {b : Builtin} (hf : Builtin.ofName? f.name = some b)
    (arguments : List Expr) (g : Generator) :
    (call f arguments).evaluate store g =
      match evaluateAll store arguments g with
      | (.error e, g) => (.error e, g)
      | (.ok values, g) => b.call values g := by
  rw [evaluate, hf]
  dsimp only
  rw [bind_apply]
  rcases evaluateAll store arguments g with ⟨_ | _, _⟩ <;> rfl

theorem evaluateAll_cons (e : Expr) (es : List Expr) (g : Generator) :
    evaluateAll store (e :: es) g =
      match e.evaluate store g with
      | (.error err, g) => (.error err, g)
      | (.ok v, g) => ((evaluateAll store es g).1.map (v :: ·), (evaluateAll store es g).2) := by
  rw [evaluateAll, bind_apply]
  rcases e.evaluate store g with ⟨_ | v, g⟩
  · rfl
  · dsimp only
    rw [bind_apply]
    rcases evaluateAll store es g with ⟨_ | _, _⟩ <;> rfl

mutual

/-- An expression fails as its first part does whose own operation fails. -/
theorem findSome?_visits : (e : Expr) → (g : Generator) →
    (e.visits store g).findSome? (Visit.report? store) = failureOf (e.evaluate store g).1
  | .number x, g | .text s, g | .var v, g => by
    rw [visits, evaluate]
    rfl
  | .call f arguments, g => by
    have hinner := findSome?_visitsAll arguments g
    rw [visits]
    cases hf : Builtin.ofName? f.name with
    | none =>
      have hfailure : Visit.failure? store ⟨[], .call f arguments, g⟩ =
          some (.because .unknownFunction ("unknown function: " ++ f.name)) := by
        simp only [Visit.failure?, hf]
      rw [if_neg (by simp [Builtin.isName, hf]), List.findSome?_cons, Visit.report?_of_nil,
        hfailure, evaluate_call_of_none store hf]
      rfl
    | some b =>
      have hargument : Place.argument.wrap = id := rfl
      rw [if_pos (by simp [Builtin.isName, hf]), List.findSome?_append, Visit.findSome?_map_behind,
        hinner, hargument, Option.map_id_apply, List.findSome?_singleton, Visit.report?_of_nil,
        evaluate_call_of_some store hf]
      simp only [Visit.failure?, hf]
      rcases evaluateAll store arguments g with ⟨_ | _, _⟩ <;> rfl
  | .paren e, g => by
    rw [visits, List.findSome?_append, Visit.findSome?_map_behind, findSome?_visits e g,
      evaluate_paren, failureOf_mapError]
    exact Option.or_none
  | .binary op l r, g => by
    rw [visits, List.findSome?_append, List.findSome?_append, Visit.findSome?_map_behind,
      Visit.findSome?_map_behind, findSome?_visits l g, findSome?_visits r,
      List.findSome?_singleton, Visit.report?_of_nil, evaluate_binary]
    simp only [Visit.failure?]
    rcases l.evaluate store g with ⟨e | a, g⟩
    · rfl
    · dsimp only
      rcases r.evaluate store g with ⟨e | b, g⟩ <;> rfl

theorem findSome?_visitsAll : (es : List Expr) → (g : Generator) →
    (visitsAll store es g).findSome? (Visit.report? store) = failureOf (evaluateAll store es g).1
  | [], g => by
    rw [visitsAll, evaluateAll]
    rfl
  | e :: es, g => by
    rw [visitsAll, List.findSome?_append, findSome?_visits e g, findSome?_visitsAll es,
      evaluateAll_cons]
    rcases e.evaluate store g with ⟨err | v, g⟩
    · rfl
    · dsimp only
      rcases (evaluateAll store es g).1 with _ | _ <;> rfl

end

end Expr

namespace Environment

/-- If an expression fails, then with the error of the first of its parts whose own operation fails
on the values of its operands: the code is that of the operation, and the text is that of the
operation behind the words of the way. If there is no such part, the expression has a value. -/
theorem evaluate_reports_first (e : Expr) (env : Environment) :
    (∀ err, (evaluate e env).1 = .error err →
        ∃ before v after own, e.visits env.store env.generator = before ++ v :: after ∧
          (∀ u ∈ before, u.failure? env.store = none) ∧ v.failure? env.store = some own ∧
          err.code = own.code ∧ err.text = Place.words v.way ++ own.text) ∧
      ((∀ v ∈ e.visits env.store env.generator, v.failure? env.store = none) →
        ∃ value, (evaluate e env).1 = .ok value) := by
  have hfirst := e.findSome?_visits env.store env.generator
  have hresult : (evaluate e env).1 = (e.evaluate env.store env.generator).1 := rfl
  rw [hresult]
  constructor
  · intro err herr
    rw [herr] at hfirst
    obtain ⟨before, v, after, hvisits, hv, hbefore⟩ := List.findSome?_eq_some_iff.mp hfirst
    obtain ⟨own, hown, hcode, htext⟩ := Visit.exists_of_report? hv
    refine ⟨before, v, after, own, hvisits, fun u hu => ?_, hown, hcode, htext⟩
    exact Option.map_eq_none_iff.mp (hbefore u hu)
  · intro hnone
    have hquiet : (e.visits env.store env.generator).findSome? (Visit.report? env.store) =
        none := by
      rw [List.findSome?_eq_none_iff]
      intro v hv
      rw [Visit.report?, hnone v hv, Option.map_none]
    rw [hquiet] at hfirst
    cases hvalue : (e.evaluate env.store env.generator).1 with
    | ok value => exact ⟨value, rfl⟩
    | error err =>
      rw [hvalue] at hfirst
      cases hfirst

/-- A comparison with two parts that fail: a difference of texts in a parenthesis on the right of a
product, and a function that there is not. -/
def twoFaults : Expr :=
  .binary .equal
    (.binary .multiply (.text "X") (.paren (.binary .subtract (.text "A") (.text "B"))))
    (.call ⟨"FN"⟩ [])

theorem evaluate_twoFaults (env : Environment) :
    (evaluate twoFaults env).1 =
      .error (((Error.because .typeMismatch "cannot subtract strings").within
        "error evaluating parenthesized expression").within "error evaluating right operand") := by
  rfl

theorem evaluate_reports_first_twoFaults :
    (∃ err, (evaluate twoFaults (.ofSeed 7)).1 = .error err ∧ err.code = .typeMismatch ∧
        err.text = "error evaluating right operand: error evaluating parenthesized expression: " ++
          "cannot subtract strings" ∧
        ∃ v ∈ twoFaults.visits .empty (.ofSeed 7), ∃ own, v.failure? .empty = some own ∧
          err.text = Place.words v.way ++ own.text) ∧
      ∃ value, (evaluate (.paren (.text "A")) (.ofSeed 7)).1 = .ok value := by
  constructor
  · refine ⟨_, evaluate_twoFaults _, rfl, ?_, ?_⟩
    · rw [Place.text_within, Place.text_within]
      simp [Error.text, Error.because]
    obtain ⟨before, v, after, own, hvisits, -, hown, -, htext⟩ :=
      (evaluate_reports_first twoFaults (.ofSeed 7)).1 _ (evaluate_twoFaults _)
    have hv : v ∈ twoFaults.visits .empty (.ofSeed 7) := by
      rw [show twoFaults.visits .empty (.ofSeed 7) = before ++ v :: after from hvisits]
      exact List.mem_append_right before List.mem_cons_self
    exact ⟨v, hv, own, hown, htext⟩
  · apply (evaluate_reports_first (.paren (.text "A")) (.ofSeed 7)).2
    intro v hv
    simp only [Expr.visits, List.map_cons, List.map_nil, List.cons_append, List.nil_append,
      List.mem_cons, List.not_mem_nil, or_false] at hv
    rcases hv with rfl | rfl <;> rfl

end Environment

end LineBasic
