import LineBasic.Console.Scripted
import LineBasic.Proofs.Run.Located

/-!
# The break key

The break key can be pressed during every console call. After a statement the break flag is set
exactly if it was set before, or if the key was pressed during a call that the statement made
(`Statement.interrupt_execute_iff`). A run looks at the flag once in every step, so the statement at
which the key is pressed is the last one, and the run ends as that statement makes it end, or at the
next look at the limit or at the flag (`Program.EndsPressed`). Only the last of these reports the
break, and it puts the flag out. Without the key no run reports a break (`Program.press_stops_run`).
-/

namespace LineBasic

/-! ## The break flag during a statement -/

namespace Machine

open LineBasic.Action

variable {κ α β : Type}

theorem interrupt_onConsole (call : κ → Reply κ α) (m : Machine κ) :
    (onConsole call m).2.interrupt = (m.interrupt || (call m.console).interrupt) := by
  unfold onConsole
  dsimp only
  rcases call m.console with ⟨_ | _, console, raised⟩ <;> rfl

/-- What is done with the environment does not touch the flag. -/
theorem onEnvironment_keeps_interrupt (flag : Bool) (x : Action Environment α) :
    Keeps (fun m : Machine κ => m.interrupt = flag) (fun _ => True) (onEnvironment x) :=
  fun _ hm => ⟨hm, fun _ _ => trivial⟩

/-- No console call puts the flag out. -/
theorem onConsole_keeps_interrupt (call : κ → Reply κ α) :
    Keeps (fun m : Machine κ => m.interrupt = true) (fun _ => True) (onConsole call) := by
  intro m hm
  have hset : (onConsole call m).2.interrupt = true := by rw [interrupt_onConsole, hm, Bool.true_or]
  exact ⟨hset, fun _ _ => trivial⟩

/-- A flag that is set by the first part of an action is set after the whole of it. -/
theorem interrupt_bind {x : Action (Machine κ) α} {f : α → Action (Machine κ) β} {m : Machine κ}
    (h : (x m).2.interrupt = true)
    (hf : ∀ a, Keeps (fun m : Machine κ => m.interrupt = true) (fun _ => True) (f a)) :
    ((x >>= f) m).2.interrupt = true := by
  rw [bind_apply]
  generalize x m = outcome at h ⊢
  rcases outcome with ⟨e | a, m'⟩
  · exact h
  · exact (hf a m' h).1

/-- A flag that is set after an action was set by the first part of it or by the rest. -/
theorem interrupt_of_bind {x : Action (Machine κ) α} {f : α → Action (Machine κ) β} {m : Machine κ}
    (h : ((x >>= f) m).2.interrupt = true) :
    (x m).2.interrupt = true ∨
      ∃ a m', x m = (.ok a, m') ∧ m'.interrupt = false ∧ (f a m').2.interrupt = true := by
  rw [bind_apply] at h
  generalize x m = outcome at h ⊢
  rcases outcome with ⟨e | a, m'⟩
  · exact .inl h
  · cases hm' : m'.interrupt with
    | true => exact .inl rfl
    | false => exact .inr ⟨a, m', rfl, hm', h⟩

/-- What is done with the environment leaves the flag to the rest of an action. -/
theorem interrupt_of_onEnvironment_bind {x : Action Environment α} {f : α → Action (Machine κ) β}
    {m : Machine κ} (hm : m.interrupt = false)
    (h : ((onEnvironment x >>= f) m).2.interrupt = true) :
    ∃ a m', onEnvironment x m = (.ok a, m') ∧ m'.interrupt = false ∧
      (f a m').2.interrupt = true := by
  rcases interrupt_of_bind h with hset | hrest
  · cases hm.symm.trans hset
  · exact hrest

theorem interrupt_of_onConsole {call : κ → Reply κ α} {m : Machine κ} (hm : m.interrupt = false)
    (h : (onConsole call m).2.interrupt = true) : (call m.console).interrupt = true := by
  rwa [interrupt_onConsole, hm, Bool.false_or] at h

end Machine

namespace Statement

open LineBasic.Action Machine Environment

variable {κ : Type} [Console κ] {st : Statement} {m : Machine κ}

/-- The break key is pressed during a console call that a statement makes. -/
inductive Presses : Statement → Machine κ → Prop
  | print {items : List Expr} {values : List Value} {m m' : Machine κ}
      (hitems : onEnvironment (evaluateAll items) m = (.ok values, m'))
        (hpress :
        (Console.writeLine (" ".intercalate (values.map Value.toText)) m'.console).interrupt =
        true) :
      Presses (.print items) m
  | prompt {prompt : String} {v : Ident} {m m' : Machine κ}
      (hname : onEnvironment (checkName v) m = (.ok (), m'))
        (hpress :
        (Console.write (if prompt.isEmpty then defaultPrompt else prompt) m'.console).interrupt =
        true) :
      Presses (.input prompt v) m
  | answer {prompt : String} {v : Ident} {m m' m'' : Machine κ}
      (hname : onEnvironment (checkName v) m = (.ok (), m'))
        (hprompt : onConsole (Console.write (if prompt.isEmpty then defaultPrompt else prompt)) m' =
        (.ok (), m'')) (hpress : (Console.readLine m''.console).interrupt = true) :
      Presses (.input prompt v) m
  | body {condition : Expr} {body : Statement} {x : Float} {m m' : Machine κ}
      (hcondition : Machine.evaluate condition m = (.ok (.number x), m')) (hx : (x != 0) = true)
      (hbody : Presses body m') : Presses (.cond condition body) m

omit [Console κ] in
theorem executeLoop_keeps_interrupt (flag : Bool) (v : Ident) (line : Nat) (a b c : Value) :
    Keeps (fun m : Machine κ => m.interrupt = flag) (fun _ => True) (executeLoop v line a b c) := by
  unfold executeLoop
  split
  · exact onEnvironment_keeps_interrupt flag _
  · exact .fail trivial

/-- A statement without console calls does not touch the flag. -/
theorem loop_keeps_interrupt (flag : Bool) (v : Ident) (start limit step : Expr) (line : Nat) :
    Keeps (fun m : Machine κ => m.interrupt = flag) (fun _ =>
      True) (loop v start limit step line).execute := by
  refine (onEnvironment_keeps_interrupt flag _).bind fun a => ?_
  refine (onEnvironment_keeps_interrupt flag _).bind fun b => ?_
  refine (onEnvironment_keeps_interrupt flag _).bind fun c => ?_
  refine (onEnvironment_keeps_interrupt flag _).bind fun _ => ?_
  exact executeLoop_keeps_interrupt flag v line a b c

theorem assign_keeps_interrupt (flag : Bool) (v : Ident) (e : Expr) :
    Keeps (fun m : Machine κ => m.interrupt = flag) (fun _ =>
      True) (Statement.assign v e).execute := by
  refine (onEnvironment_keeps_interrupt flag _).bind fun _ => ?_
  refine (onEnvironment_keeps_interrupt flag _).bind fun value => ?_
  exact onEnvironment_keeps_interrupt flag _

omit [Console κ] in
/-- What is done with a line that was read. -/
theorem answer_keeps_interrupt (flag : Bool) (v : Ident) (line : String) :
    Keeps (fun m : Machine κ => m.interrupt = flag) (fun _ => True)
      (do
        let value ← .ofExcept (inputValue v line)
        onEnvironment (Environment.assign v value)) := by
  refine Keeps.bind (.ofExcept fun _ _ => trivial) fun value => ?_
  exact onEnvironment_keeps_interrupt flag _

/-- No statement puts the flag out. -/
theorem execute_keeps_interrupt (st : Statement) :
    Keeps (fun m : Machine κ => m.interrupt = true) (fun _ => True) st.execute := by
  induction st with
  | stop | goto n => exact onEnvironment_keeps_interrupt true _
  | loop v start limit step line => exact loop_keeps_interrupt true v start limit step line
  | cond condition body ih =>
    refine (onEnvironment_keeps_interrupt true _).bind fun value => ?_
    cases value with
    | text _ => exact .fail trivial
    | number x =>
      dsimp only
      split
      · exact ih
      · exact .pure _
  | input prompt v =>
    refine (onEnvironment_keeps_interrupt true _).bind fun _ => ?_
    refine (onConsole_keeps_interrupt _).bind fun _ => ?_
    refine (onConsole_keeps_interrupt _).bind fun line => ?_
    exact answer_keeps_interrupt true v line
  | assign v e => exact assign_keeps_interrupt true v e
  | next v => exact onEnvironment_keeps_interrupt true _
  | print items =>
    refine (onEnvironment_keeps_interrupt true _).bind fun values => ?_
    exact onConsole_keeps_interrupt _
  | remark text => exact .pure _

/-- When the key is pressed, the flag is set after the statement. -/
theorem Presses.interrupt_execute (h : st.Presses m) : (st.execute m).2.interrupt = true := by
  induction h with
  | print hitems hpress =>
    rw [execute, bind_of_ok hitems, interrupt_onConsole, hpress, Bool.or_true]
  | prompt hname hpress =>
    rw [execute, bind_of_ok hname]
    refine interrupt_bind ?_ fun _ => ?_
    · rw [interrupt_onConsole, hpress, Bool.or_true]
    · exact (onConsole_keeps_interrupt _).bind fun line => answer_keeps_interrupt true _ line
  | answer hname hprompt hpress =>
    rw [execute, bind_of_ok hname, bind_of_ok hprompt]
    refine interrupt_bind ?_ fun line => answer_keeps_interrupt true _ line
    rw [interrupt_onConsole, hpress, Bool.or_true]
  | body hcondition hx hbody ih =>
    rw [execute, bind_of_ok hcondition]
    dsimp only
    rwa [if_pos hx]

/-- A flag that a statement finds put out is set after it only by the key. -/
theorem presses_of_interrupt_execute (hm : m.interrupt = false)
    (h : (st.execute m).2.interrupt = true) : st.Presses m := by
  induction st generalizing m with
  | stop | goto n | next v | remark text => cases hm.symm.trans h
  | loop v start limit step line =>
    cases (loop_keeps_interrupt false v start limit step line m hm).1.symm.trans h
  | assign v e => cases (assign_keeps_interrupt false v e m hm).1.symm.trans h
  | cond condition body ih =>
    obtain ⟨value, m', hcondition, hm', hrest⟩ := interrupt_of_onEnvironment_bind hm h
    cases value with
    | text s => cases hm'.symm.trans hrest
    | number x =>
      dsimp only at hrest
      split at hrest
      · rename_i hx
        exact .body hcondition hx (ih hm' hrest)
      · cases hm'.symm.trans hrest
  | input prompt v =>
    obtain ⟨_, m', hname, hm', hcalls⟩ := interrupt_of_onEnvironment_bind hm h
    rcases interrupt_of_bind hcalls with hset | ⟨_, m'', hprompt, hm'', hread⟩
    · exact .prompt hname (interrupt_of_onConsole hm' hset)
    · rcases interrupt_of_bind hread with hset | ⟨line, m''', -, hline, hrest⟩
      · exact .answer hname hprompt (interrupt_of_onConsole hm'' hset)
      · cases (answer_keeps_interrupt false v line m''' hline).1.symm.trans hrest
  | print items =>
    obtain ⟨values, m', hitems, hm', hwrite⟩ := interrupt_of_onEnvironment_bind hm h
    exact .print hitems (interrupt_of_onConsole hm' hwrite)

theorem interrupt_execute_iff (st : Statement) (m : Machine κ) :
    (st.execute m).2.interrupt = true ↔ m.interrupt = true ∨ st.Presses m := by
  constructor
  · intro h
    cases hm : m.interrupt with
    | true => exact .inl rfl
    | false => exact .inr (presses_of_interrupt_execute hm h)
  · rintro (hm | hpresses)
    · exact (st.execute_keeps_interrupt m hm).1
    · exact hpresses.interrupt_execute

end Statement

namespace Program

variable {κ : Type} [Console κ] {p : Program} {settings : Settings} {q r s : Run κ}

/-! ## The break flag during a step -/

/-- The break key is pressed during a console call of a step, for the trace or for the statement. -/
inductive PressedIn (p : Program) (settings : Settings) (r : Run κ) : Prop
  | tracing {line : Entry Statement} (hline : p.line? r.index = some line)
      (hlimit : settings.isLimit r.steps = false)
      (hinterrupt : (settings.breakable && r.machine.interrupt) = false)
      (htrace : settings.trace = true)
        (hpress :
        (Console.trace ("Executing line " ++ line.number.repr ++ ": " ++ line.item.render)
        r.machine.console).interrupt = true) : PressedIn p settings r
  | executing {line : Entry Statement} {m : Machine κ} (h : p.Executes settings r line m)
      (hpress : line.item.Presses m) : PressedIn p settings r

/-- Where a run looks at the break flag next: at once if it is set, and otherwise behind the
statement of its line. -/
inductive ComesTo (p : Program) (settings : Settings) (r : Run κ) : Run κ → Prop
  | already (h : r.machine.interrupt = true) : ComesTo p settings r r
  | behind {line : Entry Statement} {m m' : Machine κ} {i : Nat}
      (h : p.Executes settings r line m) (hexecute : line.item.execute m = (.ok (), m'))
        (hfollow : p.follow line.number ⟨m', r.index, r.steps + 1⟩ =
        .running ⟨m'.rested, i, r.steps + 1⟩) :
      ComesTo p settings r ⟨m'.rested, i, r.steps + 1⟩

/-- How a run ends in whose step the break flag is set: the step itself ends it, or it ends at the
beginning of the next step, because there is no line, because the limit is reached, or because of
the flag. The limit comes before the flag, and the flag before the trace and the statement; only the
look at the flag puts it out. -/
inductive EndsPressed (p : Program) (settings : Settings) (r : Run κ) :
    Except Error Unit → Run κ → Prop
  | untraced {line : Entry Statement} {e : Error} {m : Machine κ}
      (hline : p.line? r.index = some line) (hlimit : settings.isLimit r.steps = false)
      (hinterrupt : (settings.breakable && r.machine.interrupt) = false)
      (htrace : traceLine settings line (r.entering line) = (.error e, m))
      (hflag : m.interrupt = true) :
      EndsPressed p settings r (.error e) { r with machine := m }
  | failed {line : Entry Statement} {e : Error} {m m' : Machine κ}
      (h : p.Executes settings r line m) (hexecute : line.item.execute m = (.error e, m'))
      (hflag : m'.interrupt = true) :
      EndsPressed p settings r (.error (e.inLine line.number)) ⟨m', r.index, r.steps + 1⟩
  | undefined {line : Entry Statement} {m m' : Machine κ} (h : p.Executes settings r line m)
      (hexecute : line.item.execute m = (.ok (), m')) (hended : m'.environment.ended = false)
      (hjump : m'.environment.transfer = .jump) (hi : p.indexOf? m'.environment.counter = none)
      (hflag : m'.interrupt = true) :
      EndsPressed p settings r (.error ((undefinedLine m'.environment.counter).inLine line.number))
        ⟨m'.rested, r.index, r.steps + 1⟩
  | ended {line : Entry Statement} {m m' : Machine κ} (h : p.Executes settings r line m)
      (hexecute : line.item.execute m = (.ok (), m')) (hended : m'.environment.ended = true)
      (hflag : m'.interrupt = true) : EndsPressed p settings r (.ok ()) ⟨m', r.index, r.steps + 1⟩
  /-- A loop goes back to a line that is not there, and so out of the program. -/
  | lost {line : Entry Statement} {m m' : Machine κ} (h : p.Executes settings r line m)
      (hexecute : line.item.execute m = (.ok (), m')) (hended : m'.environment.ended = false)
      (hloop : m'.environment.transfer = .loop) (hi : p.indexOf? m'.environment.counter = none)
      (hflag : m'.interrupt = true) :
      EndsPressed p settings r (.ok ()) ⟨m'.rested, r.index, r.steps + 1⟩
  | ranOff {t : Run κ} (ht : p.ComesTo settings r t) (hline : p.line? t.index = none)
      (hflag : t.machine.interrupt = true) :
      EndsPressed p settings r (.ok ()) t
  | limited {t : Run κ} {line : Entry Statement} (ht : p.ComesTo settings r t)
      (hline : p.line? t.index = some line) (hlimit : settings.isLimit t.steps = true)
      (hflag : t.machine.interrupt = true) :
      EndsPressed p settings r (.error (limitError (settings.maxSteps.getD 0))) t
  | broken {t : Run κ} {line : Entry Statement} (ht : p.ComesTo settings r t)
      (hline : p.line? t.index = some line) (hlimit : settings.isLimit t.steps = false)
      (hflag : t.machine.interrupt = true) :
      EndsPressed p settings r (.error (Error.inLine { code := .interrupted } line.number))
        { t with machine := { t.machine with interrupt := false } }

theorem interrupt_traceLine (line : Entry Statement) (m : Machine κ) :
    (traceLine settings line m).2.interrupt = true ↔
      m.interrupt = true ∨ settings.trace = true ∧
        (Console.trace ("Executing line " ++ line.number.repr ++ ": " ++ line.item.render)
          m.console).interrupt = true := by
  unfold traceLine
  split
  · rename_i htrace
    simp [Machine.interrupt_onConsole, htrace]
  · rename_i htrace
    simp [htrace]

/-- A line that is executed with the flag set in the end is the last one, or the next look at the
flag finds it set. -/
theorem Executes.ends_or_comesTo {line : Entry Statement} {m : Machine κ}
    (h : p.Executes settings r line m) (hflag : (line.item.execute m).2.interrupt = true) :
    (∃ result s, p.step settings r = .halted result s ∧ p.EndsPressed settings r result s) ∨
      ∃ t, p.step settings r = .running t ∧ p.ComesTo settings r t ∧
        t.machine.interrupt = true := by
  rw [h.step_eq]
  rcases hexecute : line.item.execute m with ⟨e | _, m'⟩
  · rw [hexecute] at hflag
    exact .inl ⟨_, _, rfl, .failed h hexecute hflag⟩
  · rw [hexecute] at hflag
    dsimp only
    have hfollows := follows_follow p line.number ⟨m', r.index, r.steps + 1⟩
    generalize hprogress : p.follow line.number ⟨m', r.index, r.steps + 1⟩ = progress at hfollows
    cases hfollows with
    | ended hended => exact .inl ⟨_, _, rfl, .ended h hexecute hended hflag⟩
    | undefined hended ht hi => exact .inl ⟨_, _, rfl, .undefined h hexecute hended ht hi hflag⟩
    | lost hended ht hi => exact .inl ⟨_, _, rfl, .lost h hexecute hended ht hi hflag⟩
    | next | jumped | looped => exact .inr ⟨_, rfl, .behind h hexecute hprogress, hflag⟩

/-- A step in which the key is pressed ends the run, or the next look at the flag finds it set. -/
theorem PressedIn.ends_or_comesTo (h : p.PressedIn settings r) :
    (∃ result s, p.step settings r = .halted result s ∧ p.EndsPressed settings r result s) ∨
      ∃ t, p.step settings r = .running t ∧ p.ComesTo settings r t ∧
        t.machine.interrupt = true := by
  cases h with
  | executing hexecutes hpress => exact hexecutes.ends_or_comesTo hpress.interrupt_execute
  | @tracing line hline hlimit hinterrupt htrace hpress =>
    have hflag : (traceLine settings line (r.entering line)).2.interrupt = true :=
      (interrupt_traceLine line _).mpr (.inr ⟨htrace, hpress⟩)
    rcases htraced : traceLine settings line (r.entering line) with ⟨e | _, m⟩
    · rw [htraced] at hflag
      refine .inl ⟨.error e, { r with machine := m }, ?_,
        .untraced hline hlimit hinterrupt htraced hflag⟩
      rw [step_of_line hline hlimit hinterrupt, executeLine_eq, htraced]
    · rw [htraced] at hflag
      have hexecutes : p.Executes settings r line m := ⟨hline, hlimit, hinterrupt, htraced⟩
      exact hexecutes.ends_or_comesTo (line.item.execute_keeps_interrupt m hflag).1

/-- A run that looks at the flag and finds it set ends there. -/
theorem ComesTo.ends {t : Run κ} (hbreakable : settings.breakable = true)
    (ht : p.ComesTo settings r t) (hflag : t.machine.interrupt = true) :
    ∃ result s, p.step settings t = .halted result s ∧ p.EndsPressed settings r result s := by
  cases hline : p.line? t.index with
  | none => exact ⟨_, _, step_of_none hline, .ranOff ht hline hflag⟩
  | some line =>
    cases hlimit : settings.isLimit t.steps with
    | true => exact ⟨_, _, step_of_limit hline hlimit, .limited ht hline hlimit hflag⟩
    | false =>
      have hinterrupt : (settings.breakable && t.machine.interrupt) = true := by
        rw [hbreakable, hflag, Bool.and_self]
      exact ⟨_, _, step_of_interrupt hline hlimit hinterrupt, .broken ht hline hlimit hflag⟩

/-- A run gets to where it looks at the flag next. -/
theorem ComesTo.exists_reaches {t : Run κ} (h : p.ComesTo settings r t) :
    ∃ count, p.Reaches settings count r t := by
  cases h with
  | already => exact ⟨0, .refl r⟩
  | behind hexecutes hexecute hfollow =>
    refine ⟨1, .of_step ?_⟩
    rw [hexecutes.step_eq, hexecute]
    exact hfollow

theorem ComesTo.haltsWith {t : Run κ} {result : Except Error Unit} (h : p.ComesTo settings r t)
    (hstep : p.step settings t = .halted result s) : p.HaltsWith settings r result s := by
  obtain ⟨count, hreach⟩ := h.exists_reaches
  exact ⟨count + 1, hreach.haltsIn_iff.mpr (.of_step hstep)⟩

/-- Only one of these ways is open to a run, and it is the way in which the run ends. -/
theorem EndsPressed.haltsWith {result : Except Error Unit} (hbreakable : settings.breakable = true)
    (h : p.EndsPressed settings r result s) : p.HaltsWith settings r result s := by
  cases h with
  | untraced hline hlimit hinterrupt htrace =>
    refine ⟨1, .of_step ?_⟩
    rw [step_of_line hline hlimit hinterrupt, executeLine_eq, htrace]
  | failed hexecutes hexecute =>
    refine ⟨1, .of_step ?_⟩
    rw [hexecutes.step_eq, hexecute]
  | undefined hexecutes hexecute hended hjump hi =>
    refine ⟨1, .of_step ?_⟩
    rw [hexecutes.step_eq, hexecute]
    exact (Follows.undefined hended hjump hi).follow_eq
  | ended hexecutes hexecute hended =>
    refine ⟨1, .of_step ?_⟩
    rw [hexecutes.step_eq, hexecute]
    exact (Follows.ended hended).follow_eq
  | lost hexecutes hexecute hended hloop hi =>
    refine ⟨1, .of_step ?_⟩
    rw [hexecutes.step_eq, hexecute]
    exact (Follows.lost hended hloop hi).follow_eq
  | ranOff ht hline => exact ht.haltsWith (step_of_none hline)
  | limited ht hline hlimit => exact ht.haltsWith (step_of_limit hline hlimit)
  | broken ht hline hlimit hflag =>
    refine ht.haltsWith (step_of_interrupt hline hlimit ?_)
    rw [hbreakable, hflag, Bool.and_self]

/-- A run has one end, so the ends that are possible by `EndsPressed` are that one. -/
theorem EndsPressed.haltsWith_iff {result : Except Error Unit} {t : Run κ} {count : Nat}
    (hbreakable : settings.breakable = true) (h : p.EndsPressed settings r result t)
    (hreach : p.Reaches settings count q r) (result' : Except Error Unit) (s : Run κ) :
    p.HaltsWith settings q result' s ↔ p.EndsPressed settings r result' s := by
  have hfrom : ∀ {result : Except Error Unit} {t : Run κ}, p.EndsPressed settings r result t →
      p.HaltsWith settings q result t := by
    intro result t hend
    obtain ⟨more, hmore⟩ := hend.haltsWith hbreakable
    exact ⟨count + more, hreach.haltsIn_iff.mpr hmore⟩
  constructor
  · intro hhalts
    obtain ⟨rfl, rfl⟩ := (hfrom h).unique hhalts
    exact h
  · exact hfrom

/-! ## Where the flag comes from -/

/-- A flag that is set after a statement was set before the step, or the key was pressed in it. -/
theorem Executes.interrupt_or_pressedIn {line : Entry Statement} {m : Machine κ}
    (h : p.Executes settings r line m) (hflag : (line.item.execute m).2.interrupt = true) :
    r.machine.interrupt = true ∨ p.PressedIn settings r := by
  rcases (line.item.interrupt_execute_iff m).mp hflag with hm | hpresses
  · have htraced : (traceLine settings line (r.entering line)).2.interrupt = true := by
      rwa [h.trace_eq]
    rcases (interrupt_traceLine line _).mp htraced with hr | ⟨htrace, hpress⟩
    · exact .inl hr
    · exact .inr (.tracing h.line_eq h.limit_eq h.interrupt_eq htrace hpress)
  · exact .inr (.executing h hpresses)

theorem interrupt_or_pressedIn_of_running (h : p.step settings r = .running s)
    (hs : s.machine.interrupt = true) : r.machine.interrupt = true ∨ p.PressedIn settings r := by
  have hsteps := steps_step p settings r
  rw [h] at hsteps
  generalize hprogress : Progress.running s = progress at hsteps
  cases hsteps with
  | @followed line m m' hexecutes hexecute =>
    refine hexecutes.interrupt_or_pressedIn ?_
    rw [hexecute]
    have hfollows := follows_follow p line.number ⟨m', r.index, r.steps + 1⟩
    rw [← hprogress] at hfollows
    cases hfollows <;> exact hs
  | _ => cases hprogress

/-- A flag that is set between two steps was set at the beginning, or the key was pressed on the
way. -/
theorem Reaches.interrupt_or_pressedIn {count : Nat} (h : p.Reaches settings count q r)
    (hr : r.machine.interrupt = true) :
    q.machine.interrupt = true ∨ ∃ before t, p.Reaches settings before q t ∧
      p.PressedIn settings t := by
  induction count generalizing r with
  | zero =>
    obtain rfl : q = r := Progress.running.inj h
    exact .inl hr
  | succ count ih =>
    unfold Reaches at h
    rw [advance_add] at h
    cases hlast : p.advance settings count (.running q) with
    | halted result t =>
      rw [hlast, advance_halted] at h
      cases h
    | running t =>
      rw [hlast] at h
      rcases interrupt_or_pressedIn_of_running h hr with ht | hpressed
      · exact ih hlast ht
      · exact .inr ⟨count, t, hlast, hpressed⟩

/-- Only the look at the flag reports a break. -/
theorem interrupt_of_break {e : Error} (h : p.step settings r = .halted (.error e) s)
    (he : e.code = .interrupted) : r.machine.interrupt = true := by
  obtain ⟨-, line, -, hstopped⟩ := stoppedAt_of_step h
  cases hstopped with
  | interrupted hinterrupt => exact (Bool.and_eq_true_iff.mp hinterrupt).2
  | limited _ hcode => cases hcode.symm.trans he
  | untraced _ hcode => rcases hcode with hcode | hcode <;> cases hcode.symm.trans he
  | executed _ _ hcode => exact absurd he hcode

/-! ## The whole run -/

/-- If the break flag is set at the beginning of a step or the key is pressed in it, the statement
of that step is the last one that the run executes, and the run comes to its end, which is the one
that `EndsPressed` gives. A break is reported only if the flag was set when the run began or the key
was pressed. -/
theorem press_stops_run (p : Program) {settings : Settings} (hbreakable : settings.breakable = true)
    (env : Environment) (console : κ) (interrupt : Bool) :
    (∀ count r, p.Reaches settings count (start env console interrupt) r →
      r.machine.interrupt = true ∨ p.PressedIn settings r →
      (∃ result s, p.HaltsWith settings (start env console interrupt) result s) ∧
        (∀ result s, p.HaltsWith settings (start env console interrupt) result s ↔
          p.EndsPressed settings r result s) ∧
        ∀ k q line m, count < k → p.Reaches settings k (start env console interrupt) q →
          ¬ p.Executes settings q line m) ∧
      ∀ e s, p.HaltsWith settings (start env console interrupt) (.error e) s →
        e.code = .interrupted →
        interrupt = true ∨
          ∃ count r, p.Reaches settings count (start env console interrupt) r ∧
            p.PressedIn settings r := by
  constructor
  · intro count r hreach hset
    have hends : (∃ result s, p.step settings r = .halted result s ∧
        p.EndsPressed settings r result s) ∨
        ∃ t, p.step settings r = .running t ∧ p.ComesTo settings r t ∧
          t.machine.interrupt = true := by
      rcases hset with hflag | hpressed
      · exact .inl ((ComesTo.already hflag).ends hbreakable hflag)
      · exact hpressed.ends_or_comesTo
    rcases hends with ⟨result, s, hstep, hend⟩ | ⟨t, hstep, ht, hflag⟩
    · have hhalts := hreach.haltsIn_iff.mpr (.of_step hstep)
      refine ⟨⟨result, s, _, hhalts⟩, hend.haltsWith_iff hbreakable hreach, fun k q line m hk hq =>
        ?_⟩
      have hlt := hq.lt_of_haltsIn hhalts
      omega
    · obtain ⟨result, s, hlast, hend⟩ := ht.ends hbreakable hflag
      have hreach' := hreach.trans (.of_step hstep)
      have hhalts := hreach'.haltsIn_iff.mpr (.of_step hlast)
      refine ⟨⟨result, s, _, hhalts⟩, hend.haltsWith_iff hbreakable hreach,
        fun k q line m hk hq hexecutes => ?_⟩
      have hlt := hq.lt_of_haltsIn hhalts
      obtain rfl : k = count + 1 := by omega
      obtain rfl := hq.unique hreach'
      have hinterrupt := hexecutes.interrupt_eq
      rw [hbreakable, hflag] at hinterrupt
      cases hinterrupt
  · rintro e s ⟨count, hhalts⟩ he
    obtain ⟨before, q, hreach, hstep⟩ := hhalts.exists_step
    exact hreach.interrupt_or_pressedIn (interrupt_of_break hstep he)

/-- Prints twice. -/
def printsTwice : Program :=
  ofLines ((Numbered.empty.put 10 (.print [])).put 20 (.print []))

theorem press_stops_run_printsTwice :
    ∃ (result : Except Error Unit) (s : Run Scripted),
      printsTwice.HaltsWith {} (start (.ofSeed 7) { script := { interruptWrite := some 2 } } false)
        result s ∧
        printsTwice.EndsPressed {}
          (start (.ofSeed 7) { script := { interruptWrite := some 2 } } false) result s := by
  have hline : printsTwice.line? 0 = some ⟨10, .print []⟩ := by rfl
  have hpressed : printsTwice.PressedIn {}
      (start (.ofSeed 7) ({ script := { interruptWrite := some 2 } } : Scripted) false) :=
    .executing ⟨hline, rfl, rfl, rfl⟩ (.print rfl (by decide))
  obtain ⟨⟨result, s, hhalts⟩, hiff, -⟩ :=
    (press_stops_run printsTwice rfl _ _ _).1 0 _ (.refl _) (.inr hpressed)
  exact ⟨result, s, hhalts, (hiff result s).mp hhalts⟩

end Program

end LineBasic
