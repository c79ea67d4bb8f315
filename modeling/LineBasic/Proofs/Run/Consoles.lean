import LineBasic.Proofs.Run.Corresponding

/-!
# Runs on consoles that answer alike

Two consoles answer alike under a relation if every call gives the same on related ones, and leaves
related ones behind (`Console.AnswerAlike`). Nothing else of a console comes into a run: on such
consoles a statement does the same (`Statement.execute_alongside`), and so do runs of a program,
step by step (`Program.advance_alongside`). One of them comes to its end if and only if the other
does, with the same result (`Program.HaltsWith.alongside`).
-/

namespace LineBasic

variable {κ κ' : Type}

theorem Action.Alike.exists_eq {σ τ α : Type} {R : σ → τ → Prop} {x : Action σ α} {y : Action τ α}
    (h : Alike R x y) {s : σ} {t : τ} (hst : R s t) :
    ∃ result s' t', x s = (result, s') ∧ y t = (result, t') ∧ R s' t' := by
  obtain ⟨hresult, hstate⟩ := h s t hst
  exact ⟨(x s).1, (x s).2, (y t).2, rfl, Prod.ext hresult.symm rfl, hstate⟩

/-- Replies with the same result and break flag, and with related consoles. -/
structure Reply.Alongside {α : Type} (C : κ → κ' → Prop) (r : Reply κ α) (r' : Reply κ' α) :
    Prop where
  result : r'.result = r.result
  console : C r.console r'.console
  interrupt : r'.interrupt = r.interrupt

/-- Related consoles answer every call alike. -/
structure Console.AnswerAlike [Console κ] [Console κ'] (C : κ → κ' → Prop) : Prop where
  write : ∀ {c c'}, C c c' → ∀ text, (Console.write text c).Alongside C (Console.write text c')
  writeLine : ∀ {c c'}, C c c' →
    ∀ text, (Console.writeLine text c).Alongside C (Console.writeLine text c')
  readLine : ∀ {c c'}, C c c' → (Console.readLine c).Alongside C (Console.readLine c')
  trace : ∀ {c c'}, C c c' → ∀ text, (Console.trace text c).Alongside C (Console.trace text c')

theorem Reply.Alongside.flip {α : Type} {C : κ → κ' → Prop} {r : Reply κ α} {r' : Reply κ' α}
    (h : r.Alongside C r') : r'.Alongside (flip C) r :=
  ⟨h.result.symm, h.console, h.interrupt.symm⟩

theorem Console.AnswerAlike.flip [Console κ] [Console κ'] {C : κ → κ' → Prop} (h : AnswerAlike C) :
    AnswerAlike (flip C) where
  write hc text := (h.write hc text).flip
  writeLine hc text := (h.writeLine hc text).flip
  readLine hc := (h.readLine hc).flip
  trace hc text := (h.trace hc text).flip

/-- Two machines have the same environment and break flag, and related consoles. -/
structure Machine.Alongside (C : κ → κ' → Prop) (m : Machine κ) (m' : Machine κ') : Prop where
  environment : m'.environment = m.environment
  console : C m.console m'.console
  interrupt : m'.interrupt = m.interrupt

/-- Two runs stand at the same line, after as many statements, with machines that go along. -/
structure Run.Alongside (C : κ → κ' → Prop) (r : Run κ) (r' : Run κ') : Prop where
  machine : r.machine.Alongside C r'.machine
  index : r'.index = r.index
  steps : r'.steps = r.steps

/-- Two runs go on together, or have come to the same end. -/
inductive Progress.Alongside (C : κ → κ' → Prop) : Progress κ → Progress κ' → Prop
  | running {r : Run κ} {r' : Run κ'} (h : r.Alongside C r') :
      Alongside C (.running r) (.running r')
  | halted {r : Run κ} {r' : Run κ'} (result : Except Error Unit) (h : r.Alongside C r') :
      Alongside C (.halted result r) (.halted result r')

namespace Machine

open LineBasic.Action

variable {α : Type} {C : κ → κ' → Prop}

theorem onEnvironment_alongside (x : Action Environment α) :
    Alike (Alongside C) (onEnvironment x : Action (Machine κ) α) (onEnvironment x) := by
  rintro ⟨env, console, interrupt⟩ ⟨_, console', interrupt'⟩ ⟨rfl, hconsole, hinterrupt⟩
  exact ⟨rfl, rfl, hconsole, hinterrupt⟩

theorem onConsole_alongside {call : κ → Reply κ α} {call' : κ' → Reply κ' α}
    (h : ∀ c c', C c c' → (call c).Alongside C (call' c')) :
    Alike (Alongside C) (onConsole call) (onConsole call') := by
  rintro ⟨env, console, interrupt⟩ ⟨_, console', interrupt'⟩ ⟨rfl, hconsole, rfl⟩
  have hreply := h console console' hconsole
  unfold onConsole
  dsimp only at hreply ⊢
  generalize call console = r, call' console' = r' at hreply ⊢
  obtain ⟨result, after, raised⟩ := r
  obtain ⟨result', after', raised'⟩ := r'
  obtain ⟨hresult, hafter, hraised⟩ := hreply
  dsimp only at hresult hafter hraised
  subst hresult hraised
  cases result' with
  | ok a => exact ⟨rfl, rfl, hafter, rfl⟩
  | error fault => exact ⟨rfl, rfl, hafter, rfl⟩

end Machine

variable [Console κ] [Console κ'] {C : κ → κ' → Prop}

namespace Statement

open LineBasic.Action Machine Environment

/-- A statement does the same on consoles that answer alike. -/
theorem execute_alongside (hC : Console.AnswerAlike C) (st : Statement) :
    Alike (Alongside C) (st.execute : Action (Machine κ) Unit) st.execute := by
  induction st with
  | stop => exact onEnvironment_alongside _
  | loop v start limit step line =>
    refine (onEnvironment_alongside _).bind fun a => ?_
    refine (onEnvironment_alongside _).bind fun b => ?_
    refine (onEnvironment_alongside _).bind fun c => ?_
    refine (onEnvironment_alongside _).bind fun _ => ?_
    unfold executeLoop
    split
    · exact onEnvironment_alongside _
    · exact .fail _
  | goto n => exact onEnvironment_alongside _
  | cond condition body ih =>
    refine (onEnvironment_alongside _).bind fun value => ?_
    cases value with
    | text _ => exact .fail _
    | number x =>
      dsimp only
      split
      · exact ih
      · exact .pure _
  | input prompt v =>
    refine (onEnvironment_alongside _).bind fun _ => ?_
    refine (onConsole_alongside fun c c' h => hC.write h _).bind fun _ => ?_
    refine (onConsole_alongside fun c c' h => hC.readLine h).bind fun line => ?_
    refine (Alike.ofExcept _).bind fun value => ?_
    exact onEnvironment_alongside _
  | assign v e =>
    refine (onEnvironment_alongside _).bind fun _ => ?_
    refine (onEnvironment_alongside _).bind fun value => ?_
    exact onEnvironment_alongside _
  | next v => exact onEnvironment_alongside _
  | print items =>
    refine (onEnvironment_alongside _).bind fun values => ?_
    exact onConsole_alongside fun c c' h => hC.writeLine h _
  | remark text => exact .pure _

end Statement

namespace Program

open LineBasic.Action

variable {p : Program} {settings : Settings} {r : Run κ} {r' : Run κ'}

omit [Console κ] [Console κ'] in
theorem follow_alongside (h : r.Alongside C r') (number : Nat) :
    (p.follow number r).Alongside C (p.follow number r') := by
  obtain ⟨⟨_, console, interrupt⟩, _, _⟩ := r
  obtain ⟨⟨env, console', interrupt'⟩, index, steps⟩ := r'
  obtain ⟨⟨rfl, hconsole, hinterrupt⟩, rfl, rfl⟩ := h
  have hrun (env : Environment) (i n : Nat) : Run.Alongside C ⟨⟨env, console, interrupt⟩, i, n⟩
      ⟨⟨env, console', interrupt'⟩, i, n⟩ := ⟨⟨rfl, hconsole, hinterrupt⟩, rfl, rfl⟩
  unfold follow
  dsimp only
  split
  · exact .halted _ (hrun _ _ _)
  · split
    · exact .running (hrun _ _ _)
    · split
      · exact .running (hrun _ _ _)
      · exact .halted _ (hrun _ _ _)
    · split
      · exact .running (hrun _ _ _)
      · exact .halted _ (hrun _ _ _)

theorem traceLine_alongside (hC : Console.AnswerAlike C) (line : Entry Statement) :
    Alike (Machine.Alongside C) (traceLine settings line : Action (Machine κ) Unit)
      (traceLine settings line) := by
  unfold traceLine
  split
  · exact Machine.onConsole_alongside fun c c' h => hC.trace h _
  · exact .pure _

theorem executeLine_alongside (hC : Console.AnswerAlike C) (h : r.Alongside C r')
    (line : Entry Statement) :
    (p.executeLine settings line r).Alongside C (p.executeLine settings line r') := by
  have hentering : (r.entering line).Alongside C (r'.entering line) :=
    ⟨congrArg (·.setCounter line.number) h.machine.environment, h.machine.console,
      h.machine.interrupt⟩
  obtain ⟨traced, m, m', htrace, htrace', hm⟩ := (traceLine_alongside hC line).exists_eq hentering
  rw [executeLine_eq, executeLine_eq, htrace, htrace']
  cases traced with
  | error e => exact .halted _ ⟨hm, h.index, h.steps⟩
  | ok _ =>
    obtain ⟨result, n, n', hexecute, hexecute', hn⟩ := (line.item.execute_alongside hC).exists_eq hm
    have hrun : Run.Alongside C ⟨n, r.index, r.steps + 1⟩ ⟨n', r'.index, r'.steps + 1⟩ :=
      ⟨hn, h.index, congrArg (· + 1) h.steps⟩
    dsimp only
    rw [hexecute, hexecute']
    cases result with
    | error e => exact .halted _ hrun
    | ok _ => exact follow_alongside hrun line.number

theorem step_alongside (hC : Console.AnswerAlike C) (h : r.Alongside C r') :
    (p.step settings r).Alongside C (p.step settings r') := by
  rw [step_eq, step_eq, h.index, h.steps, h.machine.interrupt]
  split
  · exact .halted _ h
  · split
    · exact .halted _ h
    · split
      · exact .halted _ ⟨⟨h.machine.environment, h.machine.console, rfl⟩, rfl, rfl⟩
      · exact executeLine_alongside hC h _

theorem advance_alongside (hC : Console.AnswerAlike C) {progress : Progress κ}
    {progress' : Progress κ'} (h : progress.Alongside C progress') (count : Nat) :
    (p.advance settings count progress).Alongside C (p.advance settings count progress') := by
  induction count generalizing progress progress' with
  | zero => exact h
  | succ count ih =>
    cases h with
    | running h => exact ih (step_alongside hC h)
    | halted result h => exact .halted result h

/-- A run goes along with one on a console that answers alike, to the same end. -/
theorem HaltsWith.alongside (hC : Console.AnswerAlike C) (h : r.Alongside C r')
    {result : Except Error Unit} {s : Run κ} (hhalts : p.HaltsWith settings r result s) :
    ∃ s', p.HaltsWith settings r' result s' ∧ s.Alongside C s' := by
  obtain ⟨count, hcount⟩ := hhalts
  have hprogress : (p.advance settings count (.running r)).Alongside C
      (p.advance settings count (.running r')) :=
    advance_alongside hC (.running h) count
  unfold HaltsIn at hcount
  rw [hcount] at hprogress
  generalize hend : p.advance settings count (.running r') = progress at hprogress
  cases hprogress with
  | halted _ hs => exact ⟨_, ⟨count, hend⟩, hs⟩

end Program

end LineBasic
