import LineBasic.Proofs.Run.Invariant
import LineBasic.Proofs.Run.LoopSteps

/-!
# Where a loop goes on

Executing a line leaves the open loops as they were, opens one on that line, or closes the innermost
one (`Program.changesLoops_of_running`). So each open loop of a run carries the number of the line
whose execution opened it, where a loop at some depth was opened by the last step that went down to
that depth (`Program.Opened`, `Program.exists_opened`). When `NEXT` finds the innermost loop
unfinished, the run goes on behind the line that opened it if that line is the loop itself. If the
loop stands behind a condition, the run goes on with the line that opened it, which opens it again
(`Program.loopBack`).
-/

namespace LineBasic

theorem Action.exists_of_bind_eq_ok {σ α β : Type} {x : Action σ α} {f : α → Action σ β} {s t : σ}
    {b : β} (h : (x >>= f) s = (.ok b, t)) : ∃ a u, x s = (.ok a, u) ∧ f a u = (.ok b, t) := by
  rw [bind_apply] at h
  rcases hx : x s with ⟨e | a, u⟩
  · rw [hx] at h
    cases h
  · rw [hx] at h
    exact ⟨a, u, rfl, h⟩

/-! ## One statement -/

/-- The numbers of the lines that the open loops carry, the innermost loop last. -/
def Environment.loopLines (env : Environment) : List Nat :=
  env.frames.items.toList.map (·.line)

/-- The open loops are the same as before, or one more, opened on a line, or all but the innermost
one. -/
inductive ChangesLoops (number : Nat) (before : List Nat) : List Nat → Prop
  | kept : ChangesLoops number before before
  | opened : ChangesLoops number before (before ++ [number])
  | closed : ChangesLoops number before before.dropLast

namespace Stack

variable {s : Stack Frame} {f g : Frame}

/-- Another value of the innermost loop changes no line. -/
theorem lines_setTop (htop : s.top? = some f) (hline : g.line = f.line) :
    (s.setTop g).items.toList.map (·.line) = s.items.toList.map (·.line) := by
  obtain ⟨frames, hsize⟩ := s
  obtain ⟨rest, rfl⟩ := Array.back?_eq_some_iff.mp htop
  simp [setTop, hline]

theorem lines_pop : s.pop.items.toList.map (·.line) = (s.items.toList.map (·.line)).dropLast := by
  simp [pop, List.map_dropLast]

theorem size_setTop : (s.setTop g).size = s.size := by
  unfold setTop size
  split
  · simp only [Array.size_push, Array.size_pop]
    omega
  · rfl

end Stack

namespace Environment

variable {env env' : Environment} {frame : Frame}

theorem length_loopLines (env : Environment) : env.loopLines.length = env.frames.size := by
  rw [loopLines, List.length_map, Array.length_toList, Stack.size]

theorem loopLines_openLoop {v : Ident} {start limit step : Float} {line : Nat}
    (h : openLoop v start limit step line env = (.ok (), env')) :
    env'.loopLines = env.loopLines ++ [line] := by
  unfold openLoop at h
  split at h
  · cases h
  · obtain ⟨_, assigned, hassign, hpush⟩ := Action.exists_of_bind_eq_ok h
    have hframes : assigned.frames = env.frames :=
      congrArg (fun outcome => outcome.2.frames) hassign.symm
    unfold pushFrame Stack.push at hpush
    dsimp only at hpush
    split at hpush
    · obtain rfl := (Prod.mk.inj hpush).2
      simp [loopLines, hframes]
    · cases hpush

/-- What a turn of a loop does. -/
theorem turn_cases (h : turn frame env = (.ok (), env')) {moved : Frame}
    (hmoved : { frame with current := frame.current + frame.step } = moved) :
    env'.ended = env.ended ∧
      (moved.isFinished = true ∧ env'.frames = (env.frames.setTop moved).pop ∨
        moved.isFinished = false ∧ env'.frames = env.frames.setTop moved ∧ env'.transfer = .loop ∧
          env'.counter = frame.line) := by
  have hline : moved.line = frame.line := by rw [← hmoved]
  rw [LoopHead.turn_eq hmoved] at h
  rcases hassign : assign moved.counter (.number moved.current) (env.mapFrames (·.setTop moved))
    with ⟨e | _, env₁⟩
  · rw [hassign] at h
    cases h
  · rw [hassign] at h
    have hframes : env₁.frames = env.frames.setTop moved :=
      congrArg (fun outcome => outcome.2.frames) hassign.symm
    have hended : env₁.ended = env.ended := congrArg (fun outcome => outcome.2.ended) hassign.symm
    obtain rfl := (Prod.mk.inj h).2
    cases hfinished : moved.isFinished with
    | true => exact ⟨hended, .inl ⟨rfl, congrArg Stack.pop hframes⟩⟩
    | false => exact ⟨hended, .inr ⟨rfl, hframes, rfl, hline⟩⟩

theorem changesLoops_nextTurn {counter : Option Ident} {number : Nat}
    (h : nextTurn counter env = (.ok (), env')) :
    ChangesLoops number env.loopLines env'.loopLines := by
  have hturn : ∀ frame, env.frames.top? = some frame → turn frame env = (.ok (), env') →
      ChangesLoops number env.loopLines env'.loopLines := by
    intro frame htop hok
    have hlines := Stack.lines_setTop htop
      (g := { frame with current := frame.current + frame.step }) rfl
    obtain ⟨-, ⟨-, hframes⟩ | ⟨-, hframes, -⟩⟩ := turn_cases hok rfl
    · rw [show env'.loopLines = env.loopLines.dropLast by
        rw [loopLines, hframes, Stack.lines_pop, hlines, loopLines]]
      exact .closed
    · rw [show env'.loopLines = env.loopLines by rw [loopLines, hframes, hlines, loopLines]]
      exact .kept
  unfold nextTurn at h
  split at h
  · cases h
  · rename_i frame htop
    split at h
    · exact hturn frame htop h
    · split at h
      · exact hturn frame htop h
      · cases h

end Environment

namespace Statement

open Machine

variable {κ : Type} [Console κ] {m m' : Machine κ} {number : Nat}

/-- Statements that neither open nor close a loop leave the open loops alone. -/
theorem loopLines_execute {st : Statement} (h : st.execute m = (.ok (), m'))
    (hst : st.Obeys (fun env => env.loopLines = m.environment.loopLines) fun _ => True) :
    m'.environment.loopLines = m.environment.loopLines := by
  have hkeeps :=
    execute_keeps (κ := κ) (fun _ _ henv => henv) (fun _ _ => trivial) (fun _ => trivial) hst
  have hkept := (hkeeps m rfl).1
  rwa [h] at hkept

theorem changesLoops_execute {st : Statement} (hst : st.WellFormed number)
    (h : st.execute m = (.ok (), m')) :
    ChangesLoops number m.environment.loopLines m'.environment.loopLines := by
  have hevaluate : ∀ {e : Expr} {m m₁ : Machine κ} {value : Value},
      Machine.evaluate e m = (.ok value, m₁) →
      m₁.environment.loopLines = m.environment.loopLines :=
    fun hvalue => congrArg (fun outcome => outcome.2.environment.loopLines) hvalue.symm
  have hkept : m'.environment.loopLines = m.environment.loopLines →
      ChangesLoops number m.environment.loopLines m'.environment.loopLines := by
    intro heq
    rw [heq]
    exact .kept
  induction st generalizing m with
  | cond condition body ih =>
    obtain ⟨value, m₁, hvalue, hbody⟩ := Action.exists_of_bind_eq_ok h
    rw [← hevaluate hvalue] at hkept ⊢
    cases value with
    | text s => cases hbody
    | number x =>
      dsimp only at hbody
      split at hbody
      · exact ih hst hbody hkept
      · obtain rfl := (Prod.mk.inj hbody).2
        exact .kept
  | loop v start limit step line =>
    obtain ⟨hv, rfl⟩ := hst
    obtain ⟨a, m₁, hstart, h⟩ := Action.exists_of_bind_eq_ok h
    obtain ⟨b, m₂, hlimit, h⟩ := Action.exists_of_bind_eq_ok h
    obtain ⟨c, m₃, hstep, h⟩ := Action.exists_of_bind_eq_ok h
    obtain ⟨_, m₄, hname, h⟩ := Action.exists_of_bind_eq_ok h
    have hnamed : m₄.environment.loopLines = m₃.environment.loopLines := by
      have hkeeps := onEnvironment_keeps (κ := κ) (F := fun _ => True)
        (Environment.checkName_keeps (I := fun env => env.loopLines = m₃.environment.loopLines) hv)
      have hkept := (hkeeps m₃ rfl).1
      rwa [hname] at hkept
    unfold executeLoop at h
    split at h
    · have hopen := congrArg (fun outcome => (outcome.1, outcome.2.environment)) h
      rw [Environment.loopLines_openLoop hopen, hnamed, hevaluate hstep, hevaluate hlimit,
        hevaluate hstart]
      exact .opened
    · cases h
  | next v =>
    have hturn := congrArg (fun outcome => (outcome.1, outcome.2.environment)) h
    exact Environment.changesLoops_nextTurn hturn
  | input prompt v | assign v e =>
    have hassign : ∀ value,
        Action.Keeps (fun env => env.loopLines = m.environment.loopLines) (fun _ => True)
        (Environment.assign v value) := fun value env henv => ⟨henv, fun _ _ => trivial⟩
    exact hkept (loopLines_execute h ⟨Environment.checkName_keeps hst, hassign⟩)
  | stop | goto n => exact hkept (loopLines_execute h fun _ henv => henv)
  | print items | remark text => exact hkept (loopLines_execute h trivial)

end Statement

/-! ## The line that opened a loop -/

/-- How many loops are open. -/
def Run.depth {κ : Type} (r : Run κ) : Nat :=
  r.machine.environment.frames.size

namespace Program

variable {κ : Type} [Console κ] {p : Program} {settings : Settings} {r s first : Run κ}

/-- The step from a state opened the loop that a later state has above `level` others: since then
there have always been more than `level` open loops. -/
inductive Opened (p : Program) (settings : Settings) (level : Nat) (q : Run κ) : Run κ → Prop
  | opening {s : Run κ} (hstep : p.step settings q = .running s) (hq : q.depth = level)
      (hs : s.depth = level + 1) :
      Opened p settings level q s
  | still {r s : Run κ} (h : Opened p settings level q r) (hstep : p.step settings r = .running s)
      (hs : level < s.depth) : Opened p settings level q s

/-- A step changes the open loops only by opening one on its line or closing the innermost one. -/
theorem changesLoops_of_running (hp : p.WellFormed) (h : p.step settings r = .running s) :
    ∃ line, p.line? r.index = some line ∧
      ChangesLoops line.number r.machine.environment.loopLines s.machine.environment.loopLines := by
  have hsteps := steps_step p settings r
  rw [h] at hsteps
  generalize hprogress : Progress.running s = progress at hsteps
  cases hsteps with
  | @followed line m m' hexecutes hexecute =>
    refine ⟨line, hexecutes.line_eq, ?_⟩
    have htrace :=
      (traceLine_keeps (fun env => env.loopLines = r.machine.environment.loopLines) settings line
      (r.entering line) rfl).1
    rw [hexecutes.trace_eq] at htrace
    have hchanges :=
      Statement.changesLoops_execute (hp _ _ (get?_of_line? hexecutes.line_eq)) hexecute
    rw [htrace] at hchanges
    have hfollows := follows_follow p line.number ⟨m', r.index, r.steps + 1⟩
    rw [← hprogress] at hfollows
    cases hfollows with
    | next | jumped | looped => exact hchanges
  | _ => cases hprogress

/-- Each open loop of a run that began without any was opened by a step of the run, and it carries
the number of the line that this step executed. -/
theorem exists_opened (hp : p.WellFormed) (hfirst : first.machine.environment.loopLines = [])
    {count : Nat} (h : p.Reaches settings count first r) {level n : Nat}
    (hn : r.machine.environment.loopLines[level]? = some n) :
    ∃ before q line, p.Reaches settings before first q ∧ p.Opened settings level q r ∧
      p.line? q.index = some line ∧ line.number = n := by
  -- The invariant is this for all depths, together with the fact that the state is one of the run.
  suffices hall : (∃ before, p.Reaches settings before first r) ∧
      ∀ level n, r.machine.environment.loopLines[level]? = some n →
        ∃ before q line, p.Reaches settings before first q ∧ p.Opened settings level q r ∧
          p.line? q.index = some line ∧ line.number = n from hall.2 level n hn
  clear hn
  refine h.induct (I := fun r => (∃ before, p.Reaches settings before first r) ∧
      ∀ level n, r.machine.environment.loopLines[level]? = some n →
        ∃ before q line, p.Reaches settings before first q ∧ p.Opened settings level q r ∧
          p.line? q.index = some line ∧ line.number = n) ?_ ?_
  · intro r s hr hstep
    obtain ⟨⟨before, hbefore⟩, hopened⟩ := hr
    refine ⟨⟨before + 1, hbefore.trans (.of_step hstep)⟩, ?_⟩
    obtain ⟨line, hline, hchanges⟩ := changesLoops_of_running hp hstep
    have hdepth : s.depth = s.machine.environment.loopLines.length :=
      (Environment.length_loopLines _).symm
    have hstill : ∀ level n, s.machine.environment.loopLines[level]? = some n →
        r.machine.environment.loopLines[level]? = some n →
        ∃ before q line, p.Reaches settings before first q ∧ p.Opened settings level q s ∧
          p.line? q.index = some line ∧ line.number = n := by
      intro level n hs hr
      obtain ⟨before, q, line, hq, hopen, hline, hnumber⟩ := hopened level n hr
      have hlevel : level < s.depth := by
        rw [hdepth]
        exact (List.getElem?_eq_some_iff.mp hs).1
      exact ⟨before, q, line, hq, .still hopen hstep hlevel, hline, hnumber⟩
    intro level n hn
    generalize hlines : s.machine.environment.loopLines = lines at hchanges
    cases hchanges with
    | kept => exact hstill level n hn (hlines ▸ hn)
    | opened =>
      by_cases hlevel : level < r.machine.environment.loopLines.length
      · refine hstill level n hn ?_
        rwa [hlines, List.getElem?_append_left hlevel] at hn
      · have hn' := hn
        rw [hlines, List.getElem?_append_right (Nat.le_of_not_lt hlevel), List.getElem?_singleton]
          at hn'
        obtain ⟨hzero, hnumber⟩ := Option.ite_none_right_eq_some.mp hn'
        have hr : r.depth = level := by
          rw [Run.depth, ← Environment.length_loopLines]
          omega
        have hs : s.depth = level + 1 := by
          rw [hdepth, hlines, List.length_append, Environment.length_loopLines,
            List.length_singleton]
          exact congrArg (· + 1) hr
        exact ⟨before, r, line, hbefore, .opening hstep hr hs, hline, Option.some.inj hnumber⟩
    | closed =>
      refine hstill level n hn ?_
      rw [hlines, List.getElem?_dropLast] at hn
      exact (Option.ite_none_right_eq_some.mp hn).2
  · refine ⟨⟨0, .refl first⟩, fun level n hn => ?_⟩
    rw [hfirst] at hn
    cases hn

end Program

/-! ## Going back -/

namespace Statement

variable {κ : Type}

/-- Executing a statement comes to executing another one: itself, or one behind conditions that
hold. -/
inductive ComesTo : Statement → Machine κ → Statement → Machine κ → Prop
  | here {st : Statement} {m : Machine κ} : ComesTo st m st m
  | behind {condition : Expr} {x : Float} {body st : Statement} {m m₁ m' : Machine κ}
      (hcondition : Machine.evaluate condition m = (.ok (.number x), m₁)) (hx : (x != 0) = true)
      (hbody : ComesTo body m₁ st m') : ComesTo (.cond condition body) m st m'

variable {st st' : Statement} {m m' : Machine κ}

theorem ComesTo.execute_eq [Console κ] (h : st.ComesTo m st' m') :
    st.execute m = st'.execute m' := by
  induction h with
  | here => rfl
  | behind hcondition hx _ ih =>
    rw [execute, Action.bind_of_ok hcondition]
    dsimp only
    rw [if_pos hx, ih]

/-- Conditions change nothing but the generator. -/
theorem ComesTo.exists_generator (h : st.ComesTo m st' m') :
    ∃ g, m'.environment = { m.environment with generator := g } := by
  induction h with
  | @here st m => exact ⟨m.environment.generator, rfl⟩
  | @behind condition x body st m m₁ m' hcondition _ _ ih =>
    obtain ⟨g, hg⟩ := ih
    refine ⟨g, ?_⟩
    have hframe : { m₁.environment with generator := g } = { m.environment with generator := g } :=
      congrArg (fun outcome => { outcome.2.environment with generator := g }) hcondition.symm
    rw [hg, hframe]

end Statement

namespace Program

variable {κ : Type} [Console κ] {p : Program} {settings : Settings} {r : Run κ}
  {line : Entry Statement} {m m' : Machine κ}

theorem Executes.environment_eq (h : p.Executes settings r line m) :
    m.environment = r.machine.environment.setCounter line.number := by
  have htrace :=
    (traceLine_keeps (fun env => env = r.machine.environment.setCounter line.number) settings line
    (r.entering line) rfl).1
  rwa [h.trace_eq] at htrace

variable {v : Option Ident} {f : Frame}

/-- A statement that comes to `NEXT` in an unfinished loop sends execution back into the loop. -/
theorem Executes.execute_unfinished (h : p.Executes settings r line m)
    (hr : p.Between r.machine.environment) (hnext : line.item.ComesTo m (.next v) m')
    (htop : r.machine.environment.frames.top? = some f) (hv : v = none ∨ v = some f.counter)
    (hunfinished : ({ f with current := f.current + f.step } : Frame).isFinished = false) :
    ∃ m'', line.item.execute m = (.ok (), m'') ∧ m''.environment.ended = false ∧
      m''.environment.transfer = .loop ∧ m''.environment.counter = f.line ∧
        m''.environment.frames.size = r.depth := by
  obtain ⟨g, hg⟩ := hnext.exists_generator
  have hsound : m'.environment.IsSound p := by
    rw [hg]
    exact ⟨(h.isSound hr).frames, (h.isSound hr).target⟩
  have hframes : m'.environment.frames = r.machine.environment.frames := by
    rw [hg, h.environment_eq]
    rfl
  have hended : m'.environment.ended = false := by
    rw [hg, h.environment_eq]
    exact hr.ended_eq
  rw [← hframes] at htop
  have hturn : Environment.nextTurn v m'.environment = Environment.turn f m'.environment := by
    unfold Environment.nextTurn
    rw [htop]
    rcases hv with rfl | rfl
    · rfl
    · exact if_pos rfl
  obtain ⟨hok, -⟩ := Environment.turn_keeps_sound hsound htop
  obtain ⟨env, hresult⟩ : ∃ env, Environment.turn f m'.environment = (.ok (), env) :=
    ⟨_, Prod.ext hok rfl⟩
  have hexecute : line.item.execute m = (.ok (), ⟨env, m'.console, m'.interrupt⟩) := by
    rw [hnext.execute_eq, Statement.execute, Machine.onEnvironment, hturn, hresult]
  obtain ⟨hkept, ⟨hfinished, -⟩ | ⟨-, hset, htransfer, hcounter⟩⟩ :=
    Environment.turn_cases hresult rfl
  · cases hunfinished.symm.trans hfinished
  · refine ⟨_, hexecute, hkept.trans hended, htransfer, hcounter, ?_⟩
    rw [hset, Stack.size_setTop, hframes, Run.depth]

theorem loopEntry_of_line? {i : Nat} (h : p.line? i = some line) :
    p.loopEntry i = if line.item.isLoop then i + 1 else i := by
  rw [loopEntry, h, Option.any_some]

/-- In a run that began without open loops, an unfinished loop goes on where the line that opened it
says. -/
theorem exists_step_of_unfinished (hp : p.WellFormed) (hr : p.Between r.machine.environment)
    {first : Run κ} (hfirst : first.machine.environment.loopLines = []) {count : Nat}
    (hreach : p.Reaches settings count first r) (h : p.Executes settings r line m)
    (hnext : line.item.ComesTo m (.next v) m') (htop : r.machine.environment.frames.top? = some f)
    (hv : v = none ∨ v = some f.counter)
    (hunfinished : ({ f with current := f.current + f.step } : Frame).isFinished = false) :
    ∃ before q opening s, p.Reaches settings before first q ∧ p.Opened settings (r.depth - 1) q r ∧
      p.line? q.index = some opening ∧ opening.item.Opens f.counter ∧
        p.step settings r = .running s ∧
      s.depth = r.depth ∧ s.index = if opening.item.isLoop then q.index + 1 else q.index := by
  have hlast : r.machine.environment.loopLines[r.depth - 1]? = some f.line := by
    have hback : r.machine.environment.frames.items.toList[r.depth - 1]? = some f := by
      rw [Array.getElem?_toList]
      exact htop
    rw [Environment.loopLines, List.getElem?_map, hback, Option.map_some]
  obtain ⟨before, q, opening, hq, hopened, hline, hnumber⟩ := exists_opened hp hfirst hreach hlast
  obtain ⟨st, hst, hopens⟩ := (hr.frames f (Array.mem_of_back? htop)).opened
  have hitem : opening.item = st := by
    have hget := get?_of_line? hline
    rw [hnumber, hst] at hget
    exact (Option.some.inj hget).symm
  obtain ⟨m'', hexecute, hended, htransfer, hcounter, hsize⟩ :=
    h.execute_unfinished hr hnext htop hv hunfinished
  have hindex : p.indexOf? m''.environment.counter = some q.index := by
    rw [hcounter, ← hnumber]
    exact indexOf?_of_line? hline
  refine ⟨before, q, opening, ⟨m''.rested, p.loopEntry q.index, r.steps + 1⟩, hq, hopened, hline,
    hitem ▸ hopens, ?_, hsize, loopEntry_of_line? hline⟩
  rw [h.step_eq, hexecute]
  exact (Follows.looped hended htransfer hindex).follow_eq

/-- Whatever program is read from source text, and however it is run from a fresh environment: when
`NEXT` finds the innermost loop unfinished, perhaps behind conditions, the run goes on with as many
open loops as before. It goes on behind the line whose execution opened the loop if that line is the
loop itself, and ends if there is no line behind it. If the loop stands behind conditions on that
line, the run goes on with the line itself. -/
theorem loopBack {source : String} {p : Program} (hsource : ofSource source = .ok p)
    {settings : Settings} {seed : UInt64} {console : κ} {interrupt : Bool} {count : Nat}
    {r : Run κ} (hreach : p.Reaches settings count (start (.ofSeed seed) console interrupt) r)
    {line : Entry Statement} {m m' : Machine κ} (hexecutes : p.Executes settings r line m)
    {v : Option Ident} (hnext : line.item.ComesTo m (.next v) m') {f : Frame}
    (htop : r.machine.environment.frames.top? = some f) (hv : v = none ∨ v = some f.counter)
    (hunfinished : ({ f with current := f.current + f.step } : Frame).isFinished = false) :
    ∃ before q opening s, p.Reaches settings before (start (.ofSeed seed) console interrupt) q ∧
      p.Opened settings (r.depth - 1) q r ∧ p.line? q.index = some opening ∧
        opening.item.Opens f.counter ∧
      p.step settings r = .running s ∧ s.depth = r.depth ∧
      (opening.item.isLoop = true → s.index = q.index + 1 ∧
        (p.line? (q.index + 1) = none → p.step settings s = .halted (.ok ()) s)) ∧
      (opening.item.isLoop = false → s.index = q.index) := by
  have hp := wellFormed_of_ofSource hsource
  obtain ⟨before, q, opening, s, hq, hopened, hline, hopens, hstep, hdepth, hindex⟩ :=
    exists_step_of_unfinished hp (between_of_reaches hp hreach) rfl hreach hexecutes hnext htop
      hv hunfinished
  refine ⟨before, q, opening, s, hq, hopened, hline, hopens, hstep, hdepth, fun hloop =>
    ?_, fun hloop => ?_⟩
  · rw [if_pos hloop] at hindex
    exact ⟨hindex, fun hnone => step_of_none (hindex ▸ hnone)⟩
  · rwa [if_neg (by simp [hloop])] at hindex

/-! ## Two loops that count down -/

/-- An expression that has the value minus one. -/
def truth : Expr :=
  .binary .equal (.var ⟨"A$"⟩) (.var ⟨"A$"⟩)

/-- A loop that counts down from zero to minus one. -/
def countdown : Statement :=
  .loop ⟨"I"⟩ (.var ⟨"A"⟩) truth truth 10

/-- A program that opens the loop and ends its turns. -/
def countdownWith (opening : Statement) : Program :=
  ofLines ((Numbered.empty.put 10 opening).put 20 (.next none))

theorem one_le_memoryLimit : 1 ≤ memoryLimit := by decide

theorem accepts_empty (name : String) : Store.empty.Accepts name := .inr (by decide)

/-- A run of such a program after its first step. -/
def countingDown (seed : UInt64) : Run Transcript where
  machine :=
    { environment :=
        { Environment.ofSeed seed with
          store := Store.empty.insert "I" (.number 0) (accepts_empty "I")
          counter := 10
          frames := ⟨#[⟨⟨"I"⟩, 0, -1, -1, 10⟩], one_le_memoryLimit⟩ }
      console := {}
      interrupt := false }
  index := 1
  steps := 1

theorem openLoop_countingDown (seed : UInt64) :
    Environment.openLoop ⟨"I"⟩ 0 (-1) (-1) 10 ((Environment.ofSeed seed).setCounter 10) =
      (.ok (), (countingDown seed).machine.environment) := by
  have hstep : ((-1 : Float) == 0) = false := by decide +kernel
  have hname : "I".toUpper = "I" := by with_unfolding_all rfl
  have hstore : Store.store "I" (.number 0) .empty =
      (.ok (), (countingDown seed).machine.environment.store) :=
    dif_pos (accepts_empty "I")
  rw [Environment.openLoop, if_neg (by simp [hstep]), Action.bind_apply]
  simp only [Environment.assign, Environment.set, Environment.ofSeed, Environment.setCounter,
    hname, hstore]
  rfl

/-- The machine that executes the first line. -/
def atCountdown (seed : UInt64) : Machine Transcript :=
  ⟨(Environment.ofSeed seed).begin.setCounter 10, {}, false⟩

theorem evaluate_atCountdown (seed : UInt64) {e : Expr} {value : Value}
    (h : ∀ g, e.evaluate .empty g = (.ok value, g)) :
    Machine.evaluate e (atCountdown seed) = (.ok value, atCountdown seed) :=
  Machine.evaluate_of_ok (h _)

theorem evaluate_truth (seed : UInt64) :
    Machine.evaluate truth (atCountdown seed) = (.ok (.number (-1)), atCountdown seed) :=
  evaluate_atCountdown seed (Expr.evaluate_equal_self_empty ⟨"A$"⟩)

theorem execute_countdown (seed : UInt64) :
    countdown.execute (atCountdown seed) = (.ok (), (countingDown seed).machine) := by
  have hstart : Store.defaultValue "A".toUpper = .number 0 := by decide +kernel
  have hname : Machine.onEnvironment (Environment.checkName ⟨"I"⟩) (atCountdown seed) =
      (.ok (), atCountdown seed) := rfl
  rw [countdown, Statement.execute,
    Action.bind_of_ok (evaluate_atCountdown seed (Expr.evaluate_var_empty (v := ⟨"A"⟩) hstart)),
    Action.bind_of_ok (evaluate_truth seed), Action.bind_of_ok (evaluate_truth seed),
    Action.bind_of_ok hname]
  exact congrArg (fun outcome : _ × Environment =>
    (outcome.1, (⟨outcome.2, {}, false⟩ : Machine Transcript))) (openLoop_countingDown seed)

theorem step_countdownWith {opening : Statement} (seed : UInt64)
    (hline : (countdownWith opening).line? 0 = some ⟨10, opening⟩)
    (h : opening.ComesTo (atCountdown seed) countdown (atCountdown seed)) :
    (countdownWith opening).step {} (start (.ofSeed seed) ({} : Transcript) false) =
      .running (countingDown seed) := by
  have hexecutes : (countdownWith opening).Executes {}
      (start (.ofSeed seed) ({} : Transcript) false) ⟨10, opening⟩
      (atCountdown seed) := ⟨hline, rfl, rfl, rfl⟩
  rw [hexecutes.step_eq, h.execute_eq.trans (execute_countdown seed)]
  rfl

theorem unfinished_countingDown :
    (⟨⟨"I"⟩, 0 + -1, -1, -1, 10⟩ : Frame).isFinished = false := by decide +kernel

theorem line?_countdownWith (opening : Statement) :
    (countdownWith opening).line? 1 = some ⟨20, .next none⟩ := by
  rfl

/-- Only the first line opens a loop. -/
theorem index_eq_zero_of_opens {opening : Statement} {i : Nat} {line : Entry Statement} {v : Ident}
    (hline : (countdownWith opening).line? i = some line) (hopens : line.item.Opens v) : i = 0 := by
  match i with
  | 0 => rfl
  | 1 =>
    rw [line?_countdownWith] at hline
    obtain rfl := Option.some.inj hline
    cases hopens
  | i + 2 =>
    have hnone : (countdownWith opening).line? (i + 2) = none := by rfl
    rw [hnone] at hline
    cases hline

theorem executes_next {opening : Statement} (seed : UInt64) :
    (countdownWith opening).Executes {} (countingDown seed) ⟨20, .next none⟩
      ((countingDown seed).entering ⟨20, .next none⟩) :=
  ⟨line?_countdownWith opening, rfl, rfl, rfl⟩

theorem loopBack_countdown :
    ofSource "10 FOR I=A TO A$=A$ STEP A$=A$\n20 NEXT" = .ok (countdownWith countdown) ∧
      (countdownWith countdown).Reaches {} 1 (start (.ofSeed 7) ({} : Transcript) false)
        (countingDown 7) ∧
      ∃ s, (countdownWith countdown).step {} (countingDown 7) = .running s ∧ s.index = 1 ∧
        s.depth = 1 := by
  have hsource : ofSource "10 FOR I=A TO A$=A$ STEP A$=A$\n20 NEXT" =
      .ok (countdownWith countdown) := by with_unfolding_all rfl
  have hline : (countdownWith countdown).line? 0 = some ⟨10, countdown⟩ := by with_unfolding_all rfl
  have hreach : (countdownWith countdown).Reaches {} 1 (start (.ofSeed 7) ({} : Transcript) false)
      (countingDown 7) :=
    .of_step (step_countdownWith 7 hline .here)
  obtain ⟨before, q, opening, s, -, -, hopening, hopens, hstep, hdepth, hloop, -⟩ :=
    loopBack hsource hreach (executes_next 7) .here rfl (.inl rfl) unfinished_countingDown
  have hq := index_eq_zero_of_opens hopening hopens
  rw [hq, hline] at hopening
  obtain rfl := Option.some.inj hopening
  exact ⟨hsource, hreach, s, hstep, by rw [(hloop rfl).1, hq], hdepth⟩

/-- A loop that stands behind a condition is opened again on each turn: the line that opened it
comes next, and not the one behind it. -/
theorem reopens_behind_condition :
    ofSource "10 IF A$=A$ THEN FOR I=A TO A$=A$ STEP A$=A$\n20 NEXT" =
      .ok (countdownWith (.cond truth countdown)) ∧
      (countdownWith (.cond truth countdown)).Reaches {} 1
        (start (.ofSeed 7) ({} : Transcript) false) (countingDown 7) ∧
      (countdownWith (.cond truth countdown)).Opened {} 0
        (start (.ofSeed 7) ({} : Transcript) false) (countingDown 7) ∧
      (countdownWith (.cond truth countdown)).line? (countingDown 7).index = some ⟨20, .next none⟩ ∧
      (countingDown 7).machine.environment.frames.top? = some ⟨⟨"I"⟩, 0, -1, -1, 10⟩ ∧
      (⟨⟨"I"⟩, 0 + -1, -1, -1, 10⟩ : Frame).isFinished = false ∧
      ∃ s, (countdownWith (.cond truth countdown)).step {} (countingDown 7) = .running s ∧
        s.index = (start (.ofSeed 7) ({} : Transcript) false).index := by
  have hsource : ofSource "10 IF A$=A$ THEN FOR I=A TO A$=A$ STEP A$=A$\n20 NEXT" =
      .ok (countdownWith (.cond truth countdown)) := by with_unfolding_all rfl
  have hline : (countdownWith (.cond truth countdown)).line? 0 =
      some ⟨10, .cond truth countdown⟩ := by rfl
  have hstep := step_countdownWith 7 hline (.behind (evaluate_truth 7) (by decide +kernel) .here)
  have hp := wellFormed_of_ofSource hsource
  have hreach := Reaches.of_step hstep
  obtain ⟨before, q, opening, s, -, -, hopening, hopens, hback, -, hindex⟩ :=
    exists_step_of_unfinished hp (between_of_reaches hp hreach) rfl hreach (executes_next 7) .here
      rfl (.inl rfl) unfinished_countingDown
  have hq := index_eq_zero_of_opens hopening hopens
  rw [hq, hline] at hopening
  obtain rfl := Option.some.inj hopening
  exact ⟨hsource, hreach, .opening hstep rfl rfl, (executes_next 7).line_eq, rfl,
    unfinished_countingDown, s, hback, by rw [hindex, hq]; rfl⟩

end Program

end LineBasic
