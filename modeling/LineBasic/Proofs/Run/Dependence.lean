import LineBasic.Console.Transcript
import LineBasic.Proofs.Run.Corresponding

/-!
# What a run depends on

A run depends on the variables, the open loops and the generator of the environment from which it is
started, and on nothing else there: not on where an earlier program stopped, on a jump that was left
behind, on whether that program had ended, or on the seed (`Program.sameRun_start`). If no
expression of the program draws a random number, it does not depend on the generator either, and
leaves it alone (`Expr.respects_of_not_draws` says this of expressions).
-/

namespace LineBasic

/-! ## Expressions that draw no random number -/

namespace Expr

open LineBasic.Action

mutual

/-- Whether a call of the function that draws random numbers stands anywhere in an expression. -/
def draws : Expr → Bool
  | .number _ | .text _ | .var _ => false
  | .call f arguments => Builtin.ofName? f.name = some .rnd || drawsAny arguments
  | .paren e => e.draws
  | .binary _ l r => l.draws || r.draws

/-- Whether such a call stands in one of some expressions. -/
def drawsAny : List Expr → Bool
  | [] => false
  | e :: es => e.draws || drawsAny es

end

variable {G : Generator → Generator → Prop}

/-- Only one function looks at the generator. -/
theorem call_alike {b : Builtin} (hb : b ≠ .rnd) (arguments : List Value) :
    Alike G (b.call arguments) (b.call arguments) := by
  fun_cases Builtin.call b arguments with
  | case6 => exact absurd rfl hb
  | case8 => exact .fail _
  | case11 s => exact .ofExcept _
  | case12 => exact .fail _
  | _ => exact .pure _

theorem inLeft_alike {op : Operator} {x : Action Generator Value} (hx : Alike G x x) :
    Alike G (inLeft op x) (inLeft op x) := by
  unfold inLeft
  split
  · exact hx
  · exact hx.within _

theorem inRight_alike {op : Operator} {x : Action Generator Value} (hx : Alike G x x) :
    Alike G (inRight op x) (inRight op x) := by
  unfold inRight
  split
  · exact hx
  · exact hx.within _

mutual

/-- An expression that draws no random number has the same value with every generator, and leaves it
alone. -/
theorem respects_of_not_draws : (e : Expr) → e.draws = false → e.Respects G
  | .number x, _ | .text s, _ | .var v, _ => by
    intro store
    rw [evaluate]
    exact .pure _
  | .call f arguments, h => by
    intro store
    rw [draws, Bool.or_eq_false_iff, decide_eq_false_iff_not] at h
    rw [evaluate]
    split
    · rename_i b hb
      refine (evaluateAll_alike_of_not_draws arguments h.2 store).bind fun values => ?_
      exact call_alike (fun hrnd => h.1 (hrnd ▸ hb)) values
    · exact .fail _
  | .paren e, h => by
    intro store
    rw [evaluate]
    exact (respects_of_not_draws e h store).within _
  | .binary op l r, h => by
    intro store
    rw [draws, Bool.or_eq_false_iff] at h
    rw [evaluate]
    refine (inLeft_alike (respects_of_not_draws l h.1 store)).bind fun a => ?_
    refine (inRight_alike (respects_of_not_draws r h.2 store)).bind fun b => ?_
    exact .ofExcept _

theorem evaluateAll_alike_of_not_draws : (es : List Expr) → drawsAny es = false → ∀ store : Store,
    Alike G (evaluateAll store es) (evaluateAll store es)
  | [], _, store => by
    rw [evaluateAll]
    exact .pure _
  | e :: es, h, store => by
    rw [drawsAny, Bool.or_eq_false_iff] at h
    rw [evaluateAll]
    refine (respects_of_not_draws e h.1 store).bind fun v => ?_
    exact (evaluateAll_alike_of_not_draws es h.2 store).bind fun vs => .pure _

end

end Expr

/-! ## Two runs of one program -/

theorem Frame.renumber_id (frame : Frame) : frame.renumber id = frame := rfl

theorem Entry.renumber_id (line : Entry Statement) : line.renumber id = line := by
  rw [renumber, Statement.renumber_id]
  rfl

theorem Stack.map_renumber_id (frames : Stack Frame) : frames.map (·.renumber id) = frames := by
  simp [Stack.map, Frame.renumber_id]

/-- Two environments have the same variables and open loops, and their generators are related. -/
structure Environment.SameBut (G : Generator → Generator → Prop) (env env' : Environment) :
    Prop where
  store : env'.store = env.store
  frames : env'.frames = env.frames
  generator : G env.generator env'.generator

theorem Environment.Matches.sameBut {S : Set Nat} {G : Generator → Generator → Prop}
    {env env' : Environment} (h : env.Matches id S G env') : env.SameBut G env' :=
  ⟨h.store, h.frames.trans (Stack.map_renumber_id _), h.generator⟩

theorem Environment.SameBut.matches {S : Set Nat} {G : Generator → Generator → Prop}
    {env env' : Environment} (h : env.SameBut G env')
    (hlines : ∀ frame ∈ env.frames.items, frame.line ∈ S) : env.Matches id S G env' :=
  ⟨h.store, h.frames.trans (Stack.map_renumber_id _).symm, hlines, h.generator⟩

namespace Program

variable {κ : Type} [Console κ] {p : Program} {settings : Settings}
  {G : Generator → Generator → Prop} {r r' s : Run κ} {result result' : Except Error Unit}

/-- Two runs of a program go the same way: what the one executes in some step the other executes in
that step, and when the one has come to its end the other has too, with the same result, console and
break flag, and environments that are the same but for what only directs execution. -/
structure SameRun (p : Program) (settings : Settings) (G : Generator → Generator → Prop)
    (r r' : Run κ) : Prop where
  executes_iff : ∀ count line,
    (∃ q m, p.Reaches settings count r q ∧ p.Executes settings q line m) ↔
      ∃ q m, p.Reaches settings count r' q ∧ p.Executes settings q line m
  haltsIn_iff : ∀ count result,
    (∃ s, p.HaltsIn settings count r result s) ↔ ∃ s, p.HaltsIn settings count r' result s
  same_end : ∀ count result result' s s', p.HaltsIn settings count r result s →
    p.HaltsIn settings count r' result' s' →
    result' = result ∧ s.machine.Agrees (Environment.SameBut G) s'.machine

theorem SameResult.eq_of_id (h : SameResult id result result') : result' = result := by
  cases h with
  | ok => rfl
  | undefined target number => rfl
  | @error e hcode =>
    have hline : e.renumber id = e := by
      rw [Error.renumber, Option.map_id_apply]
    rw [hline]

theorem corresponds_self (hexprs : ∀ n st, p.get? n = some st → ∀ e ∈ st.exprs, e.Respects G) :
    p.Corresponds id Set.univ G p where
  entries_eq := by simp [Entry.renumber_id]
  injOn := Set.injOn_id _
  number_mem _ _ _ := trivial
  mentioned_mem _ _ _ _ _ := trivial
  respects _ _ hline := hexprs _ _ (get?_of_line? hline)

theorem tracesAlike_id (settings : Settings) : TracesAlike κ id settings := by
  intro line
  rw [line.renumber_id]

/-- Runs of one program that begin together go the same way. -/
theorem sameRun_of_corresponds (hp : p.Corresponds id Set.univ G p)
    (hr : Progress.Corresponds id Set.univ G (.running r) (.running r')) :
    p.SameRun settings G r r' := by
  have htraces : TracesAlike κ id settings := tracesAlike_id settings
  have hadvance := hp.advance htraces hr
  refine ⟨fun count line => ⟨?_, ?_⟩, fun count result => ⟨?_, ?_⟩, ?_⟩
  · rintro ⟨q, m, hq, hexecutes⟩
    obtain ⟨q', hq', hcorresponds, hrest, hrest'⟩ := (hq ▸ hadvance count).of_running
    obtain ⟨m', hm'⟩ := hp.executes htraces hcorresponds hrest hrest' hexecutes
    exact ⟨q', m', hq', line.renumber_id ▸ hm'⟩
  · rintro ⟨q', m', hq', hexecutes⟩
    obtain ⟨q, hq, hcorresponds, hrest, hrest'⟩ := (hq' ▸ hadvance count).to_running
    obtain ⟨l, m, rfl, hm⟩ := hp.exists_executes htraces hcorresponds hrest hrest' hexecutes
    exact ⟨q, m, hq, l.renumber_id.symm ▸ hm⟩
  · rintro ⟨s, hs⟩
    obtain ⟨result', s', hs', hresult, _⟩ := (hs ▸ hadvance count).of_halted
    obtain rfl := hresult.eq_of_id
    exact ⟨s', hs'⟩
  · rintro ⟨s', hs'⟩
    obtain ⟨result', s, hs, hresult, _⟩ := (hs' ▸ hadvance count).to_halted
    obtain rfl := hresult.eq_of_id
    exact ⟨s, hs⟩
  · intro count result result' s s' hs hs'
    obtain ⟨result₁, s₁, hs₁, hresult, hends⟩ := (hs ▸ hadvance count).of_halted
    obtain ⟨rfl, rfl⟩ := Progress.halted.inj (hs'.symm.trans hs₁)
    refine ⟨hresult.eq_of_id, ?_, hends.machine.console, hends.machine.interrupt⟩
    exact hends.machine.environment.sameBut

/-- A run depends on the variables, the open loops and the generator of the environment from which
it is started. Without an expression that draws a random number it does not depend on the generator,
which it then leaves alone. -/
theorem sameRun_start (p : Program) (settings : Settings) {env env' : Environment}
    (hstore : env'.store = env.store) (hframes : env'.frames = env.frames) (console : κ)
    (interrupt : Bool) :
    (env'.generator = env.generator →
        p.SameRun settings Eq (start env console interrupt) (start env' console interrupt)) ∧
      ((∀ n st, p.get? n = some st → ∀ e ∈ st.exprs, e.draws = false) →
        p.SameRun settings (fun g g' =>
          g = env.generator ∧ g' = env'.generator) (start env console interrupt)
          (start env' console interrupt)) := by
  have hsame : ∀ {G : Generator → Generator → Prop}, G env.generator env'.generator →
      (∀ n st, p.get? n = some st → ∀ e ∈ st.exprs, e.Respects G) →
      p.SameRun settings G (start env console interrupt) (start env' console interrupt) := by
    intro G hgenerator hexprs
    have hsame : env.SameBut G env' := ⟨hstore, hframes, hgenerator⟩
    have hmatches : env.Matches id Set.univ G env' := hsame.matches fun _ _ => trivial
    exact sameRun_of_corresponds (corresponds_self hexprs)
      (start_corresponds hmatches console interrupt)
  constructor
  · intro hgenerator
    exact hsame hgenerator.symm fun _ _ _ _ _ _ => .refl _
  · intro hdraws
    exact hsame ⟨rfl, rfl⟩ fun n st hget e he => e.respects_of_not_draws (hdraws n st hget e he)

/-- A line that draws no random number. -/
def printsOne : Statement :=
  .print [.call ⟨"ABS"⟩ [.number 1]]

theorem sameRun_start_printsOne :
    (single 10 printsOne).SameRun {} Eq (start (.ofSeed 7) ({} : Transcript) false)
        (start (.leftBehind 9 (.ofSeed 7)) {} false) ∧
      (single 10 printsOne).SameRun {} (fun g g' => g = .ofSeed 7 ∧ g' = .ofSeed 9)
        (start (.ofSeed 7) ({} : Transcript) false)
          (start (.leftBehind 7 (.ofSeed 9)) {} false) := by
  have hdraws : ∀ n st, (single 10 printsOne).get? n = some st →
      ∀ e ∈ st.exprs, e.draws = false := by
    intro n st hget e he
    obtain ⟨-, rfl⟩ := get?_single.mp hget
    obtain rfl : e = .call ⟨"ABS"⟩ [.number 1] := List.mem_singleton.mp he
    decide +kernel
  have hstart : ∀ seed g, (Environment.leftBehind seed g).store = (Environment.ofSeed 7).store ∧
      (Environment.leftBehind seed g).frames = (Environment.ofSeed 7).frames :=
    fun _ _ => ⟨rfl, rfl⟩
  constructor
  · obtain ⟨hstore, hframes⟩ := hstart 9 (.ofSeed 7)
    exact (sameRun_start _ _ hstore hframes _ _).1 rfl
  · obtain ⟨hstore, hframes⟩ := hstart 7 (.ofSeed 9)
    exact (sameRun_start _ _ hstore hframes _ _).2 hdraws

end Program

end LineBasic
