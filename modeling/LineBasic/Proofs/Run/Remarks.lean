import LineBasic.Proofs.Run.Dependence

/-!
# Remarks do nothing

A line with a remark that is put into a program moves the lines behind it one place on
(`Program.InsertedAt`). A run of the program and a run with the remark in it stay beside one
another: they stand at the same line, or the second one stands at the remark before that line
(`Program.Beside`). A step of the second run over the remark leaves them beside one another, and all
other steps are taken by both. So if nothing goes to the remark, one run comes to its end if and
only if the other does, and in the same way (`Program.haltsWith_insert_remark`).
-/

namespace LineBasic

namespace Statement

/-- The lines to which a statement goes. -/
def targets : Statement → List Nat
  | .goto n => [n]
  | .cond _ body => body.targets
  | .stop | .loop .. | .input _ _ | .assign _ _ | .next _ | .print _ | .remark _ => []

/-- A well-formed statement mentions the lines to which it goes, and its own. -/
theorem WellFormed.mem_mentioned {st : Statement} {number n : Nat} (h : st.WellFormed number)
    (hn : n ∈ st.mentioned) : n = number ∨ n ∈ st.targets := by
  induction st with
  | loop v start limit step line =>
    left
    rw [List.mem_singleton.mp hn, h.2]
  | goto m => exact .inr hn
  | cond condition body ih => exact ih h hn
  | stop | input prompt v | assign v e | next v | print items | remark text => cases hn

end Statement

/-! ## A line more -/

/-- The place of a line after another one has been put in at the place `k`. -/
def past (k i : Nat) : Nat :=
  if i < k then i else i + 1

theorem past_of_lt {k i : Nat} (h : i < k) : past k i = i :=
  if_pos h

theorem past_of_le {k i : Nat} (h : k ≤ i) : past k i = i + 1 :=
  if_neg (Nat.not_lt.mpr h)

/-- Numbers in ascending order are those below another one and those above it. -/
theorem filter_lt_append_filter_gt {α : Type} {l : List (Entry α)} {n : Nat}
    (hl : l.Pairwise (·.number < ·.number)) (hn : ∀ e ∈ l, e.number ≠ n) :
    l.filter (·.number < n) ++ l.filter (n < ·.number) = l := by
  induction l with
  | nil => rfl
  | cons a l ih =>
    obtain ⟨hless, hl⟩ := List.pairwise_cons.mp hl
    obtain ⟨ha, hn⟩ := List.forall_mem_cons.mp hn
    rcases Nat.lt_or_gt_of_ne ha with hlt | hgt
    · have hgt : ¬ n < a.number := by omega
      simp [hlt, hgt, ih hl hn]
    · have hall : ∀ e ∈ l, n < e.number := fun e he => Nat.lt_trans hgt (hless e he)
      have hbelow : (a :: l).filter (·.number < n) = [] := by
        apply List.filter_eq_nil_iff.mpr
        intro e he
        rcases List.mem_cons.mp he with rfl | he
        · simpa using Nat.le_of_lt hgt
        · simpa using Nat.le_of_lt (hall e he)
      have habove : (a :: l).filter (n < ·.number) = a :: l := by
        apply List.filter_eq_self.mpr
        intro e he
        rcases List.mem_cons.mp he with rfl | he
        · simpa using hgt
        · simpa using hall e he
      rw [hbelow, habove, List.nil_append]

namespace Program

variable {κ : Type} {p p' : Program} {n k : Nat} {text : String}

/-- A program is another one with a line of remark put in at some place. -/
structure InsertedAt (p p' : Program) (n k : Nat) (text : String) : Prop where
  line?_past : ∀ i, p'.line? (past k i) = p.line? i
  line?_at : p'.line? k = some ⟨n, .remark text⟩

theorem exists_insertedAt (hn : n ∉ p.lineNumbers) (text : String) :
    ∃ k, p.InsertedAt (ofLines (p.lines.put n (.remark text))) n k text := by
  have hne : ∀ e ∈ p.lines.entries.toList, e.number ≠ n := by
    rintro e he rfl
    exact hn (p.numbers_lines ▸ List.mem_map_of_mem he)
  have hsplit := filter_lt_append_filter_gt p.lines.ascending hne
  have hentries : (p.lines.put n (.remark text)).entries.toList =
      p.lines.entries.toList.filter (·.number < n) ++
      ⟨n, .remark text⟩ :: p.lines.entries.toList.filter (n < ·.number) := by
    simp [Numbered.put, Numbered.entriesWith]
  have hline : ∀ (q : Program) i, q.line? i = q.lines.entries.toList[i]? := by
    intro q i
    rw [← getElem?_lines, Array.getElem?_toList]
  refine ⟨(p.lines.entries.toList.filter (·.number < n)).length, fun i => ?_, ?_⟩
  · rw [hline, hline, lines_ofLines, hentries]
    conv_rhs => rw [← hsplit]
    rcases Nat.lt_or_ge i (p.lines.entries.toList.filter (·.number < n)).length with hlt | hge
    · rw [past_of_lt hlt, List.getElem?_append_left hlt, List.getElem?_append_left hlt]
    · rw [past_of_le hge, List.getElem?_append_right hge,
        List.getElem?_append_right (Nat.le_succ_of_le hge), Nat.succ_sub hge,
        List.getElem?_cons_succ]
  · rw [hline, lines_ofLines, hentries, List.getElem?_append_right (Nat.le_refl _), Nat.sub_self]
    rfl

namespace InsertedAt

variable (hp : p.InsertedAt p' n k text)
include hp

/-- A line is found at its new place. -/
theorem indexOf?_eq {t : Nat} (ht : t ≠ n) : p'.indexOf? t = (p.indexOf? t).map (past k) := by
  apply Option.ext
  intro j
  rw [Option.map_eq_some_iff, indexOf?_eq_some_iff_line?]
  constructor
  · rintro ⟨st, hst⟩
    rcases Nat.lt_trichotomy j k with hlt | rfl | hgt
    · refine ⟨j, indexOf?_eq_some_iff_line?.mpr ⟨st, ?_⟩, past_of_lt hlt⟩
      rw [← hp.line?_past, past_of_lt hlt, hst]
    · rw [hp.line?_at] at hst
      exact absurd (congrArg Entry.number (Option.some.inj hst)).symm ht
    · obtain ⟨i, rfl⟩ : ∃ i, j = i + 1 := ⟨j - 1, by omega⟩
      have hle : k ≤ i := by omega
      refine ⟨i, indexOf?_eq_some_iff_line?.mpr ⟨st, ?_⟩, past_of_le hle⟩
      rw [← hp.line?_past, past_of_le hle, hst]
  · rintro ⟨i, hi, rfl⟩
    obtain ⟨st, hst⟩ := indexOf?_eq_some_iff_line?.mp hi
    exact ⟨st, (hp.line?_past i).trans hst⟩

end InsertedAt

/-! ## Runs beside one another -/

/-- A line has this place in the program with the remark, or the remark stands there before it. -/
def SamePlace (k i i' : Nat) : Prop :=
  i' = past k i ∨ i = k ∧ i' = k

theorem samePlace_succ (k i : Nat) : SamePlace k (i + 1) (past k i + 1) := by
  unfold SamePlace past
  split <;> split <;> omega

theorem samePlace_zero (k : Nat) : SamePlace k 0 0 := by
  unfold SamePlace past
  split <;> omega

theorem InsertedAt.samePlace_loopEntry (hp : p.InsertedAt p' n k text) (i : Nat) :
    SamePlace k (p.loopEntry i) (p'.loopEntry (past k i)) := by
  unfold loopEntry
  rw [hp.line?_past]
  split
  · exact samePlace_succ k i
  · exact .inl rfl

/-- Two runs stand at the same place, where no open loop comes from the line `n`, or have come to
the same end. -/
inductive Beside (n k : Nat) : Progress κ → Progress κ → Prop
  | running {r r' : Run κ}
      (hm : r.machine.Agrees (Environment.Matches id {t | t ≠ n} Eq) r'.machine)
      (hplace : SamePlace k r.index r'.index) (hrest : r.machine.environment.IsResting)
      (hrest' : r'.machine.environment.IsResting) : Beside n k (.running r) (.running r')
  | halted {r r' : Run κ} {result : Except Error Unit}
      (hm : r.machine.Agrees (Environment.Matches id {t | t ≠ n} Eq) r'.machine) :
      Beside n k (.halted result r) (.halted result r')

/-- After a statement that is no remark the runs are beside one another again. -/
theorem InsertedAt.beside_follow (hp : p.InsertedAt p' n k text) {m m' : Machine κ}
    (hm : m.Agrees (Environment.Corresponds id {t | t ≠ n} Eq) m')
    (number index steps steps' : Nat) :
    Beside n k (p.follow number ⟨m, index, steps⟩)
      (p'.follow number ⟨m', past k index, steps'⟩) := by
  have hindex := hp.indexOf?_eq hm.environment.counter_mem
  refine follow_related hm hindex (samePlace_succ k index) (fun _ =>
    .inl rfl) hp.samePlace_loopEntry ?_ ?_
  · intro l l' i i' hl hrest hrest' hplace
    exact .running hl hplace hrest hrest'
  · intro l l' result result' hl hresult
    obtain rfl := hresult.eq_of_id
    exact .halted hl

variable [Console κ] {r r' : Run κ}

/-- Nothing in a program has to do with the line `n`. -/
def Avoids (p : Program) (n : Nat) : Prop :=
  ∀ i line, p.line? i = some line → line.number ≠ n ∧ ∀ t ∈ line.item.mentioned, t ≠ n

namespace InsertedAt

variable (hp : p.InsertedAt p' n k text)
include hp

/-- The second run steps over the remark, and then stands at the line behind it. -/
theorem step_remark (hm : r.machine.Agrees (Environment.Matches id {t | t ≠ n} Eq) r'.machine)
    (hindex : r.index = k) (hindex' : r'.index = k) (hrest : r.machine.environment.IsResting)
    (hrest' : r'.machine.environment.IsResting) :
    ∃ s', p'.step .plain r' = .running s' ∧ s'.index = past k r.index ∧
      Beside n k (.running r) (.running s') := by
  obtain ⟨⟨⟨store, counter, frames, seed, generator, transfer, ended⟩, console, interrupt⟩, index,
      steps⟩ := r'
  obtain ⟨rfl, rfl⟩ := hrest'
  obtain rfl : index = k := hindex'
  have hplace : index + 1 = past index r.index := by rw [hindex, past_of_le (Nat.le_refl _)]
  refine ⟨⟨⟨⟨store, n, frames, seed, generator, .none, false⟩, console, interrupt⟩, index + 1,
    steps + 1⟩, ?_, hplace, ?_⟩
  · rw [step_plain hp.line?_at]
    rfl
  · refine .running ?_ (.inl hplace) hrest ⟨rfl, rfl⟩
    have henv := hm.environment
    exact ⟨⟨henv.store, henv.frames, henv.lines_mem, henv.generator⟩, hm.console, hm.interrupt⟩

/-- Both runs take the step at a line. -/
theorem beside_step (havoids : p.Avoids n)
    (hm : r.machine.Agrees (Environment.Matches id {t | t ≠ n} Eq) r'.machine)
    (hindex : r'.index = past k r.index) (hrest : r.machine.environment.IsResting)
    (hrest' : r'.machine.environment.IsResting) :
    Beside n k (p.step .plain r) (p'.step .plain r') := by
  have hline' : p'.line? r'.index = p.line? r.index := by rw [hindex, hp.line?_past]
  cases hline : p.line? r.index with
  | none =>
    rw [step_of_none hline, step_of_none (hline'.trans hline)]
    exact .halted hm
  | some line =>
    obtain ⟨hnumber, hmentioned⟩ := havoids _ _ hline
    have hentering := entering_agrees hm hrest hrest' hnumber
    have hexecuted :=
      Statement.execute_alike hmentioned (fun e _ store => .refl (e.evaluate store)) _ _ hentering
    rw [line.renumber_id, Statement.renumber_id] at hexecuted
    rw [step_plain hline, step_plain (hline'.trans hline), hindex]
    generalize line.item.execute (r.entering line) = u at hexecuted ⊢
    generalize line.item.execute (r'.entering line) = u' at hexecuted ⊢
    obtain ⟨result, m⟩ := u
    obtain ⟨result', m'⟩ := u'
    obtain ⟨rfl, hm'⟩ := hexecuted
    cases result with
    | error e => exact .halted ⟨hm'.environment.toMatches, hm'.console, hm'.interrupt⟩
    | ok _ => exact hp.beside_follow hm' _ _ _ _

/-- The second run gets over the remark if it stands there, and to the line at which the first one
stands. -/
theorem exists_reaches_past (hbeside : Beside n k (.running r) (.running r')) :
    ∃ few s', p'.Reaches .plain few r' s' ∧ s'.index = past k r.index ∧
      Beside n k (.running r) (.running s') := by
  cases hbeside with
  | running hm hplace hrest hrest' =>
    rcases hplace with hindex | ⟨hindex, hindex'⟩
    · exact ⟨0, r', .refl r', hindex, .running hm (.inl hindex) hrest hrest'⟩
    · obtain ⟨s', hstep, hindex, hbeside⟩ := hp.step_remark hm hindex hindex' hrest hrest'
      exact ⟨1, s', .of_step hstep, hindex, hbeside⟩

/-- The step of the first run, and the steps of the second one by which it gets as far. -/
theorem exists_steps (havoids : p.Avoids n) (hbeside : Beside n k (.running r) (.running r')) :
    ∃ few s', p'.Reaches .plain few r' s' ∧
      Beside n k (p.step .plain r) (p'.step .plain s') := by
  obtain ⟨few, s', hreach, hindex, hbeside⟩ := hp.exists_reaches_past hbeside
  cases hbeside with
  | running hm _ hrest hrest' =>
    exact ⟨few, s', hreach, hp.beside_step havoids hm hindex hrest hrest'⟩

/-- If the first run comes to its end, so does the one beside it. -/
theorem exists_haltsWith (havoids : p.Avoids n) {count : Nat} {result : Except Error Unit}
    {s : Run κ} (h : p.HaltsIn .plain count r result s)
    (hbeside : Beside n k (.running r) (.running r')) :
    ∃ s', p'.HaltsWith .plain r' result s' ∧
      s.machine.Agrees (Environment.Matches id {t | t ≠ n} Eq) s'.machine := by
  induction count generalizing r r' with
  | zero => cases h
  | succ count ih =>
    obtain ⟨few, t', hreach, hstep⟩ := hp.exists_steps havoids hbeside
    unfold HaltsIn at h
    rw [advance_succ_running] at h
    generalize hq : p.step .plain r = progress at h hstep
    generalize hq' : p'.step .plain t' = progress' at hstep
    cases hstep with
    | halted hm =>
      rw [advance_halted] at h
      obtain ⟨rfl, rfl⟩ := Progress.halted.inj h
      exact ⟨_, ⟨few + 1, hreach.haltsIn_iff.mpr (.of_step hq')⟩, hm⟩
    | running hm hplace hrest hrest' =>
      obtain ⟨s', ⟨more, hmore⟩, hs'⟩ := ih h (.running hm hplace hrest hrest')
      exact ⟨s', ⟨_, (hreach.trans (.of_step hq')).haltsIn_iff.mpr hmore⟩, hs'⟩

/-- If the second run comes to its end, so does the first one. The induction is on the steps of the
second run, which may have one more to take before the first one takes its own. -/
theorem exists_haltsWith_of_inserted (havoids : p.Avoids n) {count : Nat}
    {result : Except Error Unit} {s' : Run κ} (h : p'.HaltsIn .plain count r' result s')
    (hbeside : Beside n k (.running r) (.running r')) : ∃ s, p.HaltsWith .plain r result s := by
  induction count using Nat.strong_induction_on generalizing r r' with
  | _ count ih =>
    obtain ⟨few, t', hreach, hstep⟩ := hp.exists_steps havoids hbeside
    obtain ⟨left, rfl, hleft⟩ := hreach.exists_haltsIn h
    generalize hq : p.step .plain r = progress at hstep
    generalize hq' : p'.step .plain t' = progress' at hstep
    cases hstep with
    | halted hm =>
      obtain ⟨rfl, -⟩ := hleft.unique (.of_step hq')
      exact ⟨_, 1, .of_step hq⟩
    | running hm hplace hrest hrest' =>
      obtain ⟨fewer, hfewer, hend⟩ := hleft.tail hq'
      obtain ⟨s, more, hs⟩ := ih fewer (by omega) hend (.running hm hplace hrest hrest')
      exact ⟨s, _, (Reaches.of_step hq).haltsIn_iff.mpr hs⟩

end InsertedAt

theorem avoids_of_wellFormed (hp : p.WellFormed) (hn : n ∉ p.lineNumbers)
    (htargets : ∀ number st, p.get? number = some st → n ∉ st.targets) : p.Avoids n := by
  intro i line hline
  have hget := get?_of_line? hline
  have hnumber : line.number ≠ n := by
    intro heq
    exact hn (mem_lineNumbers_iff.mpr ⟨line.item, heq ▸ hget⟩)
  refine ⟨hnumber, ?_⟩
  rintro t ht rfl
  rcases (hp _ _ hget).mem_mentioned ht with heq | ht
  · exact hnumber heq.symm
  · exact htargets _ _ hget ht

/-- Remarks do nothing. A remark can be put into a program that was read from source text on any
line that it does not have and to which it does not go. Run from the same fresh environment, without
a limit, a trace or breaks, the program with the remark comes to its end if and only if the one
without it does, with the same result, and then both leave the same console, variables, generator
and open loops. -/
theorem haltsWith_insert_remark {source : String} (hsource : ofSource source = .ok p)
    (hn : isLineNumber n = true) (hline : n ∉ p.lineNumbers)
    (htargets : ∀ number st, p.get? number = some st → n ∉ st.targets) (text : String)
    (seed : UInt64) (console : κ) (interrupt : Bool) :
    ∃ p', insert n (.remark text) p = (.ok (), p') ∧
      (∀ result, (∃ s, p.HaltsWith .plain (start (.ofSeed seed) console interrupt) result s) ↔
        ∃ s', p'.HaltsWith .plain (start (.ofSeed seed) console interrupt) result s') ∧
      ∀ result result' s s', p.HaltsWith .plain (start (.ofSeed seed) console interrupt) result s →
        p'.HaltsWith .plain (start (.ofSeed seed) console interrupt) result' s' →
        result' = result ∧ s.machine.Agrees (Environment.SameBut Eq) s'.machine := by
  have havoids := avoids_of_wellFormed (wellFormed_of_ofSource hsource) hline htargets
  obtain ⟨k, hp⟩ := exists_insertedAt hline text
  have hbeside : Beside n k (.running (start (.ofSeed seed) console interrupt))
      (.running (start (.ofSeed seed) console interrupt)) := by
    have hsame : (Environment.ofSeed seed).begin.SameBut Eq (Environment.ofSeed seed).begin :=
      ⟨rfl, rfl, rfl⟩
    have hmatches : (Environment.ofSeed seed).begin.Matches id {t | t ≠ n} Eq
        (Environment.ofSeed seed).begin :=
      hsame.matches fun frame hframe => absurd hframe (Array.not_mem_empty frame)
    exact .running ⟨hmatches, rfl, rfl⟩ (samePlace_zero k) ⟨rfl, rfl⟩ ⟨rfl, rfl⟩
  refine ⟨_, insert_of_not_mem hn hline, fun result => ⟨?_, ?_⟩, ?_⟩
  · rintro ⟨s, count, h⟩
    obtain ⟨s', hs', -⟩ := hp.exists_haltsWith havoids h hbeside
    exact ⟨s', hs'⟩
  · rintro ⟨s', count, h⟩
    exact hp.exists_haltsWith_of_inserted havoids h hbeside
  · rintro result result' s s' ⟨count, h⟩ h'
    obtain ⟨s₁, hs₁, hm⟩ := hp.exists_haltsWith havoids h hbeside
    obtain ⟨rfl, rfl⟩ := h'.unique hs₁
    exact ⟨rfl, hm.environment.sameBut, hm.console, hm.interrupt⟩

/-- A program that jumps over a line and ends. -/
def jumpsOver : Program :=
  ofLines (((Numbered.empty.put 10 (.goto 30)).put 20 (.next none)).put 30 .stop)

theorem targets_jumpsOver {number : Nat} {st : Statement} (h : jumpsOver.get? number = some st) :
    5 ∉ st.targets := by
  have htargets : ∀ e ∈ jumpsOver.lines.entries.toList, 5 ∉ e.item.targets := by
    rw [jumpsOver, lines_ofLines]
    decide +kernel
  exact htargets _ (Array.mem_toList_iff.mpr (mem_lines_iff.mpr h))

theorem exists_haltsWith_jumpsOver :
    ∃ s, jumpsOver.HaltsWith .plain (start (.ofSeed 7) ({} : Transcript) false) (.ok ()) s := by
  refine ⟨⟨⟨{ Environment.ofSeed 7 with counter := 30, ended := true }, {}, false⟩, 2, 2⟩, 2, ?_⟩
  unfold HaltsIn
  with_unfolding_all rfl

theorem haltsWith_insert_remark_jumpsOver :
    ofSource "10 GOTO 30\n20 NEXT\n30 END" = .ok jumpsOver ∧
      ∃ p' s s', insert 5 (.remark "jumps over a line") jumpsOver = (.ok (), p') ∧
        jumpsOver.HaltsWith .plain (start (.ofSeed 7) ({} : Transcript) false) (.ok ()) s ∧
        p'.HaltsWith .plain (start (.ofSeed 7) ({} : Transcript) false) (.ok ()) s' ∧
        s.machine.Agrees (Environment.SameBut Eq) s'.machine := by
  have hsource : ofSource "10 GOTO 30\n20 NEXT\n30 END" = .ok jumpsOver := by with_unfolding_all rfl
  have hline : 5 ∉ jumpsOver.lineNumbers := by
    have hnumbers : jumpsOver.lineNumbers = [10, 20, 30] := rfl
    simp [hnumbers]
  obtain ⟨p', hinsert, hhalts, hsame⟩ := haltsWith_insert_remark hsource (by decide) hline
    (fun _ _ => targets_jumpsOver) "jumps over a line" 7 ({} : Transcript) false
  obtain ⟨s, hs⟩ := exists_haltsWith_jumpsOver
  obtain ⟨s', hs'⟩ := (hhalts _).mp ⟨s, hs⟩
  exact ⟨hsource, p', s, s', hinsert, hs, hs', (hsame _ _ s s' hs hs').2⟩

end Program

end LineBasic
