import LineBasic.Proofs.Run.Overflow
import LineBasic.Proofs.Token.Case
import Mathlib.Data.Finset.Card
import Mathlib.Data.List.Induction

/-!
# The variables of an environment

The variables are a map from names without regard to case, with room for `memoryLimit` of them. A
history goes along with accesses to the variables of a fresh environment and notes which names were
set, and to what. It tells all about the variables: what each of them reads as, how many there are,
and which settings fail (`Environment.variables_after`). The room can be used up
(`Environment.variables_after_full`).
-/

namespace LineBasic

theorem endsInDollar_toUpper (name : String) : endsInDollar name.toUpper = endsInDollar name := by
  have hdollar {c : Char} : c.toUpper = '$' ↔ c = '$' := toUpper_eq_iff (by decide)
  unfold endsInDollar
  rw [toList_toUpper, List.getLast?_map, Bool.eq_iff_iff, beq_iff_eq, beq_iff_eq,
    Option.map_eq_some_iff]
  constructor
  · rintro ⟨c, hc, hupper⟩
    rw [hc, hdollar.mp hupper]
  · intro h
    exact ⟨'$', h, hdollar.mpr rfl⟩

namespace Environment

variable {env : Environment} {name : String} {value : Value}

theorem set_of_accepts (haccepts : env.store.Accepts name.toUpper) :
    set name value env =
      (.ok (), { env with store := env.store.insert name.toUpper value haccepts }) :=
  assign_of_accepts (v := ⟨name⟩) haccepts

theorem set_of_not_accepts (haccepts : ¬ env.store.Accepts name.toUpper) :
    set name value env = (.error Store.tooManyVariables, env) := by
  unfold set Store.store
  dsimp only
  rw [dif_neg haccepts]

end Environment

/-- An access to a variable. -/
inductive Access where
  | get (name : String)
  | set (name : String) (value : Value)

/-- What has become of an environment, and which variables were set with success, the last one
first. -/
structure History where
  environment : Environment
  stored : List (String × Value)

namespace History

open Environment

/-- The history after one more access. A setting that fails is not noted. -/
def step (h : History) : Access → History
  | .get _ => h
  | .set name value =>
    match Environment.set name value h.environment with
    | (.ok (), env) => ⟨env, (name, value) :: h.stored⟩
    | (.error _, env) => ⟨env, h.stored⟩

/-- The history of accesses to a fresh environment. -/
def after (seed : UInt64) (accesses : List Access) : History :=
  accesses.foldl step ⟨.ofSeed seed, []⟩

/-- What a variable was last set to, in whatever case its name was written. -/
def last? (h : History) (name : String) : Option Value :=
  (h.stored.find? fun p => p.1.toUpper == name.toUpper).map Prod.snd

/-- The names that were set, in upper case. -/
def names (h : History) : Finset String :=
  (h.stored.map fun p => p.1.toUpper).toFinset

/-- The variables of an environment are those of its history. -/
structure Tracks (h : History) : Prop where
  cells : ∀ key, h.environment.store.cells[key]? =
    (h.stored.find? fun p => p.1.toUpper == key).map Prod.snd
  size : h.environment.store.size = h.names.card

theorem tracks_fresh (seed : UInt64) : Tracks ⟨.ofSeed seed, []⟩ where
  cells key := by simp [ofSeed, Store.empty]
  size := by simp [ofSeed, Store.empty, Store.size, names]

variable {h : History} {name : String} {value : Value}

theorem Tracks.mem_cells (ht : h.Tracks) (key : String) :
    key ∈ h.environment.store.cells ↔ key ∈ h.names := by
  rw [← Std.HashMap.isSome_getElem?_iff_mem, ht.cells, Option.isSome_map, List.find?_isSome]
  simp [names]

/-- A variable can be set unless it is new and there is no room. -/
theorem Tracks.accepts_iff (ht : h.Tracks) :
    h.environment.store.Accepts name.toUpper ↔
      ¬ (name.toUpper ∉ h.names ∧ h.environment.store.size = memoryLimit) := by
  have hle : h.environment.store.cells.size ≤ memoryLimit := h.environment.store.size_le
  rw [Store.Accepts, ht.mem_cells, Store.size, not_and_or, not_not, hle.lt_iff_ne]

theorem Tracks.get_eq (ht : h.Tracks) (name : String) :
    h.environment.get name =
      (h.last? name).getD (if endsInDollar name then .text "" else .number 0) := by
  rw [Environment.get, Store.fetch, Std.HashMap.getD_eq_getD_getElem?, ht.cells, Store.defaultValue,
    endsInDollar_toUpper]
  rfl

theorem step_of_accepts (haccepts : h.environment.store.Accepts name.toUpper) :
    h.step (.set name value) =
      ⟨{ h.environment with store := h.environment.store.insert name.toUpper value haccepts },
        (name, value) :: h.stored⟩ := by
  simp only [step, set_of_accepts haccepts]

theorem step_of_not_accepts (haccepts : ¬ h.environment.store.Accepts name.toUpper) :
    h.step (.set name value) = h := by
  simp only [step, set_of_not_accepts haccepts]

theorem Tracks.store (ht : h.Tracks) (haccepts : h.environment.store.Accepts name.toUpper) :
    (h.step (.set name value)).Tracks := by
  rw [step_of_accepts haccepts]
  constructor
  · intro key
    change (h.environment.store.cells.insert name.toUpper value)[key]? = _
    rw [Std.HashMap.getElem?_insert, List.find?_cons, ht.cells]
    cases name.toUpper == key <;> rfl
  · have hnames : names ⟨h.environment, (name, value) :: h.stored⟩ = insert name.toUpper h.names :=
      List.toFinset_cons
    change (h.environment.store.cells.insert name.toUpper value).size =
      (names ⟨h.environment, _⟩).card
    rw [Std.HashMap.size_insert, hnames, Finset.card_insert_eq_ite,
      if_congr (ht.mem_cells _) rfl rfl, ← ht.size]
    rfl

theorem Tracks.step (ht : h.Tracks) (access : Access) : (h.step access).Tracks := by
  cases access with
  | get name => exact ht
  | set name value =>
    by_cases haccepts : h.environment.store.Accepts name.toUpper
    · exact ht.store haccepts
    · rw [step_of_not_accepts haccepts]
      exact ht

theorem Tracks.foldl (ht : h.Tracks) (accesses : List Access) :
    (accesses.foldl History.step h).Tracks := by
  induction accesses generalizing h with
  | nil => exact ht
  | cons access accesses ih => exact ih (ht.step access)

theorem tracks_after (seed : UInt64) (accesses : List Access) : (after seed accesses).Tracks :=
  (tracks_fresh seed).foldl accesses

theorem after_concat (seed : UInt64) (accesses : List Access) (access : Access) :
    after seed (accesses ++ [access]) = (after seed accesses).step access := by
  rw [after, List.foldl_append]
  rfl

/-- Settings that there is room for are all noted. -/
theorem stored_after (seed : UInt64) {settings : List (String × Value)}
    (hroom : settings.length ≤ memoryLimit) :
    (after seed (settings.map fun p => .set p.1 p.2)).stored = settings.reverse := by
  induction settings using List.reverseRecOn with
  | nil => rfl
  | append_singleton settings p ih =>
    rw [List.length_append, List.length_singleton] at hroom
    have hstored := ih (by omega)
    have ht := tracks_after seed (settings.map fun p => .set p.1 p.2)
    -- There are no more names than settings, so there is room for one more, new or not.
    have hcard : (after seed (settings.map fun p => .set p.1 p.2)).names.card ≤
        settings.length := by
      refine (List.toFinset_card_le _).trans_eq ?_
      rw [List.length_map, hstored, List.length_reverse]
    have haccepts := ht.accepts_iff.mpr fun hfull : p.1.toUpper ∉ _ ∧ _ => by
      have hsize := ht.size
      omega
    rw [List.map_append, List.map_singleton, after_concat, step_of_accepts haccepts, hstored,
      List.reverse_append]
    rfl

end History

namespace Environment

/-- After any accesses to the variables of a fresh environment, a variable reads as what it was last
set to, or as its default. There are as many variables as names were set, and never more than there
is room for. Setting a variable fails if it is new and there is no room, and changes nothing
then. -/
theorem variables_after (seed : UInt64) (accesses : List Access) :
    let h := History.after seed accesses
    (∀ name, h.environment.get name =
      (h.last? name).getD (if endsInDollar name then .text "" else .number 0)) ∧
      h.environment.store.size = h.names.card ∧
      h.environment.store.size ≤ memoryLimit ∧
      ∀ name value,
        if name.toUpper ∉ h.names ∧ h.environment.store.size = memoryLimit then
          set name value h.environment = (.error Store.tooManyVariables, h.environment)
        else (set name value h.environment).1 = .ok () := by
  intro h
  have ht : h.Tracks := History.tracks_after seed accesses
  refine ⟨ht.get_eq, ht.size, h.environment.store.size_le, fun name value => ?_⟩
  split
  · rename_i hfull
    exact set_of_not_accepts fun haccepts => ht.accepts_iff.mp haccepts hfull
  · rename_i hroom
    rw [set_of_accepts (ht.accepts_iff.mpr hroom)]

/-- As many settings of different variables as there is room for. -/
def filling : List (String × Value) :=
  (List.range memoryLimit).map fun n => (String.ofList (List.replicate (n + 1) 'a'), .number 1)

theorem length_filling : filling.length = memoryLimit := by
  rw [filling, List.length_map, List.length_range]

theorem names_filling :
    filling.map (fun p => p.1.toUpper) =
      (List.range memoryLimit).map fun n => String.ofList (List.replicate (n + 1) 'A') := by
  rw [filling, List.map_map]
  refine List.map_congr_left fun n _ => ?_
  rw [Function.comp_apply, toUpper_ofList, List.map_replicate]
  rfl

theorem nodup_filling : (filling.map fun p => p.1.toUpper).Nodup := by
  rw [names_filling]
  refine List.Nodup.map (fun m n hmn => ?_) List.nodup_range
  have hlength := congrArg String.length hmn
  simpa using hlength

theorem mem_names_filling {h : History} (hstored : h.stored = filling.reverse) {name : String} :
    name ∈ h.names ↔ ∃ n < memoryLimit, String.ofList (List.replicate (n + 1) 'A') = name := by
  rw [History.names, hstored, List.map_reverse, List.toFinset_reverse, names_filling]
  simp

theorem card_names_filling {h : History} (hstored : h.stored = filling.reverse) :
    h.names.card = memoryLimit := by
  rw [History.names, hstored, List.map_reverse, List.toFinset_reverse,
    List.toFinset_card_of_nodup nodup_filling, List.length_map, length_filling]

/-- The room can be used up. Then no further variable can be set, but those that are there can. -/
theorem variables_after_full :
    ∃ h : History, h = .after 7 (filling.map fun p => .set p.1 p.2) ∧
      h.environment.store.size = memoryLimit ∧
      set "b" (.number 1) h.environment = (.error Store.tooManyVariables, h.environment) ∧
      (set "A" (.text "x") h.environment).1 = .ok () := by
  refine ⟨_, rfl, ?_⟩
  -- The history itself is too long to compute: from here on it is any one that noted the settings.
  have hafter := variables_after 7 (filling.map fun p => .set p.1 p.2)
  have hstored := History.stored_after 7 length_filling.le
  revert hafter hstored
  generalize History.after 7 (filling.map fun p => .set p.1 p.2) = h
  rintro ⟨-, hsize, -, hset⟩ hstored
  rw [card_names_filling hstored] at hsize
  refine ⟨hsize, ?_, ?_⟩
  · have hnew : "b".toUpper ∉ h.names := by
      rw [mem_names_filling hstored]
      rintro ⟨n, -, hn⟩
      have hlist := congrArg String.toList hn
      simp [List.replicate_succ, toList_toUpper] at hlist
    exact (if_pos ⟨hnew, hsize⟩).mp (hset "b" (.number 1))
  · have hold : "A".toUpper ∈ h.names :=
      (mem_names_filling hstored).mpr ⟨0, by decide, by decide +kernel⟩
    exact (if_neg fun hcontra => hcontra.1 hold).mp (hset "A" (.text "x"))

end Environment

end LineBasic
