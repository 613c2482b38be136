import Mathlib.Data.Option.Basic

/-!
# Guarded transition systems

A system is a set of initial states and an executable step function: `step s l` is `some s'` when
the step `l` is enabled in `s`. A run is a path of enabled steps, and `Reach ok s` says that some
run whose steps all satisfy `ok` ends in `s`, so that a claim about every run and a claim about the
runs that keep to a condition are the same notion. History variables are added by `withHistory`:
they watch every step and never restrict one.
-/

structure TransitionSystem (S L : Type*) where
  init : S → Prop
  step : S → L → Option S

namespace TransitionSystem

variable {S L H : Type*} (sys : TransitionSystem S L)

/-- The states at the end of a run whose steps all satisfy `ok`. -/
inductive Reach (ok : S → L → Prop) : S → Prop
  | init {s : S} : sys.init s → Reach ok s
  | step {s s' : S} {l : L} : Reach ok s → ok s l → sys.step s l = some s' → Reach ok s'

/-- The states at the end of a run. -/
def Reachable (s : S) : Prop := sys.Reach (fun _ _ => True) s

/-- The run that takes the given steps from `s`, if they are all enabled and permitted. -/
def runIf (ok : S → L → Bool) (s : S) : List L → Option S
  | [] => some s
  | l :: ls => if ok s l then (sys.step s l).bind fun s' => runIf ok s' ls else none

/-- The run that takes the given steps from `s`, if they are all enabled. -/
def run (s : S) (ls : List L) : Option S := sys.runIf (fun _ _ => true) s ls

variable {sys} {ok ok' : S → L → Prop}

theorem Reach.mono (himp : ∀ s l, ok s l → ok' s l) {s : S} (h : sys.Reach ok s) :
    sys.Reach ok' s := by
  induction h with
  | init hs => exact .init hs
  | step _ hok hstep ih => exact .step ih (himp _ _ hok) hstep

theorem Reach.reachable {s : S} (h : sys.Reach ok s) : sys.Reachable s :=
  h.mono fun _ _ _ => trivial

/-- An invariant holds initially and is kept by every permitted step. The step may use that its
source is reached. -/
theorem Reach.invariant {I : S → Prop} (hinit : ∀ s, sys.init s → I s)
    (hstep : ∀ s l s', sys.Reach ok s → I s → ok s l → sys.step s l = some s' → I s')
    {s : S} (h : sys.Reach ok s) : I s := by
  induction h with
  | init hs => exact hinit _ hs
  | step hr hok hs ih => exact hstep _ _ _ hr ih hok hs

theorem Reach.runIf {p : S → L → Bool} {s s' : S} (h : sys.Reach (fun s l => p s l) s) {ls : List L}
    (hrun : sys.runIf p s ls = some s') : sys.Reach (fun s l => p s l) s' := by
  induction ls generalizing s with
  | nil =>
    cases hrun
    exact h
  | cons l ls ih =>
    simp only [TransitionSystem.runIf, Option.ite_none_right_eq_some] at hrun
    obtain ⟨hok, hrun⟩ := hrun
    obtain ⟨mid, hmid, hrest⟩ := Option.bind_eq_some_iff.mp hrun
    exact ih (h.step hok hmid) hrest

variable (sys) in
theorem reach_of_run (p : S → L → Bool) (s : S) (hs : sys.init s) (ls : List L) {s' : S}
    (hrun : sys.runIf p s ls = some s') : sys.Reach (fun s l => p s l) s' :=
  Reach.runIf (.init hs) hrun

theorem Reachable.run {s s' : S} (h : sys.Reachable s) {ls : List L}
    (hrun : sys.run s ls = some s') : sys.Reachable s' :=
  (Reach.runIf (p := fun _ _ => true) (h.mono fun _ _ _ => rfl) hrun).reachable

theorem Reach.run {P : L → Prop} {s s' : S} (h : sys.Reach (fun _ l => P l) s) {ls : List L}
    (hrun : sys.run s ls = some s') (hls : ∀ l ∈ ls, P l) : sys.Reach (fun _ l => P l) s' := by
  induction ls generalizing s with
  | nil =>
    cases hrun
    exact h
  | cons l ls ih =>
    simp only [TransitionSystem.run, TransitionSystem.runIf, if_true] at hrun
    obtain ⟨mid, hmid, hrest⟩ := Option.bind_eq_some_iff.mp hrun
    obtain ⟨hl, hls⟩ := List.forall_mem_cons.mp hls
    exact ih (h.step hl hmid) hrest hls

variable (sys) in
theorem run_append (s : S) (ls ls' : List L) :
    sys.run s (ls ++ ls') = (sys.run s ls).bind fun mid => sys.run mid ls' := by
  induction ls generalizing s with
  | nil => rfl
  | cons l ls ih =>
    simp only [TransitionSystem.run, runIf, if_true, List.cons_append] at ih ⊢
    rw [Option.bind_assoc]
    exact Option.bind_congr fun mid _ => ih mid

/-- A run of one system is a run of another one, in which some of its steps do nothing. -/
theorem Reach.project {S' L' : Type*} {sys' : TransitionSystem S' L'}
    {ok' : S' → L' → Prop} (π : S' → S) (hinit : ∀ s, sys'.init s → sys.init (π s))
    (hstep : ∀ s l s', sys'.Reach ok' s → ok' s l → sys'.step s l = some s' →
      π s' = π s ∨ ∃ l₀, ok (π s) l₀ ∧ sys.step (π s) l₀ = some (π s'))
    {s : S'} (h : sys'.Reach ok' s) : sys.Reach ok (π s) := by
  induction h with
  | init hs => exact .init (hinit _ hs)
  | step hr hok hs ih =>
    rcases hstep _ _ _ hr hok hs with hsame | ⟨l₀, hok₀, hs₀⟩
    · rwa [hsame]
    · exact ih.step hok₀ hs₀

/-! ### History variables -/

/-- The system with a history variable, updated from each step's two states and label. -/
def withHistory (sys : TransitionSystem S L) (start : H) (record : H → S → L → S → H) :
    TransitionSystem (S × H) L where
  init := fun sh => sys.init sh.1 ∧ sh.2 = start
  step := fun sh l => (sys.step sh.1 l).map fun s' => (s', record sh.2 sh.1 l s')

variable {start : H} {record : H → S → L → S → H}

theorem withHistory_step {s : S} {h : H} {l : L} {sh' : S × H} :
    (sys.withHistory start record).step (s, h) l = some sh' ↔
      ∃ s', sys.step s l = some s' ∧ sh' = (s', record h s l s') := by
  rw [withHistory, Option.map_eq_some_iff]
  exact exists_congr fun s' => and_congr_right fun _ => eq_comm

/-- Forgetting the history gives a run of the system itself. What its steps satisfy may depend on
what the run with the history has reached. -/
theorem Reach.forgetTo {ok : S × H → L → Prop} {ok' : S → L → Prop} {sh : S × H}
    (himp : ∀ sh l, (sys.withHistory start record).Reach ok sh → ok sh l → ok' sh.1 l)
    (h : (sys.withHistory start record).Reach ok sh) : sys.Reach ok' sh.1 := by
  refine h.project Prod.fst (fun _ => And.left) fun sh l sh' hr hok hstep =>
    .inr ⟨l, himp sh l hr hok, ?_⟩
  obtain ⟨s', hs', rfl⟩ := withHistory_step.mp hstep
  exact hs'

theorem Reach.forget {ok : S × H → L → Prop} {sh : S × H}
    (h : (sys.withHistory start record).Reach ok sh) : sys.Reachable sh.1 :=
  h.forgetTo fun _ _ _ _ => trivial

end TransitionSystem
