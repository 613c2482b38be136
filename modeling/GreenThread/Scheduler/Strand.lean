import GreenThread.Library.System
import Mathlib.Data.Int.Basic
import Mathlib.Data.List.Basic
import Mathlib.Logic.Function.Basic

/-!
# Strands and activations

How `thread_object.cpp` runs the bodies of the threads. Every thread is placed on a strand of its
scheduler, and a worker that runs a handler of a strand holds the strand. `activate_thread` makes
the thread `READY` whatever it was and resumes its coroutine, which runs up to its next push of a
state.

`resume` posts that handler. So does `activate`, except inside the body of a green thread of the
same scheduler, where it dispatches: the handler is run at once, inside the calling body, when the
worker holds the strand already, and it may be run at once when the strand is free and nothing is
queued on it. The bodies that a worker has entered form a stack. When a handler leaves, `one_step`
has set the thread-local pointer to the current thread to null, whatever it was before.

A thread that has stopped posts `on_thread_exit` to its strand.
-/

namespace GreenThread

namespace Scheduler

/-- `state_` -/
inductive Status
  | ready
  | running
  | blocked
  | stopped
  deriving DecidableEq, Repr

/-- A handler posted to a strand. -/
inductive Handler (τ : Type)
  | activateThread (t : τ)
  | onThreadExit (t : τ)
  deriving DecidableEq, Repr

/-- Why a run has ended: an assertion has failed, or a coroutine was resumed while it ran or after
its end. -/
inductive Fault
  | assertion
  | reentered
  | finished
  deriving DecidableEq, Repr

/-- Where the threads are placed. -/
structure Placement (τ ς δ : Type) where
  /-- `thread_strand_` -/
  strand : τ → ς
  /-- `sched_` -/
  sched : τ → δ

variable {τ ς δ ω : Type} [DecidableEq τ] [DecidableEq ς] [DecidableEq δ] [DecidableEq ω]

structure State (τ ς ω : Type) where
  /-- nothing before `make_thread` -/
  status : τ → Option Status
  queue : ς → List (Handler τ)
  /-- the worker that runs a handler of the strand -/
  holder : ς → Option ω
  /-- the bodies a worker has entered, the innermost first -/
  stack : ω → List τ
  /-- `get_current_thread_object()` -/
  current : ω → Option τ
  /-- `thread_count_` -/
  threadCount : Int
  fault : Option Fault

namespace State

variable (P : Placement τ ς δ) (s : State τ ς ω)

def fail (f : Fault) : State τ ς ω := { s with fault := some f }

def post (x : ς) (k : Handler τ) : State τ ς ω :=
  { s with queue := Function.update s.queue x (s.queue x ++ [k]) }

def resume (t : τ) : State τ ς ω := s.post (P.strand t) (.activateThread t)

def hold (x : ς) (w : ω) : State τ ς ω := { s with holder := Function.update s.holder x (some w) }

/-- The body of `t` is entered. -/
def enter (w : ω) (t : τ) : State τ ς ω :=
  { s with
    status := Function.update s.status t (some .running)
    stack := Function.update s.stack w (t :: s.stack w)
    current := Function.update s.current w (some t) }

/-- The body of `t` pushes a state, with the bodies `below` still entered on the worker. The strand
becomes free unless one of them has been entered by a handler of it. -/
def leave (w : ω) (t : τ) (below : List τ) (p : Status) : State τ ς ω :=
  { s with
    status := Function.update s.status t (some p)
    holder := if P.strand t ∈ below.map P.strand then s.holder
      else Function.update s.holder (P.strand t) none
    stack := Function.update s.stack w below
    current := Function.update s.current w none }

end State

variable (P : Placement τ ς δ)

/-- `activate_thread` -/
def activateThread (s : State τ ς ω) (w : ω) (t : τ) : State τ ς ω :=
  if s.current w = some t then s.fail .assertion
  else match s.status t with
    | some .running => s.fail .reentered
    | some .stopped => s.fail .finished
    | _ => s.enter w t

/-- `strand::dispatch`. `now` tells whether a free strand runs the handler at once. -/
def dispatch (s : State τ ς ω) (w : ω) (t : τ) (now : Bool) : State τ ς ω :=
  if s.holder (P.strand t) = some w then activateThread s w t
  else if now ∧ s.holder (P.strand t) = none ∧ s.queue (P.strand t) = []
    then activateThread (s.hold (P.strand t) w) w t
  else s.resume P t

/-- `activate` is called inside a thread of the same scheduler. -/
def dispatches (s : State τ ς ω) (w : ω) (t : τ) : Bool :=
  match s.current w with
  | some c => P.sched c = P.sched t
  | none => false

/-- `thread_object::activate`, called on the worker `w`. -/
def activate (s : State τ ς ω) (w : ω) (t : τ) (now : Bool) : State τ ς ω :=
  if dispatches P s w t then dispatch P s w t now else s.resume P t

/-- `scheduler_object::make_thread` -/
def makeThread (s : State τ ς ω) (t : τ) : State τ ς ω :=
  { s with
    status := Function.update s.status t (some .ready)
    threadCount := s.threadCount + 1 }.resume P t

/-- A worker that is in no handler takes the first one of a free strand. -/
def runStep (s : State τ ς ω) (w : ω) (x : ς) : Option (State τ ς ω) :=
  if s.stack w = [] ∧ s.holder x = none then
    match s.queue x with
    | .activateThread t :: rest =>
      some (activateThread ({ s with queue := Function.update s.queue x rest }.hold x w) w t)
    | .onThreadExit _ :: rest =>
      some { s with queue := Function.update s.queue x rest, threadCount := s.threadCount - 1 }
    | [] => none
  else none

/-- `yield`, when it switches. `one_step` posts the activation of a thread that has left with
`READY`. -/
def yieldStep (s : State τ ς ω) (w : ω) : Option (State τ ς ω) :=
  match s.stack w with
  | t :: below =>
    some (if s.current w = some t ∧ s.status t = some .running
      then (s.leave P w t below .ready).resume P t
    else s.fail .assertion)
  | [] => none

def pauseStep (s : State τ ς ω) (w : ω) : Option (State τ ς ω) :=
  match s.stack w with
  | t :: below => some (if s.current w = some t then s.leave P w t below .blocked
      else s.fail .assertion)
  | [] => none

/-- The function of a thread returns. -/
def finishStep (s : State τ ς ω) (w : ω) : Option (State τ ς ω) :=
  match s.stack w with
  | t :: below => some ((s.leave P w t below .stopped).post (P.strand t) (.onThreadExit t))
  | [] => none

inductive Label (τ ς ω : Type)
  | makeThread (t : τ)
  /-- the running thread `t` makes itself known to a party that will resume it -/
  | register (t : τ)
  | resume (t : τ)
  | activate (w : ω) (t : τ) (now : Bool)
  | run (w : ω) (x : ς)
  | yield (w : ω)
  | pause (w : ω)
  | finish (w : ω)
  deriving DecidableEq, Repr

def step (s : State τ ς ω) (l : Label τ ς ω) : Option (State τ ς ω) :=
  if s.fault.isSome then none else
  match l with
  | .makeThread t => if s.status t = none then some (makeThread P s t) else none
  | .register t => if s.status t = some .running then some s else none
  | .resume t => if s.status t = none then none else some (s.resume P t)
  | .activate w t now => if s.status t = none then none else some (activate P s w t now)
  | .run w x => runStep s w x
  | .yield w => yieldStep P s w
  | .pause w => pauseStep P s w
  | .finish w => finishStep P s w

def initial : State τ ς ω where
  status := fun _ => none
  queue := fun _ => []
  holder := fun _ => none
  stack := fun _ => []
  current := fun _ => none
  threadCount := 0
  fault := none

def system : TransitionSystem (State τ ς ω) (Label τ ς ω) where
  init := fun s => s = initial
  step := step P

variable {P} {s s' : State τ ς ω} {l : Label τ ς ω}

/-! ### What one step can do -/

inductive Move (P : Placement τ ς δ) (s : State τ ς ω) : Label τ ς ω → State τ ς ω → Prop
  | makes {t} (hnew : s.status t = none) : Move P s (.makeThread t) (makeThread P s t)
  | registers {t} (hrunning : s.status t = some .running) : Move P s (.register t) s
  | resumes {t} (hborn : s.status t ≠ none) : Move P s (.resume t) (s.resume P t)
  | posts {w t now} (hborn : s.status t ≠ none) : Move P s (.activate w t now) (s.resume P t)
  | inside {w t now} (hborn : s.status t ≠ none) (hdispatches : dispatches P s w t = true)
      (hheld : s.holder (P.strand t) = some w) : Move P s (.activate w t now) (activateThread s w t)
  | acquires {w t} (hborn : s.status t ≠ none) (hdispatches : dispatches P s w t = true)
      (hfree : s.holder (P.strand t) = none) (hempty : s.queue (P.strand t) = []) :
      Move P s (.activate w t true) (activateThread (s.hold (P.strand t) w) w t)
  | runs {w x t rest} (hidle : s.stack w = []) (hfree : s.holder x = none)
      (hqueue : s.queue x = .activateThread t :: rest) :
      Move P s (.run w x)
      (activateThread ({ s with queue := Function.update s.queue x rest }.hold x w) w t)
  | exits {w x t rest} (hidle : s.stack w = []) (hfree : s.holder x = none)
      (hqueue : s.queue x = .onThreadExit t :: rest) :
      Move P s (.run w x) { s with
        queue := Function.update s.queue x rest, threadCount := s.threadCount - 1 }
  | yields {w t below} (hstack : s.stack w = t :: below) (hcurrent : s.current w = some t)
      (hrunning : s.status t = some .running) :
      Move P s (.yield w) ((s.leave P w t below .ready).resume P t)
  | pauses {w t below} (hstack : s.stack w = t :: below) (hcurrent : s.current w = some t) :
      Move P s (.pause w) (s.leave P w t below .blocked)
  | finishes {w t below} (hstack : s.stack w = t :: below) :
      Move P s (.finish w) ((s.leave P w t below .stopped).post (P.strand t) (.onThreadExit t))
  | asserts {l w t below} (hl : l = .yield w ∨ l = .pause w) (hstack : s.stack w = t :: below)
      (hnot : ¬ (s.current w = some t ∧ s.status t = some .running)) :
      Move P s l (s.fail .assertion)

theorem activate_move {w : ω} {t : τ} {now : Bool} (hborn : s.status t ≠ none) :
    Move P s (.activate w t now) (activate P s w t now) := by
  unfold activate
  split
  case isFalse => exact .posts hborn
  case isTrue hdispatches =>
    unfold dispatch
    split
    case isTrue hheld => exact .inside hborn hdispatches hheld
    case isFalse =>
      split
      case isTrue hnow =>
        obtain ⟨rfl, hfree, hempty⟩ := hnow
        exact .acquires hborn hdispatches hfree hempty
      case isFalse => exact .posts hborn

theorem run_move {w : ω} {x : ς} (hstep : runStep s w x = some s') : Move P s (.run w x) s' := by
  unfold runStep at hstep
  rw [Option.ite_none_right_eq_some] at hstep
  obtain ⟨⟨hidle, hfree⟩, hstep⟩ := hstep
  split at hstep
  · rename_i t rest hqueue
    cases hstep
    exact .runs hidle hfree hqueue
  · rename_i t rest hqueue
    cases hstep
    exact .exits hidle hfree hqueue
  · cases hstep

theorem step_move (hstep : step P s l = some s') : s.fault = none ∧ Move P s l s' := by
  unfold step at hstep
  rw [Option.ite_none_left_eq_some] at hstep
  obtain ⟨hfault, hstep⟩ := hstep
  refine ⟨by simpa using hfault, ?_⟩
  cases l with
  | makeThread t =>
    simp only [Option.ite_none_right_eq_some, Option.some.injEq] at hstep
    obtain ⟨hnew, rfl⟩ := hstep
    exact .makes hnew
  | register t =>
    simp only [Option.ite_none_right_eq_some, Option.some.injEq] at hstep
    obtain ⟨hrunning, rfl⟩ := hstep
    exact .registers hrunning
  | resume t =>
    simp only [Option.ite_none_left_eq_some, Option.some.injEq] at hstep
    obtain ⟨hborn, rfl⟩ := hstep
    exact .resumes hborn
  | activate w t now =>
    simp only [Option.ite_none_left_eq_some, Option.some.injEq] at hstep
    obtain ⟨hborn, rfl⟩ := hstep
    exact activate_move hborn
  | run w x => exact run_move hstep
  | yield w =>
    simp only [yieldStep] at hstep
    split at hstep
    · rename_i t below hstack
      by_cases hassert : s.current w = some t ∧ s.status t = some .running
      · rw [if_pos hassert] at hstep
        cases hstep
        exact .yields hstack hassert.1 hassert.2
      · rw [if_neg hassert] at hstep
        cases hstep
        exact .asserts (.inl rfl) hstack hassert
    · cases hstep
  | pause w =>
    simp only [pauseStep] at hstep
    split at hstep
    · rename_i t below hstack
      by_cases hcurrent : s.current w = some t
      · rw [if_pos hcurrent] at hstep
        cases hstep
        exact .pauses hstack hcurrent
      · rw [if_neg hcurrent] at hstep
        cases hstep
        exact .asserts (.inr rfl) hstack fun hassert => hcurrent hassert.1
    · cases hstep
  | finish w =>
    simp only [finishStep] at hstep
    split at hstep
    · rename_i t below hstack
      cases hstep
      exact .finishes hstack
    · cases hstep

/-! ### The strands -/

/-- What holds of the strands and the bodies while no run has failed. -/
structure Inv (P : Placement τ ς δ) (s : State τ ς ω) : Prop where
  nodup : ∀ w, (s.stack w).Nodup
  held : ∀ w x, s.holder x = some w ↔ x ∈ (s.stack w).map P.strand
  running : ∀ t, s.status t = some .running ↔ ∃ w, t ∈ s.stack w
  current : ∀ w t, s.current w = some t → ∃ below, s.stack w = t :: below
  home : ∀ x t, .activateThread t ∈ s.queue x → x = P.strand t

omit [DecidableEq τ] [DecidableEq ς] [DecidableEq δ] [DecidableEq ω] in
/-- The strand of a thread that is entered is held by the worker that has entered it. -/
theorem Inv.holder (hinv : Inv P s) {w : ω} {t : τ} (hmem : t ∈ s.stack w) :
    s.holder (P.strand t) = some w :=
  (hinv.held w _).mpr (List.mem_map_of_mem hmem)

omit [DecidableEq τ] [DecidableEq ς] [DecidableEq δ] [DecidableEq ω] in
theorem Inv.once (hinv : Inv P s) {t : τ} {w w' : ω} (hw : t ∈ s.stack w)
    (hw' : t ∈ s.stack w') : w = w' :=
  Option.some.inj ((hinv.holder hw).symm.trans (hinv.holder hw'))

omit [DecidableEq τ] [DecidableEq δ] [DecidableEq ω] in
theorem Inv.post (hinv : Inv P s) {x : ς} {k : Handler τ}
    (hk : ∀ t, k = .activateThread t → x = P.strand t) :
    Inv P (s.post x k) where
  nodup := hinv.nodup
  held := hinv.held
  running := hinv.running
  current := hinv.current
  home := fun y t hmem => by
    by_cases hy : y = x
    · subst hy
      simp only [State.post, Function.update_self, List.mem_append, List.mem_singleton] at hmem
      rcases hmem with hmem | hmem
      · exact hinv.home y t hmem
      · exact hk t hmem.symm
    · simp only [State.post, Function.update_of_ne hy] at hmem
      exact hinv.home y t hmem

omit [DecidableEq τ] [DecidableEq δ] [DecidableEq ω] in
theorem Inv.resume (hinv : Inv P s) (t : τ) : Inv P (s.resume P t) :=
  hinv.post fun u hu => by rw [Handler.activateThread.inj hu]

omit [DecidableEq δ] in
theorem Inv.enter (hinv : Inv P s) {w : ω} {t : τ} (hstatus : s.status t ≠ some .running)
    (hholder : s.holder (P.strand t) = some w ∨ s.holder (P.strand t) = none) :
    Inv P ((s.hold (P.strand t) w).enter w t) where
  nodup := fun w' => by
    by_cases hw : w' = w
    · subst hw
      have hnot : t ∉ s.stack w' := fun hmem => hstatus ((hinv.running t).mpr ⟨w', hmem⟩)
      simp only [State.enter, State.hold, Function.update_self]
      exact List.nodup_cons.mpr ⟨hnot, hinv.nodup w'⟩
    · simpa [State.enter, State.hold, hw] using hinv.nodup w'
  held := fun w' x => by
    by_cases hx : x = P.strand t
    · subst hx
      by_cases hw : w' = w
      · subst hw
        simp [State.enter, State.hold]
      · have hnot : P.strand t ∉ (s.stack w').map P.strand := fun hmem => by
          have hheld := (hinv.held w' _).mpr hmem
          rcases hholder with hholder | hholder
          · exact hw (Option.some.inj (hheld.symm.trans hholder))
          · cases hheld.symm.trans hholder
        simpa [State.enter, State.hold, hw, Ne.symm hw] using hnot
    · have hsame := hinv.held w' x
      by_cases hw : w' = w
      · subst hw
        simpa [State.enter, State.hold, hx] using hsame
      · simpa [State.enter, State.hold, hx, hw] using hsame
  running := fun u => by
    by_cases hu : u = t
    · subst hu
      refine iff_of_true (by simp [State.enter, State.hold]) ⟨w, ?_⟩
      simp [State.enter, State.hold]
    · have hsame := hinv.running u
      simp only [State.enter, State.hold, Function.update_of_ne hu]
      rw [hsame]
      refine exists_congr fun w' => ?_
      by_cases hw : w' = w
      · subst hw
        simp [hu]
      · rw [Function.update_of_ne hw]
  current := fun w' u hcurrent => by
    by_cases hw : w' = w
    · subst hw
      simp only [State.enter, State.hold, Function.update_self, Option.some.injEq] at hcurrent ⊢
      exact ⟨_, by rw [hcurrent]⟩
    · simp only [State.enter, State.hold, Function.update_of_ne hw] at hcurrent ⊢
      exact hinv.current w' u hcurrent
  home := hinv.home

omit [DecidableEq δ] in
theorem Inv.leave (hinv : Inv P s) {w : ω} {t : τ} {below : List τ}
    (hstack : s.stack w = t :: below) {p : Status}
    (hp : p ≠ .running) : Inv P (s.leave P w t below p) := by
  have hmem : t ∈ s.stack w := by
    rw [hstack]
    exact List.mem_cons_self
  have hnodup := hinv.nodup w
  rw [hstack, List.nodup_cons] at hnodup
  have helse : ∀ w', w' ≠ w → P.strand t ∉ (s.stack w').map P.strand := fun w' hw hin =>
    hw (Option.some.inj (((hinv.held w' _).mpr hin).symm.trans (hinv.holder hmem)))
  constructor
  · intro w'
    by_cases hw : w' = w
    · subst hw
      simpa [State.leave] using hnodup.2
    · simpa [State.leave, hw] using hinv.nodup w'
  · intro w' x
    have hsame := hinv.held w' x
    by_cases hx : x = P.strand t
    · subst hx
      by_cases hbelow : P.strand t ∈ below.map P.strand
      · simp only [State.leave, if_pos hbelow]
        by_cases hw : w' = w
        · subst hw
          rw [Function.update_self]
          exact iff_of_true (hinv.holder hmem) hbelow
        · rwa [Function.update_of_ne hw]
      · simp only [State.leave, if_neg hbelow, Function.update_self]
        refine iff_of_false nofun ?_
        by_cases hw : w' = w
        · subst hw
          rwa [Function.update_self]
        · rw [Function.update_of_ne hw]
          exact helse w' hw
    · have hholder : (s.leave P w t below p).holder x = s.holder x := by
        simp only [State.leave]
        split
        · rfl
        · exact Function.update_of_ne hx _ _
      rw [hholder, hsame]
      by_cases hw : w' = w
      · subst hw
        simp [State.leave, hstack, hx]
      · simp [State.leave, hw]
  · intro u
    by_cases hu : u = t
    · subst hu
      refine iff_of_false (by simpa [State.leave] using hp) ?_
      rintro ⟨w', hin⟩
      by_cases hw : w' = w
      · subst hw
        simp only [State.leave, Function.update_self] at hin
        exact hnodup.1 hin
      · simp only [State.leave, Function.update_of_ne hw] at hin
        exact helse w' hw (List.mem_map_of_mem hin)
    · have hsame := hinv.running u
      simp only [State.leave, Function.update_of_ne hu]
      rw [hsame]
      refine exists_congr fun w' => ?_
      by_cases hw : w' = w
      · subst hw
        simp [hstack, hu]
      · rw [Function.update_of_ne hw]
  · intro w' u hcurrent
    by_cases hw : w' = w
    · subst hw
      simp [State.leave] at hcurrent
    · simp only [State.leave, Function.update_of_ne hw] at hcurrent ⊢
      exact hinv.current w' u hcurrent
  · exact hinv.home

omit [DecidableEq τ] [DecidableEq δ] [DecidableEq ω] in
theorem Inv.pop (hinv : Inv P s) {x : ς} {k : Handler τ} {rest : List (Handler τ)}
    (hqueue : s.queue x = k :: rest) :
    Inv P { s with queue := Function.update s.queue x rest } where
  nodup := hinv.nodup
  held := hinv.held
  running := hinv.running
  current := hinv.current
  home := fun y t hmem => by
    by_cases hy : y = x
    · subst hy
      simp only [Function.update_self] at hmem
      refine hinv.home y t ?_
      rw [hqueue]
      exact List.mem_cons_of_mem _ hmem
    · simp only [Function.update_of_ne hy] at hmem
      exact hinv.home y t hmem

section

omit [DecidableEq τ] [DecidableEq ς] [DecidableEq δ] [DecidableEq ω]

theorem initial_inv : Inv P (initial : State τ ς ω) where
  nodup := fun _ => List.nodup_nil
  held := fun _ _ => iff_of_false nofun List.not_mem_nil
  running := fun _ => iff_of_false nofun fun h => List.not_mem_nil h.choose_spec
  current := fun _ _ => nofun
  home := fun _ _ hmem => absurd hmem List.not_mem_nil

/-- The innermost thread of a worker runs. -/
theorem Inv.running_of_stack (hinv : Inv P s) {w : ω} {t : τ} {below : List τ}
    (hstack : s.stack w = t :: below) :
    s.status t = some .running := by
  refine (hinv.running t).mpr ⟨w, ?_⟩
  rw [hstack]
  exact List.mem_cons_self

theorem Inv.not_running_of_free (hinv : Inv P s) {t : τ} (hfree : s.holder (P.strand t) = none) :
    s.status t ≠ some .running := by
  intro hrunning
  obtain ⟨w, hmem⟩ := (hinv.running t).mp hrunning
  cases hfree.symm.trans (hinv.holder hmem)

theorem Inv.current_ne (hinv : Inv P s) {t : τ} (hrunning : s.status t ≠ some .running) (w : ω) :
    s.current w ≠ some t := by
  intro hcurrent
  obtain ⟨below, hstack⟩ := hinv.current w t hcurrent
  exact hrunning (hinv.running_of_stack hstack)

end

omit [DecidableEq ς] in
theorem activateThread_enters {w : ω} {t : τ} (hcurrent : s.current w ≠ some t)
    (hrunning : s.status t ≠ some .running)
    (hstopped : s.status t ≠ some .stopped) : activateThread s w t = s.enter w t := by
  unfold activateThread
  rw [if_neg hcurrent]
  split
  · rename_i heq
    exact absurd heq hrunning
  · rename_i heq
    exact absurd heq hstopped
  · rfl

omit [DecidableEq ς] in
theorem activateThread_cases (s : State τ ς ω) (w : ω) (t : τ) :
    (s.status t ≠ some .running ∧ s.status t ≠ some .stopped ∧ activateThread s w t = s.enter w t) ∨
      ∃ f, activateThread s w t = s.fail f := by
  unfold activateThread
  split
  · exact .inr ⟨_, rfl⟩
  · split
    · exact .inr ⟨_, rfl⟩
    · exact .inr ⟨_, rfl⟩
    · next hrunning hstopped => exact .inl ⟨hrunning, hstopped, rfl⟩

omit [DecidableEq δ] [DecidableEq ω] in
theorem Inv.makes (hinv : Inv P s) {t : τ} (hnew : s.status t = none) :
    Inv P (makeThread P s t) := by
  suffices hborn : Inv P { s with
    status := Function.update s.status t (some .ready), threadCount := s.threadCount + 1 } from
    hborn.resume t
  refine ⟨hinv.nodup, hinv.held, fun u => ?_, hinv.current, hinv.home⟩
  by_cases hu : u = t
  · subst hu
    have hout : ¬ ∃ w, u ∈ s.stack w := by
      rw [← hinv.running u, hnew]
      exact nofun
    exact iff_of_false (by simp) hout
  · rw [← hinv.running u]
    simp [hu]

/-! ### One step keeps the strands, unless it ends the run -/

omit [DecidableEq τ] [DecidableEq ς] [DecidableEq δ] [DecidableEq ω] in
theorem Inv.recount (h : Inv P s) (n : Int) :
    Inv P { s with threadCount := n } := ⟨h.nodup, h.held, h.running, h.current, h.home⟩

omit [DecidableEq δ] in
theorem Inv.takes (h : Inv P s) {w : ω} (hfree : s.holder (P.strand t) = none) :
    Inv P (activateThread (s.hold (P.strand t) w) w t) ∨
    ∃ f, activateThread (s.hold (P.strand t) w) w t = (s.hold (P.strand t) w).fail f := by
  rcases activateThread_cases (s.hold (P.strand t) w) w t with ⟨hrunning, -, heq⟩ | hfails
  · rw [heq]
    exact .inl (h.enter hrunning (.inr hfree))
  · exact .inr hfails

omit [DecidableEq τ] [DecidableEq ω] in
theorem hold_held {x : ς} {w : ω} (hheld : s.holder x = some w) : s.hold x w = s := by
  have hsame : Function.update s.holder x (some w) = s.holder := by
    rw [← hheld, Function.update_eq_self]
  rw [State.hold, hsame]

/-- What holds of the strands is kept until a run fails. -/
theorem Inv.move (h : Inv P s) (hmove : Move P s l s') : Inv P s' ∨ s'.fault ≠ none := by
  cases hmove with
  | makes hnew => exact .inl (h.makes hnew)
  | registers => exact .inl h
  | resumes => exact .inl (h.resume _)
  | posts => exact .inl (h.resume _)
  | @inside w t now hborn hdispatches hheld =>
    rcases activateThread_cases s w t with ⟨hrunning, -, heq⟩ | ⟨f, heq⟩
    · have henter := h.enter hrunning (.inl hheld)
      rw [hold_held hheld] at henter
      rw [heq]
      exact .inl henter
    · rw [heq]
      exact .inr nofun
  | acquires hborn hdispatches hfree hempty =>
    refine (h.takes hfree).imp_right fun ⟨f, heq⟩ => ?_
    rw [heq]
    exact nofun
  | @runs w x t rest hidle hfree hqueue =>
    obtain rfl := h.home x t (by rw [hqueue]; exact List.mem_cons_self)
    refine ((h.pop hqueue).takes hfree).imp_right fun ⟨f, heq⟩ => ?_
    rw [heq]
    exact nofun
  | exits hidle hfree hqueue => exact .inl ((h.pop hqueue).recount _)
  | yields hstack => exact .inl ((h.leave hstack (by decide)).resume _)
  | pauses hstack => exact .inl (h.leave hstack (by decide))
  | finishes hstack => exact .inl ((h.leave hstack (by decide)).post fun _ => nofun)
  | asserts => exact .inr nofun

end Scheduler

end GreenThread
