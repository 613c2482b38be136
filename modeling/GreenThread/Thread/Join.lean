import GreenThread.Library.System
import Mathlib.Data.List.Count
import Mathlib.Logic.Function.Basic

/-!
# Joining a thread

Any number of threads join the thread `f` while its function ends. `f` stores an uncaught exception,
publishes `STOPPED` without its `mtx_`, takes the joiners out of `join_queue_` under it, and posts
an activation for each of them. A joiner tests the state and enqueues itself under `mtx_`, and
pauses after it has let go of it. Every access of a joiner to `state_`, `join_queue_` and
`uncaught_exception_` is a step of its own, as is every step of `f`.

An activation is a handler of the joiner's strand, which can run only when the joiner has left its
body.
-/

namespace GreenThread.Join

variable {τ E : Type*} [DecidableEq τ]

/-- Where a joiner is: in `join`, or in `join_and_rethrow` if `propagates`. -/
inductive Pos (E : Type*)
  /-- in no call, after one that threw `thrown` if it threw -/
  | idle (thrown : Option E)
  /-- before the lock of `f->mtx_` -/
  | lock (propagates : Bool)
  /-- before the test of `f->state_` -/
  | test (propagates : Bool)
  /-- before the push on `f->join_queue_` -/
  | push (propagates : Bool)
  /-- in the constructor of the `relock_guard` -/
  | unlock (propagates : Bool)
  /-- in `pause`, before the switch -/
  | pause (propagates : Bool)
  | paused (propagates : Bool)
  /-- resumed, in the destructor of the `relock_guard` -/
  | relock (propagates : Bool)
  /-- before `propagate_exception`, or the return of `join` -/
  | propagate (propagates : Bool)

/-- How far the last step of `f` is. -/
inductive Phase (τ : Type*)
  | running
  /-- the function has ended, `state_` is still `RUNNING` -/
  | ended
  /-- `state_` is `STOPPED` -/
  | stopped
  /-- the joiners in `temp` are to be activated -/
  | draining (temp : List τ)
  /-- `on_thread_exit` has been posted -/
  | exited

/-- `state_==STOPPED` -/
def Phase.isStopped : Phase τ → Bool
  | .running | .ended => false
  | .stopped | .draining _ | .exited => true

/-- The joiners that `one_step` has taken out of the queue and not activated yet. -/
def Phase.temp : Phase τ → List τ
  | .draining temp => temp
  | _ => []

structure State (τ E : Type*) where
  phase : Phase τ
  /-- `f->uncaught_exception_` -/
  uncaught : Option E
  /-- the joiner that holds `f->mtx_` -/
  mtx : Option τ
  /-- `f->join_queue_` -/
  joinQueue : List τ
  pos : τ → Pos E
  /-- the activations posted to a joiner's strand and not run -/
  posted : τ → Nat

namespace State

variable (s : State τ E)

def goto (t : τ) (p : Pos E) : State τ E := { s with pos := Function.update s.pos t p }

/-- The next step of a joiner's own code. -/
def advance (t : τ) : Option (State τ E) :=
  match s.pos t with
  | .idle _ => none
  | .lock p => if s.mtx = none then some (goto { s with mtx := some t } t (.test p)) else none
  | .test p => some (s.goto t (if s.phase.isStopped then .propagate p else .push p))
  | .push p => some (goto { s with joinQueue := s.joinQueue ++ [t] } t (.unlock p))
  | .unlock p => some (goto { s with mtx := none } t (.pause p))
  | .pause p => some (s.goto t (.paused p))
  | .paused _ => none
  | .relock p => if s.mtx = none then some (goto { s with mtx := some t } t (.propagate p))
      else none
  | .propagate p =>
    -- `join` returns; `join_and_rethrow` takes the exception, and rethrows it if there is one.
    if p then some (goto { s with mtx := none, uncaught := none } t (.idle s.uncaught))
    else some (goto { s with mtx := none } t (.idle none))

/-- The function of `f` ends, with an uncaught exception or without. -/
def finish (thrown : Option E) : Option (State τ E) :=
  match s.phase with
  | .running => some { s with phase := .ended, uncaught := thrown }
  | _ => none

/-- The next step of `f` after its function has ended. -/
def stop : Option (State τ E) :=
  match s.phase with
  | .running => none
  | .ended => some { s with phase := .stopped }
  | .stopped => if s.mtx = none then some { s with phase := .draining s.joinQueue, joinQueue := [] }
      else none
  | .draining (t :: temp) =>
    some { s with phase := .draining temp, posted := Function.update s.posted t (s.posted t + 1) }
  | .draining [] => some { s with phase := .exited }
  | .exited => none

/-- The handler of an activation runs. -/
def wake (t : τ) : Option (State τ E) :=
  match s.pos t with
  | .paused p =>
    if s.posted t = 0 then none
    else some (goto { s with posted := Function.update s.posted t (s.posted t - 1) } t (.relock p))
  | _ => none

/-- A call of `thread::join` for `f`, by another thread. -/
def call (t : τ) (propagates : Bool) : Option (State τ E) :=
  match s.pos t with
  | .idle _ => some (s.goto t (.lock propagates))
  | _ => none

end State

inductive Label (τ E : Type*)
  | call (t : τ) (propagates : Bool)
  | advance (t : τ)
  | wake (t : τ)
  | finish (thrown : Option E)
  | stop

def State.next (s : State τ E) : Label τ E → Option (State τ E)
  | .call t propagates => s.call t propagates
  | .advance t => s.advance t
  | .wake t => s.wake t
  | .finish thrown => s.finish thrown
  | .stop => s.stop

def initial : State τ E where
  phase := .running
  uncaught := none
  mtx := none
  joinQueue := []
  pos := fun _ => .idle none
  posted := fun _ => 0

def system (τ E : Type*) [DecidableEq τ] : TransitionSystem (State τ E) (Label τ E) where
  init s := s = initial
  step := State.next

/-! ### The ledger of the calls -/

/-- A call that has returned, or thrown. -/
structure Return (τ E : Type*) where
  joiner : τ
  propagates : Bool
  thrown : Option E

/-- How the function of `f` ended, the calls and the returns, and for each joiner how often it
enqueued itself and how often `f` activated it. -/
structure Ledger (τ E : Type*) where
  outcome : Option (Option E) := none
  calls : τ → Nat := fun _ => 0
  returns : List (Return τ E) := []
  enqueued : τ → Nat := fun _ => 0
  activated : τ → Nat := fun _ => 0

def increment (f : τ → Nat) (t : τ) : τ → Nat := Function.update f t (f t + 1)

def record (h : Ledger τ E) (s : State τ E) (l : Label τ E) (_ : State τ E) : Ledger τ E :=
  match l with
  | .call t _ => { h with calls := increment h.calls t }
  | .advance t =>
    match s.pos t with
    | .push _ => { h with enqueued := increment h.enqueued t }
    | .propagate p => { h with returns := ⟨t, p, if p then s.uncaught else none⟩ :: h.returns }
    | _ => h
  | .wake _ => h
  | .finish thrown => { h with outcome := some thrown }
  | .stop =>
    match s.phase with
    | .draining (t :: _) => { h with activated := increment h.activated t }
    | _ => h

/-- The runs with their ledger. -/
def audited (τ E : Type*) [DecidableEq τ] : TransitionSystem (State τ E × Ledger τ E) (Label τ E) :=
  (system τ E).withHistory {} record

def Label.isCall : Label τ E → Bool
  | .call _ _ => true
  | _ => false

def Pos.isIdle : Pos E → Bool
  | .idle _ => true
  | _ => false

/-- In the queue, or taken out of it and on the way to the end of the pause. -/
def Pos.asleep : Pos E → Bool
  | .unlock _ | .pause _ | .paused _ => true
  | _ => false

/-- Whether `one_step` has taken the joiners out of the queue. -/
def Phase.drained : Phase τ → Bool
  | .draining _ | .exited => true
  | _ => false

/-- The activations a joiner can still count on: it is in the queue, or `f` is about to activate it,
or its activation is posted. -/
def State.awaits (s : State τ E) (t : τ) :
    Nat := s.joinQueue.count t + s.phase.temp.count t + s.posted t

/-- Each call returns once and after the function of `f` has ended; a joiner that has enqueued
itself gets one activation, and nobody is left in the queue after the drain; and what was thrown
goes to the first propagating joiner and to nobody else. -/
structure Exact (s : State τ E) (h : Ledger τ E) : Prop where
  calls : ∀ t, h.calls t = h.returns.countP (·.joiner = t) + if (s.pos t).isIdle then 0 else 1
  finished : h.returns ≠ [] → h.outcome.isSome
  awaits : ∀ t, s.awaits t = if (s.pos t).asleep then 1 else 0
  activated : ∀ t, h.enqueued t = h.activated t + s.joinQueue.count t + s.phase.temp.count t
  drained : s.phase.drained → s.joinQueue = []
  thrown : h.returns.filterMap (·.thrown) ++ s.uncaught.toList = h.outcome.join.toList
  propagated : (∃ r ∈ h.returns, r.propagates) → s.uncaught = none
  asked : ∀ r ∈ h.returns, r.thrown.isSome → r.propagates
  /-- When `f` and the joiners can do nothing more, every call has returned. -/
  returned : h.outcome.isSome → (∀ l, Label.isCall l = false → s.next l = none) →
    ∀ t, (s.pos t).isIdle

/-! ### What one step can do -/

inductive Move (s : State τ E) : Label τ E → State τ E → Prop
  | calls {t p x} (hpos : s.pos t = .idle x) : Move s (.call t p) (s.goto t (.lock p))
  | locks {t p} (hpos : s.pos t = .lock p) (hfree : s.mtx = none) :
      Move s (.advance t) ({ s with mtx := some t }.goto t (.test p))
  | late {t p} (hpos : s.pos t = .test p) (hstopped : s.phase.isStopped = true) :
      Move s (.advance t) (s.goto t (.propagate p))
  | early {t p} (hpos : s.pos t = .test p) (hstopped : s.phase.isStopped = false) :
      Move s (.advance t) (s.goto t (.push p))
  | pushes {t p} (hpos : s.pos t = .push p) :
      Move s (.advance t) ({ s with joinQueue := s.joinQueue ++ [t] }.goto t (.unlock p))
  | unlocks {t p} (hpos : s.pos t = .unlock p) :
      Move s (.advance t) ({ s with mtx := none }.goto t (.pause p))
  | pauses {t p} (hpos : s.pos t = .pause p) : Move s (.advance t) (s.goto t (.paused p))
  | relocks {t p} (hpos : s.pos t = .relock p) (hfree : s.mtx = none) :
      Move s (.advance t) ({ s with mtx := some t }.goto t (.propagate p))
  | returns {t} (hpos : s.pos t = .propagate false) :
      Move s (.advance t) ({ s with mtx := none }.goto t (.idle none))
  | propagates {t} (hpos : s.pos t = .propagate true) :
      Move s (.advance t) ({ s with mtx := none, uncaught := none }.goto t (.idle s.uncaught))
  | finishes {x} (hphase : s.phase = .running) :
      Move s (.finish x) { s with phase := .ended, uncaught := x }
  | publishes (hphase : s.phase = .ended) : Move s .stop { s with phase := .stopped }
  | drains (hphase : s.phase = .stopped) (hfree : s.mtx = none) :
      Move s .stop { s with phase := .draining s.joinQueue, joinQueue := [] }
  | activates {t temp} (hphase : s.phase = .draining (t :: temp)) :
      Move s .stop { s with
        phase := .draining temp, posted := Function.update s.posted t (s.posted t + 1) }
  | exits (hphase : s.phase = .draining []) : Move s .stop { s with phase := .exited }
  | wakes {t p} (hpos : s.pos t = .paused p) (hposted : s.posted t ≠ 0) :
      Move s (.wake t) ({ s with posted := Function.update s.posted t (s.posted t - 1) }.goto
        t (.relock p))

theorem advance_move {s s' : State τ E} {t : τ} (h : s.advance t = some s') :
    Move s (.advance t) s' := by
  unfold State.advance at h
  cases hpos : s.pos t with
  | idle x => simp [hpos] at h
  | lock p =>
    simp only [hpos, Option.ite_none_right_eq_some, Option.some.injEq] at h
    obtain ⟨hfree, rfl⟩ := h
    exact .locks hpos hfree
  | test p =>
    simp only [hpos, Option.some.injEq] at h
    subst h
    cases hstopped : s.phase.isStopped with
    | true => exact .late hpos hstopped
    | false => exact .early hpos hstopped
  | push p =>
    simp only [hpos, Option.some.injEq] at h
    exact h ▸ .pushes hpos
  | unlock p =>
    simp only [hpos, Option.some.injEq] at h
    exact h ▸ .unlocks hpos
  | pause p =>
    simp only [hpos, Option.some.injEq] at h
    exact h ▸ .pauses hpos
  | paused p => simp [hpos] at h
  | relock p =>
    simp only [hpos, Option.ite_none_right_eq_some, Option.some.injEq] at h
    obtain ⟨hfree, rfl⟩ := h
    exact .relocks hpos hfree
  | propagate p =>
    cases p with
    | true =>
      simp only [hpos, if_true, Option.some.injEq] at h
      exact h ▸ .propagates hpos
    | false =>
      simp only [hpos, Bool.false_eq_true, if_false, Option.some.injEq] at h
      exact h ▸ .returns hpos

theorem stop_move {s s' : State τ E} (h : s.stop = some s') : Move s .stop s' := by
  unfold State.stop at h
  cases hphase : s.phase with
  | running => simp [hphase] at h
  | ended =>
    simp only [hphase, Option.some.injEq] at h
    exact h ▸ .publishes hphase
  | stopped =>
    simp only [hphase, Option.ite_none_right_eq_some, Option.some.injEq] at h
    obtain ⟨hfree, rfl⟩ := h
    exact .drains hphase hfree
  | draining temp =>
    cases temp with
    | nil =>
      simp only [hphase, Option.some.injEq] at h
      exact h ▸ .exits hphase
    | cons t temp =>
      simp only [hphase, Option.some.injEq] at h
      exact h ▸ .activates hphase
  | exited => simp [hphase] at h

theorem next_move {s s' : State τ E} {l : Label τ E} (h : s.next l = some s') : Move s l s' := by
  cases l with
  | call t p =>
    simp only [State.next, State.call] at h
    split at h
    · next hpos =>
      cases h
      exact .calls hpos
    · cases h
  | advance t => exact advance_move h
  | wake t =>
    simp only [State.next, State.wake] at h
    split at h
    · next hpos =>
      simp only [Option.ite_none_left_eq_some, Option.some.injEq] at h
      obtain ⟨hposted, rfl⟩ := h
      exact .wakes hpos hposted
    · cases h
  | finish x =>
    simp only [State.next, State.finish] at h
    split at h
    · next hphase =>
      cases h
      exact .finishes hphase
    · cases h
  | stop => exact stop_move h

/-! ### The queue and the activations -/

def Pos.holds : Pos E → Bool
  | .test _ | .push _ | .unlock _ | .propagate _ => true
  | _ => false

def Pos.pushing : Pos E → Bool
  | .push _ => true
  | _ => false

/-- Behind the pause, or behind a test that found `f` stopped. -/
def Pos.past : Pos E → Bool
  | .relock _ | .propagate _ => true
  | _ => false

/-- A joiner that holds `mtx_` for its push has found `f` not stopped, and the drain waits for
it. -/
structure Inv (s : State τ E) : Prop where
  holder : ∀ t, s.mtx = some t ↔ (s.pos t).holds = true
  awaits : ∀ t, s.awaits t = if (s.pos t).asleep then 1 else 0
  past : ∀ t, (s.pos t).past → s.phase.isStopped
  posted : ∀ t, s.posted t ≠ 0 → s.phase.isStopped
  drained : s.phase.drained → s.joinQueue = [] ∧ ∀ t, (s.pos t).pushing = false

omit [DecidableEq τ] in
theorem Phase.isStopped_of_drained {p : Phase τ} (h : p.drained) : p.isStopped := by
  cases p <;> first | rfl | cases h

namespace Inv

variable {s : State τ E} (h : Inv s) {t : τ} {q : Pos E}

include h

theorem holder_take (hfree : s.mtx = none) (hq : q.holds = true) (t' : τ) :
    some t = some t' ↔ (Function.update s.pos t q t').holds = true := by
  by_cases ht : t' = t
  · rw [ht, Function.update_self]
    exact iff_of_true rfl hq
  · have hnot := (h.holder t').not.mp (by simp [hfree])
    rw [Function.update_of_ne ht]
    exact iff_of_false (fun heq => ht (Option.some.inj heq).symm) hnot

theorem holder_give (hholds : (s.pos t).holds = true) (hq : q.holds = false) (t' : τ) :
    none = some t' ↔ (Function.update s.pos t q t').holds = true := by
  refine iff_of_false nofun fun hholds' => ?_
  by_cases ht : t' = t
  · rw [ht, Function.update_self, hq] at hholds'
    cases hholds'
  · rw [Function.update_of_ne ht] at hholds'
    have hmtx := (h.holder t').mpr hholds'
    rw [(h.holder t).mpr hholds] at hmtx
    exact ht (Option.some.inj hmtx).symm

theorem holder_keep (hq : q.holds = (s.pos t).holds) (t' : τ) :
    s.mtx = some t' ↔ (Function.update s.pos t q t').holds = true := by
  rw [h.holder]
  by_cases ht : t' = t
  · rw [ht, Function.update_self, hq]
  · rw [Function.update_of_ne ht]

theorem awaits_keep (hq : q.asleep = (s.pos t).asleep) (t' : τ) :
    s.awaits t' = if (Function.update s.pos t q t').asleep then 1 else 0 := by
  rw [h.awaits]
  by_cases ht : t' = t
  · rw [ht, Function.update_self, hq]
  · rw [Function.update_of_ne ht]

theorem past_keep (hq : q.past → s.phase.isStopped) (t' : τ)
    (hpast : (Function.update s.pos t q t').past) :
    s.phase.isStopped := by
  by_cases ht : t' = t
  · rw [ht, Function.update_self] at hpast
    exact hq hpast
  · rw [Function.update_of_ne ht] at hpast
    exact h.past t' hpast

theorem goes {m : Option τ} {x : Option E}
    (hholder : ∀ t', m = some t' ↔ (Function.update s.pos t q t').holds = true)
    (hasleep : q.asleep = (s.pos t).asleep) (hpast : q.past → s.phase.isStopped)
    (hpushing : q.pushing → s.phase.isStopped = false) :
    Inv ({ s with mtx := m, uncaught := x }.goto t q) := by
  refine ⟨hholder, h.awaits_keep hasleep, h.past_keep hpast, h.posted,
    fun hdrained => ⟨(h.drained hdrained).1, fun t' => ?_⟩⟩
  by_cases ht : t' = t
  · rw [ht]
    change (Function.update s.pos t q t).pushing = false
    rw [Function.update_self, Bool.eq_false_iff]
    intro hpush
    have hstopped := Phase.isStopped_of_drained hdrained
    exact absurd hstopped (by simp [hpushing hpush, State.goto])
  · change (Function.update s.pos t q t').pushing = false
    rw [Function.update_of_ne ht]
    exact (h.drained hdrained).2 t'

theorem pushes {p : Bool} (hpos : s.pos t = .push p) :
    Inv ({ s with joinQueue := s.joinQueue ++ [t] }.goto t (.unlock p)) := by
  refine ⟨h.holder_keep (by rw [hpos]; rfl), fun t' => ?_, h.past_keep nofun, h.posted,
    fun hdrained => ?_⟩
  · have hawaits := h.awaits t'
    by_cases ht : t' = t
    · simp only [ht, hpos, Pos.asleep, State.awaits, State.goto, List.count_append,
        List.count_singleton_self,
        Function.update_self, Bool.false_eq_true, if_false, if_true] at hawaits ⊢
      omega
    · have hother : [t].count t' = 0 := List.count_eq_zero.mpr (by simpa using ht)
      simpa only [State.awaits, State.goto, List.count_append, hother, Nat.add_zero,
        Function.update_of_ne ht] using hawaits
  · have hnot := (h.drained hdrained).2 t
    rw [hpos] at hnot
    cases hnot

/-- No joiner is about to push when `f` takes the queue, since it would hold `mtx_`. -/
theorem drains (hphase : s.phase = .stopped) (hfree : s.mtx = none) :
    Inv { s with phase := .draining s.joinQueue, joinQueue := [] } := by
  refine ⟨h.holder, fun t' => ?_, fun _ _ => rfl, fun _ _ => rfl, fun _ => ⟨rfl, fun t' => ?_⟩⟩
  · have hawaits := h.awaits t'
    simp only [State.awaits, hphase, Phase.temp, List.count_nil, Nat.zero_add,
      Nat.add_zero] at hawaits ⊢
    exact hawaits
  · have hnot := (h.holder t').not.mp (by simp [hfree])
    rw [Bool.eq_false_iff]
    intro hpush
    apply hnot
    cases hpos : s.pos t' <;> rw [hpos] at hpush <;> first | rfl | cases hpush

theorem activates {temp : List τ} (hphase : s.phase = .draining (t :: temp)) :
    Inv { s with
      phase := .draining temp, posted := Function.update s.posted t (s.posted t + 1) } := by
  refine ⟨h.holder, fun t' => ?_, fun _ _ => rfl, fun _ _ => rfl,
    fun _ => h.drained (by rw [hphase]; rfl)⟩
  have hawaits := h.awaits t'
  by_cases ht : t' = t
  · simp only [State.awaits, hphase, Phase.temp, ht, List.count_cons_self,
      Function.update_self] at hawaits ⊢
    omega
  · simpa only [State.awaits, hphase, Phase.temp, List.count_cons_of_ne (Ne.symm ht),
      Function.update_of_ne ht] using hawaits

theorem wakes {p : Bool} (hpos : s.pos t = .paused p) (hposted : s.posted t ≠ 0) :
    Inv ({ s with posted := Function.update s.posted t (s.posted t - 1) }.goto t (.relock p)) := by
  have hstopped := h.posted t hposted
  refine ⟨h.holder_keep (by rw [hpos]; rfl), fun t' => ?_, fun _ _ => hstopped, fun _ _ => hstopped,
    fun hdrained => ⟨(h.drained hdrained).1, fun t' => ?_⟩⟩
  · have hawaits := h.awaits t'
    by_cases ht : t' = t
    · simp only [State.awaits, State.goto, ht, hpos, Pos.asleep, Function.update_self, if_true,
        Bool.false_eq_true,
        if_false] at hawaits ⊢
      omega
    · simpa only [State.awaits, State.goto, Function.update_of_ne ht] using hawaits
  · by_cases ht : t' = t
    · rw [ht]
      simp [State.goto, Pos.pushing]
    · have hnot := (h.drained hdrained).2 t'
      simpa only [State.goto, Function.update_of_ne ht] using hnot

theorem move {s' : State τ E} {l : Label τ E} (hmove : Move s l s') : Inv s' := by
  cases hmove with
  | calls hpos => exact h.goes (h.holder_keep (by rw [hpos]; rfl)) (by rw [hpos]; rfl) nofun nofun
  | locks hpos hfree => exact h.goes (h.holder_take hfree rfl) (by rw [hpos]; rfl) nofun nofun
  | late hpos hstopped =>
    exact h.goes (h.holder_keep (by rw [hpos]; rfl)) (by rw [hpos]; rfl) (fun _ => hstopped) nofun
  | early hpos hstopped =>
    exact h.goes (h.holder_keep (by rw [hpos]; rfl)) (by rw [hpos]; rfl) nofun fun _ => hstopped
  | pushes hpos => exact h.pushes hpos
  | unlocks hpos =>
    exact h.goes (h.holder_give (by rw [hpos]; rfl) rfl) (by rw [hpos]; rfl) nofun nofun
  | pauses hpos => exact h.goes (h.holder_keep (by rw [hpos]; rfl)) (by rw [hpos]; rfl) nofun nofun
  | @relocks t p hpos hfree =>
    have hstopped := h.past t (by rw [hpos]; rfl)
    exact h.goes (h.holder_take hfree rfl) (by rw [hpos]; rfl) (fun _ => hstopped) nofun
  | returns hpos =>
    exact h.goes (h.holder_give (by rw [hpos]; rfl) rfl) (by rw [hpos]; rfl) nofun nofun
  | propagates hpos =>
    exact h.goes (h.holder_give (by rw [hpos]; rfl) rfl) (by rw [hpos]; rfl) nofun nofun
  | finishes hphase =>
    have hawaits := h.awaits
    have hnot : s.phase.isStopped = false := by rw [hphase]; rfl
    simp only [State.awaits, hphase, Phase.temp] at hawaits
    exact ⟨h.holder, hawaits, fun t ht => absurd (h.past t ht) (by simp [hnot]),
      fun t ht => absurd (h.posted t ht) (by simp [hnot]), nofun⟩
  | publishes hphase =>
    have hawaits := h.awaits
    simp only [State.awaits, hphase, Phase.temp] at hawaits
    exact ⟨h.holder, hawaits, fun _ _ => rfl, fun _ _ => rfl, nofun⟩
  | drains hphase hfree => exact h.drains hphase hfree
  | activates hphase => exact h.activates hphase
  | exits hphase =>
    have hawaits := h.awaits
    simp only [State.awaits, hphase, Phase.temp] at hawaits
    exact ⟨h.holder, hawaits, fun _ _ => rfl, fun _ _ => rfl,
      fun _ => h.drained (by rw [hphase]; rfl)⟩
  | wakes hpos hposted => exact h.wakes hpos hposted

end Inv

theorem inv_initial : Inv (initial (τ := τ) (E := E)) :=
  ⟨fun _ => ⟨nofun, nofun⟩, fun _ => rfl, nofun, fun _ hposted => absurd rfl hposted, nofun⟩

/-! ### The calls and the exception -/

structure Books (s : State τ E) (h : Ledger τ E) : Prop where
  running : s.phase = .running → h.outcome = none ∧ s.uncaught = none
  ended : s.phase ≠ .running → h.outcome.isSome
  returned : h.returns ≠ [] → s.phase.isStopped
  calls : ∀ t, h.calls t = h.returns.countP (·.joiner = t) + if (s.pos t).isIdle then 0 else 1
  activated : ∀ t, h.enqueued t = h.activated t + s.joinQueue.count t + s.phase.temp.count t
  thrown : h.returns.filterMap (·.thrown) ++ s.uncaught.toList = h.outcome.join.toList
  propagated : (∃ r ∈ h.returns, r.propagates) → s.uncaught = none
  asked : ∀ r ∈ h.returns, r.thrown.isSome → r.propagates

namespace Books

variable {s : State τ E} {h : Ledger τ E} (b : Books s h) {t : τ}

include b

theorem calls_keep {q : Pos E} (hq : q.isIdle = (s.pos t).isIdle) (t' : τ) :
    h.calls t' = h.returns.countP (·.joiner = t') + if (Function.update s.pos t q t').isIdle then 0
    else 1 := by
  rw [b.calls]
  by_cases ht : t' = t
  · rw [ht, Function.update_self, hq]
  · rw [Function.update_of_ne ht]

theorem goes {q : Pos E} {m : Option τ} {posted : τ → Nat} (hq : q.isIdle = (s.pos t).isIdle) :
    Books ({ s with mtx := m, posted }.goto t q) h :=
  ⟨b.running, b.ended, b.returned, b.calls_keep hq, b.activated, b.thrown, b.propagated, b.asked⟩

theorem call {x : Option E} (hpos : s.pos t = .idle x) (p : Bool) :
    Books (s.goto t (.lock p)) { h with calls := increment h.calls t } := by
  refine ⟨b.running, b.ended, b.returned, fun t' => ?_, b.activated, b.thrown,
    b.propagated, b.asked⟩
  have hcalls := b.calls t'
  by_cases ht : t' = t
  · simp only [ht, hpos, Pos.isIdle, if_true, increment, State.goto, Function.update_self,
      Bool.false_eq_true,
      if_false] at hcalls ⊢
    omega
  · simpa only [increment, State.goto, Function.update_of_ne ht] using hcalls

theorem push {p : Bool} (hpos : s.pos t = .push p) :
    Books ({ s with joinQueue := s.joinQueue ++ [t] }.goto t
      (.unlock p)) { h with enqueued := increment h.enqueued t } := by
  refine ⟨b.running, b.ended, b.returned, b.calls_keep (by rw [hpos]; rfl), fun t' => ?_, b.thrown,
    b.propagated, b.asked⟩
  have hactivated := b.activated t'
  by_cases ht : t' = t
  · simp only [ht, increment, State.goto, Function.update_self, List.count_append,
      List.count_singleton_self] at hactivated ⊢
    omega
  · have hother : [t].count t' = 0 := List.count_eq_zero.mpr (by simpa using ht)
    simpa only [increment, State.goto, Function.update_of_ne ht, List.count_append, hother,
      Nat.add_zero] using hactivated

theorem comesBack {p : Bool} {m : Option τ} (hpos : s.pos t = .propagate p)
    (hstopped : s.phase.isStopped) :
    Books ({ s with mtx := m, uncaught := if p then none else s.uncaught }.goto t
      (.idle (if p then s.uncaught else none)))
      { h with returns := ⟨t, p, if p then s.uncaught else none⟩ :: h.returns } := by
  have hrunning : s.phase ≠ .running := by
    intro hphase
    rw [hphase] at hstopped
    cases hstopped
  refine ⟨fun hphase => absurd hphase hrunning, b.ended, fun _ => hstopped, fun t' => ?_,
    b.activated, ?_, ?_, ?_⟩
  · have hcalls := b.calls t'
    by_cases ht : t' = t
    · simp only [ht, hpos, Pos.isIdle, Bool.false_eq_true, if_false, State.goto,
        Function.update_self, if_true,
        List.countP_cons, decide_true] at hcalls ⊢
      omega
    · simpa only [State.goto, Function.update_of_ne ht, List.countP_cons, Ne.symm ht, decide_false,
        Bool.false_eq_true,
        if_false, Nat.add_zero] using hcalls
  · have hthrown := b.thrown
    cases p with
    | false => exact hthrown
    | true =>
      cases hcaught : s.uncaught with
      | none => simpa [State.goto, hcaught] using hthrown
      | some e =>
        -- Nothing has been thrown before, since there is one exception at most.
        rw [hcaught] at hthrown
        have hlength := congrArg List.length hthrown
        have hone : h.outcome.join.toList.length ≤ 1 := by cases h.outcome.join <;> simp
        simp only [List.length_append, Option.toList_some, List.length_singleton] at hlength
        have hnil : h.returns.filterMap (·.thrown) = [] := List.eq_nil_of_length_eq_zero (by omega)
        rw [hnil] at hthrown
        simpa [State.goto, hnil] using hthrown
  · intro hsome
    cases p with
    | true => rfl
    | false =>
      obtain ⟨r, hr, hpropagates⟩ := hsome
      obtain rfl | hr := List.mem_cons.mp hr
      · cases hpropagates
      · exact b.propagated ⟨r, hr, hpropagates⟩
  · intro r hr hsome
    obtain rfl | hr := List.mem_cons.mp hr
    · cases p with
      | true => rfl
      | false => cases hsome
    · exact b.asked r hr hsome

theorem finish (hphase : s.phase = .running) (x : Option E) :
    Books { s with phase := .ended, uncaught := x } { h with outcome := some x } := by
  have hnil : h.returns = [] := by
    by_contra hreturns
    have hstopped := b.returned hreturns
    rw [hphase] at hstopped
    cases hstopped
  have hactivated := b.activated
  simp only [hphase, Phase.temp] at hactivated
  refine ⟨nofun, fun _ => rfl, fun hreturns => absurd hnil hreturns, b.calls, hactivated,
    ?_, ?_, b.asked⟩
  · simp [hnil]
  · simp [hnil]

theorem stop (phase : Phase τ) {joinQueue : List τ} {posted activated : τ → Nat}
    (hstopped : phase.isStopped) (hrunning : s.phase ≠ .running)
    (hcount : ∀ t, activated t + joinQueue.count t + phase.temp.count t =
      h.activated t + s.joinQueue.count t + s.phase.temp.count t) :
    Books { s with phase, joinQueue, posted } { h with activated } := by
  refine ⟨fun hphase => ?_, fun _ => b.ended hrunning, fun _ => hstopped, b.calls,
    fun t => (b.activated t).trans (hcount t).symm,
    b.thrown, b.propagated, b.asked⟩
  change phase = .running at hphase
  rw [hphase] at hstopped
  cases hstopped

theorem move (hinv : Inv s) {s' : State τ E} {l : Label τ E} (hmove : Move s l s') :
    Books s' (record h s l s') := by
  cases hmove with
  | calls hpos => exact b.call hpos _
  | locks hpos hfree => simpa only [record, hpos] using b.goes (by rw [hpos]; rfl)
  | late hpos hstopped => simpa only [record, hpos] using b.goes (by rw [hpos]; rfl)
  | early hpos hstopped => simpa only [record, hpos] using b.goes (by rw [hpos]; rfl)
  | pushes hpos => simpa only [record, hpos] using b.push hpos
  | unlocks hpos => simpa only [record, hpos] using b.goes (by rw [hpos]; rfl)
  | pauses hpos => simpa only [record, hpos] using b.goes (by rw [hpos]; rfl)
  | relocks hpos hfree => simpa only [record, hpos] using b.goes (by rw [hpos]; rfl)
  | @returns t hpos =>
    have hbooks := b.comesBack (m := none) hpos (hinv.past t (by rw [hpos]; rfl))
    simp only [record, hpos]
    exact hbooks
  | @propagates t hpos =>
    have hbooks := b.comesBack (m := none) hpos (hinv.past t (by rw [hpos]; rfl))
    simp only [record, hpos]
    exact hbooks
  | finishes hphase => exact b.finish hphase _
  | publishes hphase =>
    simpa only [record, hphase] using b.stop .stopped rfl (by simp [hphase])
      (by simp [hphase, Phase.temp])
  | drains hphase hfree =>
    simpa only [record, hphase] using b.stop (.draining s.joinQueue) rfl (by simp [hphase])
      (by simp [hphase, Phase.temp])
  | @activates t temp hphase =>
    simp only [record, hphase]
    refine b.stop (.draining temp) rfl (by simp [hphase]) fun t' => ?_
    by_cases ht : t' = t
    · simp only [ht, increment, Function.update_self, hphase, Phase.temp, List.count_cons_self]
      omega
    · simp only [increment, Function.update_of_ne ht, hphase, Phase.temp,
        List.count_cons_of_ne (Ne.symm ht)]
  | exits hphase =>
    simpa only [record, hphase] using b.stop .exited rfl (by simp [hphase])
      (by simp [hphase, Phase.temp])
  | wakes hpos hposted => exact b.goes (by rw [hpos]; rfl)

end Books

theorem reach_books {sh : State τ E × Ledger τ E} (hreach : (audited τ E).Reachable sh) :
    Inv sh.1 ∧ Books sh.1 sh.2 := by
  refine hreach.invariant (I := fun sh => Inv sh.1 ∧ Books sh.1 sh.2)
    (fun sh hinit => ?_) fun sh l sh' _ ih _ hstep => ?_
  · obtain ⟨hs, hh⟩ := hinit
    rw [show sh.1 = initial from hs, hh]
    exact ⟨inv_initial, fun _ => ⟨rfl, rfl⟩, fun hrunning => absurd rfl hrunning,
      fun hreturns => absurd rfl hreturns,
      fun _ => rfl, fun _ => rfl, rfl, fun _ => rfl, nofun⟩
  · obtain ⟨s', hs', rfl⟩ := TransitionSystem.withHistory_step.mp hstep
    have hmove := next_move hs'
    exact ⟨ih.1.move hmove, ih.2.move ih.1 hmove⟩

/-! ### Nobody is left -/

/-- Whoever holds `mtx_` can go on, so that somebody can go on who waits for it. -/
theorem Inv.free_of_quiet {s : State τ E} (h : Inv s)
    (hquiet : ∀ l : Label τ E, l.isCall = false → s.next l = none) :
    s.mtx = none := by
  cases hmtx : s.mtx with
  | none => rfl
  | some t =>
    have hholds := (h.holder t).mp hmtx
    have hstuck : s.advance t = none := hquiet (.advance t) rfl
    unfold State.advance at hstuck
    cases hpos : s.pos t with
    | propagate p => cases p <;> simp [hpos] at hstuck
    | test p => simp [hpos] at hstuck
    | push p => simp [hpos] at hstuck
    | unlock p => simp [hpos] at hstuck
    | _ => rw [hpos] at hholds; cases hholds

theorem exited_of_quiet {s : State τ E} (hfree : s.mtx = none) (hrunning : s.phase ≠ .running)
    (hstuck : s.stop = none) :
    s.phase = .exited := by
  unfold State.stop at hstuck
  cases hphase : s.phase with
  | running => exact absurd hphase hrunning
  | ended => simp [hphase] at hstuck
  | stopped => simp [hphase, hfree] at hstuck
  | draining temp => cases temp <;> simp [hphase] at hstuck
  | exited => rfl

/-- When `f` has ended and nobody can go on, nobody is in a call. -/
theorem Inv.idle_of_quiet {s : State τ E} (h : Inv s) (hrunning : s.phase ≠ .running)
    (hquiet : ∀ l : Label τ E, l.isCall = false → s.next l = none) (t : τ) : (s.pos t).isIdle := by
  have hfree := h.free_of_quiet hquiet
  have hexited := exited_of_quiet hfree hrunning (hquiet .stop rfl)
  have hstuck : s.advance t = none := hquiet (.advance t) rfl
  unfold State.advance at hstuck
  cases hpos : s.pos t with
  | idle x => rfl
  | propagate p => cases p <;> simp [hpos] at hstuck
  | paused p =>
    -- The queue is empty and everything in it was activated, so the activation is posted.
    have hawaits := h.awaits t
    have hempty := (h.drained (by rw [hexited]; rfl)).1
    simp only [State.awaits, hempty, hexited, Phase.temp, List.count_nil, hpos, Pos.asleep,
      if_true] at hawaits
    have hasleep : s.wake t = none := hquiet (.wake t) rfl
    simp only [State.wake, hpos, ite_eq_left_iff, reduceCtorEq, imp_false, not_not] at hasleep
    omega
  | _ => simp [hpos, hfree] at hstuck

end GreenThread.Join
