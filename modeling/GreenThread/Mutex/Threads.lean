import GreenThread.Machine.Step
import GreenThread.Mutex.Classes

/-!
# Threads and a mutex

The step function of any number of threads over one mutex of any of the four classes. One step is
one spinlock section of `mutex.cpp`, one switch of a thread, the expiry of a timer, the run of its
handler, or an interruption request. The timer of a `try_lock_rel` runs its handler once: with an
error after an effective `cancel`, and with success when it had expired before.

A request is accepted while interruption is not disabled, is never withdrawn, and does not wake a
thread; `pause` throws `thread_interrupted` when it returns with an accepted request while
interruption is not disabled.
-/

namespace GreenThread

namespace MutexThreads

inductive Op
  | lock
  | tryLock
  | tryLockRel
  | unlock
  deriving DecidableEq, Repr

/-- How an operation ended. -/
inductive Outcome
  | done
  | bool (b : Bool)
  | threw (e : ErrorCode)
  | interrupted
  deriving DecidableEq, Repr

/-- Where a thread is. -/
inductive Pos
  /-- outside, with the operation it made last and how that ended -/
  | idle (last : Option (Op × Outcome))
  /-- queued in `lock` or in `try_lock_rel`, in `pause` -/
  | paused (timed : Bool)
  /-- switched out by the `yield` that ends `unlock` -/
  | yielding
  deriving DecidableEq, Repr

variable {τ ℓ : Type} [DecidableEq τ]

structure State (τ : Type) (ℓ : Type := Nat) where
  mutex : LockState τ ℓ
  pos : τ → Pos
  posted : τ → Nat
  delivered : τ → Nat
  timer : τ → Timer Unit
  /-- `interrupt_requested_` -/
  requested : τ → Bool
  /-- `interrupt_disable_level_` -/
  disabled : τ → Int

namespace State

variable (s : State τ ℓ)

def setPos (t : τ) (p : Pos) : State τ ℓ := { s with pos := Function.update s.pos t p }

def setMutex (m : LockState τ ℓ) : State τ ℓ := { s with mutex := m }

def setTimer (t : τ) (x : Timer Unit) : State τ ℓ := { s with timer := Function.update s.timer t x }

/-- The activations of `t` that no switch has used yet. -/
def pending (t : τ) : Nat := s.posted t + s.delivered t

def resume (t : τ) : State τ ℓ := { s with posted := Function.update s.posted t (s.posted t + 1) }

/-- An `activate_thread` handler of `t` is run. -/
def deliver (t : τ) : State τ ℓ :=
  { s with
    posted := Function.update s.posted t (s.posted t - 1)
    delivered := Function.update s.delivered t (s.delivered t + 1) }

/-- A switch of `t` uses a delivered activation. -/
def consume (t : τ) : State τ ℓ :=
  { s with delivered := Function.update s.delivered t (s.delivered t - 1) }

/-- What `unlock` does with the entry of the new owner. -/
def wakeItem (i : SuspendedItem τ) : State τ ℓ := if i.t then s.setTimer i.f (s.timer i.f).cancel
    else s.resume i.f

/-- `pause` would throw `thread_interrupted`. -/
def interrupted (t : τ) : Bool := s.disabled t = 0 && s.requested t

/-- The operation ends. -/
def ends (t : τ) (op : Op) (r : Outcome) : State τ ℓ := s.setPos t (.idle (some (op, r)))

/-- `unlock` ends, after the `yield` if its scheduling conditions hold. -/
def unlockEnds (t : τ) (switch : Bool) : State τ ℓ := if switch then (s.resume t).setPos t .yielding
    else s.ends t .unlock .done

@[simp]
theorem wakeItem_mutex (i : SuspendedItem τ) : (s.wakeItem i).mutex = s.mutex := by
  unfold wakeItem
  split <;> rfl

@[simp]
theorem unlockEnds_mutex (t : τ) (switch : Bool) : (s.unlockEnds t switch).mutex = s.mutex := by
  cases switch <;> rfl

end State

/-- The operation that pauses. -/
def pauseOp (timed : Bool) : Op := if timed then .tryLockRel else .lock

/-- How the operation ends whose pause returns. -/
def pauseOutcome (s : State τ ℓ) (t : τ) (timed : Bool) : Outcome :=
  if s.interrupted t then .interrupted else if timed then .bool (s.mutex.owner = some t) else .done

variable [OfNat ℓ 0] [OfNat ℓ 1] [Add ℓ] [Sub ℓ] [LT ℓ] [DecidableLT ℓ] (c : MutexClass)
    (green : τ → Bool)

def lockStep (s : State τ ℓ) (t : τ) : State τ ℓ :=
  match c.lock s.mutex (Machine.curThread green t) with
  | (.returned, m) => (s.setMutex m).ends t .lock .done
  | (.queued, m) => (s.setMutex m).setPos t (.paused false)
  | (.threw e, m) => (s.setMutex m).ends t .lock (.threw e)

def tryLockStep (s : State τ ℓ) (t : τ) : State τ ℓ :=
  let (b, m) := c.tryLock s.mutex (Machine.curThread green t)
  (s.setMutex m).ends t .tryLock (.bool b)

def tryLockRelStep (s : State τ ℓ) (t : τ) : State τ ℓ :=
  match c.tryLockRel s.mutex (Machine.curThread green t) with
  | (.returned b, m) => (s.setMutex m).ends t .tryLockRel (.bool b)
  | (.queued, m) => ((s.setMutex m).setTimer t (.armed ())).setPos t (.paused true)
  | (.threw e, m) => (s.setMutex m).ends t .tryLockRel (.threw e)

/-- `switch` tells whether the scheduling conditions of `yield(owner_)` hold. -/
def unlockStep (s : State τ ℓ) (t : τ) (switch : Bool) : State τ ℓ :=
  match c.unlock s.mutex (Machine.curThread green t) with
  | (.returned, m) => (s.setMutex m).ends t .unlock .done
  | (.handedOver next, m) => ((s.setMutex m).wakeItem next).unlockEnds t switch
  | (.threw e, m) => (s.setMutex m).ends t .unlock (.threw e)

/-- Only the timed classes have `try_lock_rel`. -/
def callStep (s : State τ ℓ) (t : τ) (switch : Bool) : Op → Option (State τ ℓ)
  | .lock => some (lockStep c green s t)
  | .tryLock => some (tryLockStep c green s t)
  | .tryLockRel => if c.timed then some (tryLockRelStep c green s t) else none
  | .unlock => some (unlockStep c green s t switch)

/-- A thread that has switched out uses a delivered activation. -/
def wakeStep (s : State τ ℓ) (t : τ) : Option (State τ ℓ) :=
  if s.delivered t = 0 then none
  else match s.pos t with
    | .paused timed => some ((s.consume t).ends t (pauseOp timed) (pauseOutcome s t timed))
    | .yielding => some ((s.consume t).ends t .unlock .done)
    | .idle _ => none

inductive Label (τ : Type)
  | call (t : τ) (op : Op) (switch : Bool)
  | deliver (t : τ)
  | wake (t : τ)
  | expire (t : τ)
  | handler (t : τ)
  /-- `interrupt()` is called for the thread -/
  | interrupt (t : τ)
  /-- the thread enters or leaves a `disable_interruption` or `restore_interruption` scope -/
  | disable (t : τ) (level : Int)
  deriving DecidableEq, Repr

def step (s : State τ ℓ) : Label τ → Option (State τ ℓ)
  | .call t op switch =>
    match s.pos t with
    | .idle _ => callStep c green s t switch op
    | _ => none
  | .deliver t => if s.posted t = 0 then none else some (s.deliver t)
  | .wake t => wakeStep s t
  | .expire t =>
    match s.timer t with
    | .armed u => some (s.setTimer t (.queued u false))
    | _ => none
  | .handler t =>
    match s.timer t with
    | .queued _ _ =>
      some (((s.setTimer t .idle).setMutex (MutexClass.timeoutHandler s.mutex t)).resume t)
    | _ => none
  | .interrupt t =>
    some { s with requested := Function.update s.requested t (s.requested t ||
      decide (s.disabled t = 0)) }
  | .disable t level =>
    match s.pos t with
    | .idle _ => some { s with disabled := Function.update s.disabled t level }
    | _ => none

/-- The mutex is free. Nothing initialises the `level_` of a `recursive_timed_mutex`. -/
def initial (level : ℓ) : State τ ℓ where
  mutex := ⟨none, level, []⟩
  pos := fun _ => .idle none
  posted := fun _ => 0
  delivered := fun _ => 0
  timer := fun _ => .idle
  requested := fun _ => false
  disabled := fun _ => 0

def system : TransitionSystem (State τ ℓ) (Label τ) where
  init := fun s => ∃ level, s = initial level ∧ (c = .recursiveMutex → level = 0)
  step := step c green

/-! ### What one step can do -/

/-- The outcome of an operation that has acquired the mutex. -/
def Op.success (op : Op) : Outcome := if op = .lock then .done else .bool true

/-- The ways an operation ends without touching the mutex. -/
inductive Refused (s : State τ) (t : τ) : Op → Outcome → Prop
  | native {op r} (hgreen : green t = false) (hr : r = if op = .lock ∨ op = .unlock then .done
      else .bool false) : Refused s t op r
  | deadlock {op} (hgreen : green t = true) (hown : s.mutex.owner = some t)
      (hclass : c.recursive = false)
      (hop : op = .lock ∨ op = .tryLockRel) : Refused s t op (.threw .resourceDeadlockWouldOccur)
  | busy {u} (hgreen : green t = true) (hown : s.mutex.owner = some u) (hne : u ≠ t) :
      Refused s t .tryLock (.bool false)
  | notOwner (hgreen : green t = true) (hown : s.mutex.owner ≠ some t) :
      Refused s t .unlock (.threw .operationNotPermitted)

inductive Move (s : State τ) : Label τ → State τ → Prop
  | refused {t last op r switch} (hpos : s.pos t = .idle last)
      (hrefused : Refused c green s t op r) :
      Move s (.call t op switch) (s.ends t op r)
  | takes {t last op switch} (hpos : s.pos t = .idle last) (hgreen : green t = true)
      (hfree : s.mutex.owner = none)
      (hop : op ≠ .unlock) :
      Move s (.call t op switch)
        ((s.setMutex { s.mutex with owner := some t, level := c.firstLevel s.mutex.level }).ends t
          op op.success)
  | again {t last op switch} (hpos : s.pos t = .idle last) (hgreen : green t = true)
      (hown : s.mutex.owner = some t)
      (hop : op ≠ .unlock) (hclass : c.recursive = true ∨ op = .tryLock) :
      Move s (.call t op switch)
        ((s.setMutex { s.mutex with level := c.nextLevel s.mutex.level }).ends t op op.success)
  | queues {t last u switch} (timed : Bool) (hpos : s.pos t = .idle last) (hgreen : green t = true)
      (hown : s.mutex.owner = some u) (hne : u ≠ t) :
      Move s (.call t (pauseOp timed) switch)
        (((s.setMutex { s.mutex with suspended := s.mutex.suspended ++ [⟨t, timed⟩] }).setTimer t
          (if timed then .armed () else s.timer t)).setPos t (.paused timed))
  | undoes {t last switch} (hpos : s.pos t = .idle last) (hgreen : green t = true)
      (hown : s.mutex.owner = some t)
      (hclass : c.recursive = true) (hlevel : 1 < s.mutex.level) :
      Move s (.call t .unlock switch)
      ((s.setMutex { s.mutex with level := s.mutex.level - 1 }).ends t .unlock .done)
  | frees {t last switch} (hpos : s.pos t = .idle last) (hgreen : green t = true)
      (hown : s.mutex.owner = some t)
      (hlast : c.recursive = true → s.mutex.level ≤ 1) (hempty : s.mutex.suspended = []) :
      Move s (.call t .unlock switch)
        ((s.setMutex ⟨none, if c.recursive then 0 else s.mutex.level, []⟩).ends t .unlock .done)
  | hands {t last next rest switch} (hpos : s.pos t = .idle last) (hgreen : green t = true)
      (hown : s.mutex.owner = some t) (hlast : c.recursive = true → s.mutex.level ≤ 1)
      (hqueue : s.mutex.suspended = next :: rest) :
      Move s (.call t .unlock switch)
        (((s.setMutex ⟨some next.f, c.firstLevel s.mutex.level, rest⟩).wakeItem next).unlockEnds t
          switch)
  | deliver {t} (hposted : s.posted t ≠ 0) : Move s (.deliver t) (s.deliver t)
  | returns {t timed} (hdelivered : s.delivered t ≠ 0) (hpos : s.pos t = .paused timed) :
      Move s (.wake t) ((s.consume t).ends t (pauseOp timed) (pauseOutcome s t timed))
  | yields {t} (hdelivered : s.delivered t ≠ 0) (hpos : s.pos t = .yielding) :
      Move s (.wake t) ((s.consume t).ends t .unlock .done)
  | expires {t u} (htimer : s.timer t = .armed u) :
      Move s (.expire t) (s.setTimer t (.queued u false))
  | handles {t u aborted} (htimer : s.timer t = .queued u aborted) :
      Move s (.handler t)
      (((s.setTimer t .idle).setMutex (MutexClass.timeoutHandler s.mutex t)).resume t)
  | interrupts {t} : Move s (.interrupt t)
      { s with requested := Function.update s.requested t (s.requested t ||
        decide (s.disabled t = 0)) }
  | disables {t last level} (hpos : s.pos t = .idle last) :
      Move s (.disable t level) { s with disabled := Function.update s.disabled t level }

variable {c green} {s s' : State τ} {l : Label τ}

omit [DecidableEq τ] in
theorem setMutex_eq (s : State τ) : s.setMutex s.mutex = s := rfl

theorem lockStep_move {t : τ} {last : Option (Op × Outcome)} {switch : Bool}
    (hpos : s.pos t = .idle last) :
    Move c green s (.call t .lock switch) (lockStep c green s t) := by
  cases hgreen : green t with
  | false =>
    have heq : lockStep c green s t = s.ends t .lock .done := by
      simp [lockStep, Machine.curThread, hgreen, MutexClass.lock, setMutex_eq]
    rw [heq]
    exact .refused hpos (.native hgreen rfl)
  | true =>
    simp only [lockStep, Machine.curThread, hgreen, if_true, MutexClass.lock]
    by_cases hown : s.mutex.owner = some t
    · rw [if_pos hown]
      cases hclass : c.recursive with
      | true => exact .again hpos hgreen hown (fun h => by cases h) (.inl hclass)
      | false => exact .refused hpos (.deadlock hgreen hown hclass (.inl rfl))
    · rw [if_neg hown]
      cases hfree : s.mutex.owner with
      | none => exact .takes hpos hgreen hfree (fun h => by cases h)
      | some u =>
        have hne : u ≠ t := fun hu => hown (hfree.trans (congrArg some hu))
        have hmove : Move c green s (.call t (pauseOp false) switch) _ :=
          .queues false hpos hgreen hfree hne
        simpa [State.setTimer, State.setMutex, hfree, pauseOp] using hmove

theorem tryLockStep_move {t : τ} {last : Option (Op × Outcome)} {switch : Bool}
    (hpos : s.pos t = .idle last) :
    Move c green s (.call t .tryLock switch) (tryLockStep c green s t) := by
  cases hgreen : green t with
  | false =>
    have heq : tryLockStep c green s t = s.ends t .tryLock (.bool false) := by
      simp [tryLockStep, Machine.curThread, hgreen, MutexClass.tryLock, setMutex_eq]
    rw [heq]
    exact .refused hpos (.native hgreen rfl)
  | true =>
    simp only [tryLockStep, Machine.curThread, hgreen, if_true, MutexClass.tryLock]
    by_cases hown : s.mutex.owner = some t
    · rw [if_pos hown]
      exact .again hpos hgreen hown (fun h => by cases h) (.inr rfl)
    · rw [if_neg hown]
      cases hfree : s.mutex.owner with
      | none => exact .takes hpos hgreen hfree (fun h => by cases h)
      | some u =>
        exact .refused hpos (.busy hgreen hfree fun hu => hown (hfree.trans (congrArg some hu)))

theorem tryLockRelStep_move {t : τ} {last : Option (Op × Outcome)} {switch : Bool}
    (hpos : s.pos t = .idle last) :
    Move c green s (.call t .tryLockRel switch) (tryLockRelStep c green s t) := by
  cases hgreen : green t with
  | false =>
    have heq : tryLockRelStep c green s t = s.ends t .tryLockRel (.bool false) := by
      simp [tryLockRelStep, Machine.curThread, hgreen, MutexClass.tryLockRel, setMutex_eq]
    rw [heq]
    exact .refused hpos (.native hgreen rfl)
  | true =>
    simp only [tryLockRelStep, Machine.curThread, hgreen, if_true, MutexClass.tryLockRel]
    by_cases hown : s.mutex.owner = some t
    · rw [if_pos hown]
      cases hclass : c.recursive with
      | true => exact .again hpos hgreen hown (fun h => by cases h) (.inl hclass)
      | false => exact .refused hpos (.deadlock hgreen hown hclass (.inr rfl))
    · rw [if_neg hown]
      cases hfree : s.mutex.owner with
      | none => exact .takes hpos hgreen hfree (fun h => by cases h)
      | some u =>
        have hne : u ≠ t := fun hu => hown (hfree.trans (congrArg some hu))
        have hmove : Move c green s (.call t (pauseOp true) switch) _ :=
          .queues true hpos hgreen hfree hne
        simpa [hfree, pauseOp] using hmove

theorem unlockStep_move {t : τ} {last : Option (Op × Outcome)} {switch : Bool}
    (hpos : s.pos t = .idle last) :
    Move c green s (.call t .unlock switch) (unlockStep c green s t switch) := by
  cases hgreen : green t with
  | false =>
    have heq : unlockStep c green s t switch = s.ends t .unlock .done := by
      simp [unlockStep, Machine.curThread, hgreen, MutexClass.unlock, setMutex_eq]
    rw [heq]
    exact .refused hpos (.native hgreen rfl)
  | true =>
    simp only [unlockStep, Machine.curThread, hgreen, if_true, MutexClass.unlock]
    by_cases hown : s.mutex.owner = some t
    · rw [if_neg (not_not.mpr hown)]
      by_cases hinner : c.recursive ∧ 0 < s.mutex.level - 1
      · rw [if_pos hinner]
        exact .undoes hpos hgreen hown hinner.1 (by omega)
      · have hlast : c.recursive = true → s.mutex.level ≤ 1 := fun hclass => by
          by_contra hlevel
          exact hinner ⟨hclass, by omega⟩
        rw [if_neg hinner]
        cases hqueue : s.mutex.suspended with
        | nil => exact .frees hpos hgreen hown hlast hqueue
        | cons next rest => exact .hands hpos hgreen hown hlast hqueue
    · rw [if_pos hown]
      exact .refused hpos (.notOwner hgreen hown)

/-- Every step is one of the moves. -/
theorem step_move (hstep : step c green s l = some s') : Move c green s l s' := by
  cases l with
  | call t op switch =>
    simp only [step] at hstep
    split at hstep
    · rename_i last hpos
      cases op with
      | lock =>
        cases hstep
        exact lockStep_move hpos
      | tryLock =>
        cases hstep
        exact tryLockStep_move hpos
      | tryLockRel =>
        simp only [callStep, Option.ite_none_right_eq_some, Option.some.injEq] at hstep
        obtain ⟨-, rfl⟩ := hstep
        exact tryLockRelStep_move hpos
      | unlock =>
        cases hstep
        exact unlockStep_move hpos
    · cases hstep
  | deliver t =>
    simp only [step, Option.ite_none_left_eq_some, Option.some.injEq] at hstep
    obtain ⟨hposted, rfl⟩ := hstep
    exact .deliver hposted
  | wake t =>
    simp only [step, wakeStep, Option.ite_none_left_eq_some] at hstep
    obtain ⟨hdelivered, hstep⟩ := hstep
    split at hstep
    · rename_i timed hpos
      cases hstep
      exact .returns hdelivered hpos
    · rename_i hpos
      cases hstep
      exact .yields hdelivered hpos
    · cases hstep
  | expire t =>
    simp only [step] at hstep
    split at hstep
    · rename_i u htimer
      cases hstep
      exact .expires htimer
    · cases hstep
  | handler t =>
    simp only [step] at hstep
    split at hstep
    · rename_i u aborted htimer
      cases hstep
      exact .handles htimer
    · cases hstep
  | interrupt t =>
    cases hstep
    exact .interrupts
  | disable t level =>
    simp only [step] at hstep
    split at hstep
    · rename_i last hpos
      cases hstep
      exact .disables hpos
    · cases hstep

/-! ### What a thread sees -/

/-- What one thread sees of the state. -/
@[ext] structure View where
  pos : Pos
  pending : Nat
  timer : Timer Unit
  queued : Bool → Prop
  owns : Prop

def State.view (s : State τ) (t : τ) : View where
  pos := s.pos t
  pending := s.pending t
  timer := s.timer t
  queued := fun timed => ⟨t, timed⟩ ∈ s.mutex.suspended
  owns := s.mutex.owner = some t

namespace View

/-- The thread waits for nothing. -/
def Away (v : View) : Prop := (∀ timed, ¬ v.queued timed) ∧ v.timer = .idle

/-- What holds of a thread at its position: a paused thread is in the queue, or was handed the
mutex, or its timer has taken it out of the queue, and it is resumed once. -/
def Ok (v : View) : Prop :=
  match v.pos with
  | .idle _ => v.Away ∧ v.pending = 0
  | .yielding => v.Away ∧ v.pending = 1 ∧ ¬ v.owns
  | .paused false => ¬ v.queued true ∧ v.timer = .idle ∧
      ((v.queued false ∧ ¬ v.owns ∧ v.pending = 0) ∨ (¬ v.queued false ∧ v.owns ∧ v.pending = 1))
  | .paused true => ¬ v.queued false ∧
      match v.timer with
      | .armed _ => v.queued true ∧ ¬ v.owns ∧ v.pending = 0
      | .queued _ true => ¬ v.queued true ∧ v.owns ∧ v.pending = 0
      | .queued _ false => ((v.queued true ∧ ¬ v.owns) ∨ (¬ v.queued true ∧ v.owns)) ∧ v.pending = 0
      | .idle => ¬ v.queued true ∧ v.pending = 1

variable {v : View}

theorem Ok.paused (h : v.Ok) {timed : Bool} (hqueued : v.queued timed) :
    v.pos = .paused timed ∧ ¬ v.owns ∧ v.pending = 0 := by
  obtain ⟨pos, pending, timer, queued, owns⟩ := v
  cases timed <;> cases pos <;> simp only [Ok, Away] at h hqueued ⊢ <;> grind

theorem Ok.handed (h : v.Ok) {timed : Bool} (hqueued : v.queued timed) :
    (View.mk v.pos (if timed then v.pending else v.pending + 1)
      (if timed then v.timer.cancel else v.timer) (fun _ => False)
      True).Ok := by
  obtain ⟨pos, pending, timer, queued, owns⟩ := v
  cases timed <;> cases pos <;> cases timer
    <;> simp only [Ok, Away, Timer.cancel] at h hqueued ⊢ <;> grind

theorem Ok.handled (h : v.Ok) {aborted : Bool} (htimer : v.timer = .queued () aborted) :
    (View.mk v.pos (v.pending + 1) .idle (fun timed => v.owns ∧ v.queued timed) v.owns).Ok := by
  obtain ⟨pos, pending, timer, queued, owns⟩ := v
  cases pos <;> simp only [Ok, Away] at h htimer ⊢ <;> grind

theorem Ok.expired (h : v.Ok) (htimer : v.timer = .armed ()) :
    ({ v with timer := .queued () false } : View).Ok := by
  obtain ⟨pos, pending, timer, queued, owns⟩ := v
  cases pos <;> simp only [Ok, Away] at h htimer ⊢ <;> grind

theorem Ok.returned (h : v.Ok) (hpending : 0 < v.pending) : v.Away ∧ v.pending = 1 := by
  obtain ⟨pos, pending, timer, queued, owns⟩ := v
  cases pos with
  | idle last => exact absurd h.2 (Nat.ne_of_gt hpending)
  | yielding => exact ⟨h.1, h.2.1⟩
  | paused timed => cases timed <;> simp only [Ok, Away, Bool.forall_bool] at h hpending ⊢ <;> grind

end View

/-! ### The invariant -/

structure Inv (green : τ → Bool) (s : State τ) : Prop where
  thread : ∀ t, (s.view t).Ok
  nodup : (s.mutex.suspended.map SuspendedItem.f).Nodup
  free : s.mutex.owner = none → s.mutex.suspended = []
  ownerGreen : ∀ t, s.mutex.owner = some t → green t = true
  queuedGreen : ∀ i ∈ s.mutex.suspended, green i.f = true

omit [DecidableEq τ] in
theorem Inv.idle (h : Inv green s) {t : τ} {last : Option (Op × Outcome)}
    (hpos : s.pos t = .idle last) :
    (s.view t).Away ∧ s.pending t = 0 := by
  have hok := h.thread t
  simp only [View.Ok, State.view, hpos] at hok
  exact hok

theorem view_ends (s : State τ) (t : τ) (op : Op) (r : Outcome) (u : τ) :
    (s.ends t op r).view u = if u = t then { s.view u with pos := .idle (some (op, r)) }
    else s.view u := by
  split
  · rename_i hu
    subst hu
    simp [State.view, State.ends, State.setPos, State.pending]
  · rename_i hu
    simp [State.view, State.ends, State.setPos, State.pending, hu]

theorem Inv.ends (h : Inv green s) {t : τ} {last : Option (Op × Outcome)}
    (hpos : s.pos t = .idle last) {m : LockState τ} (hsuspended : m.suspended = s.mutex.suspended)
    (howner : ∀ u, u ≠ t → (m.owner = some u ↔ s.mutex.owner = some u))
    (hfree : m.owner = none → m.suspended = []) (hgreen : ∀ u, m.owner = some u → green u = true)
    (op : Op) (r : Outcome) :
    Inv green ((s.setMutex m).ends t op r) where
  thread := by
    intro u
    rw [view_ends]
    have hok := h.thread u
    split
    · rename_i hu
      subst hu
      obtain ⟨⟨hqueued, htimer⟩, hpending⟩ := h.idle hpos
      refine ⟨⟨fun timed => ?_, htimer⟩, hpending⟩
      have hnot := hqueued timed
      simp only [State.view] at hnot
      simpa only [State.view, State.setMutex, hsuspended] using hnot
    · rename_i hu
      have heq : (s.setMutex m).view u = s.view u := by
        simp only [State.view, State.setMutex, hsuspended, howner u hu]
        rfl
      rw [heq]
      exact hok
  nodup := by
    show (m.suspended.map SuspendedItem.f).Nodup
    rw [hsuspended]
    exact h.nodup
  free := hfree
  ownerGreen := hgreen
  queuedGreen := by
    show ∀ i ∈ m.suspended, green i.f = true
    rw [hsuspended]
    exact h.queuedGreen

omit [DecidableEq τ] in
theorem Inv.sameMutex (h : Inv green s) (hmutex : s'.mutex = s.mutex)
    (hthread : ∀ u, (s'.view u).Ok) : Inv green s' where
  thread := hthread
  nodup := by
    rw [hmutex]
    exact h.nodup
  free := by
    rw [hmutex]
    exact h.free
  ownerGreen := by
    rw [hmutex]
    exact h.ownerGreen
  queuedGreen := by
    rw [hmutex]
    exact h.queuedGreen

theorem Inv.queues (h : Inv green s) {t u : τ} {last : Option (Op × Outcome)} {timed : Bool}
    (hpos : s.pos t = .idle last)
    (hgreen : green t = true) (hown : s.mutex.owner = some u) (hne : u ≠ t) :
    Inv green
    (((s.setMutex { s.mutex with suspended := s.mutex.suspended ++ [⟨t, timed⟩] }).setTimer t
      (if timed then .armed () else s.timer t)).setPos t (.paused timed)) where
  thread := by
    intro v
    have hok := h.thread v
    by_cases hv : v = t
    · subst hv
      obtain ⟨⟨hqueued, htimer⟩, hpending⟩ := h.idle hpos
      have hout : ∀ b, (⟨v, b⟩ : SuspendedItem τ) ∉ s.mutex.suspended := hqueued
      have hidle : s.timer v = .idle := htimer
      have hzero : s.posted v + s.delivered v = 0 := hpending
      have hnot : ¬ s.mutex.owner = some v := fun heq => hne (Option.some.inj (hown.symm.trans heq))
      cases timed <;> simp [State.view, View.Ok, State.setPos, State.setTimer, State.setMutex,
        State.pending, hout, hidle, hzero, hnot]
    · have heq :
        (((s.setMutex { s.mutex with suspended := s.mutex.suspended ++ [⟨t, timed⟩] }).setTimer t
          (if timed then .armed () else s.timer t)).setPos t (.paused timed)).view v =
            s.view v := by
        simp [State.view, State.setPos, State.setTimer, State.setMutex, State.pending, hv]
      rw [heq]
      exact hok
  nodup := by
    have hnot : t ∉ s.mutex.suspended.map SuspendedItem.f := by
      rintro hmem
      obtain ⟨⟨f, b⟩, hi, rfl⟩ := List.mem_map.mp hmem
      exact (h.idle hpos).1.1 b hi
    show ((s.mutex.suspended ++ [(⟨t, timed⟩ : SuspendedItem τ)]).map SuspendedItem.f).Nodup
    rw [List.map_append]
    refine List.Nodup.append h.nodup (List.nodup_singleton t) fun x hx hx' => ?_
    rw [List.map_singleton, List.mem_singleton] at hx'
    rw [hx'] at hx
    exact hnot hx
  free := fun hnone => nomatch hown.symm.trans hnone
  ownerGreen := h.ownerGreen
  queuedGreen := by
    intro i hi
    rcases List.mem_append.mp hi with hi | hi
    · exact h.queuedGreen i hi
    · rw [List.mem_singleton.mp hi]
      exact hgreen

theorem Inv.hands (h : Inv green s) {t : τ} {last : Option (Op × Outcome)} {next : SuspendedItem τ}
    {rest : List (SuspendedItem τ)} {level : Nat} {switch : Bool} (hpos : s.pos t = .idle last)
    (hown : s.mutex.owner = some t) (hqueue : s.mutex.suspended = next :: rest) :
    Inv green (((s.setMutex ⟨some next.f, level, rest⟩).wakeItem next).unlockEnds t switch) where
  thread := by
    obtain ⟨f, b⟩ := next
    have hmem : (⟨f, b⟩ : SuspendedItem τ) ∈ s.mutex.suspended := by
      rw [hqueue]
      exact List.mem_cons_self
    have hft : f ≠ t := by
      rintro rfl
      exact (h.idle hpos).1.1 b hmem
    have hnodup := h.nodup
    rw [hqueue, List.map_cons, List.nodup_cons] at hnodup
    intro v
    have hok := h.thread v
    by_cases hvf : v = f
    · subst hvf
      have hgone : ∀ b', (⟨v, b'⟩ : SuspendedItem τ) ∉ rest := fun b' hrest =>
        hnodup.1 (List.mem_map.mpr ⟨⟨v, b'⟩, hrest, rfl⟩)
      have hhanded := hok.handed hmem
      have heq : (((s.setMutex ⟨some v, level, rest⟩).wakeItem ⟨v, b⟩).unlockEnds t switch).view v =
          View.mk (s.view v).pos (if b then (s.view v).pending else (s.view v).pending + 1)
            (if b then (s.view v).timer.cancel else (s.view v).timer) (fun _ => False) True := by
        cases b <;> cases switch <;>
          simp [State.view, State.unlockEnds, State.ends, State.setPos, State.wakeItem,
            State.setTimer, State.resume, State.setMutex,
            State.pending, hft, hgone, Nat.add_right_comm]
      rw [heq]
      exact hhanded
    · have hqueued : ∀ b', (⟨v, b'⟩ : SuspendedItem τ) ∈ rest ↔
        (⟨v, b'⟩ : SuspendedItem τ) ∈ s.mutex.suspended := by
        intro b'
        rw [hqueue, List.mem_cons]
        exact ⟨.inr, fun hor => hor.resolve_left fun heq => hvf (congrArg SuspendedItem.f heq)⟩
      have hnot : ¬ f = v := fun heq => hvf heq.symm
      by_cases hvt : v = t
      · subst hvt
        obtain ⟨⟨hout, htimer⟩, hpending⟩ := h.idle hpos
        have hout : ∀ b', (⟨v, b'⟩ : SuspendedItem τ) ∉ s.mutex.suspended := hout
        have hidle : s.timer v = .idle := htimer
        have hzero : s.posted v = 0 ∧ s.delivered v = 0 := by simpa [State.pending] using hpending
        cases b <;> cases switch <;>
          simp [State.view, View.Ok, View.Away, State.unlockEnds, State.ends, State.setPos,
            State.wakeItem, State.setTimer,
            State.resume, State.setMutex, State.pending, hvf, hnot, hqueued, hout, hidle, hzero]
      · have hnot' : ¬ t = v := fun heq => hvt heq.symm
        have heq : (((s.setMutex ⟨some f, level, rest⟩).wakeItem ⟨f, b⟩).unlockEnds t switch).view
          v = s.view v := by
          cases b <;> cases switch <;>
            simp [State.view, State.unlockEnds, State.ends, State.setPos, State.wakeItem,
              State.setTimer, State.resume,
              State.setMutex, State.pending, hvf, hvt, hnot, hnot', hqueued, hown]
        rw [heq]
        exact hok
  nodup := by
    have hnodup := h.nodup
    rw [hqueue, List.map_cons, List.nodup_cons] at hnodup
    rw [State.unlockEnds_mutex, State.wakeItem_mutex]
    exact hnodup.2
  free := by
    rw [State.unlockEnds_mutex, State.wakeItem_mutex]
    exact nofun
  ownerGreen := by
    rw [State.unlockEnds_mutex, State.wakeItem_mutex]
    intro u hu
    obtain rfl : next.f = u := Option.some.inj hu
    refine h.queuedGreen next ?_
    rw [hqueue]
    exact List.mem_cons_self
  queuedGreen := by
    rw [State.unlockEnds_mutex, State.wakeItem_mutex]
    intro i hi
    refine h.queuedGreen i ?_
    rw [hqueue]
    exact List.mem_cons_of_mem next hi

/-- `timeout_handler` takes the thread out of the queue, unless the thread owns the mutex, and
nobody else. -/
theorem mem_timeoutHandler {m : LockState τ} (hnodup : (m.suspended.map SuspendedItem.f).Nodup)
    {t u : τ} {b : Bool} :
    (⟨u, b⟩ : SuspendedItem τ) ∈ (MutexClass.timeoutHandler m t).suspended ↔
      (u = t → m.owner = some t) ∧ ⟨u, b⟩ ∈ m.suspended := by
  unfold MutexClass.timeoutHandler
  by_cases hown : m.owner = some t
  · rw [if_neg (not_not.mpr hown)]
    exact ⟨fun hmem => ⟨fun _ => hown, hmem⟩, And.right⟩
  · rw [if_pos hown]
    by_cases hu : u = t
    · subst hu
      refine iff_of_false (fun hmem => ?_) fun hand => hown (hand.1 rfl)
      -- the entry that was erased is the only one of the thread
      obtain ⟨a, front, back, hfront, ha, hsplit, herased⟩ :=
        List.exists_of_eraseP (p := fun i : SuspendedItem τ => i.f = u)
        (List.mem_of_mem_eraseP hmem) (decide_eq_true rfl)
      rw [herased] at hmem
      rw [hsplit, List.map_append, List.map_cons, List.nodup_middle, List.nodup_cons] at hnodup
      refine hnodup.1 ?_
      rw [← List.map_append, of_decide_eq_true ha]
      exact List.mem_map.mpr ⟨_, hmem, rfl⟩
    · rw [List.mem_eraseP_of_neg (by simpa using hu)]
      exact ⟨fun hmem => ⟨fun heq => absurd heq hu, hmem⟩, And.right⟩

theorem timeoutHandler_owner (m : LockState τ) (t : τ) :
    (MutexClass.timeoutHandler m t).owner = m.owner := by
  unfold MutexClass.timeoutHandler
  split <;> rfl

theorem timeoutHandler_level (m : LockState τ) (t : τ) :
    (MutexClass.timeoutHandler m t).level = m.level := by
  unfold MutexClass.timeoutHandler
  split <;> rfl

theorem timeoutHandler_sublist (m : LockState τ) (t : τ) :
    (MutexClass.timeoutHandler m t).suspended.Sublist m.suspended := by
  unfold MutexClass.timeoutHandler
  split
  · exact List.eraseP_sublist
  · exact List.Sublist.refl _

theorem Inv.handles (h : Inv green s) {t : τ} {u : Unit} {aborted : Bool}
    (htimer : s.timer t = .queued u aborted) :
    Inv green (((s.setTimer t .idle).setMutex (MutexClass.timeoutHandler s.mutex t)).resume t) where
  thread := by
    intro v
    by_cases hv : v = t
    · subst hv
      have hview :
        (((s.setTimer v .idle).setMutex (MutexClass.timeoutHandler s.mutex v)).resume v).view v =
          View.mk (s.view v).pos ((s.view v).pending + 1) .idle
          (fun b => (s.view v).owns ∧ (s.view v).queued b)
            (s.view v).owns := by
        simp [State.view, State.setTimer, State.setMutex, State.resume, State.pending,
          mem_timeoutHandler h.nodup,
          timeoutHandler_owner, Nat.add_right_comm]
      rw [hview]
      exact (h.thread v).handled htimer
    · have hview :
        (((s.setTimer t .idle).setMutex (MutexClass.timeoutHandler s.mutex t)).resume t).view v =
        s.view v := by
        simp [State.view, State.setTimer, State.setMutex, State.resume, State.pending,
          mem_timeoutHandler h.nodup,
          timeoutHandler_owner, hv]
      rw [hview]
      exact h.thread v
  nodup := h.nodup.sublist ((timeoutHandler_sublist s.mutex t).map SuspendedItem.f)
  free := by
    intro hnone
    have hempty := h.free ((timeoutHandler_owner s.mutex t).symm.trans hnone)
    have hsub := timeoutHandler_sublist s.mutex t
    rw [hempty] at hsub
    exact List.sublist_nil.mp hsub
  ownerGreen := fun u hu => h.ownerGreen u ((timeoutHandler_owner s.mutex t).symm.trans hu)
  queuedGreen := fun i hi => h.queuedGreen i ((timeoutHandler_sublist s.mutex t).subset hi)

theorem Inv.returns (h : Inv green s) {t : τ} (hdelivered : s.delivered t ≠ 0) (op : Op)
    (r : Outcome) :
    Inv green ((s.consume t).ends t op r) := by
  refine h.sameMutex rfl fun v => ?_
  rw [view_ends]
  split
  · rename_i hv
    subst hv
    obtain ⟨haway, hpending⟩ :=
      (h.thread v).returned (Nat.add_pos_right _ (Nat.pos_of_ne_zero hdelivered))
    refine ⟨haway, ?_⟩
    have hone : s.posted v + s.delivered v = 1 := hpending
    simp [State.view, State.consume, State.pending]
    omega
  · rename_i hv
    have hview : (s.consume t).view v = s.view v := by
      simp [State.view, State.consume, State.pending, hv]
    rw [hview]
    exact h.thread v

theorem Inv.move (h : Inv green s) (hmove : Move c green s l s') : Inv green s' := by
  cases hmove with
  | refused hpos => exact h.ends hpos rfl (fun _ _ => Iff.rfl) h.free h.ownerGreen _ _
  | @takes t last op switch hpos hgreen hfree =>
    refine h.ends (m := { s.mutex with owner := some t, level := c.firstLevel s.mutex.level }) hpos
      rfl (fun u hu => ?_) nofun
      (fun u hu => ?_) _ _
    · rw [hfree]
      exact iff_of_false (fun heq => hu (Option.some.inj heq).symm) nofun
    · obtain rfl : t = u := Option.some.inj hu
      exact hgreen
  | again hpos =>
    exact h.ends (m := { s.mutex with level := c.nextLevel s.mutex.level }) hpos rfl
      (fun _ _ => Iff.rfl) h.free h.ownerGreen _ _
  | queues timed hpos hgreen hown hne => exact h.queues hpos hgreen hown hne
  | undoes hpos =>
    exact h.ends (m := { s.mutex with level := s.mutex.level - 1 }) hpos rfl
      (fun _ _ => Iff.rfl) h.free h.ownerGreen _ _
  | @frees t last switch hpos hgreen hown _ hempty =>
    refine h.ends (m := ⟨none, if c.recursive then 0 else s.mutex.level, []⟩) hpos hempty.symm
      (fun u hu => ?_) (fun _ => rfl)
      nofun _ _
    rw [hown]
    exact iff_of_false nofun fun heq => hu (Option.some.inj heq).symm
  | hands hpos hgreen hown _ hqueue => exact h.hands hpos hown hqueue
  | @deliver t hposted =>
    refine h.sameMutex rfl fun v => ?_
    have hview : (s.deliver t).view v = s.view v := by
      have hpending : (s.deliver t).pending v = s.pending v := by
        by_cases hv : v = t
        · subst hv
          simp only [State.pending, State.deliver, Function.update_self]
          omega
        · simp [State.pending, State.deliver, hv]
      simp only [State.view, hpending]
      rfl
    rw [hview]
    exact h.thread v
  | returns hdelivered => exact h.returns hdelivered _ _
  | yields hdelivered => exact h.returns hdelivered _ _
  | @expires t u htimer =>
    refine h.sameMutex rfl fun v => ?_
    by_cases hv : v = t
    · subst hv
      have hview : (s.setTimer v (.queued u false)).view v =
        { s.view v with timer := .queued () false } := by
        simp [State.view, State.setTimer, State.pending]
      rw [hview]
      exact (h.thread v).expired htimer
    · have hview : (s.setTimer t (.queued u false)).view v = s.view v := by
        simp [State.view, State.setTimer, State.pending, hv]
      rw [hview]
      exact h.thread v
  | handles htimer => exact h.handles htimer
  | interrupts => exact h.sameMutex rfl h.thread
  | disables => exact h.sameMutex rfl h.thread

theorem reach_inv {ok : State τ → Label τ → Prop} (hr : (system c green).Reach ok s) :
    Inv green s := by
  refine hr.invariant (I := Inv green) (fun s hs => ?_) fun s l s' _ h _ hstep =>
    h.move (step_move hstep)
  obtain ⟨level, rfl, -⟩ := hs
  exact ⟨fun t => ⟨⟨fun _ => List.not_mem_nil, rfl⟩, rfl⟩, List.nodup_nil,
    fun _ => rfl, nofun, nofun⟩

/-! ### What a step does to the other threads -/

/-- The thread whose step it is, or whose activation, timer or interruption it is about. -/
def Label.thread : Label τ → τ
  | .call t _ _ | .deliver t | .wake t | .expire t | .handler t | .interrupt t | .disable t _ => t

@[simp]
theorem wakeItem_pos (s : State τ) (i : SuspendedItem τ) : (s.wakeItem i).pos = s.pos := by
  unfold State.wakeItem
  split <;> rfl

theorem unlockEnds_pos (s : State τ) (t : τ) (switch : Bool) :
    (s.unlockEnds t switch).pos = Function.update s.pos t
    (if switch then .yielding else .idle (some (.unlock, .done))) := by
  cases switch <;> rfl

theorem Move.pos_ne (h : Move c green s l s') {u : τ} (hu : u ≠ l.thread) : s'.pos u = s.pos u := by
  cases h with
  | hands =>
    rw [unlockEnds_pos, wakeItem_pos]
    exact Function.update_of_ne hu _ _
  | deliver | expires | handles | interrupts | disables => rfl
  | _ => exact Function.update_of_ne hu _ _

/-- The step of another thread makes no thread an owner that does not wait, and takes nobody's mutex
away. -/
theorem Move.owner_ne (h : Move c green s l s') (hinv : Inv green s) {u : τ}
    {last : Option (Op × Outcome)} (hu : u ≠ l.thread)
    (hidle : s.pos u = .idle last) : s'.mutex.owner = some u ↔ s.mutex.owner = some u := by
  cases h with
  | @takes t _ op switch hpos hgreen hfree =>
    rw [hfree]
    exact iff_of_false (fun heq => hu (Option.some.inj heq).symm) nofun
  | @frees t _ switch hpos hgreen hown =>
    rw [hown]
    exact iff_of_false nofun fun heq => hu (Option.some.inj heq).symm
  | @hands t _ next rest switch hpos hgreen hown hlast hqueue =>
    rw [State.unlockEnds_mutex, State.wakeItem_mutex, hown]
    refine iff_of_false (fun heq => ?_) fun heq => hu (Option.some.inj heq).symm
    have hnext : next.f = u := Option.some.inj heq
    refine (hinv.idle hidle).1.1 next.t ?_
    show (⟨u, next.t⟩ : SuspendedItem τ) ∈ s.mutex.suspended
    rw [hqueue, ← hnext]
    exact List.mem_cons_self
  | handles =>
    show (MutexClass.timeoutHandler s.mutex _).owner = some u ↔ _
    rw [timeoutHandler_owner]
  | _ => exact Iff.rfl

/-! ### How an operation ends -/

theorem pos_ends {t : τ} {op op' : Op} {r r' : Outcome}
    (hpos : (s.ends t op' r').pos t = .idle (some (op, r))) :
    op' = op ∧ r' = r := by
  simp only [State.ends, State.setPos, Function.update_self, Pos.idle.injEq, Option.some.injEq,
    Prod.mk.injEq] at hpos
  exact hpos

/-- How the last operation of the thread came to its end, if it is outside after its step. -/
inductive Ended (c : MutexClass) (green : τ → Bool) (s : State τ) (l : Label τ) (s' : State τ)
    (op : Op) (r : Outcome) : Prop
  | refused {switch} (hl : l = .call l.thread op switch)
      (hrefused : Refused c green s l.thread op r) (hmutex : s'.mutex = s.mutex)
  | acquired (hop : op ≠ .unlock) (hr : r = op.success) (hown : s'.mutex.owner = some l.thread)
  | released (hop : op = .unlock) (hr : r = .done)
  | paused {timed} (hl : l = .wake l.thread) (hpos : s.pos l.thread = .paused timed)
      (hdelivered : s.delivered l.thread ≠ 0)
      (hop : op = pauseOp timed) (hr : r = pauseOutcome s l.thread timed)
      (hmutex : s'.mutex = s.mutex)
  | earlier (hpos : s.pos l.thread = .idle (some (op, r))) (howner : s'.mutex.owner = s.mutex.owner)

theorem Move.ended (hmove : Move c green s l s') {op : Op} {r : Outcome}
    (hpos' : s'.pos l.thread = .idle (some (op, r))) :
    Ended c green s l s' op r := by
  cases hmove with
  | refused hpos hrefused =>
    obtain ⟨rfl, rfl⟩ := pos_ends hpos'
    exact .refused rfl hrefused rfl
  | takes hpos hgreen hfree hop =>
    obtain ⟨rfl, rfl⟩ := pos_ends hpos'
    exact .acquired hop rfl rfl
  | again hpos hgreen hown hop =>
    obtain ⟨rfl, rfl⟩ := pos_ends hpos'
    exact .acquired hop rfl hown
  | queues =>
    simp only [Label.thread, State.setPos, Function.update_self] at hpos'
    cases hpos'
  | undoes | frees | yields =>
    obtain ⟨rfl, rfl⟩ := pos_ends hpos'
    exact .released rfl rfl
  | @hands t last next rest switch =>
    have hpos' : (((s.setMutex _).wakeItem next).unlockEnds t switch).pos t = _ := hpos'
    rw [unlockEnds_pos, Function.update_self] at hpos'
    split at hpos'
    · cases hpos'
    · cases hpos'
      exact .released rfl rfl
  | returns hdelivered hpos =>
    obtain ⟨rfl, rfl⟩ := pos_ends hpos'
    exact .paused rfl hpos hdelivered rfl rfl rfl
  | deliver | expires | interrupts | disables => exact .earlier hpos' rfl
  | handles => exact .earlier hpos' (timeoutHandler_owner s.mutex _)

end MutexThreads

end GreenThread
