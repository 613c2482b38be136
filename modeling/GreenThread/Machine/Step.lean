import GreenThread.Library.System
import GreenThread.Mutex.Code
import Mathlib.Logic.Function.Basic

/-!
# Threads, mutexes and condition variables

The step function of any number of threads over a family of mutexes and a family of condition
variables. One step is one spinlock section of `mutex.cpp` or `condition.cpp`, one switch of a
thread, the expiry of a timer, the run of its handler, or a step of the client.

`resume` posts an `activate_thread` handler to the thread's strand. A posted handler is delivered at
any later time, and a thread that has switched out returns from its switch by using one delivered
activation; the handlers of one thread carry no mark that says which switch they are meant for. A
`yield` posts the thread's own activation, because `one_step` resumes a thread that left in the
state `READY`.

The client is the code that calls the primitives. It says which call each of its positions makes,
where each result leads, and what its own steps do to its shared data.
-/

namespace GreenThread

inductive CvStatus
  | noTimeout
  | timeout
  deriving DecidableEq, Repr

/-- A call of a synchronisation primitive. -/
inductive Call (μ κ : Type)
  | lock (m : μ)
  | tryLock (m : μ)
  | unlock (m : μ)
  | wait (c : κ) (m : μ)
  | waitRel (c : κ) (m : μ)
  | notifyOne (c : κ)
  | notifyAll (c : κ)
  deriving DecidableEq, Repr

/-- What a call gives back. -/
inductive Ret
  | done
  | bool (b : Bool)
  | status (s : CvStatus)
  | threw (e : ErrorCode)
  deriving DecidableEq, Repr

/-- A call of `wait` or `wait_rel` that has queued its thread. -/
structure WaitCall (μ κ : Type) where
  cond : κ
  mtx : μ
  timed : Bool
  deriving DecidableEq, Repr

/-- The timer of a `wait_rel`: its handler is queued with success by the expiry and with an error by
an effective `cancel`. -/
inductive Timer (κ : Type)
  | idle
  | armed (c : κ)
  | queued (c : κ) (aborted : Bool)
  deriving DecidableEq, Repr

/-- Cancelling a timer that has already expired has no effect: its handler is queued with
success. -/
def Timer.cancel {κ : Type} : Timer κ → Timer κ
  | .armed c => .queued c true
  | t => t

/-- Where a thread is: in the client, or inside a primitive called from the client position `a`. -/
inductive PC (μ κ α : Type)
  | user (a : α)
  /-- queued in `lock`, in `pause` -/
  | locking (m : μ) (a : α)
  /-- switched out by the `yield` that ends `unlock`, `notify_one` and `notify_all` -/
  | yielding (a : α)
  /-- in `wait`, queued on the condition variable, before `m.unlock()` -/
  | unlocking (w : WaitCall μ κ) (a : α)
  /-- in `wait`, switched out by the `yield` of `m.unlock()` -/
  | unlockYield (w : WaitCall μ κ) (a : α)
  /-- in `wait`, in `pause` -/
  | pausing (w : WaitCall μ κ) (a : α)
  /-- in `wait`, before the `m.lock()` of the `relock_guard` -/
  | relocking (w : WaitCall μ κ) (a : α)
  /-- in `wait`, queued in that `m.lock()`, in `pause` -/
  | relockPause (w : WaitCall μ κ) (a : α)
  /-- an exception left the destructor of the `relock_guard` -/
  | terminated
  deriving DecidableEq, Repr

structure Client (τ μ κ α σ ω : Type) where
  call : α → Option (Call μ κ)
  ret : α → Ret → α
  act : τ → α → σ → ω → Option (α × σ)

namespace Machine

variable {τ μ κ α σ ω : Type} [DecidableEq τ] [DecidableEq μ] [DecidableEq κ]

structure State (τ μ κ α σ : Type) where
  mutex : μ → Mutex τ
  cond : κ → List (SuspendedItem τ)
  pc : τ → PC μ κ α
  posted : τ → Nat
  delivered : τ → Nat
  timer : τ → Timer κ
  /-- the variable `ret` of the thread's `wait_rel` -/
  status : τ → CvStatus
  shared : σ

namespace State

variable (s : State τ μ κ α σ)

def setPc (t : τ) (p : PC μ κ α) : State τ μ κ α σ := { s with pc := Function.update s.pc t p }

def setMutex (m : μ) (x : Mutex τ) : State τ μ κ α σ :=
  { s with mutex := Function.update s.mutex m x }

def setCond (c : κ) (q : List (SuspendedItem τ)) : State τ μ κ α σ :=
  { s with cond := Function.update s.cond c q }

def setTimer (t : τ) (x : Timer κ) : State τ μ κ α σ :=
  { s with timer := Function.update s.timer t x }

def setStatus (t : τ) (x : CvStatus) : State τ μ κ α σ :=
  { s with status := Function.update s.status t x }

/-- The activations of `t` that no switch has used yet. -/
def pending (t : τ) : Nat := s.posted t + s.delivered t

def resume (t : τ) : State τ μ κ α σ :=
  { s with posted := Function.update s.posted t (s.posted t + 1) }

/-- An `activate_thread` handler of `t` is run. -/
def deliver (t : τ) : State τ μ κ α σ :=
  { s with
    posted := Function.update s.posted t (s.posted t - 1)
    delivered := Function.update s.delivered t (s.delivered t + 1) }

/-- A switch of `t` uses a delivered activation. -/
def consume (t : τ) : State τ μ κ α σ :=
  { s with delivered := Function.update s.delivered t (s.delivered t - 1) }

/-- `yield` that switches: the thread leaves with `READY` and `one_step` posts its activation. -/
def yieldTo (t : τ) (p : PC μ κ α) : State τ μ κ α σ := (s.resume t).setPc t p

/-- What a notification does with the entry it took from the queue. -/
def wakeItem (i : SuspendedItem τ) : State τ μ κ α σ :=
  if i.t then s.setTimer i.f (s.timer i.f).cancel else s.resume i.f

/-- The result of the wait the thread is in. -/
def waitRet (t : τ) (w : WaitCall μ κ) : Ret := if w.timed then .status (s.status t) else .done

end State

variable (C : Client τ μ κ α σ ω) (green : τ → Bool)

/-- `detail::cur_thread`. -/
def curThread (t : τ) : Option τ := if green t then some t else none

def lockStep (s : State τ μ κ α σ) (t : τ) (a : α) (m : μ) : State τ μ κ α σ :=
  match (s.mutex m).lock (curThread green t) with
  | (.returned, m') => (s.setMutex m m').setPc t (.user (C.ret a .done))
  | (.queued, m') => (s.setMutex m m').setPc t (.locking m a)
  | (.threw e, m') => (s.setMutex m m').setPc t (.user (C.ret a (.threw e)))

def tryLockStep (s : State τ μ κ α σ) (t : τ) (a : α) (m : μ) : State τ μ κ α σ :=
  let (b, m') := (s.mutex m).tryLock (curThread green t)
  (s.setMutex m m').setPc t (.user (C.ret a (.bool b)))

/-- `switch` tells whether the scheduling conditions of `yield(owner_)` hold. -/
def unlockStep (s : State τ μ κ α σ) (t : τ) (a : α) (m : μ) (switch : Bool) : State τ μ κ α σ :=
  match (s.mutex m).unlock (curThread green t) with
  | (.returned, m') => (s.setMutex m m').setPc t (.user (C.ret a .done))
  | (.handedOver next, m') =>
    let s' := (s.setMutex m m').resume next
    if switch then s'.yieldTo t (.yielding a) else s'.setPc t (.user (C.ret a .done))
  | (.threw e, m') => (s.setMutex m m').setPc t (.user (C.ret a (.threw e)))

/-- The first section of `wait` and `wait_rel`: the check of the owner, then the push under the
condition variable's spinlock, which for `wait_rel` also starts the timer. -/
def waitStep (s : State τ μ κ α σ) (t : τ) (a : α) (w : WaitCall μ κ) : State τ μ κ α σ :=
  if (s.mutex w.mtx).owner ≠ some t then s.setPc t (.user (C.ret a (.threw .operationNotPermitted)))
  else
    let queued := s.setCond w.cond (s.cond w.cond ++ [⟨t, w.timed⟩])
    let started := if w.timed then (queued.setTimer t (.armed w.cond)).setStatus t .noTimeout
      else queued
    started.setPc t (.unlocking w a)

/-- The end of a notification: a green thread yields, a native one returns. -/
def notifyEnd (s : State τ μ κ α σ) (t : τ) (a : α) : State τ μ κ α σ :=
  if green t then s.yieldTo t (.yielding a) else s.setPc t (.user (C.ret a .done))

def notifyOneStep (s : State τ μ κ α σ) (t : τ) (a : α) (c : κ) : State τ μ κ α σ :=
  match s.cond c with
  | [] => s.setPc t (.user (C.ret a .done))
  | i :: rest => notifyEnd C green ((s.setCond c rest).wakeItem i) t a

/-- The loop of `notify_all`, run while the queue holds `items`. -/
def notifyLoop (c : κ) : List (SuspendedItem τ) → State τ μ κ α σ → State τ μ κ α σ
  | [], s => s
  | i :: rest, s => notifyLoop c rest ((s.setCond c rest).wakeItem i)

def notifyAllStep (s : State τ μ κ α σ) (t : τ) (a : α) (c : κ) : State τ μ κ α σ :=
  notifyEnd C green (notifyLoop c (s.cond c) s) t a

/-- The thread makes the call its client position stands for. A native thread has no thread object
to wait with. -/
def callStep (s : State τ μ κ α σ) (t : τ) (a : α) (switch : Bool) :
    Call μ κ → Option (State τ μ κ α σ)
  | .lock m => some (lockStep C green s t a m)
  | .tryLock m => some (tryLockStep C green s t a m)
  | .unlock m => some (unlockStep C green s t a m switch)
  | .wait c m => if green t then some (waitStep C s t a ⟨c, m, false⟩) else none
  | .waitRel c m => if green t then some (waitStep C s t a ⟨c, m, true⟩) else none
  | .notifyOne c => some (notifyOneStep C green s t a c)
  | .notifyAll c => some (notifyAllStep C green s t a c)

/-- The sections of `wait` that follow the first: `m.unlock()` before the pause and `m.lock()` after
it. -/
def proceedStep (s : State τ μ κ α σ) (t : τ) (switch : Bool) : Option (State τ μ κ α σ) :=
  match s.pc t with
  | .unlocking w a =>
    match (s.mutex w.mtx).unlock (some t) with
    | (.returned, m') => some ((s.setMutex w.mtx m').setPc t (.pausing w a))
    | (.handedOver next, m') =>
      let s' := (s.setMutex w.mtx m').resume next
      some (if switch then s'.yieldTo t (.unlockYield w a) else s'.setPc t (.pausing w a))
    | (.threw e, m') => some ((s.setMutex w.mtx m').setPc t (.user (C.ret a (.threw e))))
  | .relocking w a =>
    match (s.mutex w.mtx).lock (some t) with
    | (.returned, m') => some ((s.setMutex w.mtx m').setPc t (.user (C.ret a (s.waitRet t w))))
    | (.queued, m') => some ((s.setMutex w.mtx m').setPc t (.relockPause w a))
    | (.threw _, m') => some ((s.setMutex w.mtx m').setPc t .terminated)
  | _ => none

/-- Where a switch returns to. -/
def switchReturn (s : State τ μ κ α σ) (t : τ) : Option (PC μ κ α) :=
  match s.pc t with
  | .locking _ a => some (.user (C.ret a .done))
  | .yielding a => some (.user (C.ret a .done))
  | .unlockYield w a => some (.pausing w a)
  | .pausing w a => some (.relocking w a)
  | .relockPause w a => some (.user (C.ret a (s.waitRet t w)))
  | _ => none

/-- Where a thread that has switched out goes on, told by where it is. -/
inductive Switched (s : State τ μ κ α σ) (t : τ) : PC μ κ α → Prop
  | locked {m a} : s.pc t = .locking m a → Switched s t (.user (C.ret a .done))
  | yielded {a} : s.pc t = .yielding a → Switched s t (.user (C.ret a .done))
  | unlocked {w a} : s.pc t = .unlockYield w a → Switched s t (.pausing w a)
  | resumed {w a} : s.pc t = .pausing w a → Switched s t (.relocking w a)
  | relocked {w a} : s.pc t = .relockPause w a → Switched s t (.user (C.ret a (s.waitRet t w)))

omit [DecidableEq τ] [DecidableEq μ] [DecidableEq κ] in
theorem switched {C : Client τ μ κ α σ ω} {s : State τ μ κ α σ} {t : τ} {p : PC μ κ α}
    (hp : switchReturn C s t = some p) : Switched C s t p := by
  unfold switchReturn at hp
  split at hp <;> cases hp
  · exact .locked ‹_›
  · exact .yielded ‹_›
  · exact .unlocked ‹_›
  · exact .resumed ‹_›
  · exact .relocked ‹_›

/-- A thread that has switched out uses a delivered activation. -/
def wakeStep (s : State τ μ κ α σ) (t : τ) : Option (State τ μ κ α σ) :=
  if s.delivered t = 0 then none
  else (switchReturn C s t).map fun p => (s.consume t).setPc t p

/-- `condition_variable::timeout_handler`. -/
def timeoutHandler (s : State τ μ κ α σ) (t : τ) (c : κ) (aborted : Bool) : State τ μ κ α σ :=
  if aborted then s.resume t
  else ((s.setStatus t .timeout).setCond c ((s.cond c).eraseP fun i => i.f = t)).resume t

inductive Label (τ ω : Type)
  | act (t : τ) (o : ω)
  | call (t : τ) (switch : Bool)
  | proceed (t : τ) (switch : Bool)
  | deliver (t : τ)
  | wake (t : τ)
  | expire (t : τ)
  | handler (t : τ)
  deriving DecidableEq, Repr

def step (s : State τ μ κ α σ) : Label τ ω → Option (State τ μ κ α σ)
  | .act t o =>
    match s.pc t with
    | .user a => (C.act t a s.shared o).map fun r => { s.setPc t (.user r.1) with shared := r.2 }
    | _ => none
  | .call t switch =>
    match s.pc t with
    | .user a => (C.call a).bind (callStep C green s t a switch)
    | _ => none
  | .proceed t switch => proceedStep C s t switch
  | .deliver t =>
    if s.posted t = 0 then none
    else some (s.deliver t)
  | .wake t => wakeStep C s t
  | .expire t =>
    match s.timer t with
    | .armed c => some (s.setTimer t (.queued c false))
    | _ => none
  | .handler t =>
    match s.timer t with
    | .queued c aborted => some (timeoutHandler (s.setTimer t .idle) t c aborted)
    | _ => none

/-- All mutexes are free, nobody waits, and the client starts in `start` with the data `data`. -/
def initial (start : τ → α) (data : σ) : State τ μ κ α σ where
  mutex := fun _ => .empty
  cond := fun _ => []
  pc := fun t => .user (start t)
  posted := fun _ => 0
  delivered := fun _ => 0
  timer := fun _ => .idle
  status := fun _ => .noTimeout
  shared := data

def system (start : τ → α) (data : σ) : TransitionSystem (State τ μ κ α σ) (Label τ ω) where
  init := fun s => s = initial start data
  step := step C green

/-- `Fin.instOfNat` asks for this where the two threads of a run are named `0` and `1`. -/
theorem neZero_two : @NeZero Nat Zero.ofOfNat0 2 := ⟨Nat.succ_ne_zero 1⟩

end Machine

end GreenThread
