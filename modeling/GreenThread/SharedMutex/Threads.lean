import GreenThread.Library.System
import GreenThread.Library.Counting
import GreenThread.SharedMutex.Code

/-!
# Threads of a `shared_timed_mutex`

Any number of threads run the operations of one `shared_timed_mutex`. Each critical section is one
step, and so is each notification after `lk.unlock()`; a wait ends when a notification takes the
thread from the queue, or by the timeout of a timed wait at any time, and the thread then re-takes
`state_change`. A thread may hold several locks, and calls an operation that gives a lock up only
while it holds one in the mode it converts from.

An upgrader that waits in `unlock_upgrade_and_lock` has given its lock up. The invariant counts the
exclusive lock that `unlock_shared` grants it as held from the grant on, while its notification or
its wake-up is still under way.
-/

namespace GreenThread

namespace SharedMutex

inductive Mode
  | shared
  | upgrade
  | exclusive
  deriving DecidableEq, Repr

/-- The locks that a thread holds. -/
@[ext] structure Holds where
  shared : Nat
  upgrade : Nat
  exclusive : Nat
  deriving DecidableEq, Repr

namespace Holds

def none : Holds := ⟨0, 0, 0⟩

def count (h : Holds) : Mode → Nat
  | .shared => h.shared
  | .upgrade => h.upgrade
  | .exclusive => h.exclusive

def add (h : Holds) : Mode → Holds
  | .shared => { h with shared := h.shared + 1 }
  | .upgrade => { h with upgrade := h.upgrade + 1 }
  | .exclusive => { h with exclusive := h.exclusive + 1 }

def drop (h : Holds) : Mode → Holds
  | .shared => { h with shared := h.shared - 1 }
  | .upgrade => { h with upgrade := h.upgrade - 1 }
  | .exclusive => { h with exclusive := h.exclusive - 1 }

end Holds

namespace Op

/-- The mode that the operation gives up or converts from. -/
def source : Op → Option Mode
  | .unlockShared | .tryUnlockSharedAndLock | .tryUnlockSharedAndLockUntil
  | .tryUnlockSharedAndLockUpgrade
  | .tryUnlockSharedAndLockUpgradeUntil => some .shared
  | .unlockUpgrade | .unlockUpgradeAndLock | .tryUnlockUpgradeAndLock
  | .tryUnlockUpgradeAndLockUntil
  | .unlockUpgradeAndLockShared => some .upgrade
  | .unlock | .unlockAndLockUpgrade | .unlockAndLockShared => some .exclusive
  | _ => none

/-- The mode that the operation acquires. -/
def target : Op → Option Mode
  | .lockShared | .tryLockShared | .tryLockSharedUntil | .unlockAndLockShared
  | .unlockUpgradeAndLockShared =>
    some .shared
  | .lockUpgrade | .tryLockUpgradeUntil | .tryLockUpgrade | .unlockAndLockUpgrade
  | .tryUnlockSharedAndLockUpgrade
  | .tryUnlockSharedAndLockUpgradeUntil => some .upgrade
  | .lock | .tryLock | .tryLockUntil | .unlockUpgradeAndLock | .tryUnlockUpgradeAndLock
  | .tryUnlockUpgradeAndLockUntil | .tryUnlockSharedAndLock | .tryUnlockSharedAndLockUntil =>
    some .exclusive
  | _ => none

/-- The operation keeps the lock it converts from until it succeeds. -/
def tries : Op → Bool
  | .tryUnlockSharedAndLock | .tryUnlockSharedAndLockUntil | .tryUnlockSharedAndLockUpgrade
  | .tryUnlockSharedAndLockUpgradeUntil | .tryUnlockUpgradeAndLock
  | .tryUnlockUpgradeAndLockUntil => true
  | _ => false

/-- The locks of a thread while it is in the operation. -/
def enter (op : Op) (h : Holds) : Holds :=
  match op.source with
  | some m => if op.tries then h else h.drop m
  | none => h

/-- The locks of a thread after the operation has returned `b`. -/
def exit (op : Op) (b : Bool) (h : Holds) : Holds :=
  if b then
    let h := if op.tries then op.source.elim h h.drop else h
    op.target.elim h h.add
  else h

end Op

inductive PC
  | idle
  /-- in the queue of a condition variable -/
  | asleep (op : Op) (c : Cond) (timed : Bool)
  /-- to re-take `state_change` after a wait that a notification, or the timer, has ended; a timed
  wait that is notified may still end with `timeout` -/
  | woken (op : Op) (notified timed : Bool)
  /-- after `lk.unlock()` -/
  | notifying (n : Notify) (ns : List Notify)
  /-- an `assert_*` check has failed -/
  | failed
  deriving DecidableEq, Repr

def PC.notifyNext : List Notify → PC
  | [] => .idle
  | n :: ns => .notifying n ns

/-- The notifications that the thread has still to give. -/
def PC.pending : PC → List Notify
  | .notifying n ns => n :: ns
  | _ => []

def PC.wake : PC → PC
  | .asleep op _ timed => .woken op true timed
  | p => p

/-- The threads that a notification takes from the queue. -/
def Notify.wakes {τ : Type} : Notify → List τ → List τ
  | .one _, q => q.take 1
  | .all _, q => q

def Notify.leaves {τ : Type} : Notify → List τ → List τ
  | .one _, q => q.drop 1
  | .all _, _ => []

structure State (τ : Type) where
  data : StateData
  queue : Cond → List τ
  pc : τ → PC
  hold : τ → Holds

inductive Label (τ : Type)
  | call (t : τ) (op : Op)
  | resume (t : τ) (status : CvStatus)
  /-- the timer of a timed wait -/
  | expire (t : τ)
  /-- a notification after `lk.unlock()` -/
  | notify (t : τ)
  deriving DecidableEq, Repr

variable {τ : Type} [DecidableEq τ]

namespace State

def initial : State τ := ⟨.start, fun _ => [], fun _ => .idle, fun _ => .none⟩

def setPc (s : State τ) (t : τ) (p : PC) : State τ := { s with pc := Function.update s.pc t p }

def setQueue (s : State τ) (c : Cond) (q : List τ) :
    State τ := { s with queue := Function.update s.queue c q }

/-- `notify_one` and `notify_all`. -/
def notify (s : State τ) (n : Notify) : State τ :=
  { s with
    queue := Function.update s.queue n.cond (n.leaves (s.queue n.cond))
    pc := fun t => if t ∈ n.wakes (s.queue n.cond) then (s.pc t).wake else s.pc t }

/-- What a section changes apart from its notifications. -/
def leave (s : State τ) (t : τ) (op : Op) (h : Holds) (l : Leaves) : State τ :=
  match l.next with
  | .ret b =>
    { s with
      data := l.state
      pc := Function.update s.pc t (PC.notifyNext l.after)
      hold := Function.update s.hold t (op.exit b h) }
  | .wait c timed =>
    { s with
      data := l.state
      queue := Function.update s.queue c (s.queue c ++ [t])
      pc := Function.update s.pc t (.asleep op c timed)
      hold := Function.update s.hold t h }

/-- A section of `t`, whose locks are `h` while it is in the operation. -/
def finish (s : State τ) (t : τ) (op : Op) (h : Holds) : Section → State τ
  | none => s.setPc t .failed
  | some l => l.notify.foldl notify (s.leave t op h l)

end State

/-- How a wait can end. -/
def statuses (notified timed : Bool) : CvStatus → Bool
  | .noTimeout => notified
  | .timeout => timed

def step (s : State τ) : Label τ → Option (State τ)
  | .call t op =>
    match s.pc t with
    | .idle =>
      if ∀ m, op.source = some m → 0 < (s.hold t).count m then
        some (s.finish t op (op.enter (s.hold t)) (op.run none s.data))
      else none
    | _ => none
  | .resume t status =>
    match s.pc t with
    | .woken op notified timed =>
      if statuses notified timed status
        then some (s.finish t op (s.hold t) (op.run (some status) s.data)) else none
    | _ => none
  | .expire t =>
    match s.pc t with
    | .asleep op c true =>
      some ((s.setQueue c ((s.queue c).erase t)).setPc t (.woken op false true))
    | _ => none
  | .notify t =>
    match s.pc t with
    | .notifying n ns => some ((s.setPc t (PC.notifyNext ns)).notify n)
    | _ => none

def system : TransitionSystem (State τ) (Label τ) where
  init := fun s => s = .initial
  step := step

/-! ### What the state says about the locks -/

section

variable [Fintype τ]

/-- The locks of one mode that are held. -/
def State.held (s : State τ) (m : Mode) : Nat := ∑ t, (s.hold t).count m

/-- An exclusive holder holds one lock, and nobody else holds any. -/
def State.Excludes (s : State τ) : Prop :=
  ∀ t, 0 < (s.hold t).exclusive → s.hold t = ⟨0, 0, 1⟩ ∧ ∀ u, u ≠ t → s.hold u = .none

/-- No two threads hold upgrade ownership, and none holds it twice. -/
def State.OneUpgrader (s : State τ) : Prop :=
  ∀ t, 0 < (s.hold t).upgrade → (s.hold t).upgrade = 1 ∧ ∀ u, u ≠ t → (s.hold u).upgrade = 0

end

/-- The operation counts itself in `shared_count`. -/
def Op.counts : Op → Bool
  | .lockShared | .tryLockShared | .tryLockSharedUntil | .lockUpgrade | .tryLockUpgradeUntil
  | .tryLockUpgrade => true
  | _ => false

/-- The thread whose section the step is, the operation, and the status of the wait that it
follows. -/
def Label.section? (s : State τ) : Label τ → Option (τ × Op × Option CvStatus)
  | .call t op => some (t, op, none)
  | .resume t status =>
    match s.pc t with
    | .woken op _ _ => some (t, op, some status)
    | _ => none
  | _ => none

/-- No section of a shared or an upgrade lock runs while 2^32 - 1 of them are held. -/
def fits [Fintype τ] (s : State τ) (l : Label τ) : Prop :=
  ∀ t op r, l.section? s = some (t, op, r) → op.counts = true →
  s.held .shared + s.held .upgrade + 1 < UInt32.size

end SharedMutex

end GreenThread
