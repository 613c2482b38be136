import GreenThread.Mutex.Code

/-!
# The four mutex classes

`mutex`, `recursive_mutex`, `timed_mutex` and `recursive_timed_mutex` of `mutex.cpp` are one
algorithm with two switches: a recursive class counts the locks of its owner in `level_` where the
others throw or do nothing, and a timed class has `try_lock_rel`, whose waiters carry a timer. Each
section below is written once, for the class it is given; the members of the four classes are the
sections at the class.

Only the classes without a `level_` keep the field at what it was. A timer is armed with the entry
that carries it, and `unlock` leaves the wake-up of such an entry to the timer's handler.
-/

namespace GreenThread

variable {τ ℓ : Type}

inductive MutexClass
  | mutex
  | recursiveMutex
  | timedMutex
  | recursiveTimedMutex
  deriving DecidableEq, Repr

/-- The owner, `level_` and the waiting queue of a mutex of any class. The level is a `BitVec` where
its width matters. -/
structure LockState (τ : Type) (ℓ : Type := Nat) where
  owner : Option τ
  level : ℓ
  suspended : List (SuspendedItem τ)
  deriving DecidableEq, Repr

/-- How `try_lock_rel` leaves the spinlock section. -/
inductive TryLockRelExit
  | returned (b : Bool)
  | queued
  | threw (e : ErrorCode)
  deriving DecidableEq, Repr

/-- How `unlock` leaves the spinlock section. After a hand-over the entry of the new owner is
resumed, by its timer if it has one. -/
inductive ReleaseExit (τ : Type)
  | returned
  | handedOver (next : SuspendedItem τ)
  | threw (e : ErrorCode)
  deriving DecidableEq, Repr

namespace MutexClass

def recursive : MutexClass → Bool
  | .mutex | .timedMutex => false
  | .recursiveMutex | .recursiveTimedMutex => true

def timed : MutexClass → Bool
  | .mutex | .recursiveMutex => false
  | .timedMutex | .recursiveTimedMutex => true

section Sections

variable [OfNat ℓ 0] [OfNat ℓ 1] [Add ℓ] [Sub ℓ] [LT ℓ] [DecidableLT ℓ]

/-- The level of a new owner. -/
def firstLevel (c : MutexClass) (level : ℓ) : ℓ := if c.recursive then 1 else level

/-- The level of an owner that locks once more. -/
def nextLevel (c : MutexClass) (level : ℓ) : ℓ := if c.recursive then level + 1 else level

variable [DecidableEq τ] (c : MutexClass) (m : LockState τ ℓ)

def lock : Option τ → LockExit × LockState τ ℓ
  | none => (.returned, m)
  | some tf =>
    if m.owner = some tf then
      if c.recursive then (.returned, { m with level := c.nextLevel m.level })
      else (.threw .resourceDeadlockWouldOccur, m)
    else if m.owner = none
      then (.returned, { m with owner := some tf, level := c.firstLevel m.level })
    else (.queued, { m with suspended := m.suspended ++ [⟨tf, false⟩] })

def tryLock : Option τ → Bool × LockState τ ℓ
  | none => (false, m)
  | some tf =>
    if m.owner = some tf then (true, { m with level := c.nextLevel m.level })
    else if m.owner = none then (true, { m with owner := some tf, level := c.firstLevel m.level })
    else (false, m)

def tryLockRel : Option τ → TryLockRelExit × LockState τ ℓ
  | none => (.returned false, m)
  | some tf =>
    if m.owner = some tf then
      if c.recursive then (.returned true, { m with level := c.nextLevel m.level })
      else (.threw .resourceDeadlockWouldOccur, m)
    else if m.owner = none then (.returned true,
      { m with owner := some tf, level := c.firstLevel m.level })
    else (.queued, { m with suspended := m.suspended ++ [⟨tf, true⟩] })

def unlock : Option τ → ReleaseExit τ × LockState τ ℓ
  | none => (.returned, m)
  | some tf =>
    if m.owner ≠ some tf then (.threw .operationNotPermitted, m)
    else if c.recursive ∧ 0 < m.level - 1 then (.returned, { m with level := m.level - 1 })
    else match m.suspended with
      | [] => (.returned, { m with owner := none, level := if c.recursive then 0 else m.level })
      | next :: rest => (.handedOver next, ⟨some next.f, c.firstLevel m.level, rest⟩)

/-- `timeout_handler`, which does not look at its error code. -/
def timeoutHandler (thisThread : τ) : LockState τ ℓ :=
  if m.owner ≠ some thisThread
    then { m with suspended := m.suspended.eraseP fun i => i.f = thisThread } else m

end Sections

end MutexClass

/-! ### The members -/

section Members

variable [DecidableEq τ]

def RecursiveMutex.lock : LockState τ → Option τ → LockExit × LockState τ :=
  MutexClass.recursiveMutex.lock
def RecursiveMutex.tryLock : LockState τ → Option τ → Bool × LockState τ :=
  MutexClass.recursiveMutex.tryLock
def RecursiveMutex.unlock : LockState τ → Option τ → ReleaseExit τ × LockState τ :=
  MutexClass.recursiveMutex.unlock

def TimedMutex.lock : LockState τ → Option τ → LockExit × LockState τ := MutexClass.timedMutex.lock
def TimedMutex.tryLock : LockState τ → Option τ → Bool × LockState τ :=
  MutexClass.timedMutex.tryLock
def TimedMutex.tryLockRel : LockState τ → Option τ → TryLockRelExit × LockState τ :=
  MutexClass.timedMutex.tryLockRel
def TimedMutex.unlock : LockState τ → Option τ → ReleaseExit τ × LockState τ :=
  MutexClass.timedMutex.unlock
def TimedMutex.timeoutHandler : LockState τ → τ → LockState τ := MutexClass.timeoutHandler

def RecursiveTimedMutex.lock : LockState τ → Option τ → LockExit × LockState τ :=
  MutexClass.recursiveTimedMutex.lock
def RecursiveTimedMutex.tryLock : LockState τ → Option τ → Bool × LockState τ :=
  MutexClass.recursiveTimedMutex.tryLock
def RecursiveTimedMutex.tryLockRel : LockState τ → Option τ → TryLockRelExit × LockState τ :=
  MutexClass.recursiveTimedMutex.tryLockRel
def RecursiveTimedMutex.unlock : LockState τ → Option τ → ReleaseExit τ × LockState τ :=
  MutexClass.recursiveTimedMutex.unlock
def RecursiveTimedMutex.timeoutHandler : LockState τ → τ → LockState τ := MutexClass.timeoutHandler

/-- The fields of a `mutex`. -/
def LockState.toMutex (m : LockState τ) : Mutex τ := ⟨m.owner, m.suspended.map SuspendedItem.f⟩

def ReleaseExit.toUnlockExit : ReleaseExit τ → UnlockExit τ
  | .returned => .returned
  | .handedOver next => .handedOver next.f
  | .threw e => .threw e

/-- At the class `mutex` the sections are those of `Mutex`. -/
theorem lock_toMutex (m : LockState τ) (caller : Option τ) :
    m.toMutex.lock caller = ((MutexClass.mutex.lock m caller).1,
      (MutexClass.mutex.lock m caller).2.toMutex) := by
  cases caller with
  | none => rfl
  | some tf =>
    by_cases hown : m.owner = some tf
    · simp [Mutex.lock, MutexClass.lock, LockState.toMutex, MutexClass.recursive, hown]
    · by_cases hfree : m.owner = none
      · simp [Mutex.lock, MutexClass.lock, LockState.toMutex, hfree]
      · simp [Mutex.lock, MutexClass.lock, LockState.toMutex, hown, hfree]

theorem tryLock_toMutex (m : LockState τ) (caller : Option τ) :
    m.toMutex.tryLock caller = ((MutexClass.mutex.tryLock m caller).1,
      (MutexClass.mutex.tryLock m caller).2.toMutex) := by
  cases caller with
  | none => rfl
  | some tf =>
    by_cases hown : m.owner = some tf
    · simp [Mutex.tryLock, MutexClass.tryLock, LockState.toMutex, hown]
    · by_cases hfree : m.owner = none
      · simp [Mutex.tryLock, MutexClass.tryLock, LockState.toMutex, hfree]
      · simp [Mutex.tryLock, MutexClass.tryLock, LockState.toMutex, hown, hfree]

theorem unlock_toMutex (m : LockState τ) (caller : Option τ) :
    m.toMutex.unlock caller =
      ((MutexClass.mutex.unlock m caller).1.toUnlockExit,
        (MutexClass.mutex.unlock m caller).2.toMutex) := by
  cases caller with
  | none => rfl
  | some tf =>
    by_cases hown : m.owner = some tf
    · cases hqueue : m.suspended with
      | nil => simp [Mutex.unlock, MutexClass.unlock, LockState.toMutex, MutexClass.recursive,
          ReleaseExit.toUnlockExit, hown, hqueue]
      | cons next rest =>
        simp [Mutex.unlock, MutexClass.unlock, LockState.toMutex, MutexClass.recursive,
          ReleaseExit.toUnlockExit, hown, hqueue]
    · simp [Mutex.unlock, MutexClass.unlock, LockState.toMutex, ReleaseExit.toUnlockExit, hown]

end Members

end GreenThread
