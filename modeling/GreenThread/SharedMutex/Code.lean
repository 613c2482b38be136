import Mathlib.Logic.Function.Basic

/-!
# `shared_timed_mutex`

The critical sections of `state_change`. A section runs from the lock, or from the end of a wait, to
the return of the operation or to its next wait; it changes the `state_data`, notifies condition
variables, and ends with `none` when one of the `assert_*` checks fails. Only `unlock_shared`
notifies after it has unlocked `state_change`.

The operations that end in `_for` call those that end in `_until`.
-/

namespace GreenThread

namespace SharedMutex

structure StateData where
  sharedCount : UInt32
  exclusive : Bool
  upgrade : Bool
  exclusiveWaitingBlocked : Bool
  deriving DecidableEq, Repr

namespace StateData

variable (d : StateData)

def start : StateData := ⟨0, false, false, false⟩

def assertFree : Option Unit := guard (d.exclusive = false ∧ d.upgrade = false ∧ d.sharedCount = 0)

def assertLocked : Option Unit := guard (d.exclusive = true ∧ d.sharedCount = 0 ∧ d.upgrade = false)

def assertLockShared : Option Unit := guard (d.exclusive = false ∧ 0 < d.sharedCount)

def assertLockUpgraded : Option Unit :=
  guard (d.exclusive = false ∧ d.upgrade = true ∧ 0 < d.sharedCount)

def canLockShared : Prop := d.exclusive = false ∧ d.exclusiveWaitingBlocked = false

/-- The test that the operations on exclusive locks write out. -/
def canLock : Prop := d.sharedCount = 0 ∧ d.exclusive = false

/-- The test that the operations on upgrade locks write out. -/
def canLockUpgrade : Prop := d.exclusive = false ∧ d.exclusiveWaitingBlocked = false ∧
    d.upgrade = false

instance : Decidable d.canLockShared := inferInstanceAs (Decidable (_ ∧ _))

instance : Decidable d.canLock := inferInstanceAs (Decidable (_ ∧ _))

instance : Decidable d.canLockUpgrade := inferInstanceAs (Decidable (_ ∧ _))

def moreShared : Prop := 0 < d.sharedCount

instance : Decidable d.moreShared := inferInstanceAs (Decidable (_ < _))

def lockShared : StateData := { d with sharedCount := d.sharedCount + 1 }

def unlockShared : StateData := { d with sharedCount := d.sharedCount - 1 }

def unlockUpgrade : StateData := { d with upgrade := false, sharedCount := d.sharedCount - 1 }

end StateData

/-- `shared_cond`, `exclusive_cond` and `upgrade_cond`. -/
inductive Cond
  | shared
  | exclusive
  | upgrade
  deriving DecidableEq, Repr

inductive CvStatus
  | noTimeout
  | timeout
  deriving DecidableEq, Repr

inductive Notify
  | one (c : Cond)
  | all (c : Cond)
  deriving DecidableEq, Repr

def Notify.cond : Notify → Cond
  | .one c | .all c => c

/-- How a section ends: with the return of the operation, or with a wait, timed when it is a
`wait_until`. -/
inductive Next
  | ret (b : Bool)
  | wait (c : Cond) (timed : Bool)
  deriving DecidableEq, Repr

/-- What a section leaves: the notifications under the lock, and those after `lk.unlock()`. -/
structure Leaves where
  state : StateData
  next : Next
  notify : List Notify
  after : List Notify

abbrev Section := Option Leaves

def returns (d : StateData) (b : Bool) : Section := some ⟨d, .ret b, [], []⟩

def notifies (d : StateData) (b : Bool) (ns : List Notify) : Section := some ⟨d, .ret b, ns, []⟩

def waits (d : StateData) (c : Cond) (timed : Bool) : Section := some ⟨d, .wait c timed, [], []⟩

def releaseWaiters : List Notify := [.one .exclusive, .all .shared]

/-! ### Shared and exclusive locks

A section that can follow a wait gets the status of that wait, and `none` when the operation begins.
-/

variable (r : Option CvStatus) (d : StateData)

def lockShared : Section :=
  if d.canLockShared then returns d.lockShared true else waits d .shared false

def tryLockShared : Section :=
  if d.canLockShared then returns d.lockShared true else returns d false

def tryLockSharedUntil : Section :=
  if r = some .timeout then returns d false
  else if d.canLockShared then returns d.lockShared true
  else waits d .shared true

def unlockShared : Section := do
  d.assertLockShared
  let d := d.unlockShared
  if d.moreShared then returns d true
  else if d.upgrade = true then
    some ⟨{ d with upgrade := false, exclusive := true }, .ret true, [],
      .one .upgrade :: releaseWaiters⟩
  else some ⟨{ d with exclusiveWaitingBlocked := false }, .ret true, [], releaseWaiters⟩

def lock : Section :=
  if d.canLock then returns { d with exclusive := true } true
  else waits { d with exclusiveWaitingBlocked := true } .exclusive false

def tryLock : Section :=
  if d.canLock then returns { d with exclusive := true } true else returns d false

def tryLockUntil : Section :=
  if d.canLock then returns { d with exclusive := true } true
  else if r = some .timeout then notifies { d with exclusiveWaitingBlocked := false } false
    releaseWaiters
  else waits { d with exclusiveWaitingBlocked := true } .exclusive true

def unlock : Section := do
  d.assertLocked
  let d := { d with exclusive := false, exclusiveWaitingBlocked := false }
  d.assertFree
  notifies d true releaseWaiters

/-! ### Upgrade locks -/

def lockUpgrade : Section :=
  if d.canLockUpgrade then returns { d.lockShared with upgrade := true } true
    else waits d .shared false

def tryLockUpgradeUntil : Section :=
  if d.canLockUpgrade then returns { d.lockShared with upgrade := true } true
  else if r = some .timeout then returns d false
  else waits d .shared true

def tryLockUpgrade : Section :=
  if d.canLockUpgrade then do
    let d := { d.lockShared with upgrade := true }
    d.assertLockUpgraded
    returns d true
  else returns d false

def unlockUpgrade : Section :=
  let d := d.unlockUpgrade
  if d.moreShared then notifies d true [.all .shared]
  else notifies { d with exclusiveWaitingBlocked := false } true releaseWaiters

/-! ### Upgrade and exclusive -/

def unlockUpgradeAndLock : Section := do
  let d ← if r = none then do
      d.assertLockUpgraded
      pure d.unlockShared
    else pure d
  if d.moreShared then waits d .upgrade false
  else
    let d := { d with upgrade := false, exclusive := true }
    d.assertLocked
    returns d true

def unlockAndLockUpgrade : Section := do
  d.assertLocked
  let d := { d with
    exclusive := false, upgrade := true, sharedCount := d.sharedCount + 1
    exclusiveWaitingBlocked := false }
  d.assertLockUpgraded
  notifies d true releaseWaiters

def tryUnlockUpgradeAndLock : Section := do
  d.assertLockUpgraded
  if d.exclusive = false ∧ d.exclusiveWaitingBlocked = false ∧ d.upgrade = true ∧
    d.sharedCount = 1 then
    let d := { d with sharedCount := 0, exclusive := true, upgrade := false }
    d.assertLocked
    returns d true
  else returns d false

/-- The part that the timed conversions to exclusive share. -/
def untilOneLeft : Section :=
  if d.sharedCount = 1 then
    returns
      { upgrade := false, exclusive := true, exclusiveWaitingBlocked := false, sharedCount := 0 }
      true
  else if r = some .timeout then returns d false
  else waits d .shared true

def tryUnlockUpgradeAndLockUntil : Section := do
  if r = none then d.assertLockUpgraded
  untilOneLeft r d

/-! ### Shared and exclusive -/

def unlockAndLockShared : Section := do
  d.assertLocked
  notifies { d with
    exclusive := false, sharedCount := d.sharedCount + 1, exclusiveWaitingBlocked := false } true
    releaseWaiters

def tryUnlockSharedAndLock : Section := do
  d.assertLockShared
  if d.exclusive = false ∧ d.exclusiveWaitingBlocked = false ∧ d.upgrade = false ∧
    d.sharedCount = 1 then
    returns { d with sharedCount := 0, exclusive := true } true
  else returns d false

def tryUnlockSharedAndLockUntil : Section := do
  if r = none then d.assertLockShared
  untilOneLeft r d

/-! ### Shared and upgrade -/

def unlockUpgradeAndLockShared : Section := do
  d.assertLockUpgraded
  notifies { d with upgrade := false, exclusiveWaitingBlocked := false } true releaseWaiters

def tryUnlockSharedAndLockUpgrade : Section := do
  d.assertLockShared
  if d.canLockUpgrade then returns { d with upgrade := true } true else returns d false

def tryUnlockSharedAndLockUpgradeUntil : Section := do
  if r = none then d.assertLockShared
  if d.canLockUpgrade then returns { d with upgrade := true } true
  else if r = some .timeout then returns d false
  else waits d .exclusive true

/-! ### Operations -/

inductive Op
  | lockShared
  | tryLockShared
  | tryLockSharedUntil
  | unlockShared
  | lock
  | tryLock
  | tryLockUntil
  | unlock
  | lockUpgrade
  | tryLockUpgradeUntil
  | tryLockUpgrade
  | unlockUpgrade
  | unlockUpgradeAndLock
  | unlockAndLockUpgrade
  | tryUnlockUpgradeAndLock
  | tryUnlockUpgradeAndLockUntil
  | unlockAndLockShared
  | tryUnlockSharedAndLock
  | tryUnlockSharedAndLockUntil
  | unlockUpgradeAndLockShared
  | tryUnlockSharedAndLockUpgrade
  | tryUnlockSharedAndLockUpgradeUntil
  deriving DecidableEq, Repr

def Op.run : Op → Option CvStatus → StateData → Section
  | .lockShared => fun _ => SharedMutex.lockShared
  | .tryLockShared => fun _ => SharedMutex.tryLockShared
  | .tryLockSharedUntil => SharedMutex.tryLockSharedUntil
  | .unlockShared => fun _ => SharedMutex.unlockShared
  | .lock => fun _ => SharedMutex.lock
  | .tryLock => fun _ => SharedMutex.tryLock
  | .tryLockUntil => SharedMutex.tryLockUntil
  | .unlock => fun _ => SharedMutex.unlock
  | .lockUpgrade => fun _ => SharedMutex.lockUpgrade
  | .tryLockUpgradeUntil => SharedMutex.tryLockUpgradeUntil
  | .tryLockUpgrade => fun _ => SharedMutex.tryLockUpgrade
  | .unlockUpgrade => fun _ => SharedMutex.unlockUpgrade
  | .unlockUpgradeAndLock => SharedMutex.unlockUpgradeAndLock
  | .unlockAndLockUpgrade => fun _ => SharedMutex.unlockAndLockUpgrade
  | .tryUnlockUpgradeAndLock => fun _ => SharedMutex.tryUnlockUpgradeAndLock
  | .tryUnlockUpgradeAndLockUntil => SharedMutex.tryUnlockUpgradeAndLockUntil
  | .unlockAndLockShared => fun _ => SharedMutex.unlockAndLockShared
  | .tryUnlockSharedAndLock => fun _ => SharedMutex.tryUnlockSharedAndLock
  | .tryUnlockSharedAndLockUntil => SharedMutex.tryUnlockSharedAndLockUntil
  | .unlockUpgradeAndLockShared => fun _ => SharedMutex.unlockUpgradeAndLockShared
  | .tryUnlockSharedAndLockUpgrade => fun _ => SharedMutex.tryUnlockSharedAndLockUpgrade
  | .tryUnlockSharedAndLockUpgradeUntil => SharedMutex.tryUnlockSharedAndLockUpgradeUntil

end SharedMutex

end GreenThread
