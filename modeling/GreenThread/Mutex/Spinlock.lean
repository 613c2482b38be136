import GreenThread.Library.Serial
import GreenThread.Mutex.Classes
import Mathlib.Logic.Function.Basic

/-!
# The statements under the spinlock

`detail::spinlock` and the statements that the operations of the four mutex classes run while they
hold `mtx_`. The callers are any number of agents, each a thread or the handler of a timer, that
take one statement after the other in any order. `spinlock::lock` exchanges `state_` until it finds
it unlocked. The `relock_guard` around `pause` and `yield` releases the spinlock and takes it again
when the switch returns, so that an operation that switches has a second section.

The sections are those of `MutexClass`, one after the other: no statement of one agent falls between
two of another's section, and each section computes what its function says.
-/

namespace GreenThread

namespace Spinlock

/-- A call of an operation for a green thread. A native thread returns before the spinlock. -/
inductive Op (τ : Type)
  | lock (tf : τ)
  | tryLock (tf : τ)
  | tryLockRel (tf : τ)
  | unlock (tf : τ)
  | timeoutHandler (thisThread : τ)
  deriving DecidableEq, Repr

def Op.thread {τ : Type} : Op τ → τ
  | .lock tf | .tryLock tf | .tryLockRel tf | .unlock tf | .timeoutHandler tf => tf

/-- Only the timed classes have `try_lock_rel` and its handler. -/
def Op.exists {τ : Type} (c : MutexClass) : Op τ → Bool
  | .tryLockRel _ | .timeoutHandler _ => c.timed
  | _ => true

/-- How a section ends: as its operation does, or, after the switch, with the return of the
operation. -/
inductive Exit (τ : Type)
  | lock (x : LockExit)
  | tryLock (b : Bool)
  | tryLockRel (x : TryLockRelExit)
  | unlock (x : ReleaseExit τ)
  | handled
  | again (b : Option Bool)
  deriving DecidableEq, Repr

/-- The section ends in the constructor of the `relock_guard`. -/
def Exit.switches {τ : Type} : Exit τ → Bool
  | .lock .queued | .tryLockRel .queued | .unlock (.handedOver _) => true
  | _ => false

/-- The next statement of a section. -/
inductive Line (τ : Type)
  /-- `if (owner_==tf)` -/
  | ifOwner
  /-- `else if(!owner_)` -/
  | ifFree
  /-- `owner_=tf` -/
  | setOwner
  /-- `level_=1` of a new owner -/
  | setLevel
  /-- `++level_` -/
  | incLevel
  /-- `suspended_.push_back`, for `try_lock_rel` after the start of its timer -/
  | pushBack
  /-- `return owner_==tf` of `try_lock` -/
  | compare
  /-- `if (owner_!=tf)` -/
  | ifNotOwner
  /-- `--level_` -/
  | decLevel
  /-- `if (level_>0)` -/
  | ifLevel
  /-- `if (suspended_.empty())` -/
  | ifEmpty
  /-- `owner_.reset()` -/
  | reset
  /-- `level_=0` -/
  | clearLevel
  /-- `std::swap(owner_, suspended_.front())` -/
  | swap
  /-- `t=suspended_.front().t_` of the timed classes, null in the others; the timer it points to is
  that of `whose` -/
  | readTimer (whose : τ)
  /-- `suspended_.pop_front()` -/
  | popFront (t : Option τ)
  /-- `level_=1` after a hand-over -/
  | levelOne (t : Option τ)
  /-- `t->cancel()` or `owner_->resume()` -/
  | wake (t : Option τ)
  /-- `std::find` of `timeout_handler` -/
  | find
  /-- `suspended_.erase(i)` -/
  | erase (i : Nat)
  /-- `this_thread->resume()` -/
  | resume
  /-- after the switch: `return owner_==tf` of `try_lock_rel`, or the end of the operation -/
  | back
  /-- before the `store` of `spinlock::unlock` -/
  | release (e : Exit τ)
  /-- after `front()` of an empty queue or the use of an empty `owner_` -/
  | undefined
  deriving DecidableEq, Repr

variable {τ : Type} [DecidableEq τ]

/-- The first statement of the operation under the spinlock. -/
def Op.first : Op τ → Line τ
  | .lock _ | .tryLock _ | .tryLockRel _ => .ifOwner
  | .unlock _ | .timeoutHandler _ => .ifNotOwner

/-- What follows when the thread owns the mutex. `timed_mutex::try_lock` returns at once, the other
`try_lock` compare again. -/
def Op.acquired (c : MutexClass) : Op τ → Line τ
  | .lock _ => .release (.lock .returned)
  | .tryLock _ => if c = .timedMutex then .release (.tryLock true) else .compare
  | .tryLockRel _ => .release (.tryLockRel (.returned true))
  | _ => .undefined

/-- What follows when the thread owned the mutex before the call. -/
def Op.owned (c : MutexClass) (op : Op τ) : Line τ :=
  if c.recursive then .incLevel
  else match op with
    | .lock _ => .release (.lock (.threw .resourceDeadlockWouldOccur))
    | .tryLockRel _ => .release (.tryLockRel (.threw .resourceDeadlockWouldOccur))
    | op => op.acquired c

/-- What follows when another thread owns the mutex. -/
def Op.busy (c : MutexClass) : Op τ → Line τ
  | .tryLock _ => if c = .timedMutex then .release (.tryLock false) else .compare
  | _ => .pushBack

/-- One statement. -/
def Line.run (c : MutexClass) (op : Op τ) (m : LockState τ) : Line τ → Option (Line τ × LockState τ)
  | .ifOwner => some (if m.owner = some op.thread then op.owned c else .ifFree, m)
  | .ifFree => some (if m.owner = none then .setOwner else op.busy c, m)
  | .setOwner => some (if c.recursive then .setLevel
      else op.acquired c, { m with owner := some op.thread })
  | .setLevel => some (op.acquired c, { m with level := 1 })
  | .incLevel => some (op.acquired c, { m with level := m.level + 1 })
  | .pushBack =>
    match op with
    | .tryLockRel tf =>
      some (.release (.tryLockRel .queued), { m with suspended := m.suspended ++ [⟨tf, true⟩] })
    | op => some (.release (.lock .queued),
        { m with suspended := m.suspended ++ [⟨op.thread, false⟩] })
  | .compare => some (.release (.tryLock (m.owner = some op.thread)), m)
  | .ifNotOwner =>
    match op with
    | .timeoutHandler t => some (if m.owner ≠ some t then .find else .resume, m)
    | op =>
      some (if m.owner ≠ some op.thread then .release (.unlock (.threw .operationNotPermitted))
        else if c.recursive then .decLevel else .ifEmpty, m)
  | .decLevel => some (.ifLevel, { m with level := m.level - 1 })
  | .ifLevel => some (if m.level > 0 then .release (.unlock .returned) else .ifEmpty, m)
  | .ifEmpty => some (if m.suspended = [] then .reset else .swap, m)
  | .reset => some (if c = .recursiveTimedMutex then .clearLevel
      else .release (.unlock .returned), { m with owner := none })
  | .clearLevel => some (.release (.unlock .returned), { m with level := 0 })
  | .swap =>
    match m.owner, m.suspended with
    | some tf, i :: rest =>
      some (.readTimer i.f, { m with owner := some i.f, suspended := ⟨tf, i.t⟩ :: rest })
    | _, _ => some (.undefined, m)
  | .readTimer whose =>
    match m.suspended with
    | i :: _ => some (.popFront (if i.t then some whose else none), m)
    | [] => some (.undefined, m)
  | .popFront t => some (if c.recursive then .levelOne t
      else .wake t, { m with suspended := m.suspended.tail })
  | .levelOne t => some (.wake t, { m with level := 1 })
  | .wake (some whose) => some (.release (.unlock (.handedOver ⟨whose, true⟩)), m)
  | .wake none =>
    match m.owner with
    | some next => some (.release (.unlock (.handedOver ⟨next, false⟩)), m)
    | none => some (.undefined, m)
  | .find =>
    match m.suspended.findIdx? fun i => i.f = op.thread with
    | some i => some (.erase i, m)
    | none => some (.resume, m)
  | .erase i => some (.resume, { m with suspended := m.suspended.eraseIdx i })
  | .resume => some (.release .handled, m)
  | .back =>
    match op with
    | .tryLockRel tf => some (.release (.again (some (m.owner = some tf))), m)
    | _ => some (.release (.again none), m)
  | .release _ | .undefined => none

/-- Where an agent is. -/
inductive Pos (τ : Type)
  | idle
  /-- in the loop of `spinlock::lock`, before the first section or, after a switch, before the
  second -/
  | spin (op : Op τ) (again : Bool)
  | run (op : Op τ) (line : Line τ)
  /-- in `pause` or `yield` -/
  | away (op : Op τ)
  deriving DecidableEq, Repr

structure State (τ ι : Type) where
  mutex : LockState τ
  /-- `state_` of the spinlock -/
  locked : Bool
  pos : ι → Pos τ

inductive Label (τ ι : Type)
  | begin (a : ι) (op : Op τ)
  | exchange (a : ι)
  | run (a : ι)
  | wake (a : ι)
  deriving DecidableEq, Repr

def Label.agent {τ ι : Type} : Label τ ι → ι
  | .begin a _ | .exchange a | .run a | .wake a => a

variable {ι : Type} [DecidableEq ι]

def State.setPos (s : State τ ι) (a : ι) (p : Pos τ) :
    State τ ι := { s with pos := Function.update s.pos a p }

def step (c : MutexClass) (s : State τ ι) : Label τ ι → Option (State τ ι)
  | .begin a op =>
    match s.pos a with
    | .idle => if op.exists c then some (s.setPos a (.spin op false)) else none
    | _ => none
  | .exchange a =>
    match s.pos a with
    | .spin op again =>
      if s.locked then some s
      else some { s.setPos a (.run op (if again then .back else op.first)) with locked := true }
    | _ => none
  | .run a =>
    match s.pos a with
    | .run op (.release e) =>
      some { s.setPos a (if e.switches then .away op else .idle) with locked := false }
    | .run op line => (line.run c op s.mutex).map fun r =>
      { s.setPos a (.run op r.1) with mutex := r.2 }
    | _ => none
  | .wake a =>
    match s.pos a with
    | .away op => some (s.setPos a (.spin op true))
    | _ => none

def unowned : LockState τ := ⟨none, 0, []⟩

def system (c : MutexClass) : TransitionSystem (State τ ι) (Label τ ι) where
  init := fun s => s = ⟨unowned, false, fun _ => .idle⟩
  step := step c

/-- The section of an operation as one step. -/
def Op.section (c : MutexClass) (m : LockState τ) : Op τ → Exit τ × LockState τ
  | .lock tf => ((c.lock m (some tf)).map .lock id)
  | .tryLock tf => ((c.tryLock m (some tf)).map .tryLock id)
  | .tryLockRel tf => ((c.tryLockRel m (some tf)).map .tryLockRel id)
  | .unlock tf => ((c.unlock m (some tf)).map .unlock id)
  | .timeoutHandler t => (.handled, MutexClass.timeoutHandler m t)

/-- The section of an operation after its switch, which changes nothing. -/
def Op.afterSwitch (m : LockState τ) : Op τ → Exit τ
  | .tryLockRel tf => .again (some (m.owner = some tf))
  | _ => .again none

/-! ### One section -/

/-- How a section ends from one of its statements on, when it ends after at most `n` more of
them. -/
def Line.finish (c : MutexClass) (op : Op τ) :
    Nat → Line τ → LockState τ → Option (Exit τ × LockState τ)
  | _, .release e, m => some (e, m)
  | 0, _, _ => none
  | n + 1, line, m => (line.run c op m).bind fun r => r.1.finish c op n r.2

section Statements

variable {c : MutexClass} {op : Op τ} {line line' : Line τ} {m m' : LockState τ}
    {r : Exit τ × LockState τ}

attribute [local simp] Line.finish Line.run Op.section

theorem finish_release (n : Nat) (e : Exit τ) (m : LockState τ) :
    (Line.release e).finish c op n m = some (e, m) := by
  cases n <;> rfl

theorem finish_step {n : Nat} (hline : ∀ e, line ≠ .release e) :
    line.finish c op (n + 1) m = (line.run c op m).bind fun r => r.1.finish c op n r.2 := by
  cases line with
  | release e => exact absurd rfl (hline e)
  | _ => rfl

/-- A `lock` runs at most four statements under the spinlock, an `unlock` of a recursive timed mutex
nine. -/
theorem lock_finishes (tf : τ) (m : LockState τ) :
    Line.ifOwner.finish c (.lock tf) 9 m = some ((Op.lock tf).section c m) := by
  cases c <;> by_cases hown : m.owner = some tf <;> by_cases hfree : m.owner = none <;>
    simp [Op.thread, Op.owned, Op.acquired, Op.busy, MutexClass.lock, MutexClass.recursive,
      MutexClass.firstLevel, MutexClass.nextLevel, hown, hfree]

theorem tryLock_finishes (tf : τ) (m : LockState τ) :
    Line.ifOwner.finish c (.tryLock tf) 9 m = some ((Op.tryLock tf).section c m) := by
  obtain ⟨owner, level, suspended⟩ := m
  cases c <;> by_cases hown : owner = some tf <;> by_cases hfree : owner = none <;>
    simp [Op.thread, Op.owned, Op.acquired, Op.busy, MutexClass.tryLock, MutexClass.recursive,
      MutexClass.firstLevel, MutexClass.nextLevel, hown, hfree]

theorem tryLockRel_finishes (tf : τ) (m : LockState τ) :
    Line.ifOwner.finish c (.tryLockRel tf) 9 m = some ((Op.tryLockRel tf).section c m) := by
  cases c <;> by_cases hown : m.owner = some tf <;> by_cases hfree : m.owner = none <;>
    simp [Op.thread, Op.owned, Op.acquired, Op.busy, MutexClass.tryLockRel, MutexClass.recursive,
      MutexClass.firstLevel, MutexClass.nextLevel, hown, hfree]

theorem handOver_finishes (n : Nat) (tf : τ) (hown : m.owner = some tf)
    (hlevel : c.recursive = true → m.level = 0) :
    Line.ifEmpty.finish c (.unlock tf) (n + 6) m = some (match m.suspended with
      | [] =>
        (.unlock .returned, { m with owner := none, level := if c.recursive then 0 else m.level })
      | next :: rest => (.unlock (.handedOver next),
          ⟨some next.f, c.firstLevel m.level, rest⟩)) := by
  obtain ⟨owner, level, suspended⟩ := m
  cases suspended with
  | nil => cases c <;> simp_all [MutexClass.recursive]
  | cons next rest =>
    obtain ⟨f, t⟩ := next
    cases c <;> cases t <;> simp_all [MutexClass.recursive, MutexClass.firstLevel]

theorem unlock_finishes (tf : τ) (m : LockState τ) :
    Line.ifNotOwner.finish c (.unlock tf) 9 m = some ((Op.unlock tf).section c m) := by
  by_cases hown : m.owner = some tf
  · -- the last `unlock` of the owner hands the mutex over
    have hlast : ∀ {m' : LockState τ}, m'.owner = m.owner → m'.suspended = m.suspended →
      ¬ (c.recursive = true ∧ 0 < m.level - 1) →
        (c.recursive = false → m'.level = m.level) → (c.recursive = true → m'.level = 0) → ∀ n,
        Line.ifEmpty.finish c (.unlock tf) (n + 6) m' = some ((Op.unlock tf).section c m) := by
      intro m' hown' hqueue hlevel hsame hzero n
      rw [handOver_finishes n tf (hown'.trans hown) hzero, hqueue]
      simp only [Op.section, MutexClass.unlock, hown, hlevel, ne_eq, not_true_eq_false, if_false]
      cases m.suspended <;> cases hrec : c.recursive <;> simp [MutexClass.firstLevel, hrec, hsame]
    cases hrec : c.recursive with
    | false =>
      have hfirst : Line.ifNotOwner.run c (.unlock tf) m = some (.ifEmpty, m) := by
        simp [Op.thread, hown, hrec]
      show (Line.ifNotOwner.run c (.unlock tf) m).bind
        (fun r => r.1.finish c (.unlock tf) 8 r.2) = _
      rw [hfirst]
      exact hlast rfl rfl (fun h => by cases hrec.symm.trans h.1) (fun _ => rfl)
        (fun h => by cases hrec.symm.trans h) 2
    | true =>
      have hfirst : Line.ifNotOwner.run c (.unlock tf) m = some (.decLevel, m) := by
        simp [Op.thread, hown, hrec]
      show (Line.ifNotOwner.run c (.unlock tf) m).bind
        (fun r => r.1.finish c (.unlock tf) 8 r.2) = _
      rw [hfirst]
      show (Line.ifLevel.run c (.unlock tf) { m with level := m.level - 1 }).bind
        (fun r => r.1.finish c (.unlock tf) 6 r.2) = _
      by_cases hlevel : 0 < m.level - 1
      · have hlast : Line.ifLevel.run c (.unlock tf) { m with level := m.level - 1 } =
            some (.release (.unlock .returned), { m with level := m.level - 1 }) := by
          simp only [Line.run, if_pos hlevel]
        rw [hlast]
        simp [MutexClass.unlock, hown, hrec, hlevel]
      · have hempty : Line.ifLevel.run c (.unlock tf) { m with level := m.level - 1 } =
            some (.ifEmpty, { m with level := m.level - 1 }) := by
          simp only [Line.run, if_neg hlevel]
        rw [hempty]
        exact @hlast { m with level := m.level - 1 } rfl rfl (fun h => hlevel h.2)
          (fun h => by cases hrec.symm.trans h) (fun _ => Nat.eq_zero_of_not_pos hlevel) 0
  · simp [Op.thread, MutexClass.unlock, hown]

theorem timeoutHandler_finishes (t : τ) (m : LockState τ) :
    Line.ifNotOwner.finish c (.timeoutHandler t) 9 m =
    some ((Op.timeoutHandler t).section c m) := by
  by_cases hown : m.owner = some t
  · simp [MutexClass.timeoutHandler, hown]
  · have hfirst : Line.ifNotOwner.run c (.timeoutHandler t) m = some (.find, m) := by simp [hown]
    have hsection : (Op.timeoutHandler t).section c m =
        (.handled, { m with suspended := m.suspended.eraseP fun i => i.f = t }) := by
      simp [MutexClass.timeoutHandler, hown]
    rw [hsection, List.eraseP_eq_eraseIdx]
    cases hidx : m.suspended.findIdx? fun i => i.f = t with
    | none =>
      have hfind : Line.find.run c (.timeoutHandler t) m = some (.resume, m) := by
        show (match m.suspended.findIdx? fun i => i.f = t with
          | some i => some (Line.erase i, m)
          | none => some (Line.resume, m)) = _
        rw [hidx]
      simp only [Line.finish, hfirst, hfind, Option.bind_some]
      rfl
    | some i =>
      have hfind : Line.find.run c (.timeoutHandler t) m = some (.erase i, m) := by
        show (match m.suspended.findIdx? fun i => i.f = t with
          | some i => some (Line.erase i, m)
          | none => some (Line.resume, m)) = _
        rw [hidx]
      simp only [Line.finish, hfirst, hfind, Option.bind_some]
      rfl

theorem section_finishes (op : Op τ) (m : LockState τ) :
    op.first.finish c op 9 m = some (op.section c m) := by
  cases op with
  | lock tf => exact lock_finishes tf m
  | tryLock tf => exact tryLock_finishes tf m
  | tryLockRel tf => exact tryLockRel_finishes tf m
  | unlock tf => exact unlock_finishes tf m
  | timeoutHandler t => exact timeoutHandler_finishes t m

theorem back_finishes (op : Op τ) (m : LockState τ) :
    Line.back.finish c op 9 m = some (op.afterSwitch m, m) := by
  cases op <;> rfl

end Statements

/-! ### The sections of the agents -/

/-- A statement of the section of an operation. -/
inductive Code (c : MutexClass) : (Op τ × Line τ) × LockState τ →
    (Op τ × Line τ) × LockState τ → Prop
  | run {op line line' m m'} (h : Line.run c op m line = some (line', m')) :
      Code c ((op, line), m) ((op, line'), m')

variable {c : MutexClass}

/-- A section goes on to the end it has. -/
theorem finish_of_runs {n : Nat} {r : Exit τ × LockState τ} {x y : (Op τ × Line τ) × LockState τ}
    (h : Relation.ReflTransGen (Code c) x y) (hfinish : x.1.2.finish c x.1.1 n x.2 = some r) :
    y.1.1 = x.1.1 ∧ ∃ n' ≤ n, y.1.2.finish c y.1.1 n' y.2 = some r := by
  induction h with
  | refl => exact ⟨rfl, n, Nat.le_refl n, hfinish⟩
  | tail _ hcode ih =>
    obtain ⟨hop, k, hk, hfinish⟩ := ih
    cases hcode with
    | @run op line line' m m' hrun =>
      refine ⟨hop, ?_⟩
      have hline : ∀ e, line ≠ .release e := by
        rintro e rfl
        cases hrun
      cases k with
      | zero =>
        cases line with
        | release e => exact absurd rfl (hline e)
        | _ => cases hfinish
      | succ k =>
        refine ⟨k, by omega, ?_⟩
        change line.finish c op (k + 1) m = some r at hfinish
        rw [finish_step hline, hrun] at hfinish
        exact hfinish

/-- The agents seen through their sections. -/
def sections (c : MutexClass) :
    Serial.View (State τ ι) (Label τ ι) ι (Op τ × Line τ) (LockState τ) where
  inside := fun s a => match s.pos a with
    | .run op line => some (op, line)
    | _ => none
  data := State.mutex
  thread := Label.agent
  code := fun _ => Code c
  entry := fun p => p.2 = p.1.first ∨ p.2 = .back
  exit := fun p => ∃ e, p.2 = .release e

variable {s s' : State τ ι} {l : Label τ ι} {a : ι}

omit [DecidableEq ι] in
theorem inside_iff {p : Op τ × Line τ} :
    (sections c).inside s a = some p ↔ s.pos a = .run p.1 p.2 := by
  obtain ⟨op, line⟩ := p
  simp only [sections]
  cases s.pos a with
  | run op' line' => simp
  | _ => exact ⟨fun h => (by cases h), fun h => (by cases h)⟩

omit [DecidableEq ι] in
theorem inside_none (h : ∀ op line, s.pos a ≠ .run op line) : (sections c).inside s a = none := by
  cases hin : (sections c).inside s a with
  | none => rfl
  | some p => exact absurd (inside_iff.mp hin) (h _ _)

/-- What a step does, told by where its agent is. -/
inductive Moves (c : MutexClass) (s : State τ ι) (a : ι) : State τ ι → Prop
  | begins {op} (hpos : s.pos a = .idle) : Moves c s a (s.setPos a (.spin op false))
  | spins {op again} (hpos : s.pos a = .spin op again) (hlocked : s.locked = true) : Moves c s a s
  | locks {op again} (hpos : s.pos a = .spin op again) (hfree : s.locked = false) :
      Moves c s a { s.setPos a (.run op (if again then .back else op.first)) with locked := true }
  | runs {op line line' m'} (hpos : s.pos a = .run op line)
      (hrun : line.run c op s.mutex = some (line', m')) :
      Moves c s a { s.setPos a (.run op line') with mutex := m' }
  | unlocks {op e} (hpos : s.pos a = .run op (.release e)) :
      Moves c s a { s.setPos a (if e.switches then .away op else .idle) with locked := false }
  | wakes {op} (hpos : s.pos a = .away op) : Moves c s a (s.setPos a (.spin op true))

theorem step_moves (h : step c s l = some s') : Moves c s l.agent s' := by
  cases l with
  | begin a op =>
    simp only [step] at h
    split at h
    · simp only [Option.ite_none_right_eq_some, Option.some.injEq] at h
      obtain ⟨-, rfl⟩ := h
      exact .begins ‹_›
    · cases h
  | exchange a =>
    simp only [step] at h
    split at h
    · split at h
      · cases h
        exact .spins ‹_› ‹_›
      · cases h
        exact .locks ‹_› ((Bool.not_eq_true _).mp ‹_›)
    · cases h
  | run a =>
    simp only [step] at h
    split at h
    · cases h
      exact .unlocks ‹_›
    · obtain ⟨⟨line', m'⟩, hrun, rfl⟩ := Option.map_eq_some_iff.mp h
      exact .runs ‹_› hrun
    · cases h
  | wake a =>
    simp only [step] at h
    split at h
    · cases h
      exact .wakes ‹_›
    · cases h

/-- The spinlock is locked while an agent is in a section, and only then; two agents in a section
are one. -/
structure Guarded (s : State τ ι) : Prop where
  locked : s.locked = true ↔ ∃ a op line, s.pos a = .run op line
  alone : ∀ a b op line op' line', s.pos a = .run op line → s.pos b = .run op' line' → a = b

theorem Moves.others {b : ι} (h : Moves c s a s') (hb : b ≠ a) : s'.pos b = s.pos b := by
  cases h with
  | spins => rfl
  | _ => exact Function.update_of_ne hb _ _

theorem Guarded.step (hguarded : Guarded s) (h : Moves c s a s') : Guarded s' := by
  have hothers := fun b => h.others (b := b)
  -- an agent that was in no section leaves the sections of the others as they were
  have hsame : s'.locked = s.locked → (∀ op line, s.pos a ≠ .run op line) →
    (∀ op line, s'.pos a ≠ .run op line) → Guarded s' := by
    intro hlocked hbefore hafter
    have hpos : ∀ b op line, s'.pos b = .run op line ↔ s.pos b = .run op line := fun b op line => by
      by_cases hb : b = a
      · subst hb
        exact ⟨fun heq => absurd heq (hafter op line), fun heq => absurd heq (hbefore op line)⟩
      · rw [hothers b hb]
    refine ⟨?_, fun b b' op line op' line' hb hb' => ?_⟩
    · rw [hlocked, hguarded.locked]
      exact exists_congr fun b => exists_congr fun op => exists_congr fun line =>
        (hpos b op line).symm
    · exact hguarded.alone b b' op line op' line' ((hpos b op line).mp hb)
        ((hpos b' op' line').mp hb')
  cases h with
  | begins hpos | wakes hpos =>
    exact hsame rfl (fun op line heq => by cases hpos.symm.trans heq) fun op line heq => by
      cases (Function.update_self ..).symm.trans heq
  | spins => exact hguarded
  | @locks op again hpos hfree =>
    have hnone : ∀ b op line, s.pos b ≠ .run op line := fun b op line heq => by
      cases hfree.symm.trans (hguarded.locked.mpr ⟨b, op, line, heq⟩)
    have honly : ∀ b op' line',
      (Function.update s.pos a (.run op (if again then .back else op.first))) b = .run op' line' →
        b = a := fun b op' line' heq => by
      by_contra hb
      rw [Function.update_of_ne hb] at heq
      exact hnone b op' line' heq
    refine ⟨iff_of_true rfl ⟨a, _, _, Function.update_self ..⟩,
      fun b b' op₁ line₁ op₂ line₂ hb hb' => ?_⟩
    exact (honly b _ _ hb).trans (honly b' _ _ hb').symm
  | @runs op line line' m' hpos hrun =>
    have honly : ∀ b op₁ line₁, (Function.update s.pos a (.run op line')) b = .run op₁ line₁ →
      b = a := fun b op₁ line₁ heq => by
      by_contra hb
      rw [Function.update_of_ne hb] at heq
      exact hb (hguarded.alone _ _ _ _ _ _ heq hpos)
    refine ⟨iff_of_true (hguarded.locked.mpr ⟨a, _, _, hpos⟩) ⟨a, _, _, Function.update_self ..⟩,
      fun b b' op₁ line₁ op₂ line₂ hb hb' => ?_⟩
    exact (honly b _ _ hb).trans (honly b' _ _ hb').symm
  | @unlocks op e hpos =>
    have hnone : ∀ b op₁ line₁, (Function.update s.pos a (if e.switches then .away op else .idle))
      b ≠ .run op₁ line₁ := by
      intro b op₁ line₁ heq
      by_cases hb : b = a
      · subst hb
        rw [Function.update_self] at heq
        split at heq <;> cases heq
      · rw [Function.update_of_ne hb] at heq
        exact hb (hguarded.alone _ _ _ _ _ _ heq hpos)
    exact ⟨iff_of_false Bool.false_ne_true fun ⟨b, op₁, line₁, heq⟩ => hnone b op₁ line₁ heq,
      fun b b' op₁ line₁ op₂ line₂ hb _ => absurd hb (hnone b op₁ line₁)⟩

theorem reach_guarded {ok : State τ ι → Label τ ι → Prop} (hr : (system c).Reach ok s) :
    Guarded s := by
  refine hr.invariant (fun s hs => ?_) fun s l s' _ hguarded _ hstep =>
    hguarded.step (step_moves hstep)
  cases hs
  exact ⟨iff_of_false Bool.false_ne_true fun ⟨_, _, _, heq⟩ => (by cases heq),
    fun _ _ _ _ _ _ heq _ => (by cases heq)⟩

theorem takesTurns : (sections (ι := ι) c).TakesTurns (system c) (unowned (τ := τ)) where
  init := by
    rintro s rfl
    exact ⟨rfl, fun _ => rfl⟩
  alone := fun hr hp hq => (reach_guarded hr).alone _ _ _ _ _ _ (inside_iff.mp hp)
    (inside_iff.mp hq)
  others := by
    intro s l s' _ hstep u hu
    simp only [sections]
    rw [(step_moves hstep).others hu]
  turn := by
    intro s l s' _ hstep
    cases step_moves hstep with
    | begins hpos | wakes hpos =>
      refine .outside (inside_none fun op line heq => ?_) (inside_none fun op line heq => ?_) rfl
      · cases hpos.symm.trans heq
      · cases (Function.update_self ..).symm.trans heq
    | spins hpos =>
      exact .outside (inside_none fun op line heq => by cases hpos.symm.trans heq)
        (inside_none fun op line heq => by cases hpos.symm.trans heq) rfl
    | @locks op again hpos =>
      refine .enters (inside_none fun op line heq => by cases hpos.symm.trans heq)
        (inside_iff.mpr (Function.update_self ..) : _ =
          some (op, if again then .back else op.first)) ?_ rfl
      cases again with
      | false => exact .inl rfl
      | true => exact .inr rfl
    | @runs op line line' m' hpos hrun =>
      exact .works (inside_iff.mpr hpos : _ = some (op, line))
        (inside_iff.mpr (Function.update_self ..) : _ = some (op, line'))
        (.single (.run hrun))
    | @unlocks op e hpos =>
      refine .leaves (inside_iff.mpr hpos : _ = some (op, .release e))
        (inside_none fun op' line heq => ?_) ⟨e, rfl⟩ rfl
      have hnext : Function.update s.pos l.agent (if e.switches then .away op else .idle) l.agent =
        .run op' line := heq
      rw [Function.update_self] at hnext
      split at hnext <;> cases hnext

/-- What a finished section has done: what its operation says, or nothing after a switch. -/
def computes (c : MutexClass) (x : Serial.Section ι (Op τ × Line τ) (LockState τ)) : Prop :=
  x.exit.1 = x.entry.1 ∧
    (if x.entry.2 = .back then x.exit.2 = .release (x.entry.1.afterSwitch x.before) ∧
      x.after = x.before
    else x.exit.2 = .release (x.entry.1.section c x.before).1 ∧
      x.after = (x.entry.1.section c x.before).2)

/-- The sections follow one another, each as one step, and no agent is ever stuck in one. -/
structure Atomic (c : MutexClass) (s : State τ ι)
    (h : Serial.View.History ι (Op τ × Line τ) (LockState τ)) : Prop where
  computes : ∀ x ∈ h.finished, computes c x
  chained : ∃ m, Serial.Path Serial.Section.Leads unowned h.finished m ∧
    ((∀ a op line, s.pos a ≠ .run op line) → m = s.mutex)
  locked : s.locked = true ↔ ∃ a op line, s.pos a = .run op line
  alone : ∀ a b op line op' line', s.pos a = .run op line → s.pos b = .run op' line' → a = b
  ends : ∀ a op line, s.pos a = .run op line → ∃ n ≤ 9, ∃ r, line.finish c op n s.mutex = some r

omit [DecidableEq τ] in
theorem first_ne_back (op : Op τ) : op.first ≠ .back := by
  cases op <;> exact fun h => by cases h

theorem entry_finishes {p : Op τ × Line τ} (hentry : p.2 = p.1.first ∨ p.2 = .back)
    (m : LockState τ) :
    p.2.finish c p.1 9 m = some (if p.2 = .back then (p.1.afterSwitch m, m)
      else p.1.section c m) := by
  rcases hentry with hfirst | hback
  · rw [if_neg (hfirst ▸ first_ne_back p.1), hfirst]
    exact section_finishes p.1 m
  · rw [if_pos hback, hback]
    exact back_finishes p.1 m

omit [DecidableEq ι] in
theorem computes_of_completes {x : Serial.Section ι (Op τ × Line τ) (LockState τ)}
    (hx : (sections c).Completes x) :
    computes c x := by
  obtain ⟨e, hexit⟩ := hx.exit
  obtain ⟨hop, n, -, hfinish⟩ := finish_of_runs hx.runs (entry_finishes hx.entry x.before)
  change x.exit.2.finish c x.exit.1 n x.after = _ at hfinish
  rw [hexit, finish_release] at hfinish
  refine ⟨hop, ?_⟩
  split at hfinish
  · rename_i hback
    obtain ⟨he, hafter⟩ := Prod.mk.inj (Option.some.inj hfinish)
    rw [if_pos hback, hexit, he]
    exact ⟨rfl, hafter⟩
  · rename_i hback
    have hpair := Option.some.inj hfinish
    rw [if_neg hback, hexit, ← hpair]
    exact ⟨rfl, rfl⟩

/-- Every run of the statements of a mutex is a run of its sections. -/
theorem atomic {sh : State τ ι × Serial.View.History ι (Op τ × Line τ) (LockState τ)}
    (hr : ((system c).withHistory .start (sections c).record).Reachable sh) :
    Atomic c sh.1 sh.2 := by
  have hserial := takesTurns.reach_serializes hr
  have hguarded := reach_guarded hr.forget
  refine ⟨fun x hx => computes_of_completes (hserial.completes x hx), ?_, hguarded.locked,
    hguarded.alone, fun a op line hpos => ?_⟩
  · by_cases hidle : ∀ a, (sections c).inside sh.1 a = none
    · exact ⟨sh.1.mutex, hserial.idle hidle, fun _ => rfl⟩
    · obtain ⟨a, ha⟩ := not_forall.mp hidle
      obtain ⟨p, hp⟩ := Option.ne_none_iff_exists'.mp ha
      obtain ⟨e, m, -, -, hpath, -⟩ := hserial.busy a p hp
      exact ⟨m, hpath, fun hnone => absurd (fun a => inside_none (hnone a)) hidle⟩
  · obtain ⟨e, m, -, hentry, -, hruns⟩ := hserial.busy a (op, line) (inside_iff.mpr hpos)
    obtain ⟨-, n, hn, hfinish⟩ := finish_of_runs hruns (entry_finishes hentry m)
    exact ⟨n, hn, _, hfinish⟩

/-- The `unlock` of thread 0 and the handler of the timer of thread 1 meet at the spinlock, and
thread 1 owns the mutex afterwards. -/
theorem atomic_handed :
    ∃ sh : State Nat (Fin 3) × Serial.View.History (Fin 3) (Op Nat × Line Nat) (LockState Nat),
    Atomic .timedMutex sh.1 sh.2 ∧ sh.1.mutex = ⟨some 1, 0, []⟩ ∧
      sh.2.finished.map (·.exit.2) = [.release (.lock .returned), .release (.tryLockRel .queued),
        .release (.unlock (.handedOver ⟨1, true⟩)), .release .handled,
        .release (.again (some true))] := by
  let labels : List (Label Nat (Fin 3)) :=
    [.begin 0 (.lock 0), .exchange 0, .begin 1 (.tryLockRel 1), .exchange 1, .run 0, .run 0, .run 0,
      .run 0, .exchange 1, .run 1, .run 1, .run 1, .run 1, .begin 0 (.unlock 0), .exchange 0,
      .begin 2 (.timeoutHandler 1), .exchange 2, .run 0, .run 0, .run 0, .run 0, .run 0, .run 0,
      .run 0, .exchange 2, .run 2, .run 2, .run 2, .wake 1, .exchange 1, .run 1, .run 1]
  have hreach :=
    ((system (τ := Nat) (ι := Fin 3) .timedMutex).withHistory .start
      (sections .timedMutex).record).reach_of_run
    (fun _ _ => true) (⟨unowned, false, fun _ => .idle⟩, .start) ⟨rfl, rfl⟩ labels rfl
  exact ⟨_, atomic hreach.reachable, rfl, rfl⟩

end Spinlock

end GreenThread
