import Mathlib.Data.List.Nodup
import Mathlib.Tactic.Common

/-!
# The mutex

`mutex` of `mutex.hpp` and `mutex.cpp`: the thread that owns it and the queue of the threads that
wait for it. Each operation here is the section its code runs under the spinlock `mtx_`, as a
function of the mutex and of the caller; what the caller does after the section (return, throw,
pause, yield) is the section's exit. A caller is `some t` for the green thread `t` and `none` for a
native thread, which is what `detail::cur_thread` returns.
-/

namespace GreenThread

variable {τ : Type}

/-- The error codes a `lock_error` or `condition_error` carries. -/
inductive ErrorCode
  | operationNotPermitted
  | resourceDeadlockWouldOccur
  deriving DecidableEq, Repr

structure Mutex (τ : Type) where
  owner : Option τ
  suspended : List τ
  deriving DecidableEq, Repr

/-- How `lock` leaves the spinlock section. -/
inductive LockExit
  | returned
  | queued
  | threw (e : ErrorCode)
  deriving DecidableEq, Repr

/-- How `unlock` leaves the spinlock section. After a hand-over the new owner is resumed. -/
inductive UnlockExit (τ : Type)
  | returned
  | handedOver (next : τ)
  | threw (e : ErrorCode)
  deriving DecidableEq, Repr

namespace Mutex

def empty : Mutex τ := ⟨none, []⟩

section Sections

variable [DecidableEq τ]

def lock (m : Mutex τ) : Option τ → LockExit × Mutex τ
  | none => (.returned, m)
  | some tf =>
    if m.owner = some tf then (.threw .resourceDeadlockWouldOccur, m)
    else if m.owner = none then (.returned, { m with owner := some tf })
    else (.queued, { m with suspended := m.suspended ++ [tf] })

def unlock (m : Mutex τ) : Option τ → UnlockExit τ × Mutex τ
  | none => (.returned, m)
  | some tf =>
    if m.owner ≠ some tf then (.threw .operationNotPermitted, m)
    else match m.suspended with
      | [] => (.returned, { m with owner := none })
      | next :: rest => (.handedOver next, ⟨some next, rest⟩)

def tryLock (m : Mutex τ) : Option τ → Bool × Mutex τ
  | none => (false, m)
  | some tf =>
    if m.owner = some tf then (true, m)
    else if m.owner = none then (true, { m with owner := some tf })
    else (false, m)

/-! ### What each section can do -/

theorem lock_cases (m : Mutex τ) (t : τ) :
    (m.owner = some t ∧ m.lock (some t) = (.threw .resourceDeadlockWouldOccur, m)) ∨
    (m.owner = none ∧ m.lock (some t) = (.returned, { m with owner := some t })) ∨
    (∃ u, m.owner = some u ∧ u ≠ t ∧
      m.lock (some t) = (.queued, { m with suspended := m.suspended ++ [t] })) := by
  rcases howner : m.owner with _ | u
  · exact .inr (.inl ⟨rfl, by simp [lock, howner]⟩)
  · by_cases hu : u = t
    · exact .inl ⟨by rw [hu], by simp [lock, howner, hu]⟩
    · exact .inr (.inr ⟨u, rfl, hu, by simp [lock, howner, hu]⟩)

theorem unlock_cases (m : Mutex τ) (t : τ) :
    (m.owner ≠ some t ∧ m.unlock (some t) = (.threw .operationNotPermitted, m)) ∨
    (m.owner = some t ∧ m.suspended = [] ∧ m.unlock (some t) = (.returned, ⟨none, []⟩)) ∨
    (m.owner = some t ∧ ∃ next rest, m.suspended = next :: rest ∧
      m.unlock (some t) = (.handedOver next, ⟨some next, rest⟩)) := by
  by_cases howner : m.owner = some t
  · rcases hqueue : m.suspended with _ | ⟨next, rest⟩
    · exact .inr (.inl ⟨howner, rfl, by simp [unlock, howner, hqueue]⟩)
    · exact .inr (.inr ⟨howner, next, rest, rfl, by simp [unlock, howner, hqueue]⟩)
  · exact .inl ⟨howner, by simp [unlock, howner]⟩

theorem tryLock_cases (m : Mutex τ) (t : τ) :
    (m.owner = some t ∧ m.tryLock (some t) = (true, m)) ∨
    (m.owner = none ∧ m.tryLock (some t) = (true, { m with owner := some t })) ∨
    (∃ u, m.owner = some u ∧ u ≠ t ∧ m.tryLock (some t) = (false, m)) := by
  rcases howner : m.owner with _ | u
  · exact .inr (.inl ⟨rfl, by simp [tryLock, howner]⟩)
  · by_cases hu : u = t
    · exact .inl ⟨by rw [hu], by simp [tryLock, howner, hu]⟩
    · exact .inr (.inr ⟨u, rfl, hu, by simp [tryLock, howner, hu]⟩)

end Sections

/-! ### The queue discipline -/

/-- No thread waits twice, the owner does not wait, and nobody waits for a free mutex. -/
structure Ok (m : Mutex τ) : Prop where
  nodup : m.suspended.Nodup
  owner_out : ∀ t, m.owner = some t → t ∉ m.suspended
  free : m.owner = none → m.suspended = []

theorem Ok.empty : (empty : Mutex τ).Ok :=
  ⟨List.nodup_nil, fun _ h => by simp [Mutex.empty] at h, fun _ => rfl⟩

theorem Ok.acquire {m : Mutex τ} (h : m.Ok) (hfree : m.owner = none) (t : τ) :
    ({ m with owner := some t } : Mutex τ).Ok where
  nodup := h.nodup
  owner_out := fun u _ => by simp [h.free hfree]
  free := fun hnone => by simp at hnone

theorem Ok.enqueue {m : Mutex τ} (h : m.Ok) {t u : τ} (howner : m.owner = some u) (hne : u ≠ t)
    (hout : t ∉ m.suspended) : ({ m with suspended := m.suspended ++ [t] } : Mutex τ).Ok where
  nodup := by
    rw [List.nodup_append]
    refine ⟨h.nodup, List.nodup_singleton t, ?_⟩
    rintro a ha b hb rfl
    rw [List.mem_singleton] at hb
    exact hout (hb ▸ ha)
  owner_out := fun v hv hmem => by
    have hvu : v = u := Option.some.inj (hv.symm.trans howner)
    subst hvu
    rcases List.mem_append.mp hmem with hold | hnew
    · exact h.owner_out v howner hold
    · exact hne (List.mem_singleton.mp hnew)
  free := fun hnone => by
    rw [howner] at hnone
    cases hnone

theorem Ok.handOver {m : Mutex τ} (h : m.Ok) {next : τ} {rest : List τ}
    (hqueue : m.suspended = next :: rest) : (⟨some next, rest⟩ : Mutex τ).Ok where
  nodup := (List.nodup_cons.mp (hqueue ▸ h.nodup)).2
  owner_out := fun t ht => by
    cases ht
    exact (List.nodup_cons.mp (hqueue ▸ h.nodup)).1
  free := fun hnone => by cases hnone

theorem Ok.next_ne {m : Mutex τ} (h : m.Ok) {t next : τ} {rest : List τ} (howner : m.owner = some t)
    (hqueue : m.suspended = next :: rest) : next ≠ t := by
  rintro rfl
  refine h.owner_out next howner ?_
  rw [hqueue]
  exact List.mem_cons_self

end Mutex

/-- An entry of a waiting queue: the thread and whether a timer is attached to its wait (`t_` is not
null). -/
structure SuspendedItem (τ : Type) where
  f : τ
  t : Bool
  deriving DecidableEq, Repr

/-- The equality by which a queue is searched for an entry. -/
instance SuspendedItem.lawfulBEq [DecidableEq τ] : LawfulBEq (SuspendedItem τ) := inferInstance

end GreenThread
