import GreenThread.Condition.Queues
import Mathlib.Data.Fintype.Basic

/-!
# `condition_variable_any`

`condition_variable_any::wait` locks its own mutex `mtx_`, unlocks the mutex `m` of its caller,
waits on `cond_` with `mtx_`, unlocks `mtx_` and locks `m` again; `notify_one` and `notify_all` only
notify `cond_`. A wait therefore registers after it has released `m`, while
`condition_variable::wait` queues its thread before it unlocks, and a notifier that takes no part in
`mtx_` can come between the two.
-/

namespace GreenThread

namespace ConditionAny

/-- The mutex of the callers and the mutex of the condition variable. -/
inductive Mtx
  | m
  | mtx
  deriving DecidableEq, Repr

inductive Use
  | lock
  | tryLock
  | unlock
  deriving DecidableEq, Repr

/-- Where a thread is. A timed wait is `wait_for`. -/
inductive Pos
  | idle
  | uses (op : Use)
  | notifyOne
  | notifyAll
  /-- in `wait`, before the lock of `lk` -/
  | waitLock (timed : Bool)
  /-- before the `m.unlock()` of `guard.activate` -/
  | waitRelease (timed : Bool)
  /-- before `cond_.wait(lk)` -/
  | waitCond (timed : Bool)
  /-- before the unlock in the destructor of `lk` -/
  | waitUnlock (timed : Bool)
  /-- before the `m->lock()` in the destructor of `guard` -/
  | waitRelock (timed : Bool)
  /-- `m.unlock()` threw: before the unlock in the destructor of `lk` -/
  | failUnlock
  /-- an exception left a destructor -/
  | terminated
  deriving DecidableEq, Repr

def Use.call : Use → Call Mtx Unit
  | .lock => .lock .m
  | .tryLock => .tryLock .m
  | .unlock => .unlock .m

def Pos.call : Pos → Option (Call Mtx Unit)
  | .idle | .terminated => none
  | .uses op => some op.call
  | .notifyOne => some (.notifyOne ())
  | .notifyAll => some (.notifyAll ())
  | .waitLock _ => some (.lock .mtx)
  | .waitRelease _ => some (.unlock .m)
  | .waitCond timed => some (if timed then .waitRel () .mtx else .wait () .mtx)
  | .waitUnlock _ | .failUnlock => some (.unlock .mtx)
  | .waitRelock _ => some (.lock .m)

def Pos.ret : Pos → Ret → Pos
  | .waitLock _, .threw _ => .idle
  | .waitLock timed, _ => .waitRelease timed
  | .waitRelease _, .threw _ => .failUnlock
  | .waitRelease timed, _ => .waitCond timed
  | .waitCond timed, _ => .waitUnlock timed
  | .waitUnlock _, .threw _ | .failUnlock, .threw _ | .waitRelock _, .threw _ => .terminated
  | .waitUnlock timed, _ => .waitRelock timed
  | _, _ => .idle

/-- What an idle thread can begin. -/
def Pos.begins : Pos → Bool
  | .uses _ | .notifyOne | .notifyAll | .waitLock _ => true
  | _ => false

variable {τ : Type} [DecidableEq τ]

def client : Client τ Mtx Unit Pos Unit Pos where
  call := Pos.call
  ret := Pos.ret
  act := fun _ a _ b => if a = .idle ∧ b.begins then some (b, ()) else none

abbrev State (τ : Type) := Machine.State τ Mtx Unit Pos Unit

abbrev Label (τ : Type) := Machine.Label τ Pos

/-- The position is inside `wait` or `wait_for`. -/
def Pos.inWait : Pos → Bool
  | .waitLock _ | .waitRelease _ | .waitCond _ | .waitUnlock _ | .waitRelock _ => true
  | _ => false

/-- The thread has released `m` in `wait` and has not yet queued itself on `cond_`. -/
def inGap : PC Mtx Unit Pos → Bool
  | .yielding (.waitRelease _) | .user (.waitCond _) => true
  | _ => false

/-- The position is inside `notify_one` or `notify_all`. -/
def inNotify (p : PC Mtx Unit Pos) : Bool :=
  match p.at with
  | some .notifyOne | some .notifyAll => true
  | _ => false

/-- What is owed to the waiting threads: who has acquired `m` since a thread released it in `wait`,
and which of these have notified it. -/
structure Debts (τ : Type) where
  acquired : τ → τ → Prop
  owed : τ → τ → Prop

/-- The step is the `m.unlock()` of the thread's `wait`. -/
def releases (s s' : State τ) (t : τ) : Prop :=
  (∃ timed, s.pc t = .user (.waitRelease timed)) ∧ inGap (s'.pc t) = true

/-- No other thread is inside a wait. -/
def OnlyWaiter (s : State τ) (t : τ) : Prop :=
  ∀ u a, u ≠ t → (s.pc u).at = some a → a.inWait = false

/-- The step is a notification by `n`, which acquired `m` after `t` released it, and it must reach
`t`: a `notify_all`, or a `notify_one` while no other thread waits. -/
def notifies (h : Debts τ) (s : State τ) (l : Label τ) (t n : τ) : Prop :=
  (∃ switch, l = .call n switch) ∧ n ≠ t ∧ h.acquired t n ∧
    (s.pc n = .user .notifyAll ∨ (s.pc n = .user .notifyOne ∧ OnlyWaiter s t))

def record (h : Debts τ) (s : State τ) (l : Label τ) (s' : State τ) : Debts τ where
  acquired := fun t n =>
    (h.acquired t n ∧ ¬ releases s s' t) ∨
      ((s.mutex .m).owner ≠ some n ∧ (s'.mutex .m).owner = some n)
  owed := fun t n => (h.owed t n ∧ ¬ releases s s' t) ∨ notifies h s l t n

/-- Nobody has acquired or notified anything. -/
def noDebts : Debts τ := ⟨fun _ _ => False, fun _ _ => False⟩

/-- All threads are green. -/
def system : TransitionSystem (State τ × Debts τ) (Label τ) :=
  (Machine.system client (fun _ => true) (fun _ => .idle) ()).withHistory noDebts record

/-- No thread is blocked in `cond_.wait` with nothing in flight for it after a notification that
must reach it has finished. -/
def NoLostWakeUp (s : State τ) (h : Debts τ) : Prop :=
  ∀ t n w a, s.pc t = .pausing w a → w.timed = false → s.pending t = 0 → inNotify (s.pc n) = false →
    ¬ h.owed t n

/-- The notification does not come while the thread it must reach is between its `m.unlock()` and
its place in the queue of `cond_`. -/
def missesNobody (sh : State τ × Debts τ) (l : Label τ) : Prop :=
  ∀ t n, notifies sh.2 sh.1 l t n → inGap (sh.1.pc t) = false

/-! ### Runs without a notification in the gap -/

variable {s s' : State τ} {h : Debts τ} {l : Label τ}

/-- A thread that was notified is neither in the gap nor in the queue. -/
def Paid (s : State τ) (h : Debts τ) : Prop :=
  ∀ t n, h.owed t n → inGap (s.pc t) = false ∧ (⟨t, false⟩ : SuspendedItem τ) ∉ s.cond ()

theorem release_of_ret {a : Pos} {r : Ret} {timed : Bool} (hret : a.ret r = .waitCond timed) :
    a = .waitRelease timed := by
  cases a <;> cases r <;> simp_all [Pos.ret]

theorem release_of_next {p : PC Mtx Unit Pos} {a : Pos} {call : Call Mtx Unit}
    {P : Ret → Prop}
    (hnext : p.Inside a ∨ ∃ r, call.Gives r ∧ P r ∧ p = .user (a.ret r)) (hgap : inGap p = true) :
    ∃ timed, a = .waitRelease timed := by
  rcases hnext with ⟨hat, hne⟩ | ⟨r, -, -, rfl⟩
  · unfold inGap at hgap
    split at hgap
    · rename_i timed
      exact ⟨timed, (Option.some.inj hat).symm⟩
    · exact absurd (congrArg PC.user (Option.some.inj hat)) hne
    · cases hgap
  · unfold inGap at hgap
    split at hgap
    · rename_i heq
      cases heq
    · rename_i timed heq
      exact ⟨timed, release_of_ret (PC.user.inj heq)⟩
    · cases hgap

omit [DecidableEq τ] in
theorem release_at {p : PC Mtx Unit Pos} {timed : Bool} (hat : p.at = some (.waitRelease timed))
    (hcalled : p.Called (client (τ := τ))) : p = .user (.waitRelease timed) ∨ inGap p = true := by
  have hwait : ∀ w : WaitCall Mtx Unit, (client (τ := τ)).call (.waitRelease timed) ≠
      some (Machine.WaitCall.call w) := by
    rintro ⟨c, x, b⟩ heq
    cases b <;> cases heq
  cases p with
  | user a => exact .inl (congrArg PC.user (Option.some.inj hat))
  | yielding a =>
    obtain rfl := Option.some.inj hat
    exact .inr rfl
  | locking x a =>
    obtain rfl := Option.some.inj hat
    cases hcalled
  | unlocking w a | unlockYield w a | pausing w a | relocking w a | relockPause w a =>
    obtain rfl := Option.some.inj hat
    exact absurd hcalled (hwait w)
  | terminated => cases hat

/-- A thread enters the gap by the `m.unlock()` of its wait only. -/
theorem releases_of_gap (hcalled : ∀ t, (s.pc t).Called (client (τ := τ)))
    (hmove : Machine.Move client (fun _ => true) s l s') {t : τ} (hgap : inGap (s'.pc t) = true) :
    inGap (s.pc t) = true ∨ releases s s' t := by
  rcases hmove.effect hcalled with ⟨u, o, a, b, x, rfl, hpcu, hact, hpc, -, -⟩ |
    ⟨-, p, hpc, hprogress, hp⟩
  · by_cases htu : t = u
    · subst htu
      simp only [client, Option.ite_none_right_eq_some, Option.some.injEq, Prod.mk.injEq] at hact
      obtain ⟨⟨-, hbegins⟩, rfl, -⟩ := hact
      rw [hpc, Function.update_self] at hgap
      cases o <;> simp [Pos.begins, inGap] at hbegins hgap
    · rw [hpc, Function.update_of_ne htu] at hgap
      exact .inl hgap
  · by_cases htl : t = l.thread
    · subst htl
      have hgap' : inGap p = true := by rwa [hpc, Function.update_self] at hgap
      rcases hprogress with rfl | ⟨a, call, hat, hcall, hnext⟩
      · exact .inl hgap'
      · obtain ⟨timed, rfl⟩ := release_of_next hnext hgap'
        rcases release_at hat (hcalled l.thread) with huser | hin
        · exact .inr ⟨⟨timed, huser⟩, hgap⟩
        · exact .inl hin
    · rw [hpc, Function.update_of_ne htl] at hgap
      exact .inl hgap

theorem gap_of_wait {a : Pos} {w : WaitCall Mtx Unit}
    (hcall : a.call = some (Machine.WaitCall.call w)) :
    inGap (.user a) = true := by
  obtain ⟨c, x, b⟩ := w
  cases a with
  | waitCond => rfl
  | uses op => cases op <;> cases b <;> cases hcall
  | _ => cases b <;> cases hcall

/-- A thread joins the queue of `cond_` out of the gap only. -/
theorem gap_of_joined (hmove : Machine.Move client (fun _ => true) s l s') {t : τ}
    (hmem : (⟨t, false⟩ : SuspendedItem τ) ∈ s'.cond ()) :
    inGap (s.pc t) = true ∨ (⟨t, false⟩ : SuspendedItem τ) ∈ s.cond () := by
  cases hreg : ConditionProtocol.registers l s' with
  | none => exact .inr ((ConditionProtocol.cond_sublist hmove hreg ()).subset hmem)
  | some u =>
    obtain ⟨a, w, hpc, hcall, rfl⟩ := ConditionProtocol.startWait_of_registers hmove hreg
    rw [ConditionProtocol.startWait_cond, Function.update_self, List.mem_append,
      List.mem_singleton] at hmem
    rcases hmem with hold | hnew
    · exact .inr hold
    · have htu : t = u := congrArg SuspendedItem.f hnew
      exact .inl (by rw [htu, hpc, gap_of_wait hcall])

omit [DecidableEq τ] in
theorem inWait_of_queued (hinv : Machine.Inv (fun _ => true) s)
    (hcalled : ∀ t, (s.pc t).Called (client (τ := τ))) {i : SuspendedItem τ} (hi : i ∈ s.cond ()) :
    ∃ a, (s.pc i.f).at = some a ∧ a.inWait = true := by
  obtain ⟨w, hw, -, -⟩ := ConditionProtocol.waitOf_queued hinv hi
  have hcall := hcalled i.f
  cases hpc : s.pc i.f with
  | unlocking w' a | unlockYield w' a | pausing w' a =>
    rw [hpc] at hcall
    have hgap := gap_of_wait hcall
    refine ⟨a, rfl, ?_⟩
    cases a <;> first | rfl | cases hgap
  | _ => simp [hpc, ConditionProtocol.awaits] at hw

/-- The queue of `cond_` loses its only waiter with its first entry. -/
theorem not_queued_of_only (hinv : Machine.Inv (fun _ => true) s)
    (hcalled : ∀ t, (s.pc t).Called (client (τ := τ))) {t : τ} (honly : OnlyWaiter s t) :
    (⟨t, false⟩ : SuspendedItem τ) ∉ (s.cond ()).tail := by
  intro hmem
  have hmem' : (⟨t, false⟩ : SuspendedItem τ) ∈ s.cond () := List.mem_of_mem_tail hmem
  rcases hqueue : s.cond () with _ | ⟨⟨f, b⟩, rest⟩
  · rw [hqueue] at hmem'
    cases hmem'
  · have hfirst : (⟨f, b⟩ : SuspendedItem τ) ∈ s.cond () := by rw [hqueue]; exact List.mem_cons_self
    obtain ⟨a, hat, hin⟩ := inWait_of_queued hinv hcalled hfirst
    have hft : f = t := by
      by_contra hne
      rw [honly f a hne hat] at hin
      cases hin
    subst hft
    obtain ⟨w, hw, -, htimed⟩ := ConditionProtocol.waitOf_queued hinv hfirst
    obtain ⟨w', hw', -, hflag⟩ := ConditionProtocol.waitOf_queued hinv hmem'
    obtain rfl := Option.some.inj (hw.symm.trans hw')
    obtain rfl : b = false := htimed.symm.trans hflag
    have hnodup := hinv.cond ()
    rw [hqueue, List.nodup_cons] at hnodup
    rw [hqueue, List.tail_cons] at hmem
    exact hnodup.1 hmem

theorem Paid.step (hpaid : Paid s h) (hinv : Machine.Inv (fun _ => true) s)
    (hcalled : ∀ t, (s.pc t).Called (client (τ := τ))) (hok : missesNobody (s, h) l)
    (hmove : Machine.Move client (fun _ => true) s l s') : Paid s' (record h s l s') := by
  rintro t n (⟨howed, hnot⟩ | hnotifies)
  · obtain ⟨hgap, hout⟩ := hpaid t n howed
    refine ⟨?_, fun hmem => ?_⟩
    · by_contra hgap'
      rcases releases_of_gap hcalled hmove (by simpa using hgap') with hold | hnew
      · rw [hgap] at hold
        cases hold
      · exact hnot hnew
    · rcases gap_of_joined hmove hmem with hold | hold
      · rw [hgap] at hold
        cases hold
      · exact hout hold
  · have hgap := hok t n hnotifies
    obtain ⟨⟨switch, rfl⟩, hne, -, hkind⟩ := hnotifies
    refine ⟨?_, ?_⟩
    · rwa [hmove.pc_ne hcalled (Ne.symm hne)]
    · rcases hkind with hpc | ⟨hpc, honly⟩
      · rw [(ConditionProtocol.cond_notify hmove hpc ()).2 rfl]
        exact List.not_mem_nil
      · rw [(ConditionProtocol.cond_notify hmove hpc ()).1 rfl]
        exact not_queued_of_only hinv hcalled honly

/-- In a run in which no notification comes while the thread it must reach is in the gap, no wake-up
is lost. -/
theorem no_lost_wakeUp {sh : State τ × Debts τ} (hreach : system.Reach missesNobody sh) :
    NoLostWakeUp sh.1 sh.2 := by
  have hpaid : Paid sh.1 sh.2 := by
    refine hreach.invariant (I := fun sh => Paid sh.1 sh.2) ?_ ?_
    · rintro ⟨s, h⟩ ⟨hs, hh⟩
      cases hs
      cases hh
      exact fun t n howed => howed.elim
    · rintro ⟨s, h⟩ l sh' hr hpaid hok hstep
      obtain ⟨s', hs', rfl⟩ := TransitionSystem.withHistory_step.mp hstep
      have hinv := Machine.reach_inv hr.forget
      exact hpaid.step hinv (Machine.reach_called hr.forget) hok (Machine.step_move hinv hs')
  intro t n w a hpc htimed hpending _ howed
  have hinv := Machine.reach_inv hreach.forget
  exact (hpaid t n howed).2 (ConditionProtocol.queued_of_blocked hinv hpc htimed hpending)

/-- A check of one step that is enough for `missesNobody`: no notification while any thread is in
the gap. -/
def gapFree [Fintype τ] (sh : State τ × Debts τ) : Label τ → Bool
  | .call n _ =>
    match sh.1.pc n with
    | .user .notifyAll | .user .notifyOne => ∀ t, inGap (sh.1.pc t) = false
    | _ => true
  | _ => true

omit [DecidableEq τ] in
theorem missesNobody_of_gapFree [Fintype τ] {sh : State τ × Debts τ} {l : Label τ}
    (hfree : gapFree sh l = true) : missesNobody sh l := by
  rintro t n ⟨⟨switch, rfl⟩, -, -, hpc | ⟨hpc, -⟩⟩
    <;> simp only [gapFree, hpc, decide_eq_true_eq] at hfree <;>
    exact hfree t

def begin : State (Fin 2) × Debts (Fin 2) := (Machine.initial (fun _ => .idle) (), noDebts)

/-- Thread 1 takes `m` and notifies after thread 0 has paused, and thread 0 is resumed. -/
theorem no_lost_wakeUp_notified : ∃ sh : State (Fin 2) × Debts (Fin 2),
    NoLostWakeUp sh.1 sh.2 ∧ sh.1.pc 0 = .pausing ⟨(), .mtx, false⟩ (.waitCond false) ∧
    sh.1.pending 0 = 1 := by
  let labels : List (Label (Fin 2)) :=
    [.act 0 (.uses .lock), .call 0 false, .act 0 (.waitLock false), .call 0 false, .call 0 false,
      .call 0 false, .proceed 0 false, .act 1 (.uses .lock), .call 1 false, .act 1 .notifyAll,
      .call 1 false]
  have hreach := system.reach_of_run gapFree begin ⟨rfl, rfl⟩ labels rfl
  exact ⟨_, no_lost_wakeUp (hreach.mono fun _ _ => missesNobody_of_gapFree), rfl, rfl⟩

omit [DecidableEq τ] in
theorem not_releases {t : τ} {timed : Bool} (hpc : s.pc t = .user (.waitCond timed)) :
    ¬ releases s s' t := by
  rintro ⟨⟨timed', hpc'⟩, -⟩
  rw [hpc] at hpc'
  cases hpc'

/-- The steps of a lost wake-up: thread 1 queues for `m`, gets it from the `m.unlock()` inside
thread 0's wait, and notifies before thread 0 reaches the queue of `cond_`. -/
def lostWakeUp : List (Label (Fin 2)) :=
  [.act 0 (.uses .lock), .call 0 false, .act 1 (.uses .lock), .call 1 false,
    .act 0 (.waitLock false), .call 0 false, .call 0 false, .deliver 1, .wake 1, .act 1 .notifyAll,
    .call 1 false, .deliver 1, .wake 1, .call 0 false, .proceed 0 false]

/-- A wake-up can be lost: after these steps thread 1 has returned from `notify_all` and thread 0 is
blocked with nothing in flight. -/
theorem wakeUp_lost :
    ¬ ∀ sh : State (Fin 2) × Debts (Fin 2), system.Reachable sh → NoLostWakeUp sh.1 sh.2 := by
  intro hall
  have hreach := (system.reach_of_run (fun _ _ => true) begin ⟨rfl, rfl⟩ lostWakeUp rfl).reachable
  refine hall _ hreach 0 1 ⟨(), .mtx, false⟩ (.waitCond false) rfl rfl rfl rfl ?_
  have hgap : ∀ {s s' : State (Fin 2)}, s.pc 0 = .user (.waitCond false) →
    ¬ releases s s' 0 := not_releases
  -- thread 1 becomes the owner with the release, and
  -- its notification is owed to thread 0 from then on
  refine .inl ⟨.inl ⟨.inl ⟨.inl ⟨.inr ⟨⟨false, rfl⟩, by decide, ?_, .inl rfl⟩, hgap rfl⟩, hgap rfl⟩,
    hgap rfl⟩, fun hreleases => ?_⟩
  · exact .inl ⟨.inl ⟨.inl ⟨.inr ⟨by decide, rfl⟩, hgap rfl⟩, hgap rfl⟩, hgap rfl⟩
  · obtain ⟨⟨timed, hpc⟩, -⟩ := hreleases
    cases hpc

end ConditionAny

end GreenThread
