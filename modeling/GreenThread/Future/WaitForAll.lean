import GreenThread.Future.Callbacks
import Mathlib.Data.Fintype.Basic

/-!
# `wait_for_all`

`wait_for_all` keeps a mutex, a condition variable and the counter `acquired` in its own frame,
registers on every future a callback that refers to them, and waits under the mutex until `acquired`
is the number of futures. A callback first increments `acquired` and then notifies. It does neither
under the mutex, so its notification can come between the waiting thread's check and its wait, and
it can still have to come when the waiting thread has found the final count and returned.
-/

namespace GreenThread

namespace WaitForAll

open Callbacks

/-- The forms of `wait_for_all`. -/
inductive Form
  /-- the callback notifies every time -/
  | iterator
  /-- the variadic and the tuple form: the callback notifies if it is the last to increment
  `acquired` -/
  | variadic
  deriving DecidableEq, Repr

/-- Where a callback is. -/
inductive Callback
  /-- before `++acquired` -/
  | increment
  /-- before `cv.notify_all()` -/
  | notify
  deriving DecidableEq, Repr

/-- Where the waiting thread is, after the registration. -/
inductive Waiter
  /-- before the lock of `mtx` -/
  | lock
  /-- before the test of `acquired==count` -/
  | check
  /-- before `cv.wait(lk)` -/
  | wait
  /-- before the unlock of `mtx` -/
  | unlock
  | returned
  | failed
  deriving DecidableEq, Repr

def Form.notifies (count acquired : Nat) : Form → Bool
  | .iterator => true
  | .variadic => acquired = count

def Form.go (form : Form) (count : Nat) : Callback → Nat → Option (Option Callback × Nat)
  | .increment, acquired => some (if form.notifies count (acquired + 1) then some .notify
      else none, acquired + 1)
  | .notify, _ => none

def Callback.call : Callback → Option (Call Unit Unit)
  | .increment => none
  | .notify => some (.notifyAll ())

def Waiter.go (count : Nat) : Waiter → Nat → Option (Waiter × Nat)
  | .check, acquired => some (if acquired = count then .unlock else .wait, acquired)
  | _, _ => none

def Waiter.call : Waiter → Option (Call Unit Unit)
  | .lock => some (.lock ())
  | .wait => some (.wait () ())
  | .unlock => some (.unlock ())
  | _ => none

def Waiter.ret : Waiter → Ret → Waiter
  | _, .threw _ => .failed
  | .lock, _ | .wait, _ => .check
  | .unlock, _ => .returned
  | c, _ => c

def Form.task (form : Form) (count : Nat) : Task Callback Waiter Nat Unit Unit where
  count := count
  first := .increment
  go := fun _ => form.go count
  call := Callback.call
  ret := fun _ _ => none
  after := .lock
  goAfter := Waiter.go count
  callAfter := Waiter.call
  retAfter := Waiter.ret

abbrev State (τ : Type) := Callbacks.State τ Unit Unit Callback Waiter Nat

variable {τ : Type} [DecidableEq τ]

/-- The thread `w` is in `wait_for_all` on a list of `count` futures. -/
abbrev system (form : Form) (count : Nat) (green : τ → Bool) (w : τ) :
    TransitionSystem (State τ) (Label τ) :=
  Callbacks.system (form.task count) green w 0

variable {form : Form} {count : Nat} {green : τ → Bool} {w : τ} {s s' : State τ} {l : Label τ}

/-- A callback has still to be called or to take a step. -/
def Unfinished (s : State τ) : Prop :=
  (∃ i, s.shared.stored i = true) ∨ ∃ t i inlined b, s.pc t = .user (.callback i inlined b)

/-- The waiting thread is not blocked with nothing in flight when all callbacks have counted and
finished. -/
def NeverMissed (count : Nat) (w : τ) (s : State τ) : Prop :=
  s.shared.data = count → ¬ Unfinished s → ∀ wc a, s.pc w = .pausing wc a → s.pending w ≠ 0

/-- A callback does not notify between the waiting thread's check and its place in the queue of
`cv`, unless another callback has still to be called or to take a step. -/
def inTime (w : τ) (s : State τ) (l : Label τ) : Prop :=
  ∀ t switch i inlined, l = .call t switch → s.pc t = .user (.callback i inlined .notify) →
  s.pc w = .user (.after .wait) →
    (∃ j, s.shared.stored j = true) ∨ ∃ u j inlined b, u ≠ t ∧
    s.pc u = .user (.callback j inlined b)

/-! ### The count -/

/-- The callback has still to increment `acquired`. -/
def Callback.before : Callback → Bool
  | .increment => true
  | .notify => false

theorem counts : Counts (form.task count) Callback.before id where
  first := rfl
  call := by
    intro b hb
    cases b with
    | increment => rfl
    | notify => cases hb
  ret := nofun
  go := by
    intro i b x b' y hgo
    cases b with
    | increment =>
      cases hgo
      refine .inl ⟨rfl, ?_, rfl⟩
      split <;> rfl
    | notify => cases hgo
  after := by
    intro c x c' y hgo
    cases c <;> cases hgo
    rfl

omit [DecidableEq τ] in
theorem registered_after {c : Waiter} (hat : (s.pc w).at = some (.after c)) :
    registered (form.task count) s w = count := by
  unfold registered
  rw [hat]
  rfl

/-- While `acquired` is not the number of futures and all are registered, a callback has still to be
called or to take a step. -/
theorem unfinished_of_ne {ok : State τ → Label τ → Prop}
    (hr : (system form count green w).Reach ok s) {c : Waiter}
    (hat : (s.pc w).at = some (.after c)) (hne : s.shared.data ≠ count) : Unfinished s := by
  obtain ⟨done, haccounted⟩ := reach_accounted counts rfl hr
  obtain ⟨i, x, hx⟩ := haccounted.owes_something (by rw [registered_after hat]; exact hne)
  cases x with
  | none => exact .inl ⟨i, hx⟩
  | some t =>
    obtain ⟨p, hpc, inlined, b, rfl, -⟩ := hx
    exact .inr ⟨t, i, inlined, b, hpc⟩

/-- When `acquired` is the number of futures, every callback has been called and has incremented
it. -/
theorem counted_of_eq {ok : State τ → Label τ → Prop}
    (hr : (system form count green w).Reach ok s) {c : Waiter}
    (hat : (s.pc w).at = some (.after c)) (hfull : s.shared.data = count) :
    (∀ i, s.shared.stored i = false) ∧ ∀ t i inlined, s.pc t ≠ .user
    (.callback i inlined .increment) := by
  obtain ⟨done, haccounted⟩ := reach_accounted counts rfl hr
  have hnothing := haccounted.owes_nothing (by rw [registered_after hat]; exact hfull)
  constructor
  · intro i
    by_contra hstored
    exact hnothing i ⟨none, by simpa using hstored⟩
  · exact fun t i inlined hpc => hnothing i ⟨some t, _, hpc, owes_callback.mpr ⟨rfl, rfl⟩⟩

/-! ### The calls -/

theorem wait_of_call {p : Pos Callback Waiter} {wc : WaitCall Unit Unit}
    (hcall : p.call (form.task count) = some (Machine.WaitCall.call wc)) :
    p = .after .wait ∧ wc.timed = false := by
  obtain ⟨c, m, timed⟩ := wc
  cases p with
  | idle | register => cases timed <;> cases hcall
  | callback i inlined b => cases b <;> cases timed <;> cases hcall
  | after c =>
    cases c <;> cases timed <;> cases hcall
    exact ⟨rfl, rfl⟩

theorem notify_of_call {i : Nat} {inlined : Bool} {b : Callback} {call : Call Unit Unit}
    (hcall : (Pos.callback i inlined b).call (form.task count) = some call) :
    b = .notify ∧ call = .notifyAll () := by
  cases b <;> cases hcall
  exact ⟨rfl, rfl⟩

theorem ret_ne_wait {p : Pos Callback Waiter} {call : Call Unit Unit} {r : Ret}
    (hcall : p.call (form.task count) = some call) : p.ret (form.task count) r ≠ .after .wait := by
  cases p with
  | idle | register => cases hcall
  | callback i inlined b => cases inlined <;> exact nofun
  | after c => cases c <;> cases hcall <;> cases r <;> exact nofun

theorem waitsAt : WaitsAt (form.task count) Waiter.wait () where
  wait := fun hcall => ⟨(wait_of_call hcall).1, rfl, (wait_of_call hcall).2⟩
  ret := ret_ne_wait

/-! ### The last completion -/

theorem ne_of_wait {x y : Data Nat} {p q : Pos Callback Waiter}
    (h : Steps (form.task count) x p q y) (hq : q = .after .wait) : y.data ≠ count := by
  cases h with
  | readies | stores | registered | completes => cases hq
  | @goes i inlined b b' d hgo => cases b' <;> cases inlined <;> cases hq
  | @goesAfter c c' d hgo =>
    cases hq
    cases c <;> simp only [Form.task, Waiter.go, Option.some.injEq, Prod.mk.injEq,
      reduceCtorEq] at hgo
    obtain ⟨hite, rfl⟩ := hgo
    intro hfull
    rw [if_pos hfull] at hite
    cases hite

/-- A callback that gives `acquired` its final value notifies. -/
theorem notifies_of_full {i : Nat} {b : Callback} {b' : Option Callback} {acquired acquired' : Nat}
    (hgo : (form.task count).go i b acquired = some (b', acquired')) (hfull : acquired' = count) :
    b' = some .notify := by
  cases b with
  | increment =>
    cases hgo
    cases form with
    | iterator => rfl
    | variadic => simp [Form.notifies, hfull]
  | notify => cases hgo

theorem unfinished_act {ok : State τ → Label τ → Prop} (hr : (system form count green w).Reach ok s)
    (hr' : (system form count green w).Reach ok s') {t : τ} {p q : Pos Callback Waiter}
    (hpc : s.pc t = .user p) (hsteps : Steps (form.task count) s.shared p q s'.shared)
    (hpc' : s'.pc = Function.update s.pc t (.user q))
    (hcond : s'.cond = s.cond) (hasleep : Asleep .wait () w s') : Unfinished s' := by
  by_cases hfull : s'.shared.data = count
  · have hne : t ≠ w := by
      rintro rfl
      rcases hasleep with hwait | ⟨b, hqueued⟩
      · rw [hpc', Function.update_self] at hwait
        exact ne_of_wait hsteps (PC.user.inj hwait) hfull
      · rw [hcond] at hqueued
        exact (waitsAt.queued hr hqueued).2 p hpc
    have hregisters : p.registers = false :=
      (reach_registers hr (by rw [hpc]; rfl)).trans (decide_eq_false hne)
    have hat : s'.pc t = .user q := by rw [hpc', Function.update_self]
    generalize hy : s'.shared = y at hsteps hfull
    cases hsteps with
    | readies | stores | registered | goesAfter => cases hregisters
    | completes => exact .inr ⟨t, _, _, _, hat⟩
    | goes hgo =>
      rw [notifies_of_full hgo hfull] at hat
      exact .inr ⟨t, _, _, _, hat⟩
  · exact unfinished_of_ne hr' (waitsAt.at_of_asleep hr' hasleep) hfull

theorem unfinished_notified {ok : State τ → Label τ → Prop}
    (hr : (system form count green w).Reach ok s) {t : τ} {switch : Bool} {i : Nat} {inlined : Bool}
    (hmove : Machine.Move (client (form.task count)) green s (.call t switch) s')
    (hok : inTime w s (.call t switch))
    (hshared : s'.shared = s.shared) (hother : ∀ u, u ≠ t → s'.pc u = s.pc u)
    (hpc : s.pc t = .user (.callback i inlined .notify)) (hbefore : Asleep .wait () w s)
    (hasleep : Asleep .wait () w s') : Unfinished s' := by
  rcases hasleep with hwait | ⟨b, hqueued⟩
  · have hne : w ≠ t := by
      rintro rfl
      have hat := waitsAt.at_of_asleep hr hbefore
      rw [hpc] at hat
      cases hat
    have hwaits : s.pc w = .user (.after .wait) := by
      rw [← hother w hne]
      exact hwait
    rcases hok t switch i inlined rfl hpc hwaits with ⟨j, hj⟩ | ⟨u, j, inlined', b, hu, hpcu⟩
    · exact .inl ⟨j, by rwa [hshared]⟩
    · exact .inr ⟨u, j, inlined', b, (hother u hu).trans hpcu⟩
  · rw [(ConditionProtocol.cond_notify hmove hpc ()).2 rfl] at hqueued
    cases hqueued

/-- While the waiting thread sleeps, a callback has still to be called or to take a step. -/
theorem reach_unfinished (hr : (system form count green w).Reach (inTime w) s)
    (hasleep : Asleep .wait () w s) : Unfinished s := by
  refine hr.invariant (I := fun s => Asleep .wait () w s → Unfinished s) (fun s hs hasleep => ?_)
    (fun s l s' hr hkept hok hstep hasleep => ?_) hasleep
  · cases hs
    rcases hasleep with hwait | ⟨b, hqueued⟩
    · simp [Machine.initial] at hwait
    · cases hqueued
  · have hmove := Machine.step_move (Machine.reach_inv hr) hstep
    rcases reach_cases hr hstep with ⟨t, o, p, q, rfl, hpc, hsteps, hpc', hcond⟩ |
      ⟨hl, hshared, hother, hprogress⟩
    · exact unfinished_act hr (hr.step hok hstep) hpc hsteps hpc' hcond hasleep
    · have hbefore : Asleep .wait () w s := waitsAt.asleep_before hmove hl hother hprogress hasleep
      rcases hkept hbefore with ⟨i, hstored⟩ | ⟨t, i, inlined, b, hpc⟩
      · exact .inl ⟨i, by rwa [hshared]⟩
      · by_cases hsame : s'.pc t = s.pc t
        · exact .inr ⟨t, i, inlined, b, hsame.trans hpc⟩
        · obtain ⟨ht, switch, rfl⟩ := ConditionProtocol.leaves_by_call hmove hl hother hpc hsame
          obtain rfl : b = .notify := by
            rw [← ht, hpc] at hprogress
            rcases hprogress with heq | ⟨a, call, hat, hcall, -⟩
            · exact absurd (heq.trans hpc.symm) hsame
            · cases hat
              have hcall : (Pos.callback i inlined b).call (form.task count) = some call := hcall
              exact (notify_of_call hcall).1
          exact unfinished_notified hr hmove hok hshared hother hpc hbefore hasleep

/-- In a run in which the callbacks notify in time, the last completion is not missed. -/
theorem never_missed (form : Form) (count : Nat) (green : τ → Bool) (w : τ) {s : State τ}
    (hr : (system form count green w).Reach (inTime w) s) : NeverMissed count w s := by
  intro _ hfinished wc a hpc hpending
  exact hfinished (reach_unfinished hr (waitsAt.asleep_of_blocked hr hpc hpending))

/-- A check of one step that is enough for `inTime`: no callback notifies while the waiting thread
is about to wait. -/
def notMeanwhile (w : τ) (s : State τ) : Label τ → Bool
  | .call t _ =>
    match s.pc t, s.pc w with
    | .user (.callback _ _ .notify), .user (.after .wait) => false
    | _, _ => true
  | _ => true

omit [DecidableEq τ] in
theorem inTime_of_notMeanwhile (h : notMeanwhile w s l = true) : inTime w s l := by
  rintro t switch i inlined rfl hpc hwait
  simp [notMeanwhile, hpc, hwait] at h

attribute [local instance] Machine.neZero_two

def begin : State (Fin 2) :=
  Machine.initial (fun t => if t = 0 then .register 0 else .idle) (.start 0)

/-- Thread 0 blocks on `cv`, and thread 1 completes the only future and resumes it. -/
theorem never_missed_resumed :
    ∃ s : State (Fin 2), NeverMissed 1 0 s ∧ s.shared.data = 1 ∧ s.pc 1 = .user .idle ∧
    s.pc 0 = .pausing ⟨(), (), false⟩ (.after .wait) ∧ s.pending 0 = 1 := by
  let labels : List (Label (Fin 2)) :=
    [.act 0 .pending, .act 0 .go, .call 0 false, .act 0 .go, .call 0 false, .proceed 0 false,
      .act 1 (.complete 0), .act 1 .go, .call 1 false, .deliver 1, .wake 1]
  have hreach := (system .variadic 1 (fun _ => true) 0).reach_of_run
    (notMeanwhile 0) begin rfl labels rfl
  exact ⟨_, never_missed .variadic 1 (fun _ => true) 0
    (hreach.mono fun _ _ => inTime_of_notMeanwhile), rfl, rfl, rfl, rfl⟩

/-- Thread 1 completes the only future and notifies between the check of thread 0 and its wait. -/
def lastNotification : List (Label (Fin 2)) :=
  [.act 0 .pending, .act 0 .go, .call 0 false, .act 0 .go, .act 1 (.complete 0), .act 1 .go,
    .call 1 false, .deliver 1, .wake 1, .call 0 false, .proceed 0 false]

theorem not_unfinished {s : State (Fin 2)} {p q : PC Unit Unit (Pos Callback Waiter)}
    (hstored : s.shared.stored 0 = false)
    (hrest : ∀ i, s.shared.stored (i + 1) = false) (hzero : s.pc 0 = p) (hone : s.pc 1 = q)
    (hp : ∀ i inlined b, p ≠ .user (.callback i inlined b))
    (hq : ∀ i inlined b, q ≠ .user (.callback i inlined b)) :
    ¬ Unfinished s := by
  rintro (⟨i, hi⟩ | ⟨t, i, inlined, b, ht⟩)
  · cases i with
    | zero => cases hstored.symm.trans hi
    | succ i => cases (hrest i).symm.trans hi
  · match t with
    | 0 => exact hp i inlined b (hzero.symm.trans ht)
    | 1 => exact hq i inlined b (hone.symm.trans ht)

theorem missed (form : Form) :
    ∃ s : State (Fin 2), (system form 1 (fun _ => true) 0).Reachable s ∧ ¬ NeverMissed 1 0 s := by
  obtain ⟨s, hrun, hfull, hzero, hone, hpending, hstored, hrest⟩ : ∃ s : State (Fin 2),
      (system form 1 (fun _ => true) 0).run begin lastNotification = some s ∧ s.shared.data = 1 ∧
        s.pc 0 = .pausing ⟨(), (), false⟩ (.after .wait) ∧ s.pc 1 = .user .idle ∧ s.pending 0 = 0 ∧
        s.shared.stored 0 = false ∧ ∀ i, s.shared.stored (i + 1) = false := by
    cases form <;> exact ⟨_, rfl, rfl, rfl, rfl, rfl, rfl, fun _ => rfl⟩
  refine ⟨s, TransitionSystem.Reachable.run (.init rfl) hrun, fun hnever => ?_⟩
  exact hnever hfull (not_unfinished hstored hrest hzero hone (fun _ _ _ => nofun) fun _ _ _ =>
    nofun) _ _ hzero hpending

/-- The last completion can be missed, in both forms. -/
theorem completion_missed :
    (¬ ∀ s : State (Fin 2), (system .iterator 1 (fun _ => true) 0).Reachable s →
      NeverMissed 1 0 s) ∧
      ¬ ∀ s : State (Fin 2), (system .variadic 1 (fun _ => true) 0).Reachable s →
      NeverMissed 1 0 s := by
  obtain ⟨s, hs, hmissed⟩ := missed .iterator
  obtain ⟨s', hs', hmissed'⟩ := missed .variadic
  exact ⟨fun hall => hmissed (hall s hs), fun hall => hmissed' (hall s' hs')⟩

end WaitForAll

end GreenThread
