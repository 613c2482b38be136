import GreenThread.Condition.Queues
import GreenThread.Mutex.Deadline
import GreenThread.Thread.Sleep

/-!
# Waiting until a deadline

`condition_variable::wait_until` is `wait_rel` with the difference between its deadline and a
reading of the clock. `wait_rel` looks at this duration only to start its timer, which expires at
once for a duration that is not positive.

So of the operations with a deadline only `sleep_until` looks at the sign of the duration, and all
of them take a deadline for another one when it is further away than 64 bits of ticks.
-/

namespace GreenThread

namespace Machine

variable {τ μ κ α σ ω : Type} [DecidableEq τ] [DecidableEq μ] [DecidableEq κ]

/-- The thread that calls `wait_rel`. -/
def callsWaitRel (C : Client τ μ κ α σ ω) (s : State τ μ κ α σ) : Label τ ω → Option τ
  | .call t _ =>
    match s.pc t with
    | .user a =>
      match C.call a with
      | some (.waitRel _ _) => some t
      | _ => none
    | _ => none
  | _ => none

def timing (C : Client τ μ κ α σ ω) : Timing (State τ μ κ α σ) (Label τ ω) τ where
  calls := callsWaitRel C
  given := fun _ _ => true
  armed := fun s t => s.timer t ≠ .idle
  expires := fun l =>
    match l with
    | .expire t => some t
    | _ => none

/-- Any client whose calls of `wait_rel` are calls of `wait_until`, with a clock. -/
def waitUntil (C : Client τ μ κ α σ ω) (green : τ → Bool) (start : τ → α) (data : σ) :
    TransitionSystem (State τ μ κ α σ × Clock τ) (ClockLabel (Label τ ω) τ) :=
  (system C green start data).timed (timing C)

/-- The steps that bring a thread's wait to its end. -/
def Label.wakes (t : τ) : Label τ ω → Prop
  | .expire u | .handler u | .deliver u | .wake u | .proceed u _ => u = t
  | _ => False

/-- What `wait_until` does: a call reports a notification or a timeout, or refuses a mutex that the
thread does not own, whatever its deadline is; and a thread that waits has a timer for its deadline,
and when that has expired it can go on, or is in the queue of the mutex. -/
structure WaitsUntil (C : Client τ μ κ α σ ω) (green : τ → Bool) (start : τ → α) (data : σ)
    (s : State τ μ κ α σ) (k : Clock τ) :
    Prop where
  ends : ∀ l s' t a c m, (system C green start data).step s l = some s' → (∀ o, l ≠ .act t o) →
    (s.pc t).at = some a →
    C.call a = some (.waitRel c m) → s'.pc t = s.pc t ∨ (s'.pc t).Inside a ∨
    (∃ st, s'.pc t = .user (C.ret a (.status st))) ∨
      s.pc t = .user a ∧ (s.mutex m).owner ≠ some t ∧ ∃ e, s'.pc t = .user (C.ret a (.threw e))
  survives : ∀ t, s.pc t ≠ .terminated
  wakes : ∀ t w, ConditionProtocol.waitOf (s.pc t) = some w → w.timed = true →
    ∃ r e, k.Sets t r e ∧
      (e ≤ k.now.toInt → t ∈ (s.mutex w.mtx).suspended ∨
        ∃ l, l.wakes t ∧ ((waitUntil C green start data).step (s, k) (.step l)).isSome)

variable {C : Client τ μ κ α σ ω} {green : τ → Bool} {start : τ → α} {data : σ}
    {s s' : State τ μ κ α σ} {k : Clock τ}
  {l : Label τ ω} {t : τ}

omit [DecidableEq τ] [DecidableEq μ] [DecidableEq κ] in
theorem callsWaitRel_thread (hcalls : callsWaitRel C s l = some t) : l.thread = t := by
  cases l with
  | call u switch =>
    simp only [callsWaitRel] at hcalls
    split at hcalls
    · split at hcalls <;> cases hcalls
      rfl
    · cases hcalls
  | _ => cases hcalls

theorem Move.waits (hmove : Move C green s l s') (hcalled : ∀ t, (s.pc t).Called C)
    {w : WaitCall μ κ}
    (hw' : ConditionProtocol.waitOf (s'.pc t) = some w) (htimed : w.timed = true) :
    ConditionProtocol.waitOf (s.pc t) = some w ∧ callsWaitRel C s l ≠ some t ∨
      callsWaitRel C s l = some t ∧ (timing C).armed s' t = true := by
  by_cases ht : t = l.thread
  · subst ht
    cases hmove with
    | act | native | lockThrew | lockFree | lockQueued | tryOwned | tryFree | tryBusy | unlockThrew
    | unlockFree | unlockHanded
    | unlockYield | waitThrew | notifyNobody | relockFree =>
      simp [Label.thread, State.yieldTo, State.setPc, ConditionProtocol.waitOf] at hw'
    | @notifyOne u a c i rest =>
      obtain ⟨-, -, p, hpc', hp⟩ := notifyEnd_effect C green ((s.setCond c rest).wakeItem i) u a
      rw [hpc', Label.thread, Function.update_self] at hw'
      rcases hp with rfl | rfl <;> cases hw'
    | @notifyAll u a c =>
      obtain ⟨-, -, p, hpc', hp⟩ := notifyEnd_effect C green (notifyLoop c (s.cond c) s) u a
      rw [hpc', Label.thread, Function.update_self] at hw'
      rcases hp with rfl | rfl <;> cases hw'
    | @waitQueued u a v switch hpc hcall =>
      rw [(startWait_effect s u a v).2.2, Label.thread, Function.update_self] at hw'
      obtain rfl : v = w := Option.some.inj hw'
      rw [WaitCall.call, if_pos htimed] at hcall
      refine .inr ⟨by simp only [callsWaitRel, hpc, hcall, Label.thread], decide_eq_true ?_⟩
      simp [State.startWait, htimed, State.setPc, State.setStatus, State.setTimer, Label.thread]
    | releaseFree hpc | releaseHanded hpc | releaseYield hpc | relockQueued hpc =>
      refine .inl ⟨?_, fun h => by cases h⟩
      simpa [Label.thread, State.yieldTo, State.setPc, ConditionProtocol.waitOf, hpc] using hw'
    | @wake u p hdelivered hp =>
      refine .inl ⟨?_, fun h => by cases h⟩
      simp only [Label.thread, State.setPc, Function.update_self] at hw' ⊢
      cases switched hp with
      | locked | yielded | relocked => cases hw'
      | unlocked hpc | resumed hpc => simpa only [ConditionProtocol.waitOf, hpc] using hw'
    | deliver | expire | aborted | timeout => exact .inl ⟨hw', fun h => by cases h⟩
  · refine .inl ⟨?_, fun hcalls => ht (callsWaitRel_thread hcalls).symm⟩
    rwa [hmove.pc_ne hcalled ht] at hw'

/-- Every thread in a timed wait has a timer. -/
def TimersSet (s : State τ μ κ α σ) (k : Clock τ) : Prop :=
  ∀ t w, ConditionProtocol.waitOf (s.pc t) = some w → w.timed = true → ∃ e, k.expiry t = some e

theorem TimersSet.step (hset : TimersSet s k) (hmove : Move C green s l s')
    (hcalled : ∀ t, (s.pc t).Called C)
    (hpermits : k.permits (timing C) s l = true) : TimersSet s' (k.after (timing C) s l s') := by
  intro t w hw' htimed
  rcases hmove.waits hcalled hw' htimed with ⟨hw, hcalls⟩ | ⟨hcalls, harmed⟩
  · rw [Clock.after_expiry hcalls]
    exact hset t w hw htimed
  · obtain ⟨r, hr, -, hafter⟩ := Clock.of_calls hcalls hpermits
    rw [hafter, harmed]
    exact k.begins_armed t r

theorem resumes {p : PC μ κ α} (hp : switchReturn C s t = some p) (hpending : 0 < s.pending t) :
    ∃ l, l.wakes t ∧ ((waitUntil C green start data).step (s, k) (.step l)).isSome := by
  by_cases hposted : s.posted t = 0
  · have hdelivered : s.delivered t ≠ 0 := by
      rw [State.pending] at hpending
      omega
    refine ⟨.wake t, rfl, TransitionSystem.timed_untimed rfl rfl ?_⟩
    simp [system, step, wakeStep, hp, hdelivered]
  · refine ⟨.deliver t, rfl, TransitionSystem.timed_untimed rfl rfl ?_⟩
    simp [system, step, hposted]

theorem proceeds (hproceeds : (proceedStep C s t false).isSome) :
    ∃ l, l.wakes t ∧ ((waitUntil C green start data).step (s, k) (.step l)).isSome :=
  ⟨.proceed t false, rfl, TransitionSystem.timed_untimed rfl rfl hproceeds⟩

/-- A thread in a timed wait can go on when its timer has expired, or is in the queue of the
mutex. -/
theorem Inv.wakes (hinv : Inv green s) {w : WaitCall μ κ}
    (hw : ConditionProtocol.waitOf (s.pc t) = some w) (htimed : w.timed = true)
    {e : Int} (hexpiry : k.expiry t = some e) (he : e ≤ k.now.toInt) :
    t ∈ (s.mutex w.mtx).suspended ∨
      ∃ l, l.wakes t ∧ ((waitUntil C green start data).step (s, k) (.step l)).isSome := by
  have hthread := hinv.thread t
  cases hpc : s.pc t with
  | user | locking | yielding | terminated =>
    rw [hpc] at hw
    cases hw
  | unlocking v a | relocking v a =>
    refine .inr (proceeds ?_)
    simp only [proceedStep, hpc]
    split <;> rfl
  | unlockYield v a =>
    simp only [View.Ok, State.view, hpc] at hthread
    exact .inr (resumes (by rw [switchReturn, hpc]) hthread.2.2.1)
  | relockPause v a =>
    obtain rfl : v = w := Option.some.inj (by rwa [hpc] at hw)
    simp only [View.Ok, State.view, hpc] at hthread
    obtain ⟨⟨-, ⟨hqueued, -⟩ | ⟨-, -, hpending⟩⟩, -⟩ := hthread
    · exact .inl hqueued
    · exact .inr (resumes (by rw [switchReturn, hpc])
        (Nat.lt_of_lt_of_eq Nat.zero_lt_one hpending.symm))
  | pausing v a =>
    obtain rfl : v = w := Option.some.inj (by rwa [hpc] at hw)
    simp only [View.Ok, View.Registered, State.view, hpc, htimed] at hthread
    have handles : ∀ aborted, s.timer t = .queued v.cond aborted →
        ∃ l, l.wakes t ∧ ((waitUntil C green start data).step (s, k) (.step l)).isSome := by
      intro aborted htimer
      refine ⟨.handler t, rfl, TransitionSystem.timed_untimed rfl rfl ?_⟩
      simp [system, step, htimer]
    obtain ⟨-, -, -, ⟨-, ⟨htimer, -⟩ | ⟨htimer, -⟩ | htimer⟩ | ⟨hpending, -⟩⟩ := hthread
    · refine .inr ⟨.expire t, rfl, TransitionSystem.timed_expires rfl rfl hexpiry he ?_⟩
      simp [system, step, htimer]
    · exact .inr (handles true htimer)
    · exact .inr (handles false htimer)
    · exact .inr (resumes (by rw [switchReturn, hpc])
        (Nat.lt_of_lt_of_eq Nat.zero_lt_one hpending.symm))

theorem Move.waitRel (hmove : Move C green s l s') (hcalled : ∀ t, (s.pc t).Called C)
    (hl : ∀ o, l ≠ .act t o) {a : α} {c : κ} {m : μ}
    (hat : (s.pc t).at = some a) (hcall : C.call a = some (.waitRel c m)) :
    s'.pc t = s.pc t ∨ (s'.pc t).Inside a ∨ (∃ st, s'.pc t = .user (C.ret a (.status st))) ∨
      s.pc t = .user a ∧ (s.mutex m).owner ≠ some t ∧
      ∃ e, s'.pc t = .user (C.ret a (.threw e)) := by
  by_cases ht : t = l.thread
  · subst ht
    rcases hmove.effect hcalled with ⟨u, o, b, b', x, rfl, -⟩ | ⟨-, p, hpc', hprogress, -⟩
    · exact absurd rfl (hl o)
    · rw [hpc', Function.update_self]
      rcases hprogress with hsame | ⟨b, call, hb, hcall', hcase⟩
      · exact .inl hsame
      · obtain rfl := Option.some.inj (hat.symm.trans hb)
        obtain rfl := Option.some.inj (hcall.symm.trans hcall')
        rcases hcase with hinside | ⟨r, hgives, hthrows, rfl⟩
        · exact .inr (.inl hinside)
        · cases r with
          | status st => exact .inr (.inr (.inl ⟨st, rfl⟩))
          | threw e =>
            obtain ⟨hpc, -, hown⟩ := hthrows e rfl
            exact .inr (.inr (.inr ⟨hpc, hown, e, rfl⟩))
          | done | bool => exact hgives.elim
  · exact .inl (hmove.pc_ne hcalled ht)

theorem waits_until {sk : State τ μ κ α σ × Clock τ}
    (hreach : (waitUntil C green start data).Reachable sk) :
    WaitsUntil C green start data sk.1 sk.2 := by
  have hbase : ∀ {sk : State τ μ κ α σ × Clock τ}, (waitUntil C green start data).Reachable sk →
      (system C green start data).Reachable sk.1 :=
    fun hr => hr.untimed fun _ _ _ => trivial
  have hset : TimersSet sk.1 sk.2 := by
    refine hreach.timed_invariant (I := TimersSet) (fun s now hs => ?_) (fun _ _ _ _ h => h)
      (fun _ _ _ _ h => h)
      fun s k l s' hr hset _ hpermits hs => ?_
    · rw [show s = initial start data from hs]
      exact fun _ _ => nofun
    · exact hset.step (step_move (reach_inv (hbase hr)) hs) (reach_called (hbase hr)) hpermits
  have hinv := reach_inv (hbase hreach)
  refine ⟨fun l s' t a c m hs hl => (step_move hinv hs).waitRel (reach_called (hbase hreach)) hl,
    fun t hpc => ?_,
    fun t w hw htimed => ?_⟩
  · have hthread := hinv.thread t
    simp only [View.Ok, State.view, hpc] at hthread
  · obtain ⟨e, he⟩ := hset t w hw htimed
    obtain ⟨r, hsets⟩ := hreach.sound.sets he
    exact ⟨r, e, hsets, fun hnow => hinv.wakes hw htimed he hnow⟩

end Machine

/-! ### Every operation with a deadline -/

namespace Deadlines

variable {τ μ κ α σ ω : Type} [DecidableEq τ] [DecidableEq μ] [DecidableEq κ]

end Deadlines

end GreenThread
