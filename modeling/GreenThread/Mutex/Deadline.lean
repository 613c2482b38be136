import GreenThread.Library.Clock
import GreenThread.Mutex.Timeout

/-!
# Locking until a deadline

`try_lock_until` of `timed_mutex` and `recursive_timed_mutex` is `try_lock_rel` with the difference
between the deadline and a reading of the clock. `try_lock_rel` looks at this duration only to start
its timer, which expires at once for a duration that is not positive.
-/

namespace GreenThread

namespace MutexThreads

variable {τ : Type} [DecidableEq τ]

def timing : Timing (State τ) (Label τ) τ where
  calls := fun _ l =>
    match l with
    | .call t .tryLockRel _ => some t
    | _ => none
  given := fun _ _ => true
  armed := fun s t => s.timer t ≠ .idle
  expires := fun l =>
    match l with
    | .expire t => some t
    | _ => none

/-- `try_lock_until` with a clock. -/
def tryLockUntil (c : MutexClass) (green : τ → Bool) :
    TransitionSystem (State τ × Clock τ) (ClockLabel (Label τ) τ) :=
  (system c green).timed timing

/-- The step is no interruption request. -/
def timedNotInterrupt : ClockLabel (Label τ) τ → Bool
  | .step l => notInterrupt l
  | _ => true

/-- The steps that bring a thread's pause to its end. -/
def Label.wakes (t : τ) : Label τ → Prop
  | .expire u | .handler u | .deliver u | .wake u => u = t
  | _ => False

/-- What `try_lock_until` does: it reports whether it has acquired the mutex, or refuses a mutex
that the thread owns already, whatever its deadline is; and a thread that waits has a timer for its
deadline, and can go on as soon as that has expired. -/
structure TryLocksUntil (c : MutexClass) (green : τ → Bool) (s : State τ) (k : Clock τ) : Prop where
  ends : ∀ t r, green t = true → s.pos t = .idle (some (.tryLockRel, r)) →
    (∃ b, r = .bool b ∧ (b = true ↔ s.mutex.owner = some t)) ∨
      r = .threw .resourceDeadlockWouldOccur ∧ c.recursive = false ∧ s.mutex.owner = some t
  wakes : ∀ t, s.pos t = .paused true → ∃ r e, k.Sets t r e ∧
    (e ≤ k.now.toInt → ∃ l, l.wakes t ∧ ((tryLockUntil c green).step (s, k) (.step l)).isSome)

variable {c : MutexClass} {green : τ → Bool} {s s' : State τ} {k : Clock τ} {l : Label τ}

/-- How `try_lock_rel` has ended. -/
def Reports (c : MutexClass) (green : τ → Bool) (s : State τ) : Prop :=
  ∀ t r, green t = true → s.pos t = .idle (some (.tryLockRel, r)) →
    (∃ b, r = .bool b) ∨ r = .threw .resourceDeadlockWouldOccur ∧ c.recursive = false ∧
    s.mutex.owner = some t

theorem Reports.step (hreports : Reports c green s) (hinv : Inv green s) (hquiet : Undisturbed s)
    (hmove : Move c green s l s') :
    Reports c green s' := by
  intro t r hgreen hpos'
  by_cases ht : t = l.thread
  · subst ht
    cases hmove.ended hpos' with
    | refused hl hrefused hmutex =>
      rw [hmutex]
      cases hrefused with
      | native hnative => cases hgreen.symm.trans hnative
      | deadlock _ hown hclass hop => exact .inr ⟨rfl, hclass, hown⟩
    | acquired _ hr => exact .inl ⟨true, hr⟩
    | released hop => cases hop
    | @paused timed _ hpos hdelivered hop hr =>
      cases timed with
      | false => cases hop
      | true =>
        have hcalm : s.interrupted l.thread = false := by simp [State.interrupted, hquiet l.thread]
        rw [pauseOutcome, hcalm] at hr
        exact .inl ⟨_, hr⟩
    | earlier hpos howner =>
      rw [howner]
      exact hreports _ r hgreen hpos
  · have hpos := (hmove.pos_ne ht).symm.trans hpos'
    rw [hmove.owner_ne hinv ht hpos]
    exact hreports t r hgreen hpos

theorem Move.pauses (hmove : Move c green s l s') {t : τ} (hpos' : s'.pos t = .paused true) :
    s.pos t = .paused true ∧ timing.calls s l ≠ some t ∨ ∃ switch, l = .call t .tryLockRel switch ∧
    s'.timer t = .armed () := by
  by_cases ht : t = l.thread
  · subst ht
    have hends : ∀ {s : State τ} {u : τ} {op : Op} {r : Outcome}, (s.ends u op r).pos u ≠
      .paused true := by
      intro s u op r
      simp [State.ends, State.setPos]
    cases hmove with
    | refused | takes | again | undoes | frees | returns | yields => exact absurd hpos' hends
    | @queues t last u switch timed =>
      simp only [Label.thread, State.setPos, Function.update_self] at hpos'
      cases hpos'
      exact .inr ⟨switch, rfl, Function.update_self ..⟩
    | @hands t last next rest switch =>
      have hpos' : (((s.setMutex _).wakeItem next).unlockEnds t switch).pos t = _ := hpos'
      rw [unlockEnds_pos, Function.update_self] at hpos'
      split at hpos' <;> cases hpos'
    | deliver | expires | handles | interrupts | disables => exact .inl ⟨hpos', fun h => by cases h⟩
  · refine .inl ⟨(hmove.pos_ne ht).symm.trans hpos', fun hcalls => ht ?_⟩
    cases l with
    | call u op switch =>
      cases op <;> cases hcalls
      rfl
    | _ => cases hcalls

/-- Every thread in the pause of `try_lock_rel` has a timer. -/
def TimersSet (s : State τ) (k : Clock τ) :
    Prop := ∀ t, s.pos t = .paused true → ∃ e, k.expiry t = some e

theorem TimersSet.step (hset : TimersSet s k) (hmove : Move c green s l s')
    (hpermits : k.permits timing s l = true) :
    TimersSet s' (k.after timing s l s') := by
  intro t hpos'
  rcases hmove.pauses hpos' with ⟨hpos, hcalls⟩ | ⟨switch, rfl, htimer⟩
  · rw [Clock.after_expiry hcalls]
    exact hset t hpos
  · obtain ⟨r, hr, -, hafter⟩ := Clock.of_calls (T := timing) (t := t) rfl hpermits
    have harmed : timing.armed s' t = true := by
      change decide (s'.timer t ≠ .idle) = true
      rw [htimer]
      rfl
    rw [hafter, harmed]
    exact k.begins_armed t r

/-- A thread in the pause of `try_lock_rel` can go on when its timer has expired. -/
theorem Inv.wakes (hinv : Inv green s) {t : τ} (hpos : s.pos t = .paused true) {e : Int}
    (hexpiry : k.expiry t = some e) (he : e ≤ k.now.toInt) :
    ∃ l, l.wakes t ∧ ((tryLockUntil c green).step (s, k) (.step l)).isSome := by
  have hthread := hinv.thread t
  simp only [View.Ok, State.view, hpos] at hthread
  cases htimer : s.timer t with
  | armed u =>
    refine ⟨.expire t, rfl, TransitionSystem.timed_expires rfl rfl hexpiry he ?_⟩
    simp [system, step, htimer]
  | queued u aborted =>
    refine ⟨.handler t, rfl, TransitionSystem.timed_untimed rfl rfl ?_⟩
    simp [system, step, htimer]
  | idle =>
    rw [htimer] at hthread
    have hpending : s.pending t = 1 := hthread.2.2
    by_cases hposted : s.posted t = 0
    · have hdelivered : s.delivered t ≠ 0 := by
        rw [State.pending] at hpending
        omega
      refine ⟨.wake t, rfl, TransitionSystem.timed_untimed rfl rfl ?_⟩
      simp [system, step, wakeStep, hpos, hdelivered]
    · refine ⟨.deliver t, rfl, TransitionSystem.timed_untimed rfl rfl ?_⟩
      simp [system, step, hposted]

theorem try_locks_until (c : MutexClass) (green : τ → Bool) {sk : State τ × Clock τ}
    (hreach : (tryLockUntil c green).Reach (fun _ l => timedNotInterrupt l = true) sk) :
    TryLocksUntil c green sk.1 sk.2 := by
  have hbase : ∀ {sk : State τ × Clock τ}, (tryLockUntil c green).Reach
    (fun _ l => timedNotInterrupt l = true) sk → Inv green sk.1 :=
    fun hr =>
      reach_inv (hr.untimed fun _ _ hok => hok : (system c green).Reach
        (fun _ l => notInterrupt l = true) _)
  obtain ⟨hreports, hresults, -, hset⟩ :
      Reports c green sk.1 ∧ Results green sk.1 ∧ Undisturbed sk.1 ∧ TimersSet sk.1 sk.2 := by
    refine hreach.timed_invariant
      (I := fun s k => Reports c green s ∧ Results green s ∧ Undisturbed s ∧ TimersSet s k)
      (fun s now hs => ?_) (fun _ _ _ _ h => h)
        (fun _ _ _ _ h => h) fun s k l s' hr ih hok hpermits hs => ?_
    · obtain ⟨level, rfl, -⟩ := hs
      exact ⟨fun _ _ _ => nofun, fun _ _ _ => nofun, fun _ => rfl, fun _ => nofun⟩
    · obtain ⟨hreports, hresults, hquiet, hset⟩ := ih
      have hinv := hbase hr
      have hmove := step_move hs
      exact ⟨hreports.step hinv hquiet hmove, hresults.step hinv hquiet hmove,
        hquiet.step hmove hok, hset.step hmove hpermits⟩
  have hinv := hbase hreach
  refine ⟨fun t r hgreen hpos => (hreports t r hgreen hpos).imp_left ?_, fun t hpos => ?_⟩
  · rintro ⟨b, rfl⟩
    obtain ⟨htrue, hfalse⟩ := hresults t .tryLockRel _ hpos nofun
    refine ⟨b, rfl, ?_⟩
    cases b with
    | true => exact iff_of_true rfl (htrue (.inl hgreen) rfl)
    | false => exact iff_of_false Bool.false_ne_true (hfalse rfl)
  · obtain ⟨e, he⟩ := hset t hpos
    obtain ⟨r, hsets⟩ := hreach.sound.sets he
    exact ⟨r, e, hsets, fun hnow => hinv.wakes hpos he hnow⟩

end MutexThreads

end GreenThread
