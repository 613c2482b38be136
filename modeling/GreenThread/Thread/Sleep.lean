import GreenThread.Library.Clock
import GreenThread.Machine.Step

/-!
# Sleeping

`sleep_for` of one green thread: `this_thread::detail::sleep_rel` refuses a duration below zero,
`thread_object::sleep_rel` returns at once for zero, and otherwise starts a timer whose handler
activates the thread and pauses. `sleep_until` is `sleep_for` with the difference between its
deadline and a reading of the clock, which is negative when the deadline has passed, and also when
it is further away than 64 bits of ticks.
-/

namespace GreenThread

namespace Sleep

/-- How a sleep ended. -/
inductive Outcome
  | returned
  | invalidArgument
  | interrupted
  deriving DecidableEq, Repr

/-- Where the thread is: in no sleep, after one that ended so, or in `pause`. -/
inductive Pos
  | idle (last : Option Outcome)
  | paused
  deriving DecidableEq, Repr

structure State where
  pos : Pos := .idle none
  timer : Timer Unit := .idle
  posted : Nat := 0
  delivered : Nat := 0
  /-- `interrupt_requested_` -/
  requested : Bool := false
  /-- `interrupt_disable_level_` -/
  disabled : Int := 0

namespace State

variable (s : State)

def ends (r : Outcome) : State := { s with pos := .idle (some r) }

/-- `thread_object::sleep_rel`. -/
def sleepRel (d : Int64) : State := if d = 0 then s.ends .returned
    else { s with timer := .armed (), pos := .paused }

/-- `this_thread::detail::sleep_rel`. -/
def detailSleepRel (d : Int64) : State := if d < 0 then s.ends .invalidArgument else s.sleepRel d

/-- `this_thread::sleep_for`. -/
def sleepFor (d : Int64) : State := s.detailSleepRel d

/-- `pause` returns or throws `thread_interrupted`. -/
def pauseOutcome : Outcome := if s.disabled = 0 && s.requested then .interrupted else .returned

end State

inductive Label
  | sleepFor (d : Int64)
  | expire
  | handler
  | deliver
  | wake
  /-- `interrupt()` is called for the thread -/
  | interrupt
  /-- the thread enters or leaves a `disable_interruption` or `restore_interruption` scope -/
  | disable (level : Int)
  deriving DecidableEq, Repr

def State.next (s : State) : Label → Option State
  | .sleepFor d =>
    match s.pos with
    | .idle _ => some (s.sleepFor d)
    | .paused => none
  | .expire =>
    match s.timer with
    | .armed u => some { s with timer := .queued u false }
    | _ => none
  | .handler =>
    match s.timer with
    | .queued _ _ => some { s with timer := .idle, posted := s.posted + 1 }
    | _ => none
  | .deliver => if s.posted = 0 then none
      else some { s with posted := s.posted - 1, delivered := s.delivered + 1 }
  | .wake =>
    match s.pos with
    | .paused => if s.delivered = 0 then none
        else some { s.ends s.pauseOutcome with delivered := s.delivered - 1 }
    | .idle _ => none
  | .interrupt => some { s with requested := s.requested || decide (s.disabled = 0) }
  | .disable level =>
    match s.pos with
    | .idle _ => some { s with disabled := level }
    | .paused => none

def system : TransitionSystem State Label where
  init s := s = {}
  step := State.next

/-- `sleep_for` is given the duration that `sleep_until` has computed. -/
def timing : Timing State Label Unit where
  calls := fun _ l =>
    match l with
    | .sleepFor _ => some ()
    | _ => none
  given := fun l d => l = .sleepFor d
  armed := fun s _ => s.timer ≠ .idle
  expires := fun l => if l = .expire then some () else none

/-- `sleep_until` with a clock. -/
def sleepUntil : TransitionSystem (State × Clock Unit) (ClockLabel Label Unit) :=
  system.timed timing

/-- The step is no interruption request. -/
def notInterrupt : ClockLabel Label Unit → Bool
  | .step .interrupt => false
  | _ => true

/-- The steps that bring a sleep to its end. -/
def Label.wakes : Label → Bool
  | .expire | .handler | .deliver | .wake => true
  | _ => false

/-! ### A thread that sleeps -/

/-- How the last call ended: with an exception if its duration was negative, and else not before it
was over. -/
def Ended (k : Clock Unit) : Option Outcome → Prop
  | none => True
  | some o => ∃ c, k.call () = some c ∧
    (c.reading.duration < 0 ∧ o = .invalidArgument ∨
      0 ≤ c.reading.duration ∧ o = .returned ∧ c.expiry ≤ k.now.toInt ∧
        (c.reading.duration = 0 ∨ k.expiry () = some c.expiry))

/-- How far the wake-up of an expired timer has come: the timer and the activations that are posted
and delivered. -/
inductive Woken : Timer Unit → Nat → Nat → Prop
  | expired : Woken (.queued () false) 0 0
  | posted : Woken .idle 1 0
  | delivered : Woken .idle 0 1

/-- Where the thread can be, and what the clock says there. -/
inductive Tracks : State → Clock Unit → Prop
  | idle {last disabled k} (hlast : Ended k last) : Tracks { pos := .idle last, disabled } k
  | armed {disabled k c} (hcall : k.call () = some c) (hfuture : 0 ≤ c.reading.duration)
      (hexpiry : k.expiry () = some c.expiry) :
      Tracks { pos := .paused, timer := .armed (), disabled } k
  | due {timer posted delivered disabled k c} (hwoken : Woken timer posted delivered)
      (hcall : k.call () = some c)
      (hfuture : 0 ≤ c.reading.duration) (hexpiry : k.expiry () = some c.expiry)
      (he : c.expiry ≤ k.now.toInt) :
      Tracks { pos := .paused, timer, posted, delivered, disabled } k

variable {s s' : State} {k k' : Clock Unit} {l : Label} {last : Option Outcome}

theorem Ended.later (h : Ended k last) (hcall : k'.call = k.call) (hexpiry : k'.expiry = k.expiry)
    (hle : k.now ≤ k'.now) :
    Ended k' last := by
  cases last with
  | none => trivial
  | some o =>
    obtain ⟨c, hc, hcase⟩ := h
    refine ⟨c, hcall ▸ hc, hcase.imp_right ?_⟩
    rintro ⟨hfuture, ho, hnow, hset⟩
    exact ⟨hfuture, ho, Int.le_trans hnow (Int64.le_iff_toInt_le.mp hle), hexpiry ▸ hset⟩

theorem Tracks.later (h : Tracks s k) (hcall : k'.call = k.call) (hexpiry : k'.expiry = k.expiry)
    (hle : k.now ≤ k'.now) :
    Tracks s k' := by
  cases h with
  | idle hlast => exact .idle (hlast.later hcall hexpiry hle)
  | armed hc hfuture he => exact .armed (hcall ▸ hc) hfuture (hexpiry ▸ he)
  | due hwoken hc hfuture he hnow =>
    exact .due hwoken (hcall ▸ hc) hfuture (hexpiry ▸ he)
      (Int.le_trans hnow (Int64.le_iff_toInt_le.mp hle))

theorem Tracks.sleepFor (last : Option Outcome) (disabled : Int) (k : Clock Unit) (r : Reading) :
    Tracks (State.sleepFor { pos := .idle last, disabled } r.duration)
      (k.begins () r
        (timing.armed (State.sleepFor { pos := .idle last, disabled } r.duration) ())) := by
  have hcall : ∀ armed, (k.begins () r armed).call () = some ⟨r, k.now⟩ := fun armed => by
    rw [Clock.begins_call, Function.update_self]
  rw [State.sleepFor, State.detailSleepRel, State.sleepRel]
  by_cases hneg : r.duration < 0
  · rw [if_pos hneg]
    exact .idle ⟨_, hcall _, .inl ⟨hneg, rfl⟩⟩
  · have hfuture : 0 ≤ r.duration := Int64.not_lt.mp hneg
    rw [if_neg hneg]
    by_cases hzero : r.duration = 0
    · rw [if_pos hzero]
      refine .idle ⟨_, hcall _, .inr ⟨hfuture, rfl, ?_, .inl hzero⟩⟩
      rw [TimedCall.expiry, hzero]
      exact Int.le_of_eq (Int.add_zero _)
    · rw [if_neg hzero]
      refine .armed (hcall _) hfuture ?_
      rw [Clock.begins_expiry, Function.update_self]
      rfl

theorem Tracks.step (h : Tracks s k) (hok : notInterrupt (.step l) = true)
    (hpermits : k.permits timing s l = true)
    (hnext : s.next l = some s') : Tracks s' (k.after timing s l s') := by
  cases h with
  | @idle last disabled _ hlast =>
    cases l with
    | sleepFor d =>
      cases hnext
      obtain ⟨r, hr, hgiven, hafter⟩ := Clock.of_calls (T := timing) rfl hpermits
      obtain rfl : d = r.duration := by
        have heq := of_decide_eq_true hgiven
        cases heq
        rfl
      rw [hafter]
      exact .sleepFor last disabled k r
    | disable level =>
      cases hnext
      exact .idle hlast
    | interrupt => cases hok
    | _ => cases hnext
  | @armed _ _ c hcall hfuture hexpiry =>
    cases l with
    | expire =>
      cases hnext
      obtain ⟨e, he, hnow⟩ := (Clock.of_expires (T := timing) rfl rfl).mp hpermits
      obtain rfl := Option.some.inj (he.symm.trans hexpiry)
      exact .due .expired hcall hfuture he hnow
    | interrupt => cases hok
    | _ => cases hnext
  | @due _ _ _ disabled _ c hwoken hcall hfuture hexpiry he =>
    cases l with
    | handler =>
      cases hwoken <;> cases hnext
      exact .due .posted hcall hfuture hexpiry he
    | deliver =>
      cases hwoken <;> cases hnext
      exact .due .delivered hcall hfuture hexpiry he
    | wake =>
      cases hwoken <;> cases hnext
      have hcalm : State.pauseOutcome { pos := .paused, delivered := 1, disabled } = .returned := by
        rw [State.pauseOutcome, Bool.and_false]
        rfl
      rw [hcalm]
      exact .idle ⟨c, hcall, .inr ⟨hfuture, rfl, he, .inr hexpiry⟩⟩
    | interrupt => cases hok
    | _ => cases hwoken <;> cases hnext

theorem reach_tracks {sk : State × Clock Unit}
    (hreach : sleepUntil.Reach (fun _ l => notInterrupt l = true) sk) : Tracks sk.1 sk.2 := by
  refine hreach.timed_invariant (I := Tracks) ?_ ?_ ?_ ?_
  · intro s now hs
    rw [show s = {} from hs]
    exact .idle trivial
  · exact fun s k now hle h => h.later rfl rfl hle
  · exact fun s k _ deadline h => h.later rfl rfl (Int64.le_refl _)
  · exact fun s k l s' hr h hok hpermits hnext => h.step hok hpermits hnext

/-- What `sleep_until` does for its deadline: a call that is over has returned, not before the
deadline and with its timer, if there was one, set to the time that is due, exactly if the
difference fits and the deadline had not passed when the clock was read; and a thread that still
sleeps can go on as soon as its timer has expired. -/
structure SleepsUntil (s : State) (k : Clock Unit) : Prop where
  ends : ∀ o, s.pos = .idle (some o) → ∃ c, k.call () = some c ∧
    ((o = .returned ∧ c.reading.deadline ≤ k.now ∧ ∀ e, k.expiry () = some e → e = c.due) ↔
      c.reading.Fits ∧ c.reading.now ≤ c.reading.deadline)
  wakes : s.pos = .paused → ∃ c e, k.Sets () c e ∧
    (e ≤ k.now.toInt → ∃ l, l.wakes = true ∧ (sleepUntil.step (s, k) (.step l)).isSome)

theorem Ended.ends (hsound : k.Sound) {o : Outcome} (h : Ended k (some o)) :
    ∃ c, k.call () = some c ∧
    ((o = .returned ∧ c.reading.deadline ≤ k.now ∧ ∀ e, k.expiry () = some e → e = c.due) ↔
      c.reading.Fits ∧ c.reading.now ≤ c.reading.deadline) := by
  obtain ⟨c, hc, hcase⟩ := h
  obtain ⟨hstart, hstarted⟩ := hsound.call () c hc
  refine ⟨c, hc, ?_⟩
  rw [Int64.le_iff_toInt_le] at hstart
  simp only [Int64.le_iff_toInt_le, Int64.lt_iff_toInt_lt, Int64.toInt_zero] at hcase ⊢
  have hduration := c.reading.duration_eq_iff
  rcases hcase with ⟨hneg, rfl⟩ | ⟨hfuture, rfl, hnow, hset⟩
  · refine iff_of_false (fun h => by cases h.1) fun ⟨hfits, hle⟩ => ?_
    have heq := hduration.mpr hfits
    omega
  · constructor
    · rintro ⟨-, -, hdue⟩
      have hfits : c.reading.Fits := by
        rcases hset with hzero | hset
        · exact c.reading.fits_of_zero hzero
        · exact c.expiry_eq_due.mp (hdue _ hset)
      have heq := hduration.mpr hfits
      exact ⟨hfits, by omega⟩
    · rintro ⟨hfits, -⟩
      have hdue := c.expiry_eq_due.mpr hfits
      refine ⟨rfl, ?_, fun e he => ?_⟩
      · rw [hdue, TimedCall.due] at hnow
        omega
      · obtain ⟨c', hc', rfl⟩ := hsound.expiry () e he
        obtain rfl := Option.some.inj (hc.symm.trans hc')
        exact hdue

theorem sleeps_until {sk : State × Clock Unit}
    (hreach : sleepUntil.Reach (fun _ l => notInterrupt l = true) sk) :
    SleepsUntil sk.1 sk.2 := by
  obtain ⟨s, k⟩ := sk
  have hsound : k.Sound := hreach.sound
  cases reach_tracks hreach with
  | idle hlast =>
    refine ⟨?_, nofun⟩
    rintro o ho
    cases ho
    exact hlast.ends hsound
  | @armed _ _ c hcall hfuture hexpiry =>
    refine ⟨nofun, fun _ => ?_⟩
    obtain ⟨c', hsets⟩ := hsound.sets hexpiry
    exact ⟨c', _, hsets,
      fun he => ⟨.expire, rfl, TransitionSystem.timed_expires rfl rfl hexpiry he rfl⟩⟩
  | @due _ _ _ _ _ c hwoken hcall hfuture hexpiry he =>
    refine ⟨nofun, fun _ => ?_⟩
    obtain ⟨c', hsets⟩ := hsound.sets hexpiry
    refine ⟨c', _, hsets, fun _ => ?_⟩
    cases hwoken with
    | expired => exact ⟨.handler, rfl, rfl⟩
    | posted => exact ⟨.deliver, rfl, rfl⟩
    | delivered => exact ⟨.wake, rfl, rfl⟩

end Sleep

end GreenThread
