import GreenThread.Library.System
import Mathlib.Algebra.Group.Int.Defs
import Mathlib.Algebra.Group.Nat.Defs
import Mathlib.Logic.Function.Basic

/-!
# Systems with a clock

A system whose timers may go off at any time, put beside a clock that never goes back and may
advance between any two steps. The clock and the deadlines are tick counts of 64 bits. A call with a
deadline reads the clock before it is made: it is given the difference of the counts as its
duration, and a timer that it starts expires that long after the time of its start. The difference
is taken in 64 bits, so a deadline that is too far away gives a duration of the wrong sign.

A timed run is a run of the system, so what holds of every run needs no clock.
-/

/-- How the steps of a system use the timers of its threads. -/
structure Timing (S L τ : Type*) where
  /-- the thread that makes a timed call -/
  calls : S → L → Option τ
  /-- the durations that the call can have been given -/
  given : L → Int64 → Bool
  /-- the timer of the thread is running -/
  armed : S → τ → Bool
  /-- the thread whose timer expires -/
  expires : L → Option τ

/-- A deadline, with the time at which the duration was computed. -/
structure Reading where
  deadline : Int64
  now : Int64
  deriving DecidableEq

namespace Reading

variable (r : Reading)

def duration : Int64 := r.deadline - r.now

/-- The difference is a number of 64 bits. -/
def Fits : Prop := -2 ^ 63 ≤ r.deadline.toInt - r.now.toInt ∧
    r.deadline.toInt - r.now.toInt < 2 ^ 63

theorem toInt_duration : r.duration.toInt = (r.deadline.toInt - r.now.toInt).bmod (2 ^ 64) :=
  Int64.toInt_sub ..

theorem duration_eq_iff : r.duration.toInt = r.deadline.toInt - r.now.toInt ↔ r.Fits := by
  have hge := r.duration.le_toInt
  have hlt := r.duration.toInt_lt
  rw [toInt_duration] at hge hlt ⊢
  constructor
  · intro heq
    rw [heq] at hge hlt
    exact ⟨hge, hlt⟩
  · rintro ⟨hge, hlt⟩
    exact Int.bmod_eq_of_le hge hlt

theorem fits_of_zero (hzero : r.duration = 0) : r.Fits := by
  have heq : r.deadline = r.now := by
    rw [← Int64.sub_add_cancel r.deadline r.now, show r.deadline - r.now = 0 from hzero,
      Int64.zero_add]
  rw [Fits, heq, Int.sub_self]
  decide

end Reading

/-- A timed call: what its caller has read, and when it is made. -/
structure TimedCall where
  reading : Reading
  start : Int64
  deriving DecidableEq

namespace TimedCall

variable (c : TimedCall)

/-- When a timer that the call starts expires. -/
def expiry : Int := c.start.toInt + c.reading.duration.toInt

/-- The deadline, and as much later as the call is made after the reading of the clock. -/
def due : Int := c.reading.deadline.toInt + (c.start.toInt - c.reading.now.toInt)

theorem expiry_eq_due : c.expiry = c.due ↔ c.reading.Fits := by
  rw [← c.reading.duration_eq_iff, expiry, due]
  omega

end TimedCall

/-- The time, what each thread has read for its next timed call, its last timed call, and when the
timer of that call expires, if it has started one. -/
structure Clock (τ : Type*) where
  now : Int64
  reading : τ → Option Reading := fun _ => none
  call : τ → Option TimedCall := fun _ => none
  expiry : τ → Option Int := fun _ => none

/-- The clock advances to a later time, a thread reads it for a deadline, or the system takes a
step. -/
inductive ClockLabel (L τ : Type*)
  | tick (now : Int64)
  | reads (t : τ) (deadline : Int64)
  | step (l : L)

namespace Clock

variable {S L τ : Type*} [DecidableEq τ] (k : Clock τ)

def tick (now : Int64) : Clock τ := { k with now }

def read (t : τ) (deadline : Int64) : Clock τ :=
  { k with reading := Function.update k.reading t (some ⟨deadline, k.now⟩) }

/-- The thread makes its timed call, which starts its timer or not. -/
def begins (t : τ) (r : Reading) (armed : Bool) : Clock τ :=
  { k with
    reading := Function.update k.reading t none
    call := Function.update k.call t (some ⟨r, k.now⟩)
    expiry := Function.update k.expiry t
      (if armed then some (TimedCall.expiry ⟨r, k.now⟩) else none) }

@[simp]
theorem read_reading (t : τ) (deadline : Int64) :
    (k.read t deadline).reading = Function.update k.reading t (some ⟨deadline, k.now⟩) := rfl

@[simp]
theorem begins_reading (t : τ) (r : Reading) (armed : Bool) :
    (k.begins t r armed).reading = Function.update k.reading t none := rfl

@[simp]
theorem begins_call (t : τ) (r : Reading) (armed : Bool) :
    (k.begins t r armed).call = Function.update k.call t (some ⟨r, k.now⟩) := rfl

@[simp]
theorem begins_expiry (t : τ) (r : Reading) (armed : Bool) :
    (k.begins t r armed).expiry =
      Function.update k.expiry t (if armed then some (TimedCall.expiry ⟨r, k.now⟩) else none) := rfl

/-- A timed call needs a reading of the clock, and a timer expires when its time has come. -/
def permits (T : Timing S L τ) (s : S) (l : L) : Bool :=
  match T.calls s l with
  | some t => (k.reading t).any fun r => T.given l r.duration
  | none => (T.expires l).all fun t => (k.expiry t).any fun e => e ≤ k.now.toInt

def after (T : Timing S L τ) (s : S) (l : L) (s' : S) : Clock τ :=
  match T.calls s l with
  | some t => (k.reading t).elim k fun r => k.begins t r (T.armed s' t)
  | none => k

variable {k} {T : Timing S L τ} {s s' : S} {l : L} {t : τ}

/-- A timed call uses up the thread's reading. -/
theorem of_calls (hcalls : T.calls s l = some t) (hpermits : k.permits T s l = true) :
    ∃ r, k.reading t = some r ∧ T.given l r.duration = true ∧
    ∀ s', k.after T s l s' = k.begins t r (T.armed s' t) := by
  simp only [permits, hcalls] at hpermits
  cases hr : k.reading t with
  | none =>
    rw [hr] at hpermits
    cases hpermits
  | some r =>
    rw [hr] at hpermits
    exact ⟨r, rfl, hpermits, fun s' => by simp only [after, hcalls, hr, Option.elim_some]⟩

theorem after_expiry (hcalls : T.calls s l ≠ some t) :
    (k.after T s l s').expiry t = k.expiry t := by
  unfold after
  split
  · next u hu =>
    cases k.reading u with
    | none => rfl
    | some r =>
      have hne : t ≠ u := by
        rintro rfl
        exact hcalls hu
      rw [Option.elim_some, begins_expiry, Function.update_of_ne hne]
  · rfl

theorem begins_armed (t : τ) (r : Reading) : ∃ e, (k.begins t r true).expiry t = some e :=
  ⟨_, by rw [begins_expiry, Function.update_self, if_pos rfl]⟩

omit [DecidableEq τ] in
theorem of_expires (hcalls : T.calls s l = none) (hexpires : T.expires l = some t) :
    k.permits T s l = true ↔ ∃ e, k.expiry t = some e ∧ e ≤ k.now.toInt := by
  simp only [permits, hcalls, hexpires, Option.all_some]
  cases k.expiry t <;> simp

omit [DecidableEq τ] in
theorem permits_of_untimed (hcalls : T.calls s l = none) (hexpires : T.expires l = none) :
    k.permits T s l = true := by
  simp only [permits, hcalls, hexpires, Option.all_none]

/-- Readings and calls are never ahead of the clock, and a timer is set by the last call of its
thread. -/
structure Sound (k : Clock τ) : Prop where
  reading : ∀ t r, k.reading t = some r → r.now ≤ k.now
  call : ∀ t c, k.call t = some c → c.reading.now ≤ c.start ∧ c.start ≤ k.now
  expiry : ∀ t e, k.expiry t = some e → ∃ c, k.call t = some c ∧ e = c.expiry

namespace Sound

omit [DecidableEq τ] in
theorem start (now : Int64) : Sound ({ now } : Clock τ) := ⟨nofun, nofun, nofun⟩

omit [DecidableEq τ] in
theorem tick (h : k.Sound) {now : Int64} (hle : k.now ≤ now) : (k.tick now).Sound := by
  refine ⟨fun t r hr => Int64.le_trans (h.reading t r hr) hle, fun t c hc => ?_, h.expiry⟩
  exact ⟨(h.call t c hc).1, Int64.le_trans (h.call t c hc).2 hle⟩

theorem read (h : k.Sound) (t : τ) (deadline : Int64) : (k.read t deadline).Sound := by
  refine ⟨fun u r hr => ?_, h.call, h.expiry⟩
  by_cases hu : u = t
  · subst hu
    rw [read_reading, Function.update_self] at hr
    cases hr
    exact Int64.le_refl _
  · rw [read_reading, Function.update_of_ne hu] at hr
    exact h.reading u r hr

theorem begins (h : k.Sound) {t : τ} {r : Reading} (hr : k.reading t = some r) (armed : Bool) :
    (k.begins t r armed).Sound := by
  have hnow := h.reading t r hr
  constructor
  · intro u r' hr'
    by_cases hu : u = t
    · subst hu
      rw [begins_reading, Function.update_self] at hr'
      cases hr'
    · rw [begins_reading, Function.update_of_ne hu] at hr'
      exact h.reading u r' hr'
  · intro u c hc
    by_cases hu : u = t
    · subst hu
      rw [begins_call, Function.update_self] at hc
      cases hc
      exact ⟨hnow, Int64.le_refl _⟩
    · rw [begins_call, Function.update_of_ne hu] at hc
      exact h.call u c hc
  · intro u e he
    by_cases hu : u = t
    · subst hu
      rw [begins_expiry, Function.update_self] at he
      obtain ⟨-, he⟩ := Option.ite_none_right_eq_some.mp he
      cases he
      exact ⟨⟨r, k.now⟩, Function.update_self .., rfl⟩
    · rw [begins_expiry, Function.update_of_ne hu] at he
      obtain ⟨c, hc, hlaw⟩ := h.expiry u e he
      exact ⟨c, (Function.update_of_ne hu _ _).trans hc, hlaw⟩

theorem after (h : k.Sound) (T : Timing S L τ) (s : S) (l : L) (s' : S) :
    (k.after T s l s').Sound := by
  unfold Clock.after
  split
  · next t _ =>
    cases hr : k.reading t with
    | none => exact h
    | some r => exact h.begins hr _
  · exact h

end Sound

/-- The thread's timer is set to `e`, by a call with a deadline: it is set to the time that is due
exactly if the difference of the deadline and the reading fits. That time is not before the
deadline, and it has come already if the deadline had passed when the clock was read. -/
structure Sets (k : Clock τ) (t : τ) (c : TimedCall) (e : Int) : Prop where
  call : k.call t = some c
  expiry : k.expiry t = some e
  due : e = c.due ↔ c.reading.Fits
  notBefore : c.reading.deadline.toInt ≤ c.due
  passed : c.reading.deadline ≤ c.reading.now → c.due ≤ k.now.toInt

omit [DecidableEq τ] in
theorem Sound.sets (h : k.Sound) {e : Int} (he : k.expiry t = some e) : ∃ c, k.Sets t c e := by
  obtain ⟨c, hc, rfl⟩ := h.expiry t e he
  obtain ⟨hstart, hnow⟩ := h.call t c hc
  rw [Int64.le_iff_toInt_le] at hstart hnow
  refine ⟨c, hc, he, c.expiry_eq_due, ?_, fun hpassed => ?_⟩
  · rw [TimedCall.due]
    omega
  · rw [Int64.le_iff_toInt_le] at hpassed
    rw [TimedCall.due]
    omega

end Clock

namespace TransitionSystem

variable {S L τ : Type*} [DecidableEq τ] {sys : TransitionSystem S L} {T : Timing S L τ}

/-- The system with a clock. -/
def timed (sys : TransitionSystem S L) (T : Timing S L τ) :
    TransitionSystem (S × Clock τ) (ClockLabel L τ) where
  init sk := sys.init sk.1 ∧ ∃ now, sk.2 = { now }
  step sk
    | .tick now => if sk.2.now ≤ now then some (sk.1, sk.2.tick now) else none
    | .reads t deadline => some (sk.1, sk.2.read t deadline)
    | .step l => if sk.2.permits T sk.1 l then (sys.step sk.1 l).map fun s' =>
      (s', sk.2.after T sk.1 l s') else none

theorem timed_step {sk sk' : S × Clock τ} {l : L} : (sys.timed T).step sk (.step l) = some sk' ↔
    sk.2.permits T sk.1 l = true ∧ ∃ s', sys.step sk.1 l = some s' ∧
    sk' = (s', sk.2.after T sk.1 l s') := by
  simp only [timed, Option.ite_none_right_eq_some, Option.map_eq_some_iff]
  exact and_congr_right fun _ => exists_congr fun s' => and_congr_right fun _ => eq_comm

/-- A timer expires as soon as its time has come. -/
theorem timed_expires {s : S} {k : Clock τ} {l : L} {t : τ} {e : Int} (hcalls : T.calls s l = none)
    (hexpires : T.expires l = some t)
    (hexpiry : k.expiry t = some e) (he : e ≤ k.now.toInt) (hstep : (sys.step s l).isSome) :
    ((sys.timed T).step (s, k) (.step l)).isSome := by
  obtain ⟨s', hs'⟩ := Option.isSome_iff_exists.mp hstep
  exact Option.isSome_iff_exists.mpr
    ⟨_, timed_step.mpr ⟨(Clock.of_expires hcalls hexpires).mpr ⟨e, hexpiry, he⟩, s', hs', rfl⟩⟩

theorem timed_untimed {s : S} {k : Clock τ} {l : L} (hcalls : T.calls s l = none)
    (hexpires : T.expires l = none)
    (hstep : (sys.step s l).isSome) : ((sys.timed T).step (s, k) (.step l)).isSome := by
  obtain ⟨s', hs'⟩ := Option.isSome_iff_exists.mp hstep
  exact Option.isSome_iff_exists.mpr
    ⟨_, timed_step.mpr ⟨Clock.permits_of_untimed hcalls hexpires, s', hs', rfl⟩⟩

/-- An invariant of a system with a clock: the ticks and the readings keep it, and the steps of the
system do. -/
theorem Reach.timed_invariant {ok : S × Clock τ → ClockLabel L τ → Prop} {I : S → Clock τ → Prop}
    (hinit : ∀ s now, sys.init s → I s { now })
    (htick : ∀ s k now, k.now ≤ now → I s k → I s (k.tick now))
    (hread : ∀ s k t deadline, I s k → I s (k.read t deadline))
    (hstep : ∀ s k l s', (sys.timed T).Reach ok (s, k) → I s k → ok (s, k) (.step l) →
      k.permits T s l = true →
      sys.step s l = some s' → I s' (k.after T s l s'))
    {sk : S × Clock τ} (h : (sys.timed T).Reach ok sk) : I sk.1 sk.2 := by
  refine h.invariant (I := fun sk => I sk.1 sk.2) (fun sk hsk => ?_) fun sk l sk' hr ih hok hs => ?_
  · obtain ⟨hs, now, hk⟩ := hsk
    rw [hk]
    exact hinit _ now hs
  · cases l with
    | tick now =>
      obtain ⟨hle, hs⟩ := Option.ite_none_right_eq_some.mp hs
      cases hs
      exact htick _ _ now hle ih
    | reads t deadline =>
      cases hs
      exact hread _ _ t deadline ih
    | step l =>
      obtain ⟨hpermits, s', hs', rfl⟩ := timed_step.mp hs
      exact hstep _ _ l s' hr ih hok hpermits hs'

/-- A run with a clock is a run. -/
theorem Reach.untimed {ok : S × Clock τ → ClockLabel L τ → Prop} {ok' : S → L → Prop}
    (himp : ∀ sk l, ok sk (.step l) → ok' sk.1 l) {sk : S × Clock τ}
    (h : (sys.timed T).Reach ok sk) : sys.Reach ok' sk.1 :=
  h.timed_invariant (I := fun s _ => sys.Reach ok' s) (fun _ _ hs => .init hs)
  (fun _ _ _ _ hr => hr) (fun _ _ _ _ hr => hr)
    fun s k l _ _ hr hok _ hs => hr.step (himp (s, k) l hok) hs

theorem Reach.sound {ok : S × Clock τ → ClockLabel L τ → Prop} {sk : S × Clock τ}
    (h : (sys.timed T).Reach ok sk) : sk.2.Sound :=
  h.timed_invariant (I := fun _ k => k.Sound) (fun _ now _ => .start now)
  (fun _ _ _ hle hk => hk.tick hle)
    (fun _ _ t deadline hk => hk.read t deadline) fun s _ l s' _ hk _ _ _ => hk.after T s l s'

end TransitionSystem
