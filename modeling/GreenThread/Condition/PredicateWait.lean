import GreenThread.Machine.Step
import Mathlib.Algebra.GroupWithZero.Nat

/-!
# Timed waits with a predicate

The loops of `wait_for(lock, rel_time, pred)` and `wait_until(lock, timeout_time, pred)` with an
explicit clock, against any outcomes of the predicate and any wake-ups. A wait that is given the
duration `d` ends by a notification after at most `d`, or by its timer after exactly `d`; a duration
below zero expires at once.

`wait_until` computes the duration from its deadline each time, `wait_for` gives every wait the
whole of `rel_time`.
-/

namespace GreenThread

namespace PredicateWait

/-- Where the call is: before a test of the predicate, in a wait, before the `return pred()` that
follows a timeout, or over. -/
inductive Pos
  | test
  | waiting (d : Int)
  | retest
  | returned (b : Bool)
  deriving DecidableEq, Repr

/-- A call, with the time its waits have taken. -/
structure State where
  pos : Pos := .test
  blocked : Nat := 0
  deriving DecidableEq, Repr

/-- The predicate gives `b`, or the wait ends with a status after some time. -/
inductive Event
  | test (b : Bool)
  | wakes (status : CvStatus) (time : Nat)
  deriving DecidableEq, Repr

/-- How a wait of duration `d` can end. -/
def endsWith (d : Int) : CvStatus → Nat → Bool
  | .noTimeout, time => time ≤ d.toNat
  | .timeout, time => time = d.toNat

/-- `if (cv_status::timeout == …) return pred();` -/
def afterWait : CvStatus → Pos
  | .noTimeout => .test
  | .timeout => .retest

/-- The loop, where `duration` is what a wait is given after the earlier ones have taken so long. -/
def State.next (duration : Nat → Int) (s : State) : Event → Option State
  | .test b =>
    match s.pos with
    | .test => some { s with pos := if b then .returned true else .waiting (duration s.blocked) }
    | .retest => some { s with pos := .returned b }
    | _ => none
  | .wakes status time =>
    match s.pos with
    | .waiting d => if endsWith d status time
        then some { pos := afterWait status, blocked := s.blocked + time } else none
    | _ => none

def loop (duration : Nat → Int) : TransitionSystem State Event where
  init s := s = {}
  step := State.next duration

/-- `condition_variable` and `condition_variable_any`. -/
inductive Owner
  | conditionVariable
  | conditionVariableAny

/-- The duration that `condition_variable::wait_for` gives to the timer of its `wait_rel`. -/
def ConditionVariable.waitFor (d : Int) : Int := d

/-- The duration for the timer in `condition_variable_any::wait_for`, which calls
`cond_.wait_for(lk, d)`. -/
def ConditionVariableAny.waitFor (d : Int) : Int := ConditionVariable.waitFor d

def Owner.waitFor : Owner → Int → Int
  | .conditionVariable => ConditionVariable.waitFor
  | .conditionVariableAny => ConditionVariableAny.waitFor

/-- The duration that `wait_until` gives to the timer, when the deadline was `rel` away at the start
of the call. -/
def Owner.waitUntil (owner : Owner) (rel : Int) (blocked : Nat) :
    Int := owner.waitFor (rel - blocked)

/-- `wait_for(lock, rel_time, pred)`. -/
def predicateWaitFor (owner : Owner) (rel : Int) :
    TransitionSystem State Event := loop fun _ => owner.waitFor rel

/-- `wait_until(lock, timeout_time, pred)`. -/
def predicateWaitUntil (owner : Owner) (rel : Int) :
    TransitionSystem State Event := loop (owner.waitUntil rel)

/-! ### The history -/

/-- What the call has met: the outcomes of the predicate, the last first, the times of the waits
that were notified, and whether a wait timed out. -/
structure History where
  outcomes : List Bool := []
  notified : List Nat := []
  timedOut : Bool := false

def record (h : History) (_ : State) (e : Event) (_ : State) : History :=
  match e with
  | .test b => { h with outcomes := b :: h.outcomes }
  | .wakes .noTimeout time => { h with notified := time :: h.notified }
  | .wakes .timeout _ => { h with timedOut := true }

/-- The runs of a loop with what they have met. -/
def watched (sys : TransitionSystem State Event) :
    TransitionSystem (State × History) Event := sys.withHistory {} record

/-- One deadline for the whole call: it returns `true` as soon as the predicate holds, or the
predicate's value when its waits have taken `rel` in total, and they never take more. -/
structure KeepsDeadline (rel : Int) (s : State) (h : History) : Prop where
  within : s.blocked ≤ rel.toNat
  prompt : h.outcomes.head? = some true → s.pos = .returned true
  before : ∀ b ∈ h.outcomes.tail, b = false
  value : ∀ b, s.pos = .returned b → h.outcomes.head? = some b
  total : ∀ b, s.pos = .returned b → b = true ∧ h.timedOut = false ∨
    h.timedOut = true ∧ s.blocked = rel.toNat

/-! ### Every run of a loop -/

/-- What a loop does whatever the durations are. -/
inductive Loops : State → History → Prop
  | test {blocked h} (hout : ∀ b ∈ h.outcomes, b = false) (htimed : h.timedOut = false) :
      Loops ⟨.test, blocked⟩ h
  | waiting {d blocked h} (hout : ∀ b ∈ h.outcomes, b = false) (htimed : h.timedOut = false) :
      Loops ⟨.waiting d, blocked⟩ h
  | retest {blocked h} (hout : ∀ b ∈ h.outcomes, b = false) (htimed : h.timedOut = true) :
      Loops ⟨.retest, blocked⟩ h
  | found {blocked h rest} (hout : h.outcomes = true :: rest) (hrest : ∀ b ∈ rest, b = false)
      (htimed : h.timedOut = false) :
    Loops ⟨.returned true, blocked⟩ h
  | timedOut {b blocked h rest} (hout : h.outcomes = b :: rest) (hrest : ∀ b ∈ rest, b = false)
      (htimed : h.timedOut = true) :
    Loops ⟨.returned b, blocked⟩ h

variable {duration : Nat → Int} {s s' : State} {h : History} {e : Event}

theorem Loops.step (hloops : Loops s h) (hnext : s.next duration e = some s') :
    Loops s' (record h s e s') := by
  cases hloops with
  | test hout htimed =>
    cases e with
    | test b =>
      cases hnext
      cases b with
      | true => exact .found rfl hout htimed
      | false => exact .waiting (List.forall_mem_cons.mpr ⟨rfl, hout⟩) htimed
    | wakes status time => cases hnext
  | waiting hout htimed =>
    cases e with
    | test b => cases hnext
    | wakes status time =>
      obtain ⟨-, hs⟩ := Option.ite_none_right_eq_some.mp hnext
      cases hs
      cases status with
      | noTimeout => exact .test hout htimed
      | timeout => exact .retest hout rfl
  | retest hout htimed =>
    cases e with
    | test b =>
      cases hnext
      exact .timedOut rfl hout htimed
    | wakes status time => cases hnext
  | found | timedOut => cases e <;> cases hnext

theorem reach_loops {sh : State × History} (hreach : (watched (loop duration)).Reachable sh) :
    Loops sh.1 sh.2 := by
  refine hreach.invariant (I := fun sh => Loops sh.1 sh.2)
    (fun sh hinit => ?_) fun sh e sh' _ ih _ hstep => ?_
  · obtain ⟨hs, hh⟩ := hinit
    rw [hs, hh]
    exact .test nofun rfl
  · obtain ⟨s', hs', rfl⟩ := TransitionSystem.withHistory_step.mp hstep
    exact ih.step hs'

/-- Of the deadline only the times are left to look at. -/
theorem Loops.keepsDeadline_iff {rel : Int} (hloops : Loops s h) :
    KeepsDeadline rel s h ↔ s.blocked ≤ rel.toNat ∧ ∀ b, s.pos = .returned b → h.timedOut = true →
    s.blocked = rel.toNat := by
  have hhead : ∀ {l : List Bool}, (∀ b ∈ l, b = false) → l.head? ≠ some true := by
    intro l hl htrue
    cases hl true (List.mem_of_head? htrue)
  refine ⟨fun hkeeps => ⟨hkeeps.within, fun b hpos htimed => ?_⟩, fun ⟨hwithin, htotal⟩ => ?_⟩
  · rcases hkeeps.total b hpos with ⟨-, hnot⟩ | ⟨-, hblocked⟩
    · cases hnot.symm.trans htimed
    · exact hblocked
  · cases hloops with
    | test hout | waiting hout | retest hout =>
      exact ⟨hwithin, fun htrue => absurd htrue (hhead hout),
        fun b hb => hout b (List.mem_of_mem_tail hb), nofun, nofun⟩
    | found hout hrest htimed =>
      refine ⟨hwithin, fun _ => rfl, ?_, ?_, ?_⟩
      · rw [hout]
        exact hrest
      · rintro b hpos
        cases hpos
        rw [hout]
        rfl
      · rintro b hpos
        cases hpos
        exact .inl ⟨rfl, htimed⟩
    | @timedOut b blocked h rest hout hrest htimed =>
      refine ⟨hwithin, ?_, ?_, ?_, ?_⟩
      · rw [hout]
        rintro htrue
        rw [Option.some.inj htrue]
      · rw [hout]
        exact hrest
      · rintro b' hpos
        cases hpos
        rw [hout]
        rfl
      · exact fun b' hpos => .inr ⟨htimed, htotal b' hpos htimed⟩

/-! ### `wait_for` -/

theorem waitFor_eq (owner : Owner) (d : Int) : owner.waitFor d = d := by
  cases owner <;> rfl

/-- Each wait of the loop can take `rel` anew. -/
structure Restarts (rel : Int) (s : State) (h : History) : Prop where
  waiting : ∀ d, s.pos = .waiting d → d = rel
  blocked : s.blocked = h.notified.sum + if h.timedOut then rel.toNat else 0

theorem Restarts.step {owner : Owner} {rel : Int} (hloops : Loops s h)
    (hrestarts : Restarts rel s h) (hnext : s.next (fun _ => owner.waitFor rel) e = some s') :
    Restarts rel s' (record h s e s') := by
  obtain ⟨hwaiting, hblocked⟩ := hrestarts
  cases hloops with
  | test hout htimed =>
    cases e with
    | test b =>
      cases hnext
      refine ⟨?_, hblocked⟩
      cases b with
      | true => exact nofun
      | false =>
        rintro d hd
        cases hd
        exact waitFor_eq owner rel
    | wakes status time => cases hnext
  | waiting hout htimed =>
    cases e with
    | test b => cases hnext
    | wakes status time =>
      obtain ⟨hends, hs⟩ := Option.ite_none_right_eq_some.mp hnext
      cases hs
      obtain rfl := hwaiting _ rfl
      simp only [htimed] at hblocked
      cases status with
      | noTimeout =>
        refine ⟨nofun, ?_⟩
        simp only [record, htimed, List.sum_cons]
        simp only [hblocked]
        simp [Nat.add_comm]
      | timeout =>
        have htime := of_decide_eq_true hends
        refine ⟨nofun, ?_⟩
        simp [record, hblocked, htime]
  | retest hout htimed =>
    cases e with
    | test b =>
      cases hnext
      exact ⟨nofun, hblocked⟩
    | wakes status time => cases hnext
  | found | timedOut => cases e <;> cases hnext

theorem reach_restarts {owner : Owner} {rel : Int} {sh : State × History}
    (hreach : (watched (predicateWaitFor owner rel)).Reachable sh) : Restarts rel sh.1 sh.2 := by
  refine hreach.invariant (I := fun sh => Restarts rel sh.1 sh.2)
    (fun sh hinit => ?_) fun sh e sh' hr ih _ hstep => ?_
  · obtain ⟨hs, hh⟩ := hinit
    rw [hs, hh]
    exact ⟨nofun, rfl⟩
  · obtain ⟨s', hs', rfl⟩ := TransitionSystem.withHistory_step.mp hstep
    exact ih.step (reach_loops hr) hs'

/-- `wait_for` with a predicate keeps its deadline exactly if the notified waits took at most `rel`
together, and no time at all when a wait has timed out. -/
theorem wait_for_keeps_deadline_iff (owner : Owner) (rel : Int) {sh : State × History}
    (hreach : (watched (predicateWaitFor owner rel)).Reachable sh) :
    KeepsDeadline rel sh.1 sh.2 ↔ sh.2.notified.sum ≤ rel.toNat ∧
    (sh.2.timedOut = true → sh.2.notified.sum = 0) := by
  have hblocked := (reach_restarts hreach).blocked
  rw [(reach_loops hreach).keepsDeadline_iff]
  cases htimed : sh.2.timedOut with
  | false =>
    rw [htimed, if_neg Bool.false_ne_true, Nat.add_zero] at hblocked
    rw [hblocked]
    exact and_congr_right fun _ => iff_of_true nofun nofun
  | true =>
    rw [htimed, if_pos rfl] at hblocked
    constructor
    · rintro ⟨hwithin, -⟩
      have hzero : sh.2.notified.sum = 0 := by omega
      exact ⟨hzero ▸ Nat.zero_le _, fun _ => hzero⟩
    · rintro ⟨-, hzero⟩
      rw [hzero rfl, Nat.zero_add] at hblocked
      exact ⟨Nat.le_of_eq hblocked, fun _ _ _ => hblocked⟩

/-- A notification arrives too early, the next wait finds the predicate true. -/
theorem wait_for_keeps_deadline_found :
    ∃ sh : State × History, KeepsDeadline 10 sh.1 sh.2 ∧ sh.1 = ⟨.returned true, 9⟩ := by
  let events : List Event :=
    [.test false, .wakes .noTimeout 6, .test false, .wakes .noTimeout 3, .test true]
  have hreach := (watched (predicateWaitFor .conditionVariable 10)).reach_of_run (fun _ _ => true)
    ({}, {}) ⟨rfl, rfl⟩ events rfl
  exact ⟨_, (wait_for_keeps_deadline_iff .conditionVariable 10 hreach.reachable).mpr (by decide),
    rfl⟩

/-- One early notification, and a call with `rel_time` 10 takes 16. -/
theorem wait_for_restarts :
    ∃ sh : State × History, (watched (predicateWaitFor .conditionVariable 10)).Reachable sh ∧
    sh.1 = ⟨.returned false, 16⟩ ∧ ¬ KeepsDeadline 10 sh.1 sh.2 := by
  let events : List Event :=
    [.test false, .wakes .noTimeout 6, .test false, .wakes .timeout 10, .test false]
  have hreach := (watched (predicateWaitFor .conditionVariable 10)).reach_of_run (fun _ _ => true)
    ({}, {}) ⟨rfl, rfl⟩ events rfl
  exact ⟨_, hreach.reachable, rfl, fun hkeeps => absurd hkeeps.within (by decide)⟩

/-! ### `wait_until` -/

/-- Each wait of the loop can take what is left. -/
structure Converges (rel : Int) (s : State) (h : History) : Prop where
  waiting : ∀ d, s.pos = .waiting d → d = rel - s.blocked
  within : s.blocked ≤ rel.toNat
  total : h.timedOut = true → s.blocked = rel.toNat

theorem Converges.step {owner : Owner} {rel : Int} (hloops : Loops s h)
    (hconverges : Converges rel s h)
    (hnext : s.next (owner.waitUntil rel) e = some s') : Converges rel s' (record h s e s') := by
  obtain ⟨hwaiting, hwithin, htotal⟩ := hconverges
  cases hloops with
  | test hout htimed =>
    cases e with
    | test b =>
      cases hnext
      refine ⟨?_, hwithin, htotal⟩
      cases b with
      | true => exact nofun
      | false =>
        rintro d hd
        cases hd
        exact waitFor_eq owner _
    | wakes status time => cases hnext
  | waiting hout htimed =>
    cases e with
    | test b => cases hnext
    | wakes status time =>
      obtain ⟨hends, hs⟩ := Option.ite_none_right_eq_some.mp hnext
      cases hs
      have hd := hwaiting _ rfl
      cases status with
      | noTimeout =>
        have htime := of_decide_eq_true hends
        refine ⟨nofun, ?_, fun htrue => absurd (htimed.symm.trans htrue) Bool.false_ne_true⟩
        simp only at hd hwithin htime ⊢
        omega
      | timeout =>
        have htime := of_decide_eq_true hends
        refine ⟨nofun, ?_, fun _ => ?_⟩ <;> simp only at hd hwithin htime ⊢ <;> omega
  | retest hout htimed =>
    cases e with
    | test b =>
      cases hnext
      exact ⟨nofun, hwithin, htotal⟩
    | wakes status time => cases hnext
  | found | timedOut => cases e <;> cases hnext

theorem wait_until_keeps_deadline (owner : Owner) (rel : Int) {sh : State × History}
    (hreach : (watched (predicateWaitUntil owner rel)).Reachable sh) :
    KeepsDeadline rel sh.1 sh.2 := by
  have hconverges : Converges rel sh.1 sh.2 := by
    refine hreach.invariant (I := fun sh => Converges rel sh.1 sh.2)
      (fun sh hinit => ?_) fun sh e sh' hr ih _ hstep => ?_
    · obtain ⟨hs, hh⟩ := hinit
      rw [hs, hh]
      exact ⟨nofun, Nat.zero_le _, nofun⟩
    · obtain ⟨s', hs', rfl⟩ := TransitionSystem.withHistory_step.mp hstep
      exact ih.step (reach_loops hr) hs'
  exact (reach_loops hreach).keepsDeadline_iff.mpr
    ⟨hconverges.within, fun _ _ htimed => hconverges.total htimed⟩

end PredicateWait

end GreenThread
