import GreenThread.Library.System

/-!
# Interruption requests

A thread's `interrupt_requested_` flag and its `interrupt_disable_level_` are written by `interrupt`
and by the two kinds of scopes, and read by `pause` and three functions of `this_thread`. The
history of one thread is compared with a machine of one pending request: a request is accepted while
interruption is enabled, and it is pending until an interruption is thrown.
-/

namespace GreenThread.InterruptionPoints

variable {ℓ : Type}

/-- The objects whose lifetimes are the scopes. A `restore_interruption` keeps the level it
replaced. -/
inductive Guard (ℓ : Type := Int)
  | disable
  | restore (level : ℓ)
  deriving DecidableEq

/-- The part of a `thread_object` that interruption uses, with the scopes the thread is in, the
innermost first. The level is an `Int32` where its range matters. -/
structure Thread (ℓ : Type := Int) where
  interruptDisableLevel : ℓ
  interruptRequested : Bool := false
  guards : List (Guard ℓ) := []
  paused : Bool := false

section Code

variable [OfNat ℓ 0] [OfNat ℓ 1] [Add ℓ] [Sub ℓ] [DecidableEq ℓ]

namespace Thread

variable (t : Thread ℓ)

/-- `thread_object::interrupt`, and `thread::interrupt`, which is a second copy of it. -/
def interrupt : Thread ℓ := if t.interruptDisableLevel = 0
    then { t with interruptRequested := true } else t

def disableInterruption : Thread ℓ :=
  { t with interruptDisableLevel := t.interruptDisableLevel + 1, guards := .disable :: t.guards }

/-- The constructor of `restore_interruption` swaps the level with its `level_`, which is 0. -/
def restoreInterruption : Thread ℓ :=
  { t with interruptDisableLevel := 0, guards := .restore t.interruptDisableLevel :: t.guards }

/-- The destructor of the innermost scope's object. -/
def leave : Option (Thread ℓ) :=
  match t.guards with
  | .disable :: guards =>
    some { t with interruptDisableLevel := t.interruptDisableLevel - 1, guards }
  | .restore level :: guards => some { t with interruptDisableLevel := level, guards }
  | [] => none

/-- Whether `pause` throws when the thread is resumed. -/
def pauseThrows : Bool := t.interruptDisableLevel == 0 && t.interruptRequested

def interruptionEnabled : Bool := t.interruptDisableLevel == 0

def interruptionRequested : Bool := t.interruptRequested == false

/-- Whether `interruption_point` throws. -/
def interruptionPoint : Bool := t.interruptRequested

end Thread

/-- The calls that tell the thread something about interruption. -/
inductive Observer
  | pause
  | interruptionPoint
  | interruptionEnabled
  | interruptionRequested
  deriving DecidableEq

/-- What the code answers: for the two interruption points, whether they throw. -/
def Thread.answer (t : Thread ℓ) : Observer → Bool
  | .pause => t.pauseThrows
  | .interruptionPoint => t.interruptionPoint
  | .interruptionEnabled => t.interruptionEnabled
  | .interruptionRequested => t.interruptionRequested

/-- `interrupt` is a call of another thread. The thread switches out in `pause` and comes back with
`observe .pause`. -/
inductive Event
  | interrupt
  | disableInterruption
  | restoreInterruption
  | leave
  | switchOut
  | observe (o : Observer)

def Thread.next (t : Thread ℓ) : Event → Option (Thread ℓ)
  | .interrupt => some t.interrupt
  | .disableInterruption => if t.paused then none else some t.disableInterruption
  | .restoreInterruption => if t.paused then none else some t.restoreInterruption
  | .leave => if t.paused then none else t.leave
  | .switchOut => if t.paused then none else some { t with paused := true }
  | .observe .pause => if t.paused then some { t with paused := false } else none
  | .observe _ => if t.paused then none else some t

def system : TransitionSystem (Thread ℓ) Event where
  init t := t = { interruptDisableLevel := 0 }
  step := Thread.next

end Code

/-! ### The pending request -/

inductive Scope
  | disable
  | restore

/-- Interruption is enabled unless the innermost scope disables it. -/
def enabled : List Scope → Bool
  | .disable :: _ => false
  | _ => true

/-- A call of the thread: whether interruption was enabled, whether a request had been accepted
before and was pending, and the answer. -/
structure Call where
  observer : Observer
  enabled : Bool
  accepted : Bool
  pending : Bool
  answer : Bool

/-- What the machine of one pending request answers. -/
def Call.expected (c : Call) : Bool :=
  match c.observer with
  | .pause | .interruptionPoint => c.enabled && c.pending
  | .interruptionEnabled => c.enabled
  | .interruptionRequested => c.pending

/-- Whether the call threw `thread_interrupted`. -/
def Call.throws (c : Call) : Bool :=
  match c.observer with
  | .pause | .interruptionPoint => c.answer
  | _ => false

/-- The code answers as the machine when an enabled `pause` finds no request that was thrown before,
`interruption_point` finds none at all or an enabled pending one, and `interruption_requested` finds
one that is no longer pending. -/
def Call.Regular (c : Call) : Prop :=
  match c.observer with
  | .pause => c.enabled → c.accepted → c.pending
  | .interruptionPoint => c.accepted → c.enabled ∧ c.pending
  | .interruptionEnabled => True
  | .interruptionRequested => c.accepted ∧ c.pending = false

instance (c : Call) : Decidable c.Regular :=
  match c with
  | ⟨.pause, enabled, accepted, pending, _⟩ =>
    inferInstanceAs (Decidable (enabled → accepted → pending))
  | ⟨.interruptionPoint, enabled, accepted, pending, _⟩ =>
    inferInstanceAs (Decidable (accepted → enabled ∧ pending))
  | ⟨.interruptionEnabled, _, _, _, _⟩ => inferInstanceAs (Decidable True)
  | ⟨.interruptionRequested, _, accepted, pending, _⟩ =>
    inferInstanceAs (Decidable (accepted ∧ pending = false))

structure History where
  scopes : List Scope := []
  pending : Bool := false
  accepted : Nat := 0
  thrown : Nat := 0
  calls : List Call := []

def History.call (h : History) (c : Call) : History :=
  { h with
    calls := c :: h.calls
    pending := h.pending && !c.throws
    thrown := if c.throws then h.thrown + 1 else h.thrown }

/-- The call as the thread makes it now. -/
def Thread.observed (t : Thread) (h : History) (o : Observer) : Call where
  observer := o
  enabled := enabled h.scopes
  accepted := 0 < h.accepted
  pending := h.pending
  answer := t.answer o

def record (h : History) (t : Thread) (e : Event) (_ : Thread) : History :=
  match e with
  | .interrupt => if enabled h.scopes then { h with accepted := h.accepted + 1, pending := true }
      else h
  | .disableInterruption => { h with scopes := .disable :: h.scopes }
  | .restoreInterruption => { h with scopes := .restore :: h.scopes }
  | .leave => { h with scopes := h.scopes.tail }
  | .switchOut => h
  | .observe o => h.call (t.observed h o)

/-- The runs of a thread with their history. -/
def watched : TransitionSystem (Thread × History) Event := system.withHistory {} record

/-- Every call was answered as the pending request asks, and no more interruptions were thrown than
requests accepted. -/
structure OnePendingRequest (h : History) : Prop where
  answers : ∀ c ∈ h.calls, c.answer = c.expected
  thrown : h.thrown ≤ h.accepted

/-! ### The level and the scopes -/

def Guard.scope : Guard ℓ → Scope
  | .disable => .disable
  | .restore _ => .restore

section Level

variable [OfNat ℓ 0] [OfNat ℓ 1] [Add ℓ]

/-- The disable level inside the given scopes. -/
def level : List (Guard ℓ) → ℓ
  | [] => 0
  | .disable :: guards => level guards + 1
  | .restore _ :: _ => 0

/-- Each `restore_interruption` keeps the level of the scope around it. -/
def Nested : List (Guard ℓ) → Prop
  | [] => True
  | .disable :: guards => Nested guards
  | .restore l :: guards => l = level guards ∧ Nested guards

end Level

theorem level_nonneg (guards : List Guard) : 0 ≤ level guards := by
  induction guards with
  | nil => exact Int.le_refl _
  | cons g guards ih =>
    cases g with
    | disable => exact Int.le_add_one ih
    | restore _ => exact Int.le_refl _

theorem level_eq_zero (guards : List Guard) :
    (level guards == 0) = enabled (guards.map Guard.scope) := by
  match guards with
  | [] => rfl
  | .restore _ :: _ => rfl
  | .disable :: guards =>
    have hpos : level guards + 1 ≠ 0 := by
      have := level_nonneg guards
      omega
    simpa [enabled, level, Guard.scope] using hpos

/-! ### Every history of a thread -/

/-- What the code answers in terms of the history: the flag says that some request has ever been
accepted. -/
def Call.FromCode (c : Call) : Prop :=
  c.answer =
    match c.observer with
    | .pause => c.enabled && c.accepted
    | .interruptionPoint => c.accepted
    | .interruptionEnabled => c.enabled
    | .interruptionRequested => !c.accepted

theorem Call.agrees_iff {c : Call} (hcode : c.FromCode) (hpending : c.pending → c.accepted) :
    c.answer = c.expected ↔ c.Regular := by
  obtain ⟨observer, enabled, accepted, pending, answer⟩ := c
  rw [FromCode] at hcode
  cases observer <;> cases enabled <;> cases accepted <;> cases pending <;>
    simp_all [Call.expected, Call.Regular]

theorem Call.pending_of_throws {c : Call} (hthrows : c.throws) (hagrees : c.answer = c.expected) :
    c.pending := by
  obtain ⟨observer, enabled, accepted, pending, answer⟩ := c
  cases observer <;> simp_all [Call.throws, Call.expected]

structure Consistent (t : Thread) (h : History) : Prop where
  scopes : h.scopes = t.guards.map Guard.scope
  nested : Nested t.guards
  level : t.interruptDisableLevel = level t.guards
  requested : t.interruptRequested = decide (0 < h.accepted)
  pending : h.pending → 0 < h.accepted
  fromCode : ∀ c ∈ h.calls, c.FromCode ∧ (c.pending → c.accepted)
  thrown : (∀ c ∈ h.calls, c.answer = c.expected) → h.thrown + h.pending.toNat ≤ h.accepted

theorem Consistent.enabled {t : Thread} {h : History} (hc : Consistent t h) :
    (t.interruptDisableLevel == 0) = enabled h.scopes := by
  rw [hc.level, hc.scopes, level_eq_zero]

theorem Consistent.interrupt {t : Thread} {h : History} (hc : Consistent t h) :
    Consistent t.interrupt (record h t .interrupt t.interrupt) := by
  have henabled := hc.enabled
  rw [Thread.interrupt, record, ← henabled]
  split
  · next hlevel =>
    rw [if_pos (by simpa using hlevel)]
    refine ⟨hc.scopes, hc.nested, hc.level, by simp, fun _ => Nat.succ_pos _, hc.fromCode,
      fun hagree => ?_⟩
    have hthrown := hc.thrown hagree
    simp only [Bool.toNat_true]
    omega
  · next hlevel =>
    rw [if_neg (by simpa using hlevel)]
    exact hc

theorem Consistent.leave {t t' : Thread} {h : History} (hc : Consistent t h)
    (hleave : t.leave = some t') :
    Consistent t' { h with scopes := h.scopes.tail } := by
  obtain ⟨hscopes, hnested, hlevel, hrequested, hpending, hfromCode, hthrown⟩ := hc
  rw [Thread.leave] at hleave
  cases hguards : t.guards with
  | nil =>
    rw [hguards] at hleave
    cases hleave
  | cons g guards =>
    rw [hguards] at hleave hnested hscopes hlevel
    have htail : h.scopes.tail = guards.map Guard.scope := by
      rw [hscopes, List.map_cons, List.tail_cons]
    cases g with
    | disable =>
      cases hleave
      refine ⟨htail, hnested, ?_, hrequested, hpending, hfromCode, hthrown⟩
      simp only [hlevel, InterruptionPoints.level]
      omega
    | restore l =>
      cases hleave
      exact ⟨htail, hnested.2, hnested.1, hrequested, hpending, hfromCode, hthrown⟩

theorem Consistent.observe {t : Thread} {h : History} (hc : Consistent t h) (o : Observer)
    (t' : Thread) :
    Consistent t (record h t (.observe o) t') := by
  have hcode : (t.observed h o).FromCode ∧
    ((t.observed h o).pending → (t.observed h o).accepted) := by
    refine ⟨?_, fun hpending => decide_eq_true (hc.pending hpending)⟩
    cases o <;> simp [Thread.observed, Call.FromCode, Thread.answer, Thread.pauseThrows,
      Thread.interruptionPoint,
      Thread.interruptionEnabled, Thread.interruptionRequested, hc.enabled, hc.requested]
  refine ⟨hc.scopes, hc.nested, hc.level, hc.requested, fun hp => ?_, ?_, ?_⟩
  · exact hc.pending (Bool.and_eq_true_iff.mp hp).1
  · intro c' hc'
    obtain rfl | hc' := List.mem_cons.mp hc'
    · exact hcode
    · exact hc.fromCode c' hc'
  · intro hagree
    have hthrown := hc.thrown fun c' hc' => hagree c' (List.mem_cons_of_mem _ hc')
    cases hthrows : (t.observed h o).throws with
    | false => simpa [record, History.call, hthrows] using hthrown
    | true =>
      have hused : h.pending := Call.pending_of_throws hthrows (hagree _ List.mem_cons_self)
      rw [hused] at hthrown
      simpa [record, History.call, hthrows] using hthrown

theorem consistent_step {t : Thread} {h : History} (hc : Consistent t h) {e : Event}
    {th' : Thread × History}
    (hstep : watched.step (t, h) e = some th') : Consistent th'.1 th'.2 := by
  obtain ⟨t', ht', rfl⟩ := TransitionSystem.withHistory_step.mp hstep
  change t.next e = some t' at ht'
  cases e with
  | interrupt =>
    cases ht'
    exact hc.interrupt
  | disableInterruption =>
    rw [Thread.next, Option.ite_none_left_eq_some] at ht'
    obtain ⟨-, ht'⟩ := ht'
    cases ht'
    exact ⟨congrArg (_ :: ·) hc.scopes, hc.nested, congrArg (· + 1) hc.level, hc.requested,
      hc.pending, hc.fromCode, hc.thrown⟩
  | restoreInterruption =>
    rw [Thread.next, Option.ite_none_left_eq_some] at ht'
    obtain ⟨-, ht'⟩ := ht'
    cases ht'
    exact ⟨congrArg (_ :: ·) hc.scopes, ⟨hc.level, hc.nested⟩, rfl, hc.requested, hc.pending,
      hc.fromCode, hc.thrown⟩
  | leave =>
    rw [Thread.next, Option.ite_none_left_eq_some] at ht'
    exact hc.leave ht'.2
  | switchOut =>
    rw [Thread.next, Option.ite_none_left_eq_some] at ht'
    obtain ⟨-, ht'⟩ := ht'
    cases ht'
    exact ⟨hc.scopes, hc.nested, hc.level, hc.requested, hc.pending, hc.fromCode, hc.thrown⟩
  | observe o =>
    obtain ⟨hscopes, hnested, hlevel, hrequested, hpending, hfromCode, hthrown⟩ := hc.observe o t'
    obtain ⟨paused, rfl⟩ : ∃ paused, t' = { t with paused } := by
      cases o <;> simp only [Thread.next, Option.ite_none_left_eq_some,
        Option.ite_none_right_eq_some] at ht' <;>
        obtain ⟨-, ht'⟩ := ht' <;> cases ht' <;> exact ⟨_, rfl⟩
    exact ⟨hscopes, hnested, hlevel, hrequested, hpending, hfromCode, hthrown⟩

theorem consistent {th : Thread × History} (hreach : watched.Reachable th) :
    Consistent th.1 th.2 := by
  refine hreach.invariant (I := fun th => Consistent th.1 th.2)
    (fun th hinit => ?_) fun th e th' _ ih _ hstep =>
    consistent_step ih hstep
  obtain ⟨ht, hh⟩ := hinit
  rw [ht, hh]
  exact ⟨rfl, trivial, rfl, rfl, fun hp => (nomatch hp), fun _ hc => (nomatch hc),
    fun _ => Nat.le_refl _⟩

/-- In every history the calls implement the pending request exactly if each of them is regular. -/
theorem one_pending_request_iff {th : Thread × History} (hreach : watched.Reachable th) :
    OnePendingRequest th.2 ↔ ∀ c ∈ th.2.calls, c.Regular := by
  have hc := consistent hreach
  have hiff : ∀ c ∈ th.2.calls, (c.answer = c.expected ↔ c.Regular) := fun c hmem =>
    Call.agrees_iff (hc.fromCode c hmem).1 (hc.fromCode c hmem).2
  constructor
  · intro h c hmem
    exact (hiff c hmem).mp (h.answers c hmem)
  · intro h
    have hanswers : ∀ c ∈ th.2.calls, c.answer = c.expected :=
      fun c hmem => (hiff c hmem).mpr (h c hmem)
    exact ⟨hanswers, Nat.le_trans (Nat.le_add_right _ _) (hc.thrown hanswers)⟩

/-- A thread is interrupted in `pause`, and again at an interruption point after a second
request. -/
theorem one_pending_request_twice :
    ∃ th : Thread × History, OnePendingRequest th.2 ∧ th.2.thrown = 2 ∧
    th.2.accepted = 2 := by
  let events : List Event :=
    [.disableInterruption, .interrupt, .switchOut, .observe .pause, .restoreInterruption,
      .observe .interruptionEnabled, .switchOut, .interrupt, .observe .pause,
      .observe .interruptionRequested, .leave, .leave, .interrupt, .observe .interruptionPoint]
  have hreach := watched.reach_of_run (fun _ _ => true) ({ interruptDisableLevel := 0 }, {})
    ⟨rfl, rfl⟩ events rfl
  refine ⟨_, (one_pending_request_iff hreach.reachable).mpr ?_, rfl, rfl⟩
  decide

/-- One request is accepted and thrown twice, because nothing clears the flag. -/
theorem request_thrown_twice :
    ∃ th : Thread × History, watched.Reachable th ∧ th.2.accepted = 1 ∧ th.2.thrown = 2 ∧
    ¬ OnePendingRequest th.2 := by
  let events : List Event := [.interrupt, .switchOut, .observe .pause, .switchOut, .observe .pause]
  have hreach := watched.reach_of_run (fun _ _ => true) ({ interruptDisableLevel := 0 }, {})
    ⟨rfl, rfl⟩ events rfl
  exact ⟨_, hreach.reachable, rfl, rfl, fun h => absurd h.thrown (by decide)⟩

end GreenThread.InterruptionPoints
