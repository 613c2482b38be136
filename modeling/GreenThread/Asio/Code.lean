import GreenThread.Scheduler.Activation

/-!
# Asynchronous operations

`asio::yield` as the completion token of asynchronous operations. The handler of an operation keeps
the thread that has initiated it and two pointers: to the `error_code` given to `yield[ec]` or else
to the one in the frame of the call, and to the value in that frame. It writes through both and
activates the thread, on any worker; the thread pauses in `get` and reads the frame when it goes on.

What happens between two of the handler's statements is left open, and so is what the thread does
before it calls `get`.
-/

namespace GreenThread

namespace Asio

/-- `error_code` -/
structure ErrorValue where
  value : Int := 0
  category : Nat := 0
  deriving DecidableEq, Repr

/-- `operator bool` -/
def ErrorValue.isSet (e : ErrorValue) : Bool := e.value ≠ 0

/-- The arguments a handler is invoked with. -/
inductive Completion (α : Type)
  | value (t : α)
  | error (ec : ErrorValue) (t : α)
  deriving DecidableEq, Repr

namespace Completion

variable {α : Type}

/-- What the handler writes to `*ec_`. -/
def ec : Completion α → ErrorValue
  | value _ => {}
  | error ec _ => ec

/-- What the handler writes to `*value_`. -/
def given : Completion α → α
  | value t | error _ t => t

end Completion

/-- How far the handler of an operation has come: it is not invoked, it has written the error, it
has written the value, it has activated the thread. -/
inductive Stage (α : Type)
  | initiated
  | errorWritten (c : Completion α)
  | valueWritten (c : Completion α)
  | done (c : Completion α)
  deriving DecidableEq, Repr

/-- How a call ends. -/
inductive Outcome (α : Type)
  | returned (value : Option α)
  | systemError (ec : ErrorValue)
  | interrupted
  deriving DecidableEq, Repr

/-- The frame of a call, with the `async_result` and what its handler holds. -/
structure Frame (τ ν α : Type) where
  /-- `thread_` -/
  thread : τ
  /-- `out_ec_` -/
  outEc : Option ν
  /-- `ec_` and `value_`, which nothing initialises -/
  ec : ErrorValue := {}
  value : Option α := none
  stage : Stage α := .initiated
  /-- the thread has called `pause` -/
  paused : Bool := false
  outcome : Option (Outcome α) := none
  deriving DecidableEq, Repr

variable {τ ς δ ω κ ν α : Type} [DecidableEq τ] [DecidableEq ς] [DecidableEq δ] [DecidableEq ω]
    [DecidableEq κ] [DecidableEq ν]

structure State (τ ς ω κ ν α : Type) where
  threads : Scheduler.State τ ς ω
  /-- the calls made so far -/
  frames : κ → Option (Frame τ ν α)
  /-- the call a thread is in -/
  inside : τ → Option κ
  /-- the variables given to `yield[ec]` -/
  vars : ν → ErrorValue
  /-- `interrupt_requested_` -/
  requested : τ → Bool
  /-- `interrupt_disable_level_` -/
  disabled : τ → Int

namespace State

variable (s : State τ ς ω κ ν α)

def withThreads (x : Scheduler.State τ ς ω) : State τ ς ω κ ν α := { s with threads := x }

def withFrame (k : κ) (f : Frame τ ν α) :
    State τ ς ω κ ν α := { s with frames := Function.update s.frames k (some f) }

/-- The innermost body on the worker. -/
def body (w : ω) : Option τ := (s.threads.stack w).head?

/-- The call a thread is in, with its frame. -/
def call (t : τ) : Option (κ × Frame τ ν α) := (s.inside t).bind fun k =>
    (s.frames k).map fun f => (k, f)

/-- The handler and the `async_result` of a call are constructed, and the operation is initiated. -/
def initiate (t : τ) (k : κ) (out : Option ν) : State τ ς ω κ ν α :=
  { s.withFrame k { thread := t, outEc := out } with inside := Function.update s.inside t (some k) }

/-- `*ec_ = ec` -/
def writeError (k : κ) (f : Frame τ ν α) (c : Completion α) : State τ ς ω κ ν α :=
  match f.outEc with
  | none => s.withFrame k { f with ec := c.ec, stage := .errorWritten c }
  | some v =>
    { s.withFrame k { f with stage := .errorWritten c } with vars := Function.update s.vars v c.ec }

/-- `*value_ = t` -/
def writeValue (k : κ) (f : Frame τ ν α) (c : Completion α) : State τ ς ω κ ν α :=
  s.withFrame k { f with value := some c.given, stage := .valueWritten c }

/-- What `pause` finds when it goes on. -/
def interrupted (t : τ) : Bool := s.disabled t = 0 && s.requested t

/-- The rest of `get`, after the switch of its `pause`. -/
def getOutcome (t : τ) (f : Frame τ ν α) : Outcome α :=
  if s.interrupted t then .interrupted
  else if f.outEc.isNone && f.ec.isSet then .systemError f.ec
  else .returned f.value

/-- The call of `t` ends. -/
def leave (t : τ) (k : κ) (f : Frame τ ν α) : State τ ς ω κ ν α :=
  { s.withFrame k { f with outcome := some (s.getOutcome t f) } with
    inside := Function.update s.inside t none }

end State

inductive Label (τ ς ω κ ν α : Type)
  /-- a step of the threads outside of the calls -/
  | thread (l : Scheduler.Label τ ς ω)
  | initiate (w : ω) (k : κ) (out : Option ν)
  /-- the three statements of the handler; Asio invokes it with `c` -/
  | writesError (k : κ) (c : Completion α)
  | writesValue (k : κ)
  | activates (k : κ) (w : ω) (now : Bool)
  /-- the thread on the worker pauses in `get`, and ends its call -/
  | get (w : ω)
  | returns (w : ω)
  | interrupt (t : τ)
  | disable (t : τ) (level : Int)
  deriving DecidableEq, Repr

/-- A step that a thread does not make in a call. It may `yield` before it calls `get`. -/
def busy (s : State τ ς ω κ ν α) : Scheduler.Label τ ς ω → Bool
  | .register t => (s.inside t).isSome
  | .pause w | .finish w => (s.body w).any fun t => (s.inside t).isSome
  | .yield w => (s.body w).any fun t => (s.call t).any fun kf => kf.2.paused
  | _ => false

variable (P : Scheduler.Placement τ ς δ)

/-- The handler keeps the current thread; when `one_step` has taken it away, the thread that calls
`get` has none to pause. -/
def initiateStep (s : State τ ς ω κ ν α) (w : ω) (k : κ) (out : Option ν) :
    Option (State τ ς ω κ ν α) :=
  match s.body w with
  | some t =>
    if (s.inside t).isNone ∧ (s.frames k).isNone then
      if s.threads.current w = some t then
        (Scheduler.step P s.threads (.register t)).map fun x => (s.withThreads x).initiate t k out
      else some (s.withThreads (s.threads.fail .assertion))
    else none
  | none => none

/-- Asio invokes the handler of an operation once. -/
def writesErrorStep (s : State τ ς ω κ ν α) (k : κ) (c : Completion α) :
    Option (State τ ς ω κ ν α) :=
  match s.frames k with
  | some f =>
    match f.stage with
    | .initiated => some (s.writeError k f c)
    | _ => none
  | none => none

def writesValueStep (s : State τ ς ω κ ν α) (k : κ) : Option (State τ ς ω κ ν α) :=
  match s.frames k with
  | some f =>
    match f.stage with
    | .errorWritten c => some (s.writeValue k f c)
    | _ => none
  | none => none

/-- `thread_->activate()` -/
def activatesStep (s : State τ ς ω κ ν α) (k : κ) (w : ω) (now : Bool) :
    Option (State τ ς ω κ ν α) :=
  match s.frames k with
  | some f =>
    match f.stage with
    | .valueWritten c =>
      (Scheduler.step P s.threads (.activate w f.thread now)).map fun x =>
        (s.withThreads x).withFrame k { f with stage := .done c }
    | _ => none
  | none => none

def getStep (s : State τ ς ω κ ν α) (w : ω) : Option (State τ ς ω κ ν α) :=
  match (s.body w).bind s.call with
  | some (k, f) =>
    if f.paused then none
    else (Scheduler.step P s.threads (.pause w)).map fun x =>
      (s.withThreads x).withFrame k { f with paused := true }
  | none => none

def returnsStep (s : State τ ς ω κ ν α) (w : ω) : Option (State τ ς ω κ ν α) :=
  match s.body w with
  | some t =>
    match s.call t with
    | some (k, f) => if f.paused then some (s.leave t k f) else none
    | none => none
  | none => none

def step (s : State τ ς ω κ ν α) (l : Label τ ς ω κ ν α) : Option (State τ ς ω κ ν α) :=
  if s.threads.fault.isSome then none else
  match l with
  | .thread l => if busy s l then none else (Scheduler.step P s.threads l).map s.withThreads
  | .initiate w k out => initiateStep P s w k out
  | .writesError k c => writesErrorStep s k c
  | .writesValue k => writesValueStep s k
  | .activates k w now => activatesStep P s k w now
  | .get w => getStep P s w
  | .returns w => returnsStep s w
  | .interrupt t =>
    some { s with requested := Function.update s.requested t (s.requested t || s.disabled t = 0) }
  | .disable t level => some { s with disabled := Function.update s.disabled t level }

def initial : State τ ς ω κ ν α where
  threads := Scheduler.initial
  frames := fun _ => none
  inside := fun _ => none
  vars := fun _ => {}
  requested := fun _ => false
  disabled := fun _ => 0

def system : TransitionSystem (State τ ς ω κ ν α) (Label τ ς ω κ ν α) where
  init := fun s => s = initial
  step := step P

variable {P} {s s' : State τ ς ω κ ν α} {l : Label τ ς ω κ ν α}

/-! ### What one step can do -/

inductive Move (P : Scheduler.Placement τ ς δ) (s : State τ ς ω κ ν α) :
    Label τ ς ω κ ν α → State τ ς ω κ ν α → Prop
  | thread {l x} (hfree : busy s l = false) (hstep : Scheduler.step P s.threads l = some x) :
      Move P s (.thread l) (s.withThreads x)
  | initiates {w t k out x} (hbody : s.body w = some t) (houtside : s.inside t = none)
      (hnew : s.frames k = none)
      (hcurrent : s.threads.current w = some t)
      (hstep : Scheduler.step P s.threads (.register t) = some x) :
      Move P s (.initiate w k out) ((s.withThreads x).initiate t k out)
  | unknown {w t k out} (hbody : s.body w = some t) (hcurrent : s.threads.current w ≠ some t) :
      Move P s (.initiate w k out) (s.withThreads (s.threads.fail .assertion))
  | writesError {k f c} (hframe : s.frames k = some f) (hstage : f.stage = .initiated) :
      Move P s (.writesError k c) (s.writeError k f c)
  | writesValue {k f c} (hframe : s.frames k = some f) (hstage : f.stage = .errorWritten c) :
      Move P s (.writesValue k) (s.writeValue k f c)
  | activates {k f c w now x} (hframe : s.frames k = some f) (hstage : f.stage = .valueWritten c)
      (hstep : Scheduler.step P s.threads (.activate w f.thread now) = some x) :
      Move P s (.activates k w now) ((s.withThreads x).withFrame k { f with stage := .done c })
  | gets {w t k f x} (hbody : s.body w = some t) (hinside : s.inside t = some k)
      (hframe : s.frames k = some f)
      (hpaused : f.paused = false) (hstep : Scheduler.step P s.threads (.pause w) = some x) :
      Move P s (.get w) ((s.withThreads x).withFrame k { f with paused := true })
  | returns {w t k f} (hbody : s.body w = some t) (hinside : s.inside t = some k)
      (hframe : s.frames k = some f)
      (hpaused : f.paused = true) : Move P s (.returns w) (s.leave t k f)
  | interrupts {t} :
      Move P s
        (.interrupt t) { s with requested := Function.update s.requested t (s.requested t ||
        s.disabled t = 0) }
  | disables {t level} :
      Move P s (.disable t level) { s with disabled := Function.update s.disabled t level }

omit [DecidableEq τ] [DecidableEq ς] [DecidableEq ω] [DecidableEq κ] [DecidableEq ν] in
theorem call_eq {t : τ} {k : κ} {f : Frame τ ν α} :
    s.call t = some (k, f) ↔ s.inside t = some k ∧ s.frames k = some f := by
  unfold State.call
  constructor
  · intro hcall
    obtain ⟨k', hk', hf⟩ := Option.bind_eq_some_iff.mp hcall
    obtain ⟨f', hf', heq⟩ := Option.map_eq_some_iff.mp hf
    cases heq
    exact ⟨hk', hf'⟩
  · rintro ⟨hinside, hframe⟩
    rw [hinside, Option.bind_some, hframe, Option.map_some]

theorem initiate_move {w : ω} {k : κ} {out : Option ν}
    (hstep : initiateStep P s w k out = some s') :
    Move P s (.initiate w k out) s' := by
  unfold initiateStep at hstep
  split at hstep
  · next t hbody =>
    obtain ⟨⟨houtside, hnew⟩, hstep⟩ := Option.ite_none_right_eq_some.mp hstep
    rw [Option.isNone_iff_eq_none] at houtside hnew
    split at hstep
    · next hcurrent =>
      obtain ⟨x, hx, rfl⟩ := Option.map_eq_some_iff.mp hstep
      exact .initiates hbody houtside hnew hcurrent hx
    · next hcurrent =>
      cases hstep
      exact .unknown hbody hcurrent
  · cases hstep

theorem step_move (hstep : step P s l = some s') : s.threads.fault = none ∧ Move P s l s' := by
  unfold step at hstep
  obtain ⟨hfault, hstep⟩ := Option.ite_none_left_eq_some.mp hstep
  refine ⟨by simpa using hfault, ?_⟩
  cases l with
  | thread l =>
    obtain ⟨hbusy, hstep⟩ := Option.ite_none_left_eq_some.mp hstep
    obtain ⟨x, hx, rfl⟩ := Option.map_eq_some_iff.mp hstep
    exact .thread (Bool.eq_false_iff.mpr hbusy) hx
  | initiate w k out => exact initiate_move hstep
  | writesError k c =>
    simp only [writesErrorStep] at hstep
    split at hstep
    · next f hframe =>
      split at hstep
      · next hstage =>
        cases hstep
        exact .writesError hframe hstage
      · cases hstep
    · cases hstep
  | writesValue k =>
    simp only [writesValueStep] at hstep
    split at hstep
    · next f hframe =>
      split at hstep
      · next c hstage =>
        cases hstep
        exact .writesValue hframe hstage
      · cases hstep
    · cases hstep
  | activates k w now =>
    simp only [activatesStep] at hstep
    split at hstep
    · next f hframe =>
      split at hstep
      · next c hstage =>
        obtain ⟨x, hx, rfl⟩ := Option.map_eq_some_iff.mp hstep
        exact .activates hframe hstage hx
      · cases hstep
    · cases hstep
  | get w =>
    simp only [getStep] at hstep
    split at hstep
    · next k f hcall =>
      obtain ⟨t, hbody, hcall⟩ := Option.bind_eq_some_iff.mp hcall
      obtain ⟨hinside, hframe⟩ := call_eq.mp hcall
      obtain ⟨hpaused, hstep⟩ := Option.ite_none_left_eq_some.mp hstep
      obtain ⟨x, hx, rfl⟩ := Option.map_eq_some_iff.mp hstep
      exact .gets hbody hinside hframe (Bool.eq_false_iff.mpr hpaused) hx
    · cases hstep
  | returns w =>
    simp only [returnsStep] at hstep
    split at hstep
    · next t hbody =>
      split at hstep
      · next k f hcall =>
        obtain ⟨hinside, hframe⟩ := call_eq.mp hcall
        obtain ⟨hpaused, hstep⟩ := Option.ite_none_right_eq_some.mp hstep
        cases hstep
        exact .returns hbody hinside hframe hpaused
      · cases hstep
    · cases hstep
  | interrupt t =>
    cases hstep
    exact .interrupts
  | disable t level =>
    cases hstep
    exact .disables

end Asio

end GreenThread
