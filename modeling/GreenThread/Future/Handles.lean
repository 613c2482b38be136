import GreenThread.Library.RefCount
import Mathlib.Data.Fintype.Defs

/-!
# Promises, futures and their shared states

The members of `promise`, `future` and `shared_future`, and `then`, as statements on the `ptr_t`s
they hold. Any number of agents run them: threads, and the calls nested in a member function that is
running. Two operations on one object at the same time are a data race unless both only read it. The
waiter of a `then` belongs to it until the state has the callback.

`then` keeps a reference in the callback that it gives to the state itself, and the state never
drops its callbacks. `ready` is set while a promise is used, and decides whether a callback is kept
or called at once.
-/

namespace GreenThread

namespace Handles

/-- The members and locals of type `ptr_t`. -/
inductive Slot (ν ω α : Type)
  /-- `future_` of a promise -/
  | promise (p : ν)
  /-- `state_` of a future -/
  | future (x : ν)
  /-- `state_` of a shared future -/
  | shared (z : ν)
  /-- `src_` of the waiter of a `then` -/
  | src (w : ω)
  /-- `p_` of the waiter -/
  | cont (w : ω)
  /-- `tmp` of a member function -/
  | tmp (a : α)
  | tmpPromise (a : α)
  deriving DecidableEq, Repr

def Slot.isPromise {ν ω α : Type} : Slot ν ω α → Bool
  | promise _ | cont _ | tmpPromise _ => true
  | future _ | shared _ | src _ | tmp _ => false

/-- A variable of a future type. -/
inductive Handle (ν : Type)
  | future (x : ν)
  | shared (z : ν)
  deriving DecidableEq, Repr

def Handle.slot {ν ω α : Type} : Handle ν → Slot ν ω α
  | future x => .future x
  | shared z => .shared z

/-- A future is made from a future only. -/
def Handle.fits {ν : Type} : Handle ν → Handle ν → Bool
  | future _, shared _ => false
  | _, _ => true

inductive Op (ν ω O : Type)
  | makePromise (p : ν) (o : O)
  | movePromise (p q : ν)
  | assignPromise (p q : ν)
  | swapPromise (p q : ν)
  | destroyPromise (p : ν)
  | getFuture (p x : ν)
  /-- `set_value` and `set_exception` -/
  | setPromise (p : ν)
  | move (h h' : Handle ν)
  | assign (h h' : Handle ν)
  | swap (h h' : Handle ν)
  | destroy (h : Handle ν)
  | copy (z z' : ν)
  | assignCopy (z z' : ν)
  | share (x z : ν)
  | get (h : Handle ν)
  /-- `wait`, `wait_for` and `wait_until` -/
  | wait (h : Handle ν)
  /-- `then` up to the return of `add_external_waiter` -/
  | andThen (h : Handle ν) (w : ω) (o : O)
  /-- the rest of `then`, which destroys the waiter if the state did not keep the callback -/
  | result (w : ω) (x : ν) (kept : Bool)
  /-- the local `f` of `waiter::invoke` -/
  | invoke (w : ω) (h : Handle ν)
  /-- `set_promise_value` of the waiter -/
  | setContinuation (w : ω)
  deriving DecidableEq, Repr

inductive Error
  | futureAlreadyRetrieved
  | promiseUninitialized
  | futureUninitialized
  deriving DecidableEq, Repr

/-- How far a `then` has come with its waiter. -/
inductive Stage (α : Type)
  | fresh
  | attaching (a : α)
  /-- the state has the callback -/
  | stored (a : α)
  /-- the state was ready -/
  | called (a : α)
  | kept
  | gone
  deriving DecidableEq, Repr

/-- There is a callback to call. -/
def Stage.attached {α : Type} : Stage α → Bool
  | stored _ | called _ | kept => true
  | fresh | attaching _ | gone => false

variable {ν ω O α : Type} [DecidableEq ν] [DecidableEq ω] [DecidableEq O] [DecidableEq α]

structure State (ν ω O α : Type) where
  refs : RefCount.State (Slot ν ω α) O α
  /-- `obtained_` of the promises -/
  obtained : Slot ν ω α → Bool
  ready : O → Bool
  stage : ω → Stage α
  /-- the operation an agent has begun last -/
  op : α → Option (Op ν ω O)

inductive Label (ν ω O α : Type)
  | begin (a : α) (op : Op ν ω O)
  | go (a : α)
  /-- `ready_=true` -/
  | complete (a : α)
  /-- the test of `add_external_waiter` -/
  | attach (a : α)
  deriving DecidableEq, Repr

/-- What the destructor of a waiter runs. -/
def unhook (w : ω) : List (RefCount.Stmt (Slot ν ω α) O) :=
  [.use (.cont w), .drop (.cont w), .drop (.src w)]

namespace Op

/-- The statements of an operation of the agent. A reference that a function takes by value and
hands on is left out. -/
def code (a : α) : Op ν ω O → List (RefCount.Stmt (Slot ν ω α) O)
  | makePromise p o => [.make (.promise p) o]
  | movePromise p q | swapPromise p q => [.swap (.promise p) (.promise q)]
  | assignPromise p q =>
    [.swap (.tmpPromise a) (.promise q), .swap (.promise p) (.tmpPromise a), .use (.tmpPromise a),
      .drop (.tmpPromise a)]
  | destroyPromise p => [.use (.promise p), .drop (.promise p)]
  | getFuture p x => [.copy (.future x) (.promise p)]
  | setPromise p => [.use (.promise p)]
  | move h h' | swap h h' => [.swap h.slot h'.slot]
  | assign h h' => [.swap (.tmp a) h'.slot, .swap h.slot (.tmp a), .drop (.tmp a)]
  | destroy h => [.drop h.slot]
  | copy z z' => [.copy (.shared z) (.shared z')]
  | assignCopy z z' => [.copy (.tmp a) (.shared z'), .swap (.shared z) (.tmp a), .drop (.tmp a)]
  | share x z => [.swap (.shared z) (.future x)]
  | get (.future x) => [.swap (.tmp a) (.future x), .use (.tmp a), .drop (.tmp a)]
  | get (.shared z) => [.use (.shared z)]
  | wait h => [.use h.slot]
  | andThen h w o => [.copy (.src w) h.slot, .make (.cont w) o, .use h.slot]
  | result w x kept => .copy (.future x) (.cont w) :: if kept then [] else unhook w
  | invoke w h => [.copy h.slot (.src w)]
  | setContinuation w => [.use (.cont w)]

/-- The promises whose `obtained_` the operation sets. -/
def obtains : Op ν ω O → List (Slot ν ω α)
  | getFuture p _ => [.promise p]
  | result w _ _ => [.cont w]
  | _ => []

def reads (a : α) (op : Op ν ω O) : List (Slot ν ω α) := (op.code a).flatMap RefCount.Stmt.reads

def writes (a : α) (op : Op ν ω O) : List (Slot ν ω α) := (op.code a).flatMap RefCount.Stmt.writes

/-- The objects that the operation constructs. -/
def new : Op ν ω O → List (Slot ν ω α)
  | makePromise p _ | movePromise p _ => [.promise p]
  | getFuture _ x | result _ x _ => [.future x]
  | move h _ | invoke _ h => [h.slot]
  | copy z _ | share _ z => [.shared z]
  | _ => []

/-- `promise::get_future` -/
def retrieves (s : State ν ω O α) (r : Slot ν ω α) : Option Error :=
  if s.obtained r then some .futureAlreadyRetrieved
  else if s.refs.held r = none then some .promiseUninitialized
  else none

/-- The exception an operation throws before its first statement. -/
def throws (s : State ν ω O α) : Op ν ω O → Option Error
  | getFuture p _ => retrieves s (.promise p)
  | result w _ _ => retrieves s (.cont w)
  | setPromise p => if s.refs.held (.promise p) = none then some .promiseUninitialized else none
  | setContinuation w => if s.refs.held (.cont w) = none then some .promiseUninitialized else none
  | share x _ => if s.refs.held (.future x) = none then some .futureUninitialized else none
  | get h | wait h => if s.refs.held h.slot = none then some .futureUninitialized else none
  | _ => none

/-- What the types and the order of a `then` allow. -/
def allowed (s : State ν ω O α) (a : α) : Op ν ω O → Bool
  | move h h' | assign h h' => h.fits h'
  | andThen h w _ => s.refs.held h.slot ≠ none ∧ s.stage w = .fresh
  | result w _ kept => s.stage w = if kept then .stored a else .called a
  | invoke w _ =>
    (s.stage w).attached &&
      match s.refs.held (.src w) with
      | some o => s.ready o
      | none => false
  | setContinuation w => (s.stage w).attached
  | _ => true

/-- The stages of the waiters after the operation has begun. -/
def staged (a : α) (stage : ω → Stage α) : Op ν ω O → ω → Stage α
  | andThen _ w _ => Function.update stage w (.attaching a)
  | result w _ kept => Function.update stage w (if kept then .kept else .gone)
  | _ => stage

end Op

namespace State

variable (s : State ν ω O α)

def Busy (a : α) : Prop := s.refs.phase a ≠ .run []

/-- A promise carries its `obtained_` with it. -/
def carry (obtained : Slot ν ω α → Bool) : RefCount.Phase (Slot ν ω α) O → Slot ν ω α → Bool
  | .run (.make r _ :: _) => Function.update obtained r false
  | .run (.swap r r' :: _) => obtained ∘ Equiv.swap r r'
  | _ => obtained

/-- A call returns when it may: that of a promise once the state is ready, `get` when it has the
result, `add_external_waiter` after its test. -/
def mayReturn (a : α) : Bool :=
  match s.refs.phase a with
  | .inUse r _ =>
    match s.refs.held r with
    | some o =>
      match s.op a with
      | some (.get _) => s.ready o
      | some (.andThen _ w _) => s.stage w ≠ .attaching a
      | _ => !r.isPromise || s.ready o
    | none => false
  | _ => true

def begin (a : α) (op : Op ν ω O) : Option (State ν ω O α) :=
  if s.refs.phase a = .run [] ∧ op.allowed s a ∧ (∀ r ∈ op.new, s.refs.held r = none) then
    match op.throws s with
    | some _ => some s
    | none =>
      some { s with
        refs := s.refs.setPhase a (.run (op.code a))
        obtained := fun r => s.obtained r || decide (r ∈ op.obtains)
        stage := op.staged a s.stage
        op := Function.update s.op a (some op) }
  else none

/-- The agent has the statements of the operation to run. -/
def begun (a : α) (op : Op ν ω O) : State ν ω O α := { s with
  refs := s.refs.setPhase a (.run (op.code a))
  obtained := fun r => s.obtained r || decide (r ∈ op.obtains)
  stage := op.staged a s.stage
  op := Function.update s.op a (some op) }

def go (a : α) : Option (State ν ω O α) :=
  if s.mayReturn a then
    (s.refs.go a).map fun refs =>
      { s with refs := refs, obtained := carry s.obtained (s.refs.phase a) }
  else none

def complete (a : α) : Option (State ν ω O α) :=
  match s.refs.phase a with
  | .inUse r _ =>
    match s.refs.held r with
    | some o => if r.isPromise ∧ s.ready o = false
        then some { s with ready := Function.update s.ready o true } else none
    | none => none
  | _ => none

def attach (a : α) : Option (State ν ω O α) :=
  match s.refs.phase a, s.op a with
  | .inUse r [], some (.andThen _ w _) =>
    match s.refs.held r with
    | some o =>
      if s.stage w = .attaching a then
        if s.ready o then some { s with stage := Function.update s.stage w (.called a) }
        else (s.refs.adopt a (unhook w)).map fun refs =>
          { s with refs := refs, stage := Function.update s.stage w (.stored a) }
      else none
    | none => none
  | _, _ => none

def step : Label ν ω O α → Option (State ν ω O α)
  | .begin a op => s.begin a op
  | .go a => s.go a
  | .complete a => s.complete a
  | .attach a => s.attach a

/-- The slots that the operation an agent is in may still change. -/
def writes (a : α) : Op ν ω O → List (Slot ν ω α)
  | .andThen _ w _ => if s.stage w = .attaching a then [.src w, .cont w] else []
  | op => op.writes a

/-- The operation does not meet that of another agent on one object, or both only read it. -/
def Apart (a b : α) (op : Op ν ω O) : Prop :=
  ∀ op' ∈ s.op b, (∀ x ∈ op.writes a, x ∉ op'.reads b ∧ x ∉ s.writes b op') ∧
  (∀ x ∈ op.reads a, x ∉ s.writes b op') ∧
    ∀ x ∈ op.obtains, x ∉ (op'.obtains : List (Slot ν ω α))

/-- No operation begins on an object that another one is using, unless both only read it. -/
def RaceFree : Label ν ω O α → Prop
  | .begin a op => ∀ b, b ≠ a → s.Busy b → s.Apart a b op
  | _ => True

instance (a : α) : Decidable (s.Busy a) := inferInstanceAs (Decidable (_ ≠ _))

instance (a b : α) (op : Op ν ω O) : Decidable (s.Apart a b op) :=
  inferInstanceAs (Decidable (∀ _ ∈ s.op b, _))

instance [Fintype α] (l : Label ν ω O α) : Decidable (s.RaceFree l) :=
  match l with
  | .begin a op => inferInstanceAs (Decidable (∀ b, b ≠ a → s.Busy b → s.Apart a b op))
  | .go _ | .complete _ | .attach _ => inferInstanceAs (Decidable True)

/-- Nothing exists yet. -/
def empty : State ν ω O α :=
  ⟨.empty, fun _ => false, fun _ => false, fun _ => .fresh, fun _ => none⟩

end State

def system : TransitionSystem (State ν ω O α) (Label ν ω O α) where
  init := fun s => s = State.empty
  step := State.step

end Handles

end GreenThread
