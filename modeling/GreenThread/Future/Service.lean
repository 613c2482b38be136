import GreenThread.Future.Code
import GreenThread.Queue.Operations

/-!
# Threads that serve a queue

`async_executor` and `async_function` of `future/async.hpp` have the same shape: a call makes a task
with its future and pushes it into a queue, the loops `for(auto &e : queue)` of the serving threads
pop the tasks and call their functions, and the destructor closes the queue and joins the threads.
They differ in what happens to an exception of the function: a `packaged_task` catches it and passes
it to `set_exception`, and `async_function::call` does not.

The tasks are numbered in the order in which they are made. A function may make further calls; that
it returns or throws is decided by the task.
-/

namespace GreenThread

/-- The function returns. -/
def Future.Arg.isValue {V E : Type} : Future.Arg V E → Bool
  | .value _ => true
  | .exception _ => false

namespace Service

open Future (Content Exn Arg)

/-- Where a thread is. -/
inductive Pos (τ V E : Type)
  /-- in the code of the program, or in the function of the given task -/
  | code (task : Option Nat)
  /-- in the `push` of the task `id`, called from there -/
  | push (id : Nat) (task : Option Nat)
  /-- in the `close` of the destructor -/
  | close
  /-- before the `join` of each of these threads -/
  | join (rest : List τ)
  | destroyed
  /-- the destructor of a thread object has called `std::terminate` -/
  | terminated
  /-- in the `pop(value_)` of the iterator -/
  | pop (value : Option Nat)
  /-- after it, with `popped_` -/
  | next (value : Option Nat) (popped : Bool)
  /-- after the function has returned or thrown -/
  | finish (id : Nat) (r : Arg V E)
  /-- before the destructor of the iterator -/
  | leave (value : Option Nat) (threw : Bool)
  /-- the thread is over, and `uncaught_exception_` is set or not -/
  | ended (uncaught : Bool)
  deriving DecidableEq, Repr

structure Pool (τ A V E : Type) where
  /-- the threads that serve the queue -/
  workers : List τ
  capacity : Nat
  /-- an exception of a function is passed to `set_exception` -/
  catches : Bool
  /-- what the function of a task does -/
  fn : A → Arg V E

variable {τ A V E : Type}

structure State (τ A V E : Type) where
  queue : Queue.State Nat τ
  pos : τ → Pos τ V E
  tasks : List A
  /-- the shared states of the tasks -/
  content : Nat → Option (Content V E)

inductive Label (τ A : Type)
  /-- a step of a thread in the queue -/
  | queue (l : Queue.Label Nat τ)
  /-- a call with the given arguments -/
  | submit (t : τ) (a : A)
  /-- the destructor is called -/
  | destroy (t : τ)
  /-- any other step -/
  | go (t : τ)
  deriving DecidableEq, Repr

/-- The operation of the queue that the thread is in. -/
def Pos.op : Pos τ V E → Option (Queue.Op Nat)
  | .push id _ => some (.push id)
  | .close => some .close
  | .pop _ => some .pop
  | _ => none

def Pos.isEnded : Pos τ V E → Bool
  | .ended _ => true
  | _ => false

def Pos.uncaught : Pos τ V E → Bool
  | .ended uncaught => uncaught
  | _ => false

variable [DecidableEq τ]

namespace State

variable (s : State τ A V E)

def setPos (t : τ) (p : Pos τ V E) : State τ A V E := { s with pos := Function.update s.pos t p }

@[simp] theorem setPos_pos_self (t : τ) (p : Pos τ V E) :
    (s.setPos t p).pos t = p := Function.update_self ..

@[simp] theorem setPos_pos_ne {t u : τ} (hu : u ≠ t) (p : Pos τ V E) :
    (s.setPos t p).pos u = s.pos u :=
  Function.update_of_ne hu ..

/-- `owner_destroyed`: a shared state that is not ready gets `broken_promise`. -/
def drop (id : Nat) : State τ A V E :=
  { s with
    content := Function.update s.content id (some ((s.content id).getD (.except .brokenPromise))) }

/-- The task in an iterator's `value_` is destroyed, if there is one. -/
def dropValue (value : Option Nat) : State τ A V E := value.elim s s.drop

/-- The thread may take this step in the queue. -/
def permits : Queue.Label Nat τ → Bool
  | .act t (.begin op) => (s.pos t).op = some op
  | _ => true

end State

variable (P : Pool τ A V E)

/-- What it means for a thread that its operation of the queue has done what it does, or has
returned. -/
def follow (s : State τ A V E) (t : τ) (before after : Queue.Phase Nat) : State τ A V E :=
  match s.pos t, before, after with
  -- what was in `value_` is swapped into the queue and destroyed there
  | .pop value, .before _, .after _ (.popped id) => (s.dropValue value).setPos t (.pop (some id))
  | .pop value, .after _ r, .outside =>
    s.setPos t (.next value (match r with | .popped _ => true | _ => false))
  -- a task that was not pushed is still the caller's
  | .push id task, .after _ r, .outside =>
    (match r with | .bool true => s | _ => s.drop id).setPos t (.code task)
  | .close, .after _ _, .outside => s.setPos t (.join P.workers)
  | _, _, _ => s

/-- A step outside the queue. -/
def goStep (s : State τ A V E) (t : τ) : Option (State τ A V E) :=
  match s.pos t with
  | .next (some id) true => some (s.setPos t (.code (some id)))
  | .next value popped => some (s.setPos t (.leave value popped))
  | .code (some id) => s.tasks[id]?.map fun a => s.setPos t (.finish id (P.fn a))
  | .finish id r =>
    -- `set_value` and `set_exception` throw when the state is ready
    some (if (P.catches || r.isValue) && (s.content id).isNone then
      ({ s with content := Function.update s.content id (some r.content) }).setPos t
        (.pop (some id))
    else s.setPos t (.leave (some id) true))
  | .leave value threw => some ((s.dropValue value).setPos t (.ended threw))
  | .join (w :: rest) => if (s.pos w).isEnded then some (s.setPos t (.join rest)) else none
  | .join [] =>
    some (if P.workers.any fun w => (s.pos w).uncaught then s.setPos t .terminated
    -- what is still in the queue is destroyed with it
    else (s.queue.shared.queue.foldl State.drop s).setPos t .destroyed)
  | _ => none

def step (s : State τ A V E) : Label τ A → Option (State τ A V E)
  | .queue l =>
    if s.permits l then
      (Machine.step (Queue.client P.capacity) (fun _ => true) s.queue l).map fun queue =>
        follow P { s with queue := queue } l.thread (Queue.phase s.queue l.thread)
          (Queue.phase queue l.thread)
    else none
  | .submit t a =>
    match s.pos t with
    | .code task => some ({ s with tasks := s.tasks ++ [a] }.setPos t (.push s.tasks.length task))
    | _ => none
  | .destroy t =>
    match s.pos t with
    | .code none => some (s.setPos t .close)
    | _ => none
  | .go t => goStep P s t

def initial : State τ A V E where
  queue := Machine.initial (fun _ => .idle) ⟨true, []⟩
  pos := fun t => if t ∈ P.workers then .pop none else .code none
  tasks := []
  content := fun _ => none

/-! ### What has happened to the tasks -/

/-- Where a task is. -/
inductive Stage (τ : Type)
  | unmade
  | made (t : τ)
  | queued
  | held (t : τ)
  | running (t : τ)
  | finished
  deriving DecidableEq, Repr

structure Log (τ : Type) where
  /-- who made each task -/
  caller : Nat → Option τ
  /-- the tasks in the order in which they entered the queue -/
  pushed : List Nat
  /-- the calls of their functions, each with the thread that made it -/
  served : List (τ × Nat)
  stage : Nat → Stage τ

def Log.empty : Log τ := ⟨fun _ => none, [], [], fun _ => .unmade⟩

def Log.setStage (h : Log τ) (id : Nat) (x : Stage τ) :
    Log τ := { h with stage := Function.update h.stage id x }

/-- What `follow` means for the tasks. -/
def Log.follow (h : Log τ) (p : Pos τ V E) (t : τ) (before after : Queue.Phase Nat) : Log τ :=
  match p, before, after with
  | .push id _, .before _, .after _ (.bool true) =>
    { h with pushed := h.pushed ++ [id] }.setStage id .queued
  | .pop _, .before _, .after _ (.popped id) => h.setStage id (.held t)
  | _, _, _ => h

omit [DecidableEq τ] in
@[simp] theorem Log.setStage_self (h : Log τ) (id : Nat) (x : Stage τ) :
    (h.setStage id x).stage id = x := Function.update_self ..

omit [DecidableEq τ] in
@[simp] theorem Log.setStage_ne (h : Log τ) {id j : Nat} (hj : j ≠ id) (x : Stage τ) :
    (h.setStage id x).stage j = h.stage j :=
  Function.update_of_ne hj ..

def record (h : Log τ) (s : State τ A V E) (l : Label τ A) (s' : State τ A V E) : Log τ :=
  match l with
  | .queue l => h.follow (s.pos l.thread) l.thread (Queue.phase s.queue l.thread)
      (Queue.phase s'.queue l.thread)
  | .submit t _ => { h with caller := Function.update h.caller s.tasks.length (some t) }.setStage
      s.tasks.length (.made t)
  | .go t =>
    match s.pos t with
    | .next (some id) true => { h with served := h.served ++ [(t, id)] }.setStage id (.running t)
    | .finish id _ => h.setStage id .finished
    | _ => h
  | .destroy _ => h

def system : TransitionSystem (State τ A V E) (Label τ A) where
  init := fun s => s = initial P
  step := step P

/-- The runs with what has happened to the tasks. -/
def logged : TransitionSystem (State τ A V E × Log τ) (Label τ A) :=
  (system P).withHistory .empty record

/-! ### The runs that are considered -/

def Pos.destroying : Pos τ V E → Bool
  | .close | .join _ | .destroyed | .terminated => true
  | _ => false

def Pos.pushing : Pos τ V E → Bool
  | .push _ _ => true
  | _ => false

/-- The object is used as objects are: nothing is called once the destructor is, and the destructor
is called when no call is in progress. -/
def properly (s : State τ A V E) : Label τ A → Prop
  | .submit _ _ => ∀ u, (s.pos u).destroying = false
  | .destroy _ => ∀ u, (s.pos u).destroying = false ∧ (s.pos u).pushing = false
  | _ => True

/-- The task whose function the thread is in. -/
def State.calling (s : State τ A V E) (t : τ) : Option A :=
  match s.pos t with
  | .code (some id) => s.tasks[id]?
  | _ => none

/-- The function that the step runs returns, or its exception is caught. -/
def completes (s : State τ A V E) : Label τ A → Prop
  | .go t => (s.calling t).all fun a => P.catches || (P.fn a).isValue
  | _ => True

instance [Fintype τ] (s : State τ A V E) (l : Label τ A) : Decidable (properly s l) :=
  match l with
  | .submit _ _ => inferInstanceAs (Decidable (∀ u, (s.pos u).destroying = false))
  | .destroy _ =>
    inferInstanceAs (Decidable (∀ u, (s.pos u).destroying = false ∧ (s.pos u).pushing = false))
  | .queue _ | .go _ => inferInstanceAs (Decidable True)

instance (s : State τ A V E) (l : Label τ A) : Decidable (completes P s l) :=
  match l with
  | .go t =>
    inferInstanceAs (Decidable ((s.calling t).all (fun a => P.catches || (P.fn a).isValue) = true))
  | .queue _ | .submit _ _ | .destroy _ => inferInstanceAs (Decidable True)

/-- Nothing is left to do but to make calls and to destroy the object. -/
def Quiet (s : State τ A V E) : Prop := ∀ l, (∀ t a, l ≠ .submit t a) → (∀ t, l ≠ .destroy t) →
    step P s l = none

end Service

end GreenThread
