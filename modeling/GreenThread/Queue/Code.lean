import GreenThread.Machine.Guarded

/-!
# The concurrent queue

`basic_concurrent_queue` of `concurrent_queue.hpp` as a client of `the_mutex_`, `full_cv_` and
`empty_cv_`. A position is a statement of one of its operations; each read or write of `opened_` and
`the_queue_` is a step of its own, and each call of a primitive is a call of the client. Durations
and deadlines are not modelled: the timer of a timed wait may expire at any time.
-/

namespace GreenThread

namespace Queue

/-- The operations, with the elements they are given. -/
inductive Op (V : Type)
  | open_
  | close
  | push (v : V)
  | pushSome (vs : List V)
  | pushAll (vs : List V)
  | tryPush (v : V)
  | tryPushFor (v : V)
  | tryPushUntil (v : V)
  | pop
  | tryPop
  | tryPopFor
  | tryPopUntil
  deriving DecidableEq, Repr

/-- `push_back` calls `push` and drops its result. -/
def Op.pushBack {V : Type} (v : V) : Op V := .push v

/-- What an operation gives back. For `push_some` it is what the returned iterator has still before
it. -/
inductive Result (V : Type)
  | done
  | bool (b : Bool)
  | popped (v : V)
  | rest (vs : List V)
  deriving DecidableEq, Repr

/-- `full_cv_` and `empty_cv_`. -/
inductive Cv
  | full
  | empty
  deriving DecidableEq, Repr

/-- `opened_` and `the_queue_`. -/
structure Data (V : Type) where
  opened : Bool
  queue : List V
  deriving DecidableEq, Repr

/-- Where a thread is; from `enter` to `leave` it owns `the_mutex_`. -/
inductive Pos (V : Type)
  | idle
  /-- before the constructor of `lock` -/
  | lock (op : Op V)
  /-- before the first statement after it -/
  | enter (op : Op V)
  /-- before the condition of the `while` -/
  | loop (op : Op V) (ret : CvStatus)
  /-- before the `wait`, `wait_for` or `wait_until` in the `while` -/
  | wait (op : Op V)
  /-- after the `while` -/
  | recheck (op : Op V) (ret : CvStatus)
  /-- before the check of `try_push` for a full and of `try_pop` for an empty queue -/
  | test (op : Op V)
  /-- before the condition of the loop of `push_some` and `push_all`, at the elements `rest` -/
  | more (op : Op V) (rest : List V)
  /-- before `the_queue_.push` -/
  | insert (op : Op V) (v : V) (rest : List V)
  /-- before `empty_cv_.notify_one()` -/
  | inserted (op : Op V) (rest : List V)
  /-- before `std::swap` and `the_queue_.pop()` -/
  | take (op : Op V)
  /-- before `full_cv_.notify_one()` -/
  | taken (op : Op V) (v : V)
  /-- before a `notify_all` of `close` -/
  | closing (c : Cv)
  /-- before the destructor of `lock` -/
  | leave (op : Op V) (r : Result V)
  /-- after `front()` of an empty queue -/
  | undefined
  /-- a primitive threw -/
  | failed
  deriving DecidableEq, Repr

variable {V : Type}

/-- The condition variable that the operation waits on, and whether with a timer. -/
def Op.waits : Op V → Option (Cv × Bool)
  | .push _ => some (.full, false)
  | .tryPushFor _ | .tryPushUntil _ => some (.full, true)
  | .pop => some (.empty, false)
  | .tryPopFor | .tryPopUntil => some (.empty, true)
  | _ => none

/-- The element that the operation pushes after its `while`. -/
def Op.element : Op V → Option V
  | .push v | .tryPushFor v | .tryPushUntil v => some v
  | _ => none

/-- The first statement under the lock. -/
def Op.enter (d : Data V) (op : Op V) : Pos V × Data V :=
  match op with
  | .open_ => (.leave op (.bool true), { d with opened := true })
  | .close => (.closing .full, { d with opened := false })
  | .push _ | .tryPushFor _ | .tryPushUntil _ =>
    (if d.opened then .loop op .noTimeout else .leave op (.bool false), d)
  | .tryPush _ => (if d.opened then .test op else .leave op (.bool false), d)
  | .pushSome vs => (if d.opened then .more op vs else .leave op (.rest vs), d)
  | .pushAll vs => (if d.opened then .more op vs else .leave op (.bool false), d)
  | .pop | .tryPopFor | .tryPopUntil => (.loop op .noTimeout, d)
  | .tryPop => (.test op, d)

/-- The condition of the `while`. -/
def Op.blocked (capacity : Nat) (d : Data V) (op : Op V) : Bool :=
  match op.waits with
  | some (.full, _) => d.queue.length ≥ capacity ∧ d.opened
  | some (.empty, _) => d.queue = [] ∧ d.opened
  | none => false

/-- The statements between the `while` and the push or the pop. The untimed operations do not look
at `ret`. -/
def Op.recheck (d : Data V) (ret : CvStatus) (op : Op V) : Pos V :=
  let timedOut := op.waits.elim false (·.2) ∧ ret = .timeout
  match op.element with
  | some v => if !d.opened ∨ timedOut then .leave op (.bool false) else .insert op v []
  | none => if d.queue = [] ∨ timedOut then .leave op (.bool false) else .take op

/-- The check of the operations that do not wait. -/
def Op.test (capacity : Nat) (d : Data V) (op : Op V) : Pos V :=
  match op with
  | .tryPush v => if d.queue.length ≥ capacity then .leave op (.bool false) else .insert op v []
  | _ => if d.queue = [] then .leave op (.bool false) else .take op

/-- The condition of the loop over the elements. Only `push_some` looks at the capacity. -/
def Op.more (capacity : Nat) (d : Data V) (op : Op V) : List V → Pos V
  | [] => .leave op (match op with | .pushSome _ => .rest [] | _ => .bool true)
  | v :: rest =>
    match op with
    | .pushSome _ => if d.queue.length < capacity then .insert op v rest
        else .leave op (.rest (v :: rest))
    | _ => .insert op v rest

/-- What follows `empty_cv_.notify_one()`. -/
def Op.afterInsert (op : Op V) (rest : List V) : Pos V :=
  match op with
  | .pushSome _ | .pushAll _ => .more op rest
  | _ => .leave op (.bool true)

/-- A statement that calls no primitive. -/
def Pos.go (capacity : Nat) (d : Data V) : Pos V → Option (Pos V × Data V)
  | .enter op => some (op.enter d)
  | .loop op ret => some (if op.blocked capacity d then .wait op else .recheck op ret, d)
  | .recheck op ret => some (op.recheck d ret, d)
  | .test op => some (op.test capacity d, d)
  | .more op rest => some (op.more capacity d rest, d)
  | .insert op v rest => some (.inserted op rest, { d with queue := d.queue ++ [v] })
  | .take op =>
    match d.queue with
    | [] => some (.undefined, d)
    | v :: queue => some (.taken op v, { d with queue := queue })
  | _ => none

def Pos.call : Pos V → Option (Call Unit Cv)
  | .lock _ => some (.lock ())
  | .wait op => op.waits.map fun (c, timed) => if timed then .waitRel c () else .wait c ()
  | .inserted _ _ => some (.notifyOne .empty)
  | .taken _ _ => some (.notifyOne .full)
  | .closing c => some (.notifyAll c)
  | .leave _ _ => some (.unlock ())
  | _ => none

def Pos.ret : Pos V → Ret → Pos V
  | _, .threw _ => .failed
  | .lock op, _ => .enter op
  | .wait op, .status ret => .loop op ret
  | .wait op, _ => .loop op .noTimeout
  | .inserted op rest, _ => op.afterInsert rest
  | .taken op v, _ => .leave op (.popped v)
  | .closing .full, _ => .closing .empty
  | .closing .empty, _ => .leave .close .done
  | _, _ => .idle

/-- A step of a thread outside the primitives: it begins an operation, or takes the next
statement. -/
inductive Act (V : Type)
  | begin (op : Op V)
  | go
  deriving DecidableEq, Repr

variable {τ : Type}

def client (capacity : Nat) : Client τ Unit Cv (Pos V) (Data V) (Act V) where
  call := Pos.call
  ret := Pos.ret
  act := fun _ p d o =>
    match p, o with
    | .idle, .begin op => some (.lock op, d)
    | _, .begin _ => none
    | p, .go => p.go capacity d

abbrev State (V τ : Type) := Machine.State τ Unit Cv (Pos V) (Data V)

abbrev Label (V τ : Type) := Machine.Label τ (Act V)

section

variable [DecidableEq τ]

/-- The threads of one queue, all green. -/
abbrev system (capacity : Nat) (autoOpen : Bool) : TransitionSystem (State V τ) (Label V τ) :=
  Machine.system (client capacity) (fun _ => true) (fun _ => .idle) ⟨autoOpen, []⟩

end

end Queue

end GreenThread
