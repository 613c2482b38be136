import GreenThread.Machine.Discipline

/-!
# Promises, futures and their shared state

`shared_state` of `future/detail/shared_state.hpp` and `promise` of `future/promise.hpp`, as a
client of the mutexes `mtx_` and the condition variables `waiters_` of the shared states. A thread
is in its own code, in a continuation that a shared state runs, or in an operation of the library; a
continuation is code like any other and may call the library again, so that operations nest. Every
read and write of `ready_` and every access to `ext_waiters_` is a step of its own.

Shared states are numbered in the order of their construction and promises have names. A shared
state is kept when nothing refers to it any more.
-/

namespace GreenThread

namespace Future

/-- A stored exception: one of the program's own, or `broken_promise`. -/
inductive Exn (E : Type)
  | own (e : E)
  | brokenPromise
  deriving DecidableEq, Repr

/-- What a shared state holds when it is ready. -/
inductive Content (V E : Type)
  | value (v : V)
  | except (x : Exn E)
  deriving DecidableEq, Repr

/-- The argument of a `set_value` or a `set_exception`. -/
inductive Arg (V E : Type)
  | value (v : V)
  | exception (e : E)
  deriving DecidableEq, Repr

def Arg.content {V E : Type} : Arg V E → Content V E
  | .value v => .value v
  | .exception e => .except (.own e)

/-- A function passed to `add_external_waiter` of a shared state. -/
structure Waiter where
  state : Nat
  id : Nat
  deriving DecidableEq, Repr

structure SharedState (V E : Type) where
  ready : Bool
  value : Option V
  except : Option (Exn E)
  extWaiters : List Waiter

structure Promise where
  obtained : Bool
  future : Option Nat
  deriving DecidableEq, Repr

/-- The promise a move constructor starts from. -/
def Promise.null : Promise := ⟨false, none⟩

structure Store (V E π : Type) where
  state : Nat → SharedState V E
  /-- the promises that are constructed and not yet destroyed -/
  promise : π → Option Promise
  nextState : Nat
  nextWaiter : Nat

/-- What runs a continuation: the loop of `mark_ready_and_notify_` at its `i`-th of `n` waiters, or
`add_external_waiter`. -/
inductive Caller
  | loop (k i n : Nat)
  | add
  deriving DecidableEq, Repr

/-- The code of the program a thread is in: its own, or that of a continuation. -/
inductive Code
  | main
  | continuation (w : Waiter) (caller : Caller) (below : Code)
  deriving DecidableEq, Repr

/-- Where a thread is in an operation of the library on the shared state `k`. -/
inductive Frame (V E : Type)
  /-- `set_value` and `set_exception`: before the lock -/
  | setLock (k : Nat) (x : Content V E)
  /-- before the check of `ready_` -/
  | setCheck (k : Nat) (x : Content V E)
  /-- before the write of `value_` or `except_` -/
  | setStore (k : Nat) (x : Content V E)
  /-- `mark_ready_and_notify_`: before the write of `ready_` -/
  | setReady (k : Nat) (x : Content V E)
  | setNotify (k : Nat)
  /-- before the read of the bounds of `ext_waiters_` -/
  | setBounds (k : Nat)
  | setLoop (k i n : Nat)
  | setUnlock (k i n : Nat)
  | setRun (k i n : Nat)
  | setRelock (k i n : Nat)
  /-- before the unlock; `threw` tells that `promise_already_satisfied` is thrown -/
  | setEnd (k : Nat) (threw : Bool)
  /-- `owner_destroyed` -/
  | dropLock (k : Nat)
  | dropCheck (k : Nat)
  /-- `add_external_waiter` -/
  | addLock (w : Waiter)
  | addCheck (w : Waiter)
  | addPush (w : Waiter)
  | addUnlock (w : Waiter)
  | addRun (w : Waiter)
  | addRelock (w : Waiter)
  | addEnd (w : Waiter)
  /-- `get` and `wait`, which does not read the content -/
  | getLock (k : Nat) (read : Bool)
  | getCheck (k : Nat) (read : Bool)
  | getWait (k : Nat) (read : Bool)
  | getRead (k : Nat)
  | getEnd (k : Nat) (result : Option (Content V E))
  deriving DecidableEq, Repr

inductive Pos (V E : Type)
  | code (c : Code)
  | op (f : Frame V E) (c : Code)
  /-- an exception of a mutex left the library -/
  | failed
  deriving DecidableEq, Repr

/-- What the code of the program does next. -/
inductive Op (V E π : Type)
  /-- the next step of the operation the thread is in -/
  | go
  /-- the continuation returns -/
  | finish
  | set (k : Nat) (x : Arg V E)
  | ownerDestroyed (k : Nat)
  | addWaiter (k : Nat)
  | get (k : Nat) (read : Bool)
  | construct (p : π)
  | moveConstruct (p other : π)
  | moveAssign (p other : π)
  | swap (p other : π)
  | getFuture (p : π)
  | setPromise (p : π) (x : Arg V E)
  | destroy (p : π)
  deriving DecidableEq, Repr

variable {V E π τ : Type} [DecidableEq π] [DecidableEq τ]

/-! ### The calls of the primitives -/

def Frame.call : Frame V E → Option (Call Nat Nat)
  | .setLock k _ | .setRelock k _ _ | .dropLock k | .getLock k _ => some (.lock k)
  | .addLock w | .addRelock w => some (.lock w.state)
  | .setUnlock k _ _ | .setEnd k _ | .getEnd k _ => some (.unlock k)
  | .addUnlock w | .addEnd w => some (.unlock w.state)
  | .setNotify k => some (.notifyAll k)
  | .getWait k _ => some (.wait k k)
  | _ => none

/-- Where a call of a primitive returns to. -/
def Frame.ret (c : Code) : Frame V E → Pos V E
  | .setLock k x => .op (.setCheck k x) c
  | .setNotify k => .op (.setBounds k) c
  | .setUnlock k i n => .op (.setRun k i n) c
  | .setRelock k i n => .op (.setLoop k (i + 1) n) c
  | .dropLock k => .op (.dropCheck k) c
  | .addLock w => .op (.addCheck w) c
  | .addUnlock w => .op (.addRun w) c
  | .addRelock w => .op (.addEnd w) c
  | .getLock k read | .getWait k read => .op (.getCheck k read) c
  | _ => .code c

/-! ### The steps of the library -/

namespace Store

variable (s : Store V E π)

def setState (k : Nat) (x : SharedState V E) : Store V E π :=
  { s with state := Function.update s.state k x }

def setPromise (p : π) (x : Option Promise) : Store V E π :=
  { s with promise := Function.update s.promise p x }

end Store

/-- The write of `value_` or `except_`. -/
def SharedState.store (x : SharedState V E) : Content V E → SharedState V E
  | .value v => { x with value := some v }
  | .except e => { x with except := some e }

/-- What `get_` finds: it rethrows `except_` when there is one and else reads `value_`. -/
def SharedState.content (x : SharedState V E) : Option (Content V E) :=
  match x.except with
  | some e => some (.except e)
  | none => x.value.map .value

def Frame.go (s : Store V E π) (c : Code) : Frame V E → Option (Pos V E × Store V E π)
  | .setCheck k x => some (.op (if (s.state k).ready then .setEnd k true else .setStore k x) c, s)
  | .setStore k x => some (.op (.setReady k x) c, s.setState k ((s.state k).store x))
  | .setReady k _ => some (.op (.setNotify k) c, s.setState k { s.state k with ready := true })
  | .setBounds k => some (.op (.setLoop k 0 (s.state k).extWaiters.length) c, s)
  | .setLoop k i n => some (.op (if i < n then .setUnlock k i n else .setEnd k false) c, s)
  | .setRun k i n => (s.state k).extWaiters[i]?.map fun w =>
    (.code (.continuation w (.loop k i n) c), s)
  | .dropCheck k =>
    some (.op (if (s.state k).ready then .setEnd k false
      else .setCheck k (.except .brokenPromise)) c, s)
  | .addCheck w => some (.op (if (s.state w.state).ready then .addUnlock w else .addPush w) c, s)
  | .addPush w =>
    some (.op (.addEnd w) c,
      s.setState w.state { s.state w.state with extWaiters := (s.state w.state).extWaiters ++ [w] })
  | .addRun w => some (.code (.continuation w .add c), s)
  | .getCheck k read =>
    some (.op (if (s.state k).ready then if read then .getRead k else .getEnd k none
      else .getWait k read) c, s)
  | .getRead k => (s.state k).content.map fun x => (.op (.getEnd k (some x)) c, s)
  | _ => none

/-- The continuation returns to the destructor of the `relock_guard`. -/
def Code.finish : Code → Option (Pos V E)
  | .main => none
  | .continuation _ (.loop k i n) below => some (.op (.setRelock k i n) below)
  | .continuation w .add below => some (.op (.addRelock w) below)

/-- The destructor of a promise that holds `future`. -/
def abandon (c : Code) : Option Nat → Pos V E
  | some k => .op (.dropLock k) c
  | none => .code c

/-- The code of the program begins an operation. -/
def start (s : Store V E π) (c : Code) : Op V E π → Option (Pos V E × Store V E π)
  | .go => none
  | .finish => c.finish.map fun p => (p, s)
  | .set k x => if k < s.nextState then some (.op (.setLock k x.content) c, s) else none
  | .ownerDestroyed k => if k < s.nextState then some (.op (.dropLock k) c, s) else none
  | .addWaiter k =>
    if k < s.nextState then
      some (.op (.addLock ⟨k, s.nextWaiter⟩) c, { s with nextWaiter := s.nextWaiter + 1 })
    else none
  | .get k read => if k < s.nextState then some (.op (.getLock k read) c, s) else none
  | .construct p =>
    match s.promise p with
    | some _ => none
    | none =>
      some (.code c, { s.setPromise p (some ⟨false, some s.nextState⟩) with
        nextState := s.nextState + 1 })
  | .moveConstruct p other =>
    match s.promise p, s.promise other with
    | none, some x => some (.code c, (s.setPromise p (some x)).setPromise other (some .null))
    | _, _ => none
  | .moveAssign p other =>
    match s.promise p, s.promise other with
    | some _, some tmp =>
      -- `tmp` is move constructed from `other`, swapped with `*this`, and destroyed
      let moved := s.setPromise other (some .null)
      match moved.promise p with
      | some old => some (abandon c old.future, moved.setPromise p (some tmp))
      | none => none
    | _, _ => none
  | .swap p other =>
    match s.promise p, s.promise other with
    | some x, some y => some (.code c, (s.setPromise p (some y)).setPromise other (some x))
    | _, _ => none
  | .getFuture p =>
    match s.promise p with
    | none => none
    | some x =>
      -- `future_already_retrieved` or `promise_uninitialized`
      -- is thrown when there is nothing to give
      if x.obtained ∨ x.future = none then some (.code c, s)
      else some (.code c, s.setPromise p (some { x with obtained := true }))
  | .setPromise p x =>
    match s.promise p with
    | none => none
    | some ⟨_, none⟩ => some (.code c, s)
    | some ⟨_, some k⟩ => some (.op (.setLock k x.content) c, s)
  | .destroy p =>
    match s.promise p with
    | none => none
    | some x => some (abandon c x.future, s.setPromise p none)

/-- The library as a client of the primitives, for programs whose threads begin only operations
`may` allows. -/
def client (may : τ → Op V E π → Bool) : Client τ Nat Nat (Pos V E) (Store V E π) (Op V E π) where
  call
    | .op f _ => f.call
    | _ => none
  ret
    | .op _ _, .threw _ => .failed
    | .op f c, _ => f.ret c
    | p, _ => p
  act := fun t p s o =>
    match p, o with
    | .code c, _ => if may t o then start s c o else none
    | .op f c, .go => f.go s c
    | _, _ => none

abbrev State (V E π τ : Type) := Machine.State τ Nat Nat (Pos V E) (Store V E π)

abbrev Label (V E π τ : Type) := Machine.Label τ (Op V E π)

/-- No shared state, no promise. -/
def Store.empty : Store V E π where
  state := fun _ => ⟨false, none, none, []⟩
  promise := fun _ => none
  nextState := 0
  nextWaiter := 0

/-! ### The lock discipline -/

/-- The mutex a thread holds at a frame. -/
def Frame.holds : Frame V E → Option Nat
  | .setCheck k _ | .setStore k _ | .setReady k _ | .setNotify k | .setBounds k | .setLoop k _ _
  | .setUnlock k _ _ | .setEnd k _ | .dropCheck k | .getCheck k _ | .getWait k _ | .getRead k
  | .getEnd k _ => some k
  | .addCheck w | .addPush w | .addUnlock w | .addEnd w => some w.state
  | .setLock _ _ | .setRun _ _ _ | .setRelock _ _ _ | .dropLock _ | .addLock _ | .addRun _
  | .addRelock _
  | .getLock _ _ => none

def Pos.holds : Pos V E → Nat → Prop
  | .op f _, k => f.holds = some k
  | _, _ => False

variable {may : τ → Op V E π → Bool}

theorem Code.finish_holds {c : Code} {p : Pos V E} {k : Nat} (hfinish : c.finish = some p) :
    ¬ p.holds k := by
  cases c with
  | main => cases hfinish
  | continuation w caller below => cases caller <;> cases hfinish <;> simp [Pos.holds, Frame.holds]

theorem abandon_holds (c : Code) (future : Option Nat) (k : Nat) :
    ¬ (abandon c future : Pos V E).holds k := by
  cases future <;> simp [abandon, Pos.holds, Frame.holds]

theorem start_holds {s : Store V E π} {c : Code} {o : Op V E π} {p : Pos V E}
    {s' : Store V E π} {k : Nat} (hstart : start s c o = some (p, s')) : ¬ p.holds k := by
  cases o with
  | go => cases hstart
  | finish =>
    obtain ⟨p', hfinish, heq⟩ := Option.map_eq_some_iff.mp hstart
    cases heq
    exact Code.finish_holds hfinish
  | set | ownerDestroyed | addWaiter | get =>
    simp only [start, Option.ite_none_right_eq_some, Option.some.injEq, Prod.mk.injEq] at hstart
    obtain ⟨-, rfl, -⟩ := hstart
    simp [Pos.holds, Frame.holds]
  | construct p | moveConstruct p other | swap p other =>
    simp only [start] at hstart
    split at hstart <;> cases hstart
    simp [Pos.holds]
  | moveAssign p other =>
    simp only [start] at hstart
    split at hstart
    · split at hstart <;> cases hstart
      exact abandon_holds _ _ _
    · cases hstart
  | getFuture p =>
    simp only [start] at hstart
    split at hstart
    · cases hstart
    · split at hstart <;> cases hstart <;> simp [Pos.holds]
  | setPromise p x =>
    simp only [start] at hstart
    split at hstart <;> cases hstart <;> simp [Pos.holds, Frame.holds]
  | destroy p =>
    simp only [start] at hstart
    split at hstart <;> cases hstart
    exact abandon_holds _ _ _

omit [DecidableEq π] in
theorem go_holds {s : Store V E π} {c : Code} {f : Frame V E} {p : Pos V E}
    {s' : Store V E π} {k : Nat}
    (hgo : f.go s c = some (p, s')) : p.holds k ↔ f.holds = some k := by
  cases f with
  | setCheck | setLoop | dropCheck | addCheck =>
    cases hgo
    split <;> rfl
  | setStore | setReady | setBounds | addPush =>
    cases hgo
    rfl
  | setRun | getRead =>
    obtain ⟨x, -, heq⟩ := Option.map_eq_some_iff.mp hgo
    cases heq
    simp [Pos.holds, Frame.holds]
  | addRun =>
    cases hgo
    simp [Pos.holds, Frame.holds]
  | getCheck k read =>
    cases hgo
    split <;> [split; skip] <;> rfl
  | _ => cases hgo

omit [DecidableEq τ] in
theorem act_holds {t : τ} {p p' : Pos V E} {s s' : Store V E π} {o : Op V E π} {k : Nat}
    (hact : (client may).act t p s o = some (p', s')) : p'.holds k ↔ p.holds k := by
  simp only [client] at hact
  split at hact
  · simp only [Option.ite_none_right_eq_some] at hact
    exact ⟨fun h => absurd h (start_holds hact.2), fun h => h.elim⟩
  · exact go_holds hact
  · cases hact

theorem ret_holds {f : Frame V E} {c : Code} {call : Call Nat Nat} {k : Nat}
    (hcall : f.call = some call) :
    (f.ret c).holds k ↔ call = .lock k ∨ (f.holds = some k ∧ call ≠ .unlock k) := by
  cases f <;> cases hcall <;> simp [Frame.ret, Pos.holds, Frame.holds]

omit [DecidableEq τ] in
theorem call_of_client {p : Pos V E} {call : Call Nat Nat}
    (hcall : (client (π := π) may).call p = some call) :
    ∃ f c, p = .op f c ∧ f.call = some call := by
  cases p with
  | op f c => exact ⟨f, c, rfl, hcall⟩
  | _ => cases hcall

omit [DecidableEq τ] in
theorem client_ret (f : Frame V E) (c : Code) {r : Ret} (hr : ∀ e, r ≠ .threw e) :
    (client (π := π) may).ret (.op f c) r = f.ret c := by
  cases r with
  | threw e => exact absurd rfl (hr e)
  | _ => rfl

omit [DecidableEq τ] in
theorem safe : Safe (client (π := π) may) (Pos.holds (V := V) (E := E)) where
  act := fun hact hheld => (act_holds hact).mp hheld
  ret := by
    intro p call r k hcall hgives hheld
    obtain ⟨f, c, rfl, hf⟩ := call_of_client hcall
    cases r with
    | threw e => exact hheld.elim
    | _ =>
      rcases (ret_holds hf).mp hheld with rfl | ⟨hold, -⟩
      · exact .inr (by cases f <;> cases hf <;> first | rfl | exact hgives.elim)
      · exact .inl hold
  released := by
    intro p k hcall hheld
    obtain ⟨f, c, rfl, hf⟩ := call_of_client hcall
    rcases (ret_holds hf).mp hheld with hlock | ⟨-, hne⟩
    · cases hlock
    · exact hne rfl
  keeps := fun hact hheld => (act_holds hact).mpr hheld
  keepsRet := by
    intro p call r k hcall hgives hret hheld
    obtain ⟨f, c, rfl, hf⟩ := call_of_client hcall
    by_cases hunlock : call = .unlock k
    · exact .inr hunlock
    · rw [client_ret f c hret]
      exact .inl ((ret_holds hf).mpr (.inr ⟨hheld, hunlock⟩))
  takes := by
    intro p call r k hcall hacquires
    obtain ⟨f, c, rfl, hf⟩ := call_of_client hcall
    cases f <;> cases hf <;> cases r <;> first
      | exact congrArg some (Eq.symm hacquires)
      | cases hacquires
  lock_ok := by
    intro p k hcall hheld
    obtain ⟨f, c, rfl, hf⟩ := call_of_client hcall
    cases f <;> cases hf <;> cases hheld
  unlock_ok := by
    intro p k hcall
    obtain ⟨f, c, rfl, hf⟩ := call_of_client hcall
    cases f <;> cases hf <;> rfl
  wait_ok := by
    intro p w hcall
    obtain ⟨f, c, rfl, hf⟩ := call_of_client hcall
    obtain ⟨k, k', timed⟩ := w
    cases f <;> cases timed <;> cases hf
    rfl

end Future

end GreenThread
