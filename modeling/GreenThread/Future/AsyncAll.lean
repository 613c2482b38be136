import GreenThread.Future.WaitForAll

/-!
# `async_wait_for_all`

The callbacks of `async_wait_for_all` share an `async_all_state`: the counter `acquired` and the
promise of the result. The callback that makes the counter reach the number of futures sets the
promise. The registering thread and the callbacks refer to the state through `shared_ptr`s, and the
last of them to let go of it destroys the promise, which breaks it if it has not been set. On an
empty list there are no callbacks, so this is what makes the returned future ready.
-/

namespace GreenThread

namespace AsyncAll

open Callbacks

/-- What is called on the shared state of the result. -/
inductive Use
  /-- `set_value` -/
  | setValue
  /-- `owner_destroyed`, by the destructor of the promise -/
  | ownerDestroyed
  deriving DecidableEq, Repr

/-- Where a thread is in it. -/
inductive Stage
  /-- before the lock of `mtx_` -/
  | lock
  /-- before the test of `ready_` -/
  | checkReady
  /-- before `except_` and `ready_` are written -/
  | store
  /-- before `waiters_.notify_all()` -/
  | notify
  /-- before the unlock of `mtx_` -/
  | unlock
  /-- `promise_already_satisfied` was thrown: before the unlock of `mtx_` -/
  | unlockThrow
  deriving DecidableEq, Repr

/-- The shared state of the result. -/
structure Result where
  ready : Bool
  /-- `except_` holds `broken_promise` -/
  broken : Bool
  /-- history: how often the state was made ready -/
  sets : Nat
  deriving DecidableEq, Repr

/-- `set_value_` throws when the state is ready, `owner_destroyed_` does nothing. -/
def Use.refused : Use → Stage
  | .setValue => .unlockThrow
  | .ownerDestroyed => .unlock

def Stage.go (use : Use) : Stage → Result → Option (Stage × Result)
  | .checkReady, r => some (if r.ready then use.refused else .store, r)
  | .store, r => some (.notify, ⟨true, use = .ownerDestroyed, r.sets + 1⟩)
  | _, _ => none

def Stage.call : Stage → Option (Call Unit Unit)
  | .lock => some (.lock ())
  | .notify => some (.notifyAll ())
  | .unlock | .unlockThrow => some (.unlock ())
  | _ => none

/-- How a call of a primitive ends for the function that made it. -/
inductive Ends
  | goes (c : Stage)
  | returns
  | throws
  deriving DecidableEq, Repr

def Stage.ret : Stage → Ret → Ends
  | _, .threw _ => .throws
  | .lock, _ => .goes .checkReady
  | .notify, _ => .goes .unlock
  | .unlock, _ => .returns
  | .unlockThrow, _ => .throws
  | c, _ => .goes c

/-- Where a callback is. -/
inductive Callback
  /-- before `++acquired>=count_` -/
  | increment
  /-- in `p.set_value()` -/
  | setValue (c : Stage)
  /-- the callback has returned: before its function lets go of the state. The function of a call
  that was made inline is destroyed as the call returns; one that was stored stays in `ext_waiters_`
  until the state of its input dies, and is taken here to let go when its call is over -/
  | release
  /-- the function was the last to refer to the state: in the destructor of `p` -/
  | ownerDestroyed (c : Stage)
  /-- an exception has left the callback -/
  | threw
  deriving DecidableEq, Repr

/-- Where the registering thread is, after the registration and `get_future`. -/
inductive Caller
  /-- before `state` is destroyed -/
  | release
  /-- it was the last to refer to the state: in the destructor of `p` -/
  | ownerDestroyed (c : Stage)
  | returned
  | failed
  deriving DecidableEq, Repr

/-- The `async_all_state` and the shared state of the result. -/
structure AllState where
  acquired : Nat
  result : Result
  /-- the functions that have let go of the state -/
  released : Nat
  /-- the registering thread has let go of it -/
  returned : Bool
  deriving DecidableEq, Repr

def AllState.start : AllState := ⟨0, ⟨false, false, 0⟩, 0, false⟩

def Callback.go (count : Nat) : Callback → AllState → Option (Option Callback × AllState)
  | .increment, x =>
    some (some (if count ≤ x.acquired + 1 then .setValue .lock else .release),
      { x with acquired := x.acquired + 1 })
  | .setValue c, x => (c.go .setValue x.result).map fun (c', r) =>
    (some (.setValue c'), { x with result := r })
  | .release, x =>
    some (if x.returned ∧ x.released + 1 = count then some (.ownerDestroyed .lock)
      else none, { x with released := x.released + 1 })
  | .ownerDestroyed c, x =>
    (c.go .ownerDestroyed x.result).map fun (c', r) =>
      (some (.ownerDestroyed c'), { x with result := r })
  | .threw, _ => none

def Callback.call : Callback → Option (Call Unit Unit)
  | .setValue c | .ownerDestroyed c => c.call
  | _ => none

def Callback.ret : Callback → Ret → Option Callback
  | .setValue c, r =>
    match c.ret r with
    | .goes c' => some (.setValue c')
    | .returns => some .release
    | .throws => some .threw
  | .ownerDestroyed c, r =>
    match c.ret r with
    | .goes c' => some (.ownerDestroyed c')
    | .returns => none
    | .throws => some .threw
  | _, _ => none

def Caller.go (count : Nat) : Caller → AllState → Option (Caller × AllState)
  | .release, x => some (if x.released = count then .ownerDestroyed .lock
      else .returned, { x with returned := true })
  | .ownerDestroyed c, x =>
    (c.go .ownerDestroyed x.result).map fun (c', r) => (.ownerDestroyed c', { x with result := r })
  | _, _ => none

def Caller.call : Caller → Option (Call Unit Unit)
  | .ownerDestroyed c => c.call
  | _ => none

def Caller.ret : Caller → Ret → Caller
  | .ownerDestroyed c, r =>
    match c.ret r with
    | .goes c' => .ownerDestroyed c'
    | .returns => .returned
    | .throws => .failed
  | c, _ => c

def task (count : Nat) : Task Callback Caller AllState Unit Unit where
  count := count
  first := .increment
  go := fun _ => Callback.go count
  call := Callback.call
  ret := Callback.ret
  after := .release
  goAfter := Caller.go count
  callAfter := Caller.call
  retAfter := Caller.ret

abbrev State (τ : Type) := Callbacks.State τ Unit Unit Callback Caller AllState

variable {τ : Type} [DecidableEq τ]

/-- The thread `w` calls `async_wait_for_all` on a list of `count` futures. -/
abbrev system (count : Nat) (green : τ → Bool) (w : τ) : TransitionSystem (State τ) (Label τ) :=
  Callbacks.system (task count) green w .start

variable {count : Nat} {green : τ → Bool} {w : τ} {s s' : State τ} {l : Label τ}

/-- The callback is not before or in the part that makes the result ready. -/
def Callback.ran : Callback → Bool
  | .increment | .setValue .lock | .setValue .checkReady | .setValue .store => false
  | _ => true

/-- The future at a position of the list is ready and its callback has run. -/
def Completed (s : State τ) (i : Nat) : Prop :=
  s.shared.ready i = true ∧ ∀ t inlined b, place s t = some (.callback i inlined b) → b.ran = true

/-- `async_wait_for_all` has returned the future. -/
def Returned (w : τ) (s : State τ) : Prop := place s w = some (.after .returned)

/-- The result becomes ready once, and is ready when all the futures are and their callbacks have
run; no callback throws. When no callback is under way, the result is ready when `wait_for_all`
would go on. -/
structure Exact (count : Nat) (green : τ → Bool) (w : τ) (s : State τ) : Prop where
  once : s.shared.data.result.sets = if s.shared.data.result.ready then 1 else 0
  exact : 0 < count ∨ Returned w s →
    (s.shared.data.result.ready = true ↔ ∀ i < count, Completed s i)
  quiet : ∀ t i inlined, place s t ≠ some (.callback i inlined .threw)
  agrees : Returned w s → Calm s → ∀ form (s' : WaitForAll.State τ),
    (WaitForAll.system form count green w).Reachable s' →
    (∃ c, place s' w = some (.after c)) → Calm s' → s'.shared.ready = s.shared.ready →
    (s.shared.data.result.ready = true ↔
      WaitForAll.Waiter.go count .check s'.shared.data = some (.unlock, s'.shared.data))
  broken : s.shared.data.result.ready = true → (s.shared.data.result.broken = true ↔ count = 0)

/-! ### The calls -/

/-- The thread is in the part that holds the result's `mtx_`. -/
def Stage.holds : Stage → Bool
  | .lock => false
  | _ => true

/-- The part of the shared state's functions that the thread is in. -/
def stage : Pos Callback Caller → Option Stage
  | .callback _ _ (.setValue c) | .callback _ _ (.ownerDestroyed c)
  | .after (.ownerDestroyed c) => some c
  | _ => none

def holds (p : Pos Callback Caller) : Bool := (stage p).elim false Stage.holds

theorem Stage.holds_go {use : Use} {c c' : Stage} {r r' : Result} (h : c.go use r = some (c', r')) :
    c.holds = true ∧ c'.holds = true := by
  cases c with
  | checkReady =>
    cases h
    refine ⟨rfl, ?_⟩
    split
    · cases use <;> rfl
    · rfl
  | store =>
    cases h
    exact ⟨rfl, rfl⟩
  | _ => cases h

theorem Stage.ret_cases {c : Stage} {call : Call Unit Unit} {r : Ret} (hcall : c.call = some call)
    (hret : ∀ e, r ≠ .threw e) :
    (∃ c', c.ret r = .goes c' ∧ c'.holds = true ∧ call ≠ .unlock ()) ∨
      (c = .unlock ∧ c.ret r = .returns ∨ c = .unlockThrow ∧ c.ret r = .throws) ∧
      call = .unlock () := by
  cases c with
  | lock =>
    cases hcall
    refine .inl ⟨.checkReady, ?_, rfl, nofun⟩
    cases r <;> first | rfl | exact absurd rfl (hret _)
  | notify =>
    cases hcall
    refine .inl ⟨.unlock, ?_, rfl, nofun⟩
    cases r <;> first | rfl | exact absurd rfl (hret _)
  | unlock =>
    cases hcall
    refine .inr ⟨.inl ⟨rfl, ?_⟩, rfl⟩
    cases r <;> first | rfl | exact absurd rfl (hret _)
  | unlockThrow =>
    cases hcall
    refine .inr ⟨.inr ⟨rfl, ?_⟩, rfl⟩
    cases r <;> rfl
  | _ => cases hcall

theorem Stage.call_holds {c : Stage} {call : Call Unit Unit} (hcall : c.call = some call) :
    (call = .lock () ∧ c.holds = false) ∨ call ≠ .lock () ∧ c.holds = true := by
  cases c <;> cases hcall
  · exact .inl ⟨rfl, rfl⟩
  all_goals exact .inr ⟨nofun, rfl⟩

theorem call_stage (p : Pos Callback Caller) : p.call (task count) = (stage p).bind Stage.call := by
  cases p with
  | callback i inlined b => cases b <;> rfl
  | after c => cases c <;> rfl
  | _ => rfl

theorem stage_finish {i : Nat} {inlined : Bool} : stage (Pos.finish i inlined none) = none := by
  cases inlined <;> rfl

theorem stage_ret {p : Pos Callback Caller} {c : Stage} (hp : stage p = some c) (r : Ret) :
    stage (p.ret (task count) r) = match c.ret r with | .goes c' => some c' | _ => none := by
  cases p with
  | callback i inlined b =>
    cases b <;> cases hp <;> simp only [Pos.ret, task, Callback.ret] <;> cases c.ret r <;> first
      | rfl
      | exact stage_finish
  | after b =>
    cases b <;> cases hp
    simp only [Pos.ret, task, Caller.ret]
    cases c.ret r <;> rfl
  | _ => cases hp

omit [DecidableEq τ] in
theorem keeps_scope : Scoped (client (τ := τ) (task count)) holds where
  act := by
    intro t a x o b y hact
    cases act_steps hact with
    | goes hgo =>
      rename_i i inlined c c' r
      cases c with
      | increment =>
        cases hgo
        split <;> rfl
      | release =>
        cases hgo
        split
        · rfl
        · unfold holds
          rw [stage_finish]
          rfl
      | threw => cases hgo
      | setValue c | ownerDestroyed c =>
        obtain ⟨⟨c', r'⟩, hc, heq⟩ := Option.map_eq_some_iff.mp hgo
        cases heq
        exact (Stage.holds_go hc).2.trans (Stage.holds_go hc).1.symm
    | goesAfter hgo =>
      rename_i c c' r
      cases c with
      | release =>
        cases hgo
        split <;> rfl
      | ownerDestroyed c =>
        obtain ⟨⟨c', r'⟩, hc, heq⟩ := Option.map_eq_some_iff.mp hgo
        cases heq
        exact (Stage.holds_go hc).2.trans (Stage.holds_go hc).1.symm
      | _ => cases hgo
    | _ => rfl
  lock := by
    intro a hcall
    obtain ⟨c, hc, hlock⟩ := Option.bind_eq_some_iff.mp ((call_stage a).symm.trans hcall)
    unfold holds
    rw [hc]
    rcases Stage.call_holds hlock with ⟨-, hholds⟩ | ⟨hne, -⟩
    · exact hholds
    · exact absurd rfl hne
  inside := by
    intro a call hcall hne
    obtain ⟨c, hc, hlock⟩ := Option.bind_eq_some_iff.mp ((call_stage a).symm.trans hcall)
    unfold holds
    rw [hc]
    rcases Stage.call_holds hlock with ⟨rfl, -⟩ | ⟨-, hholds⟩
    · exact absurd rfl hne
    · exact hholds
  ret := by
    intro a call r hcall hret hne
    obtain ⟨c, hc, hcall'⟩ := Option.bind_eq_some_iff.mp ((call_stage a).symm.trans hcall)
    rcases Stage.ret_cases hcall' hret with ⟨c', hgoes, hholds, -⟩ | ⟨-, hunlock⟩
    · change holds (a.ret (task count) r) = true
      unfold holds
      rw [stage_ret hc, hgoes]
      exact hholds
    · exact absurd hunlock hne
  unlock := by
    intro a hcall
    obtain ⟨c, hc, hcall'⟩ := Option.bind_eq_some_iff.mp ((call_stage a).symm.trans hcall)
    change holds (a.ret (task count) .done) = false
    unfold holds
    rcases Stage.ret_cases (r := .done) hcall' nofun with ⟨c', -, -, hne⟩ |
      ⟨⟨-, hends⟩ | ⟨-, hends⟩, -⟩
    · exact absurd rfl hne
    · rw [stage_ret hc, hends]
      rfl
    · rw [stage_ret hc, hends]
      rfl
  threw := by
    intro a e
    change holds (a.ret (task count) (.threw e)) = false
    unfold holds
    cases hc : stage a with
    | some c =>
      rw [stage_ret hc]
      cases c <;> rfl
    | none =>
      have hret : stage (a.ret (task count) (.threw e)) = none := by
        cases a with
        | callback i inlined b =>
          cases b <;> first
            | exact stage_finish
            | cases hc
        | after c => cases c <;> rfl
        | _ => rfl
      rw [hret]
      rfl

omit [DecidableEq τ] in
theorem safe : Safe (client (τ := τ) (task count)) fun p _ => holds p = true := keeps_scope.safe

/-! ### The last callback and the last reference -/

/-- The callback sets the promise and has not yet made the result ready. -/
def setting : Pos Callback Caller → Bool
  | .callback _ _ (.setValue .lock) | .callback _ _ (.setValue .checkReady)
  | .callback _ _ (.setValue .store) => true
  | _ => false

/-- The callback has counted, and its function still refers to the state. -/
def counted : Pos Callback Caller → Bool
  | .callback _ _ (.setValue _) | .callback _ _ .release => true
  | _ => false

/-- What the place in the destructor of the promise tells about the result. -/
def Stage.destroys (count : Nat) (r : Result) : Stage → Prop
  | .lock | .checkReady => r.ready = decide (0 < count)
  | .store => count = 0 ∧ r.ready = false
  | .notify | .unlock => r.ready = true
  | .unlockThrow => False

/-- What the place of a callback tells about the state. -/
def Callback.knows (count : Nat) (x : AllState) : Callback → Prop
  | .increment | .release => True
  | .setValue .lock | .setValue .checkReady | .setValue .store =>
    x.acquired = count ∧ x.result.ready = false
  | .setValue .notify | .setValue .unlock => x.result.ready = true
  | .setValue .unlockThrow | .threw => False
  | .ownerDestroyed c => c.destroys count x.result

/-- What the place of a thread tells about the state. -/
def knows (count : Nat) (x : AllState) : Pos Callback Caller → Prop
  | .idle => True
  | .register _ | .after .release => 0 < count ∨ x.result.ready = false
  | .callback _ _ b => 0 < count ∧ b.knows count x
  | .after (.ownerDestroyed c) => c.destroys count x.result
  | .after .returned => 0 < count ∨ x.result.ready = true
  | .after .failed => False

/-- What a run keeps, when `places` tells where the threads are. -/
structure Inv (count : Nat) (w : τ) (places : τ → Option (Pos Callback Caller))
    (x : AllState) : Prop where
  knows : ∀ t p, places t = some p → knows count x p
  mine : ∀ t p, places t = some p → p.registers = decide (t = w)
  unique : ∀ t u p q, places t = some p → places u = some q → setting p = true →
    setting q = true → t = u
  once : x.result.sets = if x.result.ready then 1 else 0
  broken : x.result.ready = true → (x.result.broken = true ↔ count = 0)
  full : x.result.ready = true → count ≤ x.acquired
  delivers : 0 < count → count ≤ x.acquired →
    x.result.ready = true ∨ ∃ t p, places t = some p ∧ setting p = true
  alive : ∀ ts : Finset τ, (∀ t ∈ ts, ∃ p, places t = some p ∧ counted p = true) →
    x.released + ts.card ≤ x.acquired

namespace Inv

variable {places : τ → Option (Pos Callback Caller)} {x y : AllState} {t : τ}
    {p q : Pos Callback Caller}

theorem alive_with (h : Inv count w places x) (ht : places t = some p) {ts : Finset τ}
    (hnot : t ∉ ts) (hts : ∀ u ∈ ts, ∃ p', places u = some p' ∧ counted p' = true) :
    x.released + ts.card + (if counted p then 1 else 0) ≤ x.acquired := by
  split
  · rename_i hp
    have hinsert := h.alive (insert t ts) fun u hu => by
      rcases Finset.mem_insert.mp hu with rfl | hu
      · exact ⟨p, ht, hp⟩
      · exact hts u hu
    rw [Finset.card_insert_of_notMem hnot] at hinsert
    omega
  · exact h.alive ts hts

theorem moves (h : Inv count w places x) (ht : places t = some p)
    (hmine : q.registers = p.registers) (hq : AsyncAll.knows count y q)
    (hothers : ∀ u p', u ≠ t → places u = some p' → AsyncAll.knows count x p' →
      AsyncAll.knows count y p')
    (hsetting : setting q = true → ∀ u p', u ≠ t → places u = some p' → setting p' = false)
    (honce : y.result.sets = if y.result.ready then 1 else 0)
    (hbroken : y.result.ready = true → (y.result.broken = true ↔ count = 0))
    (hfull : y.result.ready = true → count ≤ y.acquired)
    (hdelivers : 0 < count → count ≤ y.acquired → y.result.ready = true ∨ setting q = true ∨
      ∃ u p', u ≠ t ∧ places u = some p' ∧ setting p' = true)
    (halive : ∀ ts : Finset τ, t ∉ ts → (∀ u ∈ ts, ∃ p', places u = some p' ∧ counted p' = true) →
      y.released + ts.card + (if counted q then 1 else 0) ≤ y.acquired) :
    Inv count w (Function.update places t (some q)) y := by
  refine ⟨fun u p' hu => ?_, fun u p' hu => ?_, fun u v a b hu hv ha hb => ?_, honce, hbroken,
    hfull, fun hpos hle => ?_,
    fun ts hts => ?_⟩
  · rcases Machine.place_of_update hu with ⟨-, rfl⟩ | ⟨hne, hu⟩
    · exact hq
    · exact hothers u p' hne hu (h.knows u p' hu)
  · rcases Machine.place_of_update hu with ⟨rfl, rfl⟩ | ⟨-, hu⟩
    · exact hmine.trans (h.mine u p ht)
    · exact h.mine u p' hu
  · rcases Machine.place_of_update hu with ⟨rfl, rfl⟩ | ⟨hne, hu'⟩
    · rcases Machine.place_of_update hv with ⟨rfl, -⟩ | ⟨hne, hv'⟩
      · rfl
      · cases (hsetting ha v b hne hv').symm.trans hb
    · rcases Machine.place_of_update hv with ⟨rfl, rfl⟩ | ⟨-, hv'⟩
      · cases (hsetting hb u a hne hu').symm.trans ha
      · exact h.unique u v a b hu' hv' ha hb
  · rcases hdelivers hpos hle with hready | hset | ⟨u, p', hne, hu, hset⟩
    · exact .inl hready
    · exact .inr ⟨t, q, Function.update_self .., hset⟩
    · exact .inr ⟨u, p', by rw [Function.update_of_ne hne]; exact hu, hset⟩
  · have hrest := halive (ts.erase t) (Finset.notMem_erase t ts) fun u hu => by
      obtain ⟨hne, hu⟩ := Finset.mem_erase.mp hu
      obtain ⟨p', hp', hcounted⟩ := hts u hu
      rw [Function.update_of_ne hne] at hp'
      exact ⟨p', hp', hcounted⟩
    by_cases hmem : t ∈ ts
    · obtain ⟨p', hp', hcounted⟩ := hts t hmem
      obtain ⟨-, rfl⟩ | ⟨hne, -⟩ := Machine.place_of_update hp'
      · rw [hcounted, if_pos rfl, Nat.add_assoc, Finset.card_erase_add_one hmem] at hrest
        exact hrest
      · exact absurd rfl hne
    · rw [Finset.erase_eq_of_notMem hmem] at hrest
      omega

theorem keeps (h : Inv count w places x) (ht : places t = some p)
    (hmine : q.registers = p.registers)
    (hq : AsyncAll.knows count x q) (hsetting : setting q = setting p)
    (hcounted : counted q = true → counted p = true) :
    Inv count w (Function.update places t (some q)) x := by
  refine h.moves ht hmine hq (fun _ _ _ _ => id) (fun hset u p' hne hu => ?_) h.once h.broken h.full
    (fun hpos hle => ?_)
    fun ts hnot hts => ?_
  · cases hp' : setting p' with
    | false => rfl
    | true => exact absurd (h.unique u t p' p hu ht hp' (hsetting.symm.trans hset)) hne
  · rcases h.delivers hpos hle with hready | ⟨u, p', hu, hset⟩
    · exact .inl hready
    · by_cases hut : u = t
      · subst hut
        obtain rfl := Option.some.inj (hu.symm.trans ht)
        exact .inr (.inl (hsetting.trans hset))
      · exact .inr (.inr ⟨u, p', hut, hu, hset⟩)
  · have hwith := h.alive_with ht hnot hts
    cases hcq : counted q with
    | false => simp only [Bool.false_eq_true, if_false]; omega
    | true =>
      rw [hcounted hcq] at hwith
      exact hwith

theorem knows_of_result (hresult : y.result = x.result)
    (hacquired : setting p = true → y.acquired = x.acquired)
    (hp : AsyncAll.knows count x p) : AsyncAll.knows count y p := by
  cases p with
  | idle => trivial
  | register i =>
    rw [AsyncAll.knows, hresult]
    exact hp
  | callback i inlined b =>
    obtain ⟨hpos, hb⟩ := hp
    refine ⟨hpos, ?_⟩
    cases b with
    | increment | release => trivial
    | threw => exact hb
    | ownerDestroyed c =>
      rw [Callback.knows, hresult]
      exact hb
    | setValue c =>
      cases c with
      | lock | checkReady | store => exact ⟨(hacquired rfl).trans hb.1, by rw [hresult]; exact hb.2⟩
      | notify | unlock =>
        rw [Callback.knows, hresult]
        exact hb
      | unlockThrow => exact hb
  | after c =>
    cases c with
    | release | returned | ownerDestroyed =>
      rw [AsyncAll.knows, hresult]
      exact hp
    | failed => exact hp

/-- A place that does not set the promise knows no less when the result has become ready, if there
are callbacks. -/
theorem knows_of_ready (hpos : 0 < count) (hready : y.result.ready = true)
    (hset : setting p = false) (hp : AsyncAll.knows count x p) : AsyncAll.knows count y p := by
  have hdestroys : ∀ c : Stage, c.destroys count x.result → c.destroys count y.result := by
    intro c hc
    cases c with
    | lock | checkReady => exact hready.trans (decide_eq_true hpos).symm
    | store => exact absurd hc.1 (Nat.ne_of_gt hpos)
    | notify | unlock => exact hready
    | unlockThrow => exact hc
  cases p with
  | idle => trivial
  | register i => exact .inl hpos
  | callback i inlined b =>
    refine ⟨hpos, ?_⟩
    cases b with
    | increment | release => trivial
    | threw => exact hp.2
    | ownerDestroyed c => exact hdestroys c hp.2
    | setValue c =>
      cases c with
      | lock | checkReady | store => cases hset
      | notify | unlock => exact hready
      | unlockThrow => exact hp.2
  | after c =>
    cases c with
    | release | returned => exact .inl hpos
    | ownerDestroyed c => exact hdestroys c hp
    | failed => exact hp

theorem increments (h : Inv count w places x) {i : Nat} {inlined : Bool}
    (ht : places t = some (.callback i inlined .increment)) (hle : x.acquired + 1 ≤ count) :
    Inv count w (Function.update places t (some (.callback i inlined
        (if count ≤ x.acquired + 1 then .setValue .lock else .release))))
      { x with acquired := x.acquired + 1 } := by
  have hunready : x.result.ready = false := by
    cases hready : x.result.ready with
    | false => rfl
    | true => exact absurd (h.full hready) (by omega)
  -- no callback sets the promise before the counter is full
  have hnone : ∀ u p', places u = some p' → setting p' = false := by
    intro u p' hu
    cases hp' : setting p' with
    | false => rfl
    | true =>
      have hknows := h.knows u p' hu
      cases p' with
      | callback j inlined' b =>
        cases b with
        | setValue c =>
          cases c with
          | lock | checkReady | store => exact absurd hknows.2.1 (by omega)
          | _ => cases hp'
        | _ => cases hp'
      | _ => cases hp'
  refine h.moves ht rfl ?_ (fun u p' _ hu => ?_) (fun _ u p' _ hu => hnone u p' hu) h.once h.broken
    (fun hready => absurd (hunready.symm.trans hready) Bool.false_ne_true)
      (fun _ hfull => ?_) fun ts hnot hts => ?_
  · refine ⟨(h.knows t _ ht).1, ?_⟩
    split
    · rename_i hfull
      exact ⟨Nat.le_antisymm hle hfull, hunready⟩
    · trivial
  · exact knows_of_result rfl fun hset =>
      absurd ((hnone u p' hu).symm.trans hset) Bool.false_ne_true
  · have hfull : count ≤ x.acquired + 1 := hfull
    rw [if_pos hfull]
    exact .inr (.inl rfl)
  · refine Nat.add_le_add (h.alive ts hts) ?_
    generalize counted _ = b
    cases b <;> decide

theorem stores (h : Inv count w places x) {i : Nat} {inlined : Bool}
    (ht : places t = some (.callback i inlined (.setValue .store))) :
    Inv count w (Function.update places t (some (.callback i inlined (.setValue .notify))))
      { x with result := ⟨true, false, x.result.sets + 1⟩ } := by
  obtain ⟨hpos, hfull, hunready⟩ := h.knows t _ ht
  refine h.moves ht rfl ⟨hpos, rfl⟩ (fun u p' hne hu => knows_of_ready hpos rfl ?_)
    (fun hset => (by cases hset)) ?_
    (fun _ => iff_of_false Bool.false_ne_true (Nat.ne_of_gt hpos))
      (fun _ => Nat.le_of_eq hfull.symm)
    (fun _ _ => .inl rfl) fun ts hnot hts => h.alive_with ht hnot hts
  · cases hp' : setting p' with
    | false => rfl
    | true => exact absurd (h.unique u t p' _ hu ht hp' rfl) hne
  · change x.result.sets + 1 = 1
    rw [h.once, hunready]
    rfl

theorem counted_of_setting (h : setting p = true) : counted p = true := by
  cases p with
  | callback i inlined b =>
    cases b with
    | setValue c => rfl
    | _ => cases h
  | _ => cases h

/-- When a thread lets go of the state as the last, the result is ready if there are callbacks. -/
theorem ready_of_last (h : Inv count w places x) (ht : places t = some p) (hp : setting p = false)
    (hpos : 0 < count)
    (hle : x.acquired ≤ count) (hlast : x.released + (if counted p then 1 else 0) = count) :
    x.result.ready = true := by
  have hfull : count ≤ x.acquired := by
    have hwith := h.alive_with ht (Finset.notMem_empty t) fun u hu =>
      absurd hu (Finset.notMem_empty u)
    rw [Finset.card_empty] at hwith
    omega
  rcases h.delivers hpos hfull with hready | ⟨u, p', hu, hset⟩
  · exact hready
  · have hne : t ≠ u := by
      rintro rfl
      obtain rfl := Option.some.inj (hu.symm.trans ht)
      cases hp.symm.trans hset
    have hwith := h.alive_with ht (Finset.notMem_singleton.mpr hne) fun v hv => by
      rw [Finset.mem_singleton.mp hv]
      exact ⟨p', hu, counted_of_setting hset⟩
    rw [Finset.card_singleton] at hwith
    omega

theorem releases (h : Inv count w places x) {i : Nat} {inlined : Bool}
    (ht : places t = some (.callback i inlined .release))
    (hle : x.acquired ≤ count) {b' : Option Callback}
    (hb' : b' = none ∨ b' = some (.ownerDestroyed .lock) ∧ x.released + 1 = count) :
    Inv count w (Function.update places t
      (some (Pos.finish i inlined b'))) { x with released := x.released + 1 } := by
  obtain ⟨hpos, -⟩ := h.knows t _ ht
  have hmine : (Pos.finish (γ := Caller) i inlined b').registers =
    (Pos.callback (γ := Caller) i inlined Callback.release).registers := by
    cases b' with
    | some b' => rfl
    | none => cases inlined <;> rfl
  have hoff : setting (Pos.finish i inlined b') = false ∧
    counted (Pos.finish i inlined b') = false := by
    rcases hb' with rfl | ⟨rfl, -⟩
    · cases inlined <;> exact ⟨rfl, rfl⟩
    · exact ⟨rfl, rfl⟩
  refine h.moves ht hmine ?_ (fun u p' _ _ => knows_of_result rfl fun _ => rfl)
    (fun hset => absurd (hoff.1.symm.trans hset) Bool.false_ne_true) h.once h.broken h.full
      (fun hpos hfull => ?_) fun ts hnot hts => ?_
  · rcases hb' with rfl | ⟨rfl, hlast⟩
    · cases inlined with
      | true => exact .inl hpos
      | false => trivial
    · exact ⟨hpos, (h.ready_of_last ht rfl hpos hle hlast).trans (decide_eq_true hpos).symm⟩
  · rcases h.delivers hpos hfull with hready | ⟨u, p', hu, hset⟩
    · exact .inl hready
    · refine .inr (.inr ⟨u, p', ?_, hu, hset⟩)
      rintro rfl
      obtain rfl := Option.some.inj (hu.symm.trans ht)
      cases hset
  · have hwith := h.alive_with ht hnot hts
    rw [hoff.2]
    change x.released + ts.card + 1 ≤ x.acquired at hwith
    change x.released + 1 + ts.card + 0 ≤ x.acquired
    omega

theorem lets_go (h : Inv count w places x) (ht : places t = some (.after .release))
    (hle : x.acquired ≤ count) :
    Inv count w (Function.update places t
      (some (.after (if x.released = count then .ownerDestroyed .lock else .returned))))
      { x with returned := true } := by
  have hknows := h.knows t _ ht
  have hkept :
    Inv count w (Function.update places t
      (some (.after (if x.released = count then .ownerDestroyed .lock else .returned)))) x := by
    refine h.keeps ht rfl ?_ (by split <;> rfl) fun hcounted => ?_
    · split
      · rename_i hlast
        by_cases hpos : 0 < count
        · exact (h.ready_of_last ht rfl hpos hle hlast).trans (decide_eq_true hpos).symm
        · exact (hknows.resolve_left hpos).trans (decide_eq_false hpos).symm
      · rename_i hmore
        have hreleased := h.alive ∅ fun u hu => absurd hu (Finset.notMem_empty u)
        exact .inl (by omega)
    · split at hcounted <;> cases hcounted
  exact ⟨fun u p' hu => knows_of_result rfl (fun _ => rfl) (hkept.knows u p' hu), hkept.mine,
    hkept.unique, hkept.once,
    hkept.broken, hkept.full, hkept.delivers, hkept.alive⟩

theorem breaks (h : Inv count w places x) (ht : places t = some (.after (.ownerDestroyed .store))) :
    Inv count w (Function.update places t
      (some (.after (.ownerDestroyed .notify)))) { x with result := ⟨true, true,
        x.result.sets + 1⟩ } := by
  obtain ⟨hzero, hunready⟩ := h.knows t _ ht
  subst hzero
  refine h.moves ht rfl rfl (fun u p' hne hu hp' => ?_) (fun hset => (by cases hset)) ?_
    (fun _ => iff_of_true rfl rfl)
    (fun _ => Nat.zero_le _) (fun hpos => absurd hpos (Nat.lt_irrefl 0)) fun ts hnot hts =>
      h.alive_with ht hnot hts
  · -- the others are not in `async_wait_for_all`, and there are no callbacks
    have hmine := h.mine u p' hu
    have htw : t = w := of_decide_eq_true (h.mine t _ ht).symm
    rw [← htw, decide_eq_false hne] at hmine
    cases p' with
    | idle => trivial
    | callback i inlined b => exact absurd hp'.1 (Nat.lt_irrefl 0)
    | _ => cases hmine
  · change x.result.sets + 1 = 1
    rw [h.once, hunready]
    rfl

theorem goes (h : Inv count w places x) {i : Nat} {inlined : Bool} {b : Callback}
    {b' : Option Callback}
    (ht : places t = some (.callback i inlined b)) (hgo : b.go count x = some (b', y))
    (hle : y.acquired ≤ count) :
    Inv count w (Function.update places t (some (Pos.finish i inlined b'))) y := by
  have hknows := h.knows t _ ht
  cases b with
  | increment =>
    cases hgo
    exact h.increments ht hle
  | release =>
    cases hgo
    refine h.releases ht hle ?_
    split
    · rename_i hlast
      exact .inr ⟨rfl, hlast.2⟩
    · exact .inl rfl
  | setValue c =>
    cases c with
    | checkReady =>
      cases hgo
      rw [hknows.2.2]
      exact h.keeps ht rfl hknows rfl id
    | store =>
      cases hgo
      exact h.stores ht
    | _ => cases hgo
  | ownerDestroyed c =>
    cases c with
    | checkReady =>
      cases hgo
      have hready : x.result.ready = true := hknows.2.trans (decide_eq_true hknows.1)
      rw [hready]
      exact h.keeps ht rfl ⟨hknows.1, hready⟩ rfl nofun
    | store => exact absurd hknows.2.1 (Nat.ne_of_gt hknows.1)
    | _ => cases hgo
  | threw => cases hgo

theorem goesAfter (h : Inv count w places x) {c c' : Caller} (ht : places t = some (.after c))
    (hgo : c.go count x = some (c', y)) (hle : x.acquired ≤ count) :
    Inv count w (Function.update places t (some (.after c'))) y := by
  have hknows := h.knows t _ ht
  cases c with
  | release =>
    cases hgo
    exact h.lets_go ht hle
  | ownerDestroyed c =>
    cases c with
    | checkReady =>
      cases hgo
      refine h.keeps ht rfl ?_ (by split <;> rfl)
        (fun hcounted => (by split at hcounted <;> cases hcounted))
      change x.result.ready = decide (0 < count) at hknows
      split
      · rename_i hready
        exact hready
      · rename_i hunready
        have hunready : x.result.ready = false := Bool.eq_false_iff.mpr hunready
        exact ⟨Nat.eq_zero_of_not_pos (of_decide_eq_false (hknows.symm.trans hunready)), hunready⟩
    | store =>
      cases hgo
      exact h.breaks ht
    | _ => cases hgo
  | _ => cases hgo

theorem destroys_ret {c : Stage} {call : Call Unit Unit} {r : Ret} (hcall : c.call = some call)
    (hret : ∀ e, r ≠ .threw e) (hc : c.destroys count x.result) :
    (∃ c', c.ret r = .goes c' ∧ c'.destroys count x.result) ∨
    c.ret r = .returns ∧ x.result.ready = true := by
  cases c with
  | lock =>
    refine .inl ⟨.checkReady, ?_, hc⟩
    cases r <;> first | rfl | exact absurd rfl (hret _)
  | notify =>
    refine .inl ⟨.unlock, ?_, hc⟩
    cases r <;> first | rfl | exact absurd rfl (hret _)
  | unlock =>
    refine .inr ⟨?_, hc⟩
    cases r <;> first | rfl | exact absurd rfl (hret _)
  | unlockThrow => exact hc.elim
  | _ => cases hcall

theorem returns (h : Inv count w places x) {call : Call Unit Unit} {r : Ret}
    (ht : places t = some p) (hcall : p.call (task count) = some call) (hret : ∀ e, r ≠ .threw e) :
    Inv count w (Function.update places t (some (p.ret (task count) r))) x := by
  have hknows := h.knows t p ht
  cases p with
  | callback i inlined b =>
    cases b with
    | setValue c =>
      cases c with
      | lock =>
        have hq : (Pos.callback i inlined (.setValue .lock)).ret (task count) r =
          .callback i inlined (.setValue .checkReady) := by
          cases r <;> first | rfl | exact absurd rfl (hret _)
        rw [hq]
        exact h.keeps ht rfl hknows rfl id
      | notify =>
        have hq : (Pos.callback i inlined (.setValue .notify)).ret (task count) r =
          .callback i inlined (.setValue .unlock) := by
          cases r <;> first | rfl | exact absurd rfl (hret _)
        rw [hq]
        exact h.keeps ht rfl hknows rfl id
      | unlock =>
        have hq : (Pos.callback i inlined (.setValue .unlock)).ret (task count) r =
          .callback i inlined .release := by
          cases r <;> first | rfl | exact absurd rfl (hret _)
        rw [hq]
        exact h.keeps ht rfl ⟨hknows.1, trivial⟩ rfl id
      | unlockThrow => exact hknows.2.elim
      | _ => cases hcall
    | ownerDestroyed c =>
      rcases destroys_ret hcall hret hknows.2 with ⟨c', hends, hc'⟩ | ⟨hends, -⟩
      · have hq : (Pos.callback i inlined (.ownerDestroyed c)).ret (task count) r =
          .callback i inlined (.ownerDestroyed c') := by
          simp only [Pos.ret, task, Callback.ret, hends]
          rfl
        rw [hq]
        exact h.keeps ht rfl ⟨hknows.1, hc'⟩ rfl (fun h => by cases h)
      · have hq : (Pos.callback i inlined (.ownerDestroyed c)).ret (task count) r =
          Pos.finish i inlined none := by
          simp only [Pos.ret, task, Callback.ret, hends]
        rw [hq]
        cases inlined with
        | true => exact h.keeps ht rfl (.inl hknows.1) rfl (fun h => by cases h)
        | false => exact h.keeps ht rfl trivial rfl (fun h => by cases h)
    | _ => cases hcall
  | after c =>
    cases c with
    | ownerDestroyed c =>
      rcases destroys_ret hcall hret hknows with ⟨c', hends, hc'⟩ | ⟨hends, hready⟩
      · have hq : (Pos.after (.ownerDestroyed c)).ret (task count) r =
          .after (.ownerDestroyed c') := by
          simp only [Pos.ret, task, Caller.ret, hends]
        rw [hq]
        exact h.keeps ht rfl hc' rfl (fun h => by cases h)
      · have hq : (Pos.after (.ownerDestroyed c)).ret (task count) r = .after .returned := by
          simp only [Pos.ret, task, Caller.ret, hends]
        rw [hq]
        exact h.keeps ht rfl (.inr hready) rfl (fun h => by cases h)
    | _ => cases hcall
  | _ => cases hcall

end Inv

theorem counts : Counts (task count) (fun b => b == .increment) AllState.acquired where
  first := rfl
  call := by
    intro b hb
    obtain rfl := eq_of_beq hb
    rfl
  ret := by
    intro b r b' hret
    cases b with
    | setValue c | ownerDestroyed c =>
      simp only [task, Callback.ret] at hret
      cases hends : c.ret r <;> rw [hends] at hret <;> cases hret <;> rfl
    | _ => cases hret
  go := by
    intro i b x b' y hgo
    cases b with
    | increment =>
      cases hgo
      refine .inl ⟨rfl, ?_, rfl⟩
      split <;> rfl
    | release =>
      cases hgo
      refine .inr ⟨?_, rfl⟩
      split <;> rfl
    | setValue c | ownerDestroyed c =>
      obtain ⟨⟨c', r'⟩, hc, heq⟩ := Option.map_eq_some_iff.mp hgo
      cases heq
      exact .inr ⟨rfl, rfl⟩
    | threw => cases hgo
  after := by
    intro c x c' y hgo
    cases c with
    | release =>
      cases hgo
      rfl
    | ownerDestroyed c =>
      obtain ⟨⟨c', r'⟩, hc, heq⟩ := Option.map_eq_some_iff.mp hgo
      cases heq
      rfl
    | _ => cases hgo

variable {ok : State τ → Label τ → Prop}

theorem reach_le (hr : (system count green w).Reach ok s) : s.shared.data.acquired ≤ count := by
  obtain ⟨done, haccounted⟩ := reach_accounted counts rfl hr
  have hcard : done.card ≤ (Finset.range count).card := by
    refine Finset.card_le_card fun i hi => ?_
    exact Finset.mem_range.mpr (Nat.lt_of_lt_of_le (haccounted.done_lt i hi) haccounted.le)
  rw [Finset.card_range, haccounted.card] at hcard
  exact hcard

theorem reach_inv (hr : (system count green w).Reach ok s) :
    Inv count w (place s) s.shared.data := by
  refine hr.invariant (I := fun s => Inv count w (place s) s.shared.data) (fun s hs => ?_)
    (fun s l s' hr h hok hstep => ?_)
  · have hplace : ∀ t p, place s t = some p → t = w ∧ p = .register 0 ∨ t ≠ w ∧ p = .idle :=
      fun t p => initial_place hs
    have hoff : ∀ t p, place s t = some p → setting p = false ∧ counted p = false := by
      intro t p hp
      rcases hplace t p hp with ⟨-, rfl⟩ | ⟨-, rfl⟩ <;> exact ⟨rfl, rfl⟩
    cases hs
    refine ⟨fun t p hp => ?_, fun t p hp => ?_, fun t u p q hp _ hset _ => ?_, rfl, nofun, nofun,
      fun hpos hle => ?_, fun ts hts => ?_⟩
    · rcases hplace t p hp with ⟨-, rfl⟩ | ⟨-, rfl⟩
      · exact .inr rfl
      · trivial
    · rcases hplace t p hp with ⟨ht, rfl⟩ | ⟨ht, rfl⟩
      · exact (decide_eq_true ht).symm
      · exact (decide_eq_false ht).symm
    · cases (hoff t p hp).1.symm.trans hset
    · exact absurd hle (Nat.not_le_of_gt hpos)
    · have hempty : ts = ∅ := by
        apply Finset.eq_empty_of_forall_notMem
        intro t ht
        obtain ⟨p, hp, hcounted⟩ := hts t ht
        cases (hoff t p hp).2.symm.trans hcounted
      rw [hempty, Finset.card_empty]
      exact Nat.le_refl 0
  · have hle := reach_le hr
    have hle' := reach_le (hr.step hok hstep)
    rcases reach_place safe (fun _ => ⟨Bool.false_ne_true, Bool.false_ne_true⟩) hr hstep with
      ⟨t, o, p, q, rfl, hpc, hsteps, hplace⟩ | ⟨t, p, call, r, hp, hcall, -, hret, hshared,
        hplace⟩ | ⟨hshared, hplace⟩
    · have hp := place_of_user hpc
      have hknows := h.knows t p hp
      rw [hplace]
      generalize hy : s'.shared = y at hsteps
      rw [hy] at hle'
      cases hsteps with
      | readies hi => exact h.keeps hp rfl ⟨Nat.zero_lt_of_lt hi, trivial⟩ rfl nofun
      | stores => exact h.keeps hp rfl hknows rfl nofun
      | registered => exact h.keeps hp rfl hknows rfl nofun
      | @completes i hstored =>
        have hkept := reach_kept hr
        have hlt := Nat.lt_of_lt_of_le ((hkept.lt_iff i).mpr (.inl hstored)) hkept.le
        exact h.keeps hp rfl ⟨Nat.zero_lt_of_lt hlt, trivial⟩ rfl nofun
      | goes hgo => exact h.goes hp hgo hle'
      | goesAfter hgo => exact h.goesAfter hp hgo hle
    · rw [hplace, hshared]
      exact h.returns hp hcall hret
    · rw [hplace, hshared]
      exact h

/-- When the counter is full, every callback has been called and has counted. -/
theorem completed_of_full (hr : (system count green w).Reach ok s)
    (hfull : count ≤ s.shared.data.acquired)
    (hready : s.shared.data.result.ready = true) : ∀ i < count, Completed s i := by
  intro i hi
  obtain ⟨done, haccounted⟩ := reach_accounted counts rfl hr
  have hkept := reach_kept hr
  have hall : registered (task count) s w = count := by
    have hcard : done.card ≤ (Finset.range (registered (task count) s w)).card :=
      Finset.card_le_card fun j hj => Finset.mem_range.mpr (haccounted.done_lt j hj)
    rw [Finset.card_range, haccounted.card] at hcard
    exact Nat.le_antisymm haccounted.le (Nat.le_trans hfull hcard)
  have hnothing := haccounted.owes_nothing ((Nat.le_antisymm (reach_le hr) hfull).trans hall.symm)
  refine ⟨?_, fun t inlined b hplace => ?_⟩
  · rcases (hkept.lt_iff i).mp (by omega) with hstored | hready
    · exact absurd ⟨none, hstored⟩ (hnothing i)
    · exact hready
  · have hknows := (reach_inv hr).knows t _ hplace
    cases b with
    | increment =>
      have hpc := Machine.user_of_place (Machine.reach_called hr t) hplace rfl
      exact absurd ⟨some t, _, hpc, inlined, .increment, rfl, rfl⟩ (hnothing i)
    | setValue c =>
      cases c with
      | lock | checkReady | store => cases hknows.2.2.symm.trans hready
      | _ => rfl
    | _ => rfl

theorem ready_of_completed (hr : (system count green w).Reach ok s) (hpos : 0 < count)
    (hall : ∀ i < count, Completed s i) :
    s.shared.data.result.ready = true := by
  obtain ⟨done, haccounted⟩ := reach_accounted counts rfl hr
  have hkept := reach_kept hr
  have hle : registered (task count) s w ≤ count := hkept.le
  have hregistered : registered (task count) s w = count := by
    by_contra hne
    have hlt := (hkept.lt_iff _).mpr (.inr (hall (registered (task count) s w) (by omega)).1)
    exact Nat.lt_irrefl _ hlt
  have hfull : s.shared.data.acquired = count := by
    by_contra hless
    obtain ⟨i, x, hx⟩ := haccounted.owes_something (by rw [hregistered]; exact hless)
    have hi := haccounted.owes_lt i ⟨x, hx⟩
    cases x with
    | none => cases (hkept.pending i hx).symm.trans (hall i (by omega)).1
    | some t =>
      obtain ⟨p, hpc, inlined, b, rfl, hb⟩ := hx
      obtain rfl := eq_of_beq hb
      have hran := (hall i (by omega)).2 t inlined .increment (place_of_user hpc)
      cases hran
  rcases (reach_inv hr).delivers hpos (Nat.le_of_eq hfull.symm) with hready | ⟨t, p, hplace, hset⟩
  · exact hready
  · cases p with
    | callback i inlined b =>
      have hi := (hkept.lt_iff i).mpr (.inr (hkept.called t i inlined b hplace))
      have hran := (hall i (by omega)).2 t inlined b hplace
      cases b with
      | setValue c =>
        cases c with
        | lock | checkReady | store => cases hran
        | _ => cases hset
      | _ => cases hset
    | _ => cases hset

/-- The future that `async_wait_for_all` returns is ready exactly when all the futures of the list
are. -/
theorem async_wait_for_all_exact (count : Nat) (green : τ → Bool) (w : τ) {s : State τ}
    (hr : (system count green w).Reachable s) : Exact count green w s := by
  have h := reach_inv hr
  have hexact : 0 < count ∨ Returned w s →
    (s.shared.data.result.ready = true ↔ ∀ i < count, Completed s i) := by
    intro hpos
    refine ⟨fun hready => completed_of_full hr (h.full hready) hready, fun hall => ?_⟩
    rcases Nat.eq_zero_or_pos count with hzero | hpos'
    · have hreturned := hpos.resolve_left (by omega)
      exact (h.knows w _ hreturned).resolve_left (by omega)
    · exact ready_of_completed hr hpos' hall
  refine ⟨h.once, hexact, fun t i inlined hplace => (h.knows t _ hplace).2, ?_, h.broken⟩
  intro hreturned hcalm form s' hr' ⟨c, hafter⟩ hcalm' hsame
  have hready : s.shared.data.result.ready = true ↔ ∀ i < count, s.shared.ready i = true := by
    refine (hexact (.inr hreturned)).trans (forall₂_congr fun i _ => ?_)
    exact ⟨And.left, fun hi => ⟨hi, fun t inlined b hplace => absurd hplace (hcalm t i inlined b)⟩⟩
  have hover : s'.shared.data = count ↔ ∀ i < count, s'.shared.ready i = true :=
    counter_of_calm WaitForAll.counts rfl hr' (WaitForAll.registered_after hafter) hcalm'
  rw [hready, ← hsame, ← hover, WaitForAll.Waiter.go]
  by_cases hfull : s'.shared.data = count <;> simp [hfull]

attribute [local instance] Machine.neZero_two

def begin : State (Fin 2) := Machine.initial (fun t => if t = 0 then .register 0 else .idle)
    (.start .start)

/-- The first of two futures is ready beforehand and thread 1 completes the second; on an empty list
the promise is broken at once. -/
theorem async_wait_for_all_exact_two :
    (∃ s : State (Fin 2), Exact 2 (fun _ => true) 0 s ∧ s.shared.data.result = ⟨true, false, 1⟩ ∧
    s.pc 1 = .user .idle) ∧
    ∃ s : State (Fin 2), Exact 0 (fun _ => true) 0 s ∧ Returned 0 s ∧
    s.shared.data.result = ⟨true, true, 1⟩ := by
  let labels : List (Label (Fin 2)) :=
    [.act 0 .ready, .act 0 .go, .act 0 .go, .act 0 .pending, .act 0 .go, .act 0 .go,
      .act 1 (.complete 1), .act 1 .go, .call 1 false, .act 1 .go, .act 1 .go, .call 1 false,
      .deliver 1, .wake 1, .call 1 false, .act 1 .go, .call 1 false, .act 1 .go, .call 1 false]
  let labelsEmpty : List (Label (Fin 2)) :=
    [.act 0 .go, .act 0 .go, .call 0 false, .act 0 .go, .act 0 .go, .call 0 false, .deliver 0,
      .wake 0, .call 0 false]
  have hreach :=
    ((system 2 (fun _ => true) 0).reach_of_run (fun _ _ => true) begin rfl labels rfl).reachable
  have hempty :=
    ((system 0 (fun _ => true) 0).reach_of_run
      (fun _ _ => true) begin rfl labelsEmpty rfl).reachable
  exact ⟨⟨_, async_wait_for_all_exact 2 (fun _ => true) 0 hreach, rfl, rfl⟩,
    ⟨_, async_wait_for_all_exact 0 (fun _ => true) 0 hempty, rfl, rfl⟩⟩

end AsyncAll

end GreenThread
