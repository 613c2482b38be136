import GreenThread.Future.Steps

/-!
# Continuations run once

`add_external_waiter` against the loop of `mark_ready_and_notify_`, which unlocks the mutex around
every call. A waiter is in the hands of the thread that adds it until it is pushed or called; a
pushed waiter is called when the loop over its state gets to it. The loop of a state is run by at
most one thread, at most once, and `ext_waiters_` does not change from the write of `ready_` on.
-/

namespace GreenThread

namespace Future

variable {V E π τ : Type} [DecidableEq π] [DecidableEq τ]

/-- How often each function has been called, and which calls of `add_external_waiter` have
returned. -/
structure History where
  calls : Waiter → Nat
  added : Waiter → Bool

/-- The function a step from `p` to `p'` calls. -/
def calledBy (p p' : Pos V E) : Option Waiter :=
  match p, p' with
  | .op _ c, .code (.continuation w _ below) => if below = c then some w else none
  | _, _ => none

/-- The function whose `add_external_waiter` returns. -/
def returnedBy (p p' : Pos V E) : Option Waiter :=
  match p, p' with
  | .op (.addEnd w) _, .code _ => some w
  | _, _ => none

def History.record (h : History) (p p' : Pos V E) : History where
  calls := fun w => if calledBy p p' = some w then h.calls w + 1 else h.calls w
  added := fun w => h.added w || decide (returnedBy p p' = some w)

/-- The runs of the library, watched. -/
def watched (may : τ → Op V E π → Bool) (green : τ → Bool) :
    TransitionSystem (State V E π τ × History) (Label V E π τ) :=
  (system may green).withHistory ⟨fun _ => 0, fun _ => false⟩
    fun h s l s' => h.record (pos s l.thread) (pos s' l.thread)

/-! ### What a position stands for -/

/-- The loop a frame belongs to: its shared state and the number of waiters it has called. -/
def Frame.loop : Frame V E → List (Nat × Nat)
  | .setNotify k | .setBounds k => [(k, 0)]
  | .setLoop k i _ | .setUnlock k i _ | .setRun k i _ => [(k, i)]
  | .setRelock k i _ => [(k, i + 1)]
  | _ => []

def Code.loops : Code → List (Nat × Nat)
  | .main => []
  | .continuation _ (.loop k i _) below => (k, i + 1) :: below.loops
  | .continuation _ .add below => below.loops

/-- The loops a thread is in, the innermost first. -/
def Pos.loops : Pos V E → List (Nat × Nat)
  | .code c => c.loops
  | .op f c => f.loop ++ c.loops
  | .failed => []

def Pos.keys (p : Pos V E) : List Nat := p.loops.map Prod.fst

/-- The waiter a thread has neither pushed nor called yet. -/
def Pos.adding : Pos V E → Option Waiter
  | .op (.addLock w) _ | .op (.addCheck w) _ | .op (.addPush w) _ | .op (.addUnlock w) _
  | .op (.addRun w) _ =>
    some w
  | _ => none

/-- The loop over the waiters of `k` goes to `n`. -/
def Iterated (s : Store V E π) (k n : Nat) : Prop :=
  (s.state k).ready = true ∧ n = (s.state k).extWaiters.length

/-- What a thread at the frame knows of the shared state. -/
def Frame.Known (s : Store V E π) (calls : Waiter → Nat) : Frame V E → Prop
  | .setStore k _ | .setReady k _ => (s.state k).ready = false
  | .setNotify k | .setBounds k => (s.state k).ready = true
  | .setLoop k _ n | .setRelock k _ n => Iterated s k n
  | .setUnlock k i n | .setRun k i n => Iterated s k n ∧ i < n
  | .addPush w => (s.state w.state).ready = false
  | .addUnlock w | .addRun w => (s.state w.state).ready = true
  | .addRelock w => 0 < calls w
  | .addEnd w => w ∈ (s.state w.state).extWaiters ∨ 0 < calls w
  | _ => True

def Code.Known (s : Store V E π) (calls : Waiter → Nat) : Code → Prop
  | .main => True
  | .continuation _ (.loop k _ n) below => Iterated s k n ∧ below.Known s calls
  | .continuation w .add below => 0 < calls w ∧ below.Known s calls

def Pos.Known (s : Store V E π) (calls : Waiter → Nat) : Pos V E → Prop
  | .code c => c.Known s calls
  | .op f c => f.Known s calls ∧ c.Known s calls
  | .failed => True

/-- What no step takes back: a state stays ready, and from then on its waiters stay. -/
structure Grows (s s' : Store V E π) : Prop where
  ready : ∀ k, (s.state k).ready = true → (s'.state k).ready = true
  frozen : ∀ k, (s.state k).ready = true → (s'.state k).extWaiters = (s.state k).extWaiters
  mem : ∀ k w, w ∈ (s.state k).extWaiters → w ∈ (s'.state k).extWaiters

variable {s s' : Store V E π} {calls calls' : Waiter → Nat}

omit [DecidableEq π] in
theorem Grows.of_eq (hstate : s'.state = s.state) : Grows s s' where
  ready := fun k h => by rwa [hstate]
  frozen := fun k _ => by rw [hstate]
  mem := fun k w h => by rwa [hstate]

omit [DecidableEq π] in
theorem Code.Known.ready {c : Code} (hc : c.Known s calls) {k d : Nat} (hmem : (k, d) ∈ c.loops) :
    (s.state k).ready = true := by
  induction c with
  | main => cases hmem
  | continuation w caller below ih =>
    cases caller with
    | loop k' i n =>
      rcases List.mem_cons.mp hmem with heq | hmem
      · cases heq
        exact hc.1.1
      · exact ih hc.2 hmem
    | add => exact ih hc.2 hmem

omit [DecidableEq π] in
theorem Pos.Known.ready {p : Pos V E} (hp : p.Known s calls) {k d : Nat} (hmem : (k, d) ∈ p.loops) :
    (s.state k).ready = true := by
  cases p with
  | code c => exact Code.Known.ready hp hmem
  | failed => cases hmem
  | op f c =>
    rcases List.mem_append.mp hmem with hmem | hmem
    · have hf := hp.1
      cases f <;> simp only [Frame.loop, List.mem_singleton, List.not_mem_nil,
        Prod.mk.injEq] at hmem <;>
        obtain ⟨rfl, rfl⟩ := hmem
      · exact hf
      · exact hf
      · exact hf.1
      · exact hf.1.1
      · exact hf.1.1
      · exact hf.1
    · exact Code.Known.ready hp.2 hmem

/-- The states whose waiters the thread goes through: it has read the bounds of `ext_waiters_`. -/
def Pos.iterates : Pos V E → Nat → Prop
  | .code c, k => ∃ d, (k, d) ∈ c.loops
  | .op (.setLoop k' _ _) c, k | .op (.setUnlock k' _ _) c, k | .op (.setRun k' _ _) c, k
  | .op (.setRelock k' _ _) c, k => k = k' ∨ ∃ d, (k, d) ∈ c.loops
  | .op _ c, k => ∃ d, (k, d) ∈ c.loops
  | .failed, _ => False

theorem Pos.iterates_of_code {f : Frame V E} {c : Code} {k : Nat} (h : ∃ d, (k, d) ∈ c.loops) :
    (Pos.op f c).iterates k := by
  cases f <;> first | exact h | exact .inr h

theorem Pos.loops_of_iterates {p : Pos V E} {k : Nat} (h : p.iterates k) :
    ∃ d, (k, d) ∈ p.loops := by
  cases p with
  | code c => exact h
  | failed => exact h.elim
  | op f c =>
    have hrest : (∃ d, (k, d) ∈ c.loops) → ∃ d, (k, d) ∈ (Pos.op f c).loops :=
      fun ⟨d, hd⟩ => ⟨d, List.mem_append_right _ hd⟩
    cases f with
    | setLoop k' i n | setUnlock k' i n | setRun k' i n | setRelock k' i n =>
      rcases h with rfl | h
      · exact ⟨_, List.mem_cons_self⟩
      · exact hrest h
    | _ => exact hrest h

section

omit [DecidableEq π]

theorem Code.Known.kept {c : Code} (hc : c.Known s calls)
    (hready : ∀ k, (s.state k).ready = true → (s'.state k).ready = true)
    (hcalls : ∀ w, calls w ≤ calls' w)
    (hkept : ∀ k, (∃ d, (k, d) ∈ c.loops) → (s'.state k).extWaiters = (s.state k).extWaiters) :
    c.Known s' calls' := by
  induction c with
  | main => trivial
  | continuation w caller below ih =>
    cases caller with
    | loop k i n =>
      refine ⟨⟨hready k hc.1.1, ?_⟩,
        ih hc.2 fun k' ⟨d, hd⟩ => hkept k' ⟨d, List.mem_cons_of_mem _ hd⟩⟩
      rw [hkept k ⟨i + 1, List.mem_cons_self⟩]
      exact hc.1.2
    | add => exact ⟨Nat.lt_of_lt_of_le hc.1 (hcalls w), ih hc.2 hkept⟩

/-- What a thread knows stays true when nothing is taken back, the waiters it goes through stay and
no state it is firm on becomes ready. -/
theorem Pos.Known.kept {p : Pos V E} (hp : p.Known s calls)
    (hready : ∀ k, (s.state k).ready = true → (s'.state k).ready = true)
    (hmem : ∀ k w, w ∈ (s.state k).extWaiters → w ∈ (s'.state k).extWaiters)
    (hcalls : ∀ w, calls w ≤ calls' w)
    (hkept : ∀ k, p.iterates k → (s'.state k).extWaiters = (s.state k).extWaiters)
    (hfirm : ∀ k, p.firm = some k → (s.state k).ready = false → (s'.state k).ready = false) :
    p.Known s' calls' := by
  cases p with
  | code c => exact Code.Known.kept hp hready hcalls hkept
  | failed => trivial
  | op f c =>
    refine ⟨?_, Code.Known.kept hp.2 hready hcalls fun k h => hkept k (Pos.iterates_of_code h)⟩
    have hf := hp.1
    have hiterated : ∀ {k n}, (Pos.op f c).iterates k → Iterated s k n → Iterated s' k n :=
      fun hk h => ⟨hready _ h.1, by rw [hkept _ hk]; exact h.2⟩
    cases f with
    | setStore k x | setReady k x => exact hfirm k rfl hf
    | addPush w => exact hfirm w.state rfl hf
    | setNotify k | setBounds k => exact hready k hf
    | addUnlock w | addRun w => exact hready w.state hf
    | setLoop k i n | setRelock k i n => exact hiterated (.inl rfl) hf
    | setUnlock k i n | setRun k i n => exact ⟨hiterated (.inl rfl) hf.1, hf.2⟩
    | addRelock w => exact Nat.lt_of_lt_of_le hf (hcalls w)
    | addEnd w => exact hf.imp (hmem w.state w) fun hpos => Nat.lt_of_lt_of_le hpos (hcalls w)
    | _ => trivial

theorem Code.Known.grows (h : Grows s s') (hcalls : ∀ w, calls w ≤ calls' w) {c : Code}
    (hc : c.Known s calls) : c.Known s' calls' :=
  hc.kept h.ready hcalls fun k ⟨_, hd⟩ => h.frozen k (hc.ready hd)

theorem Pos.Known.grows (h : Grows s s') (hcalls : ∀ w, calls w ≤ calls' w) {p : Pos V E}
    (hfirm : ∀ k, p.firm = some k → (s.state k).ready = false → (s'.state k).ready = false)
    (hp : p.Known s calls) : p.Known s' calls' :=
  hp.kept h.ready h.mem hcalls
  (fun k hk => h.frozen k (hp.ready (Pos.loops_of_iterates hk).choose_spec)) hfirm

end

theorem Pos.mem_keys {p : Pos V E} {k : Nat} : k ∈ p.keys ↔ ∃ d, (k, d) ∈ p.loops := by
  simp [Pos.keys]

omit [DecidableEq π] in
theorem Pos.Known.ready_of_key {p : Pos V E} (hp : p.Known s calls) {k : Nat} (hmem : k ∈ p.keys) :
    (s.state k).ready = true := by
  obtain ⟨d, hd⟩ := Pos.mem_keys.mp hmem
  exact hp.ready hd

/-! ### The steps that matter -/

/-- The steps of the library, told by what they do to the waiters. -/
inductive Event (s : Store V E π) : Pos V E → Pos V E → Store V E π → Prop
  | ready (k x c) : Event s (.op (.setReady k x) c) (.op (.setNotify k) c)
      (s.setState k { s.state k with ready := true })
  | push (w c) : Event s (.op (.addPush w) c) (.op (.addEnd w) c)
      (s.setState w.state { s.state w.state with
        extWaiters := (s.state w.state).extWaiters ++ [w] })
  | run (k i n w c) : (s.state k).extWaiters[i]? = some w →
      Event s (.op (.setRun k i n) c) (.code (.continuation w (.loop k i n) c)) s
  | runNow (w c) : Event s (.op (.addRun w) c) (.code (.continuation w .add c)) s
  | ended (k i n c) : n ≤ i → Event s (.op (.setLoop k i n) c) (.op (.setEnd k false) c) s
  | register (k c) : Event s (.code c) (.op (.addLock ⟨k, s.nextWaiter⟩) c)
      { s with nextWaiter := s.nextWaiter + 1 }
  | registered (w c) : Event s (.op (.addEnd w) c) (.code c) s
  | quiet {p p' s'} : p'.loops = p.loops → p'.adding = p.adding → calledBy p p' = none →
      returnedBy p p' = none →
      (∀ k, (s'.state k).ready = (s.state k).ready ∧
        (s'.state k).extWaiters = (s.state k).extWaiters) →
      s'.nextWaiter = s.nextWaiter → (∀ calls, p.Known s calls → p'.Known s calls) → Event s p p' s'

theorem Code.below_ne (w : Waiter) (caller : Caller) (below : Code) :
    below ≠ .continuation w caller below := by
  intro heq
  have hsize := congrArg sizeOf heq
  simp only [Code.continuation.sizeOf_spec] at hsize
  omega

theorem calledBy_self (f : Frame V E) (c : Code) : calledBy (.op f c) (.code c) = none := by
  cases c with
  | main => rfl
  | continuation w caller below => simp [calledBy, Code.below_ne]

omit [DecidableEq π] in
private theorem abandon_event (c : Code) (future : Option Nat) (hstate : s'.state = s.state)
    (hnext : s'.nextWaiter = s.nextWaiter) : Event s (.code c) (abandon c future) s' := by
  cases future with
  | none =>
    exact .quiet rfl rfl rfl rfl (fun k => by rw [hstate]; exact ⟨rfl, rfl⟩) hnext fun _ h => h
  | some k =>
    exact .quiet rfl rfl rfl rfl (fun k => by rw [hstate]; exact ⟨rfl, rfl⟩) hnext fun _ h =>
      ⟨trivial, h⟩

private theorem start_event {c : Code} {o : Op V E π} {p' : Pos V E}
    (hstart : start s c o = some (p', s')) :
    Event s (.code c) p' s' := by
  have hsame : ∀ {s'' : Store V E π}, s''.state = s.state → s''.nextWaiter = s.nextWaiter →
      Event s (.code c) (.code c) s'' := fun hstate hnext =>
    .quiet rfl rfl rfl rfl (fun k => by rw [hstate]; exact ⟨rfl, rfl⟩) hnext fun _ h => h
  cases o with
  | go => cases hstart
  | finish =>
    obtain ⟨p, hfinish, heq⟩ := Option.map_eq_some_iff.mp hstart
    cases heq
    cases c with
    | main => cases hfinish
    | continuation w caller below =>
      cases caller <;> cases hfinish <;> exact .quiet rfl rfl rfl rfl
        (fun k => ⟨rfl, rfl⟩) rfl fun _ h => h
  | set | ownerDestroyed | get =>
    simp only [start, Option.ite_none_right_eq_some, Option.some.injEq, Prod.mk.injEq] at hstart
    obtain ⟨-, rfl, rfl⟩ := hstart
    exact .quiet rfl rfl rfl rfl (fun k => ⟨rfl, rfl⟩) rfl fun _ h => ⟨trivial, h⟩
  | addWaiter k =>
    simp only [start, Option.ite_none_right_eq_some, Option.some.injEq, Prod.mk.injEq] at hstart
    obtain ⟨-, rfl, rfl⟩ := hstart
    exact .register k c
  | construct p | moveConstruct p other | swap p other =>
    simp only [start] at hstart
    split at hstart <;> cases hstart
    exact hsame rfl rfl
  | moveAssign p other =>
    simp only [start] at hstart
    split at hstart
    · split at hstart <;> cases hstart
      exact abandon_event c _ rfl rfl
    · cases hstart
  | getFuture p =>
    simp only [start] at hstart
    split at hstart
    · cases hstart
    · split at hstart <;> cases hstart <;> exact hsame rfl rfl
  | setPromise p x =>
    simp only [start] at hstart
    split at hstart <;> cases hstart
    · exact hsame rfl rfl
    · exact .quiet rfl rfl rfl rfl (fun k => ⟨rfl, rfl⟩) rfl fun _ h => ⟨trivial, h⟩
  | destroy p =>
    simp only [start] at hstart
    split at hstart <;> cases hstart
    exact abandon_event c _ rfl rfl

omit [DecidableEq π] in
private theorem go_event {f : Frame V E} {c : Code} {p' : Pos V E}
    (hgo : f.go s c = some (p', s')) :
    Event s (.op f c) p' s' := by
  cases f with
  | setCheck k x =>
    cases hgo
    refine .quiet ?_ ?_ rfl rfl (fun k => ⟨rfl, rfl⟩) rfl fun calls h => ⟨?_, h.2⟩
    · split <;> rfl
    · split <;> rfl
    · split
      · trivial
      · rename_i hready
        exact Bool.not_eq_true _ |>.mp hready
  | setStore k x =>
    cases hgo
    refine .quiet rfl rfl rfl rfl (fun k' => ?_) rfl fun calls h => h
    by_cases hk : k' = k
    · subst hk
      cases x <;> simp [Store.setState, SharedState.store]
    · simp [Store.setState, hk]
  | setReady k x =>
    cases hgo
    exact .ready k x c
  | setBounds k =>
    cases hgo
    exact .quiet rfl rfl rfl rfl (fun k => ⟨rfl, rfl⟩) rfl fun calls h => ⟨⟨h.1, rfl⟩, h.2⟩
  | setLoop k i n =>
    cases hgo
    split
    · rename_i hlt
      exact .quiet rfl rfl rfl rfl (fun k => ⟨rfl, rfl⟩) rfl fun calls h => ⟨⟨h.1, hlt⟩, h.2⟩
    · rename_i hge
      exact .ended k i n c (Nat.le_of_not_lt hge)
  | setRun k i n =>
    obtain ⟨w, hw, heq⟩ := Option.map_eq_some_iff.mp hgo
    cases heq
    exact .run k i n w c hw
  | dropCheck k =>
    cases hgo
    refine .quiet ?_ ?_ rfl rfl (fun k => ⟨rfl, rfl⟩) rfl fun calls h => ⟨?_, h.2⟩
    · split <;> rfl
    · split <;> rfl
    · split <;> trivial
  | addCheck w =>
    cases hgo
    refine .quiet ?_ ?_ rfl rfl (fun k => ⟨rfl, rfl⟩) rfl fun calls h => ⟨?_, h.2⟩
    · split <;> rfl
    · split <;> rfl
    · split
      · rename_i hready
        exact hready
      · rename_i hready
        exact Bool.not_eq_true _ |>.mp hready
  | addPush w =>
    cases hgo
    exact .push w c
  | addRun w =>
    cases hgo
    exact .runNow w c
  | getCheck k read =>
    cases hgo
    refine .quiet ?_ ?_ rfl rfl (fun k => ⟨rfl, rfl⟩) rfl fun calls h => ⟨?_, h.2⟩
    · split <;> [split; skip] <;> rfl
    · split <;> [split; skip] <;> rfl
    · split <;> [split; skip] <;> trivial
  | getRead k =>
    obtain ⟨x, -, heq⟩ := Option.map_eq_some_iff.mp hgo
    cases heq
    exact .quiet rfl rfl rfl rfl (fun k => ⟨rfl, rfl⟩) rfl fun calls h => h
  | _ => cases hgo

omit [DecidableEq π] in
private theorem ret_event {f : Frame V E} {c : Code} {call : Call Nat Nat}
    (hcall : f.call = some call) :
    Event s (.op f c) (f.ret c) s := by
  cases f with
  | addEnd w => exact .registered w c
  | setEnd k threw | getEnd k result =>
    exact .quiet rfl rfl (calledBy_self _ c) rfl (fun k => ⟨rfl, rfl⟩) rfl fun _ h => h.2
  | setLock | setNotify | setUnlock | setRelock | dropLock | addLock | addUnlock
  | getLock | getWait =>
    exact .quiet rfl rfl rfl rfl (fun k => ⟨rfl, rfl⟩) rfl fun _ h =>
      ⟨by first | trivial | exact h.1, h.2⟩
  | addRelock w =>
    exact .quiet rfl rfl rfl rfl (fun k => ⟨rfl, rfl⟩) rfl fun _ h => ⟨.inr h.1, h.2⟩
  | _ => cases hcall

theorem LibStep.event {p p' : Pos V E} {o : Op V E π} (h : LibStep s p o p' s') :
    Event s p p' s' := by
  cases h with
  | start hstart => exact start_event hstart
  | go hgo => exact go_event hgo
  | ret hcall => exact ret_event hcall

omit [DecidableEq π] in
theorem Event.grows {p p' : Pos V E} (h : Event s p p' s') {calls : Waiter → Nat}
    (hp : p.Known s calls) :
    Grows s s' := by
  cases h with
  | run | runNow | ended | register | registered => exact .of_eq rfl
  | quiet _ _ _ _ hstate =>
    exact ⟨fun k h => (hstate k).1.trans h, fun k _ => (hstate k).2, fun k w h => (hstate k).2 ▸ h⟩
  | ready k x c =>
    refine ⟨fun k' h => ?_, fun k' _ => ?_, fun k' w h => ?_⟩ <;> by_cases hk : k' = k <;>
      simp_all [Store.setState]
  | push w c =>
    have hready : (s.state w.state).ready = false := hp.1
    refine ⟨fun k h => ?_, fun k h => ?_, fun k w' h => ?_⟩ <;> by_cases hk : k = w.state <;>
      simp_all [Store.setState]

/-! ### The accounting -/

theorem History.record_quiet (h : History) {p p' : Pos V E} (hcalled : calledBy p p' = none)
    (hreturned : returnedBy p p' = none) : h.record p p' = h := by
  simp [History.record, hcalled, hreturned]

theorem History.le_record (h : History) (p p' : Pos V E) (w : Waiter) :
    h.calls w ≤ (h.record p p').calls w := by
  simp only [History.record]
  split <;> omega

theorem History.record_calls_ne (h : History) {p p' : Pos V E} {w : Waiter}
    (hw : calledBy p p' ≠ some w) :
    (h.record p p').calls w = h.calls w := by
  simp [History.record, hw]

theorem History.record_calls_self (h : History) {p p' : Pos V E} {w : Waiter}
    (hw : calledBy p p' = some w) :
    (h.record p p').calls w = h.calls w + 1 := by
  simp [History.record, hw]

theorem calledBy_continuation (f : Frame V E) (w : Waiter) (caller : Caller) (c : Code) :
    calledBy (.op f c) (.code (.continuation w caller c)) = some w := by
  simp [calledBy]

/-- The loop over the waiters of `k` has called the `j`-th of them, if there still is one. -/
def Passed (pos : τ → Pos V E) (s : Store V E π) (k j : Nat) : Prop :=
  (s.state k).ready = true ∧ ∀ t d, (k, d) ∈ (pos t).loops → j < d

structure Accounted (pos : τ → Pos V E) (s : Store V E π) (h : History) : Prop where
  known : ∀ t, (pos t).Known s h.calls
  nodup : ∀ t, (pos t).keys.Nodup
  single : ∀ {t u k}, k ∈ (pos t).keys → k ∈ (pos u).keys → t = u
  adding : ∀ {t w}, (pos t).adding = some w →
    h.calls w = 0 ∧ w.id < s.nextWaiter ∧ w ∉ (s.state w.state).extWaiters
  adder : ∀ {t u w}, (pos t).adding = some w → (pos u).adding = some w → t = u
  queued : ∀ {k w}, w ∈ (s.state k).extWaiters → w.state = k ∧ w.id < s.nextWaiter
  distinct : ∀ k, (s.state k).extWaiters.Nodup
  called : ∀ {k j w}, (s.state k).extWaiters[j]? = some w →
    (Passed pos s k j → h.calls w = 1) ∧ (¬ Passed pos s k j → h.calls w = 0)
  once : ∀ w, h.calls w ≤ 1
  ready : ∀ w, 0 < h.calls w → (s.state w.state).ready = true
  fresh : ∀ w, s.nextWaiter ≤ w.id → h.calls w = 0
  added : ∀ w, h.added w = true → w ∈ (s.state w.state).extWaiters ∨ 0 < h.calls w

section

variable {pos : τ → Pos V E} {h : History} {t : τ} {p' : Pos V E}

section

omit [DecidableEq π]

theorem passed_update (s : Store V E π) (t : τ) (p : Pos V E) (k j : Nat) :
    Passed (Function.update pos t p) s k j ↔ (s.state k).ready = true ∧
      (∀ d, (k, d) ∈ p.loops → j < d) ∧ ∀ u, u ≠ t → ∀ d, (k, d) ∈ (pos u).loops → j < d := by
  refine and_congr_right fun _ =>
    ⟨fun hall => ⟨fun d hd => hall t d (by rwa [Function.update_self]),
    fun u hu d hd => hall u d (by rwa [Function.update_of_ne hu])⟩, fun ⟨hmine, hrest⟩ u d hd => ?_⟩
  by_cases hu : u = t
  · subst hu
    rw [Function.update_self] at hd
    exact hmine d hd
  · rw [Function.update_of_ne hu] at hd
    exact hrest u hu d hd

theorem passed_iff (s : Store V E π) (t : τ) (k j : Nat) :
    Passed pos s k j ↔ (s.state k).ready = true ∧
      (∀ d, (k, d) ∈ (pos t).loops → j < d) ∧ ∀ u, u ≠ t → ∀ d, (k, d) ∈ (pos u).loops → j < d := by
  rw [← passed_update s t (pos t) k j, Function.update_eq_self]

theorem Event.known {p : Pos V E} (hevent : Event s p p' s') (hp : p.Known s h.calls) :
    p'.Known s' (h.record p p').calls := by
  have hgrows := hevent.grows hp
  have hle := h.le_record p p'
  cases hevent with
  | ready k x c => exact ⟨by simp [Frame.Known, Store.setState], Code.Known.grows hgrows hle hp.2⟩
  | push w c => exact ⟨.inl (by simp [Store.setState]), Code.Known.grows hgrows hle hp.2⟩
  | run k i n w c => exact ⟨hp.1.1, Code.Known.grows hgrows hle hp.2⟩
  | runNow w c =>
    refine ⟨?_, Code.Known.grows hgrows hle hp.2⟩
    simp [History.record, calledBy]
  | ended k i n c => exact ⟨trivial, Code.Known.grows hgrows hle hp.2⟩
  | register k c => exact ⟨trivial, Code.Known.grows hgrows hle hp⟩
  | registered w c => exact Code.Known.grows hgrows hle hp.2
  | quiet _ _ hcalled hreturned hstate _ hknown =>
    rw [h.record_quiet hcalled hreturned]
    refine Pos.Known.grows hgrows (fun w => Nat.le_refl _) (fun k _ hk => ?_) (hknown _ hp)
    rw [(hstate k).1, hk]

/-- A state becomes ready by a step of a thread that is firm on it. -/
theorem Event.firm_of_ready {p : Pos V E} (hevent : Event s p p' s') {k : Nat}
    (hbefore : (s.state k).ready = false) (hafter : (s'.state k).ready = true) :
    p.firm = some k := by
  cases hevent with
  | ready k' x c =>
    by_cases hk : k = k'
    · rw [hk]
      rfl
    · simp [Store.setState, hk, hbefore] at hafter
  | push w c => by_cases hk : k = w.state <;> simp_all [Store.setState]
  | run | runNow | ended | register | registered => simp_all
  | quiet _ _ _ _ hstate => simp_all

theorem Event.keys {p : Pos V E} (hevent : Event s p p' s') (hp : p.Known s h.calls) :
    (∃ k, (s.state k).ready = false ∧ p'.keys = k :: p.keys) ∨ p'.keys.Sublist p.keys := by
  cases hevent with
  | ready k x c => exact .inl ⟨k, hp.1, rfl⟩
  | push | run | runNow | register | registered => exact .inr (List.Sublist.refl _)
  | ended k i n c => exact .inr (List.sublist_cons_self _ _)
  | quiet hloops => exact .inr (by rw [Pos.keys, Pos.keys, hloops])

theorem Event.nodup {p : Pos V E} (hevent : Event s p p' s') (hp : p.Known s h.calls)
    (hnodup : p.keys.Nodup) :
    p'.keys.Nodup := by
  rcases hevent.keys hp with ⟨k, hk, heq⟩ | hsub
  · rw [heq, List.nodup_cons]
    refine ⟨fun hmem => ?_, hnodup⟩
    rw [hp.ready_of_key hmem] at hk
    cases hk
  · exact hnodup.sublist hsub

theorem Event.passed (hevent : Event s (pos t) p' s') (hknown : (pos t).Known s h.calls)
    {k j : Nat} {w : Waiter} (hget : (s.state k).extWaiters[j]? = some w)
    (hw : calledBy (pos t) p' ≠ some w) :
    Passed (Function.update pos t p') s' k j ↔ Passed pos s k j := by
  rw [passed_update, passed_iff s t]
  generalize pos t = p at hevent hknown hw
  cases hevent with
  | runNow | register | registered => exact Iff.rfl
  | quiet hloops _ _ _ hstate => rw [hloops, (hstate k).1]
  | push w' c =>
    by_cases hk : k = w'.state
    · subst hk
      simp [Store.setState, Pos.loops, Frame.loop]
    · simp [Store.setState, Pos.loops, Frame.loop, hk]
  | ready k' x c =>
    by_cases hk : k = k'
    · subst hk
      refine iff_of_false (fun hpassed => ?_) (fun hpassed => ?_)
      · exact absurd (hpassed.2.1 0 List.mem_cons_self) (Nat.not_lt_zero j)
      · exact Bool.noConfusion (hpassed.1.symm.trans hknown.1)
    · simp [Store.setState, Pos.loops, Frame.loop, hk]
  | ended k' i n c hle =>
    obtain ⟨⟨-, hn⟩, -⟩ := hknown
    refine and_congr_right fun _ => and_congr_left fun _ =>
      ⟨fun hall d hd => ?_, fun hall d hd => ?_⟩
    · rcases List.mem_cons.mp hd with heq | hd
      · cases heq
        have hj := (List.getElem?_eq_some_iff.mp hget).1
        omega
      · exact hall d hd
    · exact hall d (List.mem_cons_of_mem _ hd)
  | run k' i n w' c hget' =>
    rw [calledBy_continuation, ne_eq, Option.some.injEq] at hw
    refine and_congr_right fun _ => and_congr_left fun _ =>
      ⟨fun hall d hd => ?_, fun hall d hd => ?_⟩ <;>
      rcases List.mem_cons.mp hd with heq | hd
    · cases heq
      have hlt := hall (i + 1) List.mem_cons_self
      have hne : j ≠ i := by
        rintro rfl
        exact hw (Option.some.inj (hget'.symm.trans hget))
      omega
    · exact hall d (List.mem_cons_of_mem _ hd)
    · cases heq
      exact Nat.lt_succ_of_lt (hall i List.mem_cons_self)
    · exact hall d (List.mem_cons_of_mem _ hd)

end

namespace Accounted

variable (hacc : Accounted pos s h)
    (hfirm : ∀ {t u k}, (pos t).firm = some k → (pos u).firm = some k → t = u)
  (hevent : Event s (pos t) p' s')
include hacc

omit [DecidableEq π] [DecidableEq τ] in
/-- The loops of the other threads do not touch the state of a loop of `t`. -/
theorem not_mem_of_key {k : Nat} (hkey : k ∈ (pos t).keys) {u : τ} (hu : u ≠ t) {d : Nat} :
    (k, d) ∉ (pos u).loops := fun hmem =>
  hu (hacc.single (Pos.mem_keys.mpr ⟨d, hmem⟩) hkey)

include hevent

section

omit [DecidableEq π]

include hfirm in
theorem step_known (u : τ) : (Function.update pos t p' u).Known s' (h.record (pos t) p').calls := by
  by_cases hu : u = t
  · subst hu
    rw [Function.update_self]
    exact hevent.known (hacc.known u)
  · rw [Function.update_of_ne hu]
    refine Pos.Known.grows (hevent.grows (hacc.known t)) (h.le_record _ _) (fun k hk hbefore => ?_)
      (hacc.known u)
    by_contra hafter
    exact hu (hfirm hk (hevent.firm_of_ready hbefore (Bool.not_eq_false _ |>.mp hafter)))

theorem step_nodup (u : τ) : (Function.update pos t p' u).keys.Nodup := by
  by_cases hu : u = t
  · subst hu
    rw [Function.update_self]
    exact hevent.nodup (hacc.known u) (hacc.nodup u)
  · rw [Function.update_of_ne hu]
    exact hacc.nodup u

theorem key_cases {u : τ} {k : Nat} (hmem : k ∈ (Function.update pos t p' u).keys) :
    k ∈ (pos u).keys ∨ (u = t ∧ ∀ v, k ∉ (pos v).keys) := by
  by_cases hu : u = t
  · subst hu
    rw [Function.update_self] at hmem
    rcases hevent.keys (hacc.known u) with ⟨k', hk', heq⟩ | hsub
    · rw [heq, List.mem_cons] at hmem
      rcases hmem with rfl | hmem
      · refine .inr ⟨rfl, fun v hv => ?_⟩
        rw [(hacc.known v).ready_of_key hv] at hk'
        cases hk'
      · exact .inl hmem
    · exact .inl (hsub.subset hmem)
  · rw [Function.update_of_ne hu] at hmem
    exact .inl hmem

theorem step_single {u v : τ} {k : Nat} (hu : k ∈ (Function.update pos t p' u).keys)
    (hv : k ∈ (Function.update pos t p' v).keys) : u = v := by
  rcases hacc.key_cases hevent hu with hold | ⟨rfl, hnone⟩ <;>
    rcases hacc.key_cases hevent hv with hold' | ⟨rfl, hnone'⟩
  · exact hacc.single hold hold'
  · exact absurd hold (hnone' u)
  · exact absurd hold' (hnone v)
  · rfl

end

omit [DecidableEq π] [DecidableEq τ] in
theorem calls_of_calledBy {w : Waiter} (hw : calledBy (pos t) p' = some w) :
    (s.state w.state).ready = true ∧ s' = s ∧ w.id < s.nextWaiter ∧
      ((pos t).adding = some w ∨ w ∈ (s.state w.state).extWaiters) := by
  have hknown := hacc.known t
  have hadding := @hacc.adding t
  generalize pos t = p at hevent hw hknown hadding
  cases hevent with
  | ready | push | ended | register => cases hw
  | registered w c =>
    rw [calledBy_self] at hw
    cases hw
  | quiet _ _ hcalled =>
    rw [hcalled] at hw
    cases hw
  | run k i n w' c hget =>
    rw [calledBy_continuation, Option.some.injEq] at hw
    subst hw
    have hmem := List.mem_of_getElem? hget
    obtain ⟨rfl, hid⟩ := hacc.queued hmem
    exact ⟨hknown.1.1.1, rfl, hid, .inr hmem⟩
  | runNow w' c =>
    rw [calledBy_continuation, Option.some.injEq] at hw
    subst hw
    exact ⟨hknown.1, rfl, (hadding rfl).2.1, .inl rfl⟩

omit [DecidableEq π] in
theorem step_adding {u : τ} {w : Waiter} (hadding : (Function.update pos t p' u).adding = some w) :
    (h.record (pos t) p').calls w = 0 ∧ w.id < s'.nextWaiter ∧
    w ∉ (s'.state w.state).extWaiters := by
  by_cases hu : u = t
  · subst hu
    rw [Function.update_self] at hadding
    have hold := @hacc.adding u w
    generalize pos u = p at hevent hold
    cases hevent with
    | ready | push | run | runNow | ended | registered => cases hadding
    | register k c =>
      cases hadding
      refine ⟨hacc.fresh _ (Nat.le_refl _), Nat.lt_succ_self _, fun hmem => ?_⟩
      exact absurd (hacc.queued hmem).2 (Nat.lt_irrefl _)
    | quiet _ hsame hcalled hreturned hstate hnext =>
      obtain ⟨hcalls, hid, hmem⟩ := hold (hsame ▸ hadding)
      rw [h.record_quiet hcalled hreturned, hnext, (hstate w.state).2]
      exact ⟨hcalls, hid, hmem⟩
  · rw [Function.update_of_ne hu] at hadding
    obtain ⟨hcalls, hid, hmem⟩ := hacc.adding hadding
    have hne : (pos t).adding ≠ some w := fun hw => hu (hacc.adder hadding hw)
    have hcalls' : (h.record (pos t) p').calls w = 0 := by
      rw [h.record_calls_ne fun hw => ?_, hcalls]
      rcases (hacc.calls_of_calledBy hevent hw).2.2.2 with hmine | hin
      · exact hne hmine
      · exact hmem hin
    refine ⟨hcalls', ?_⟩
    generalize pos t = p at hevent hne
    cases hevent with
    | run | runNow | ended | registered => exact ⟨hid, hmem⟩
    | register => exact ⟨Nat.lt_succ_of_lt hid, hmem⟩
    | quiet _ _ _ _ hstate hnext => exact ⟨hnext ▸ hid, (hstate w.state).2 ▸ hmem⟩
    | ready k x c =>
      refine ⟨hid, ?_⟩
      by_cases hk : w.state = k
      · subst hk
        simpa [Store.setState] using hmem
      · simpa [Store.setState, hk] using hmem
    | push w' c =>
      have hw : w ≠ w' := fun heq => hne (by rw [heq]; rfl)
      refine ⟨hid, ?_⟩
      by_cases hk : w.state = w'.state
      · simpa [Store.setState, hk, hw] using hk ▸ hmem
      · simpa [Store.setState, hk] using hmem

omit [DecidableEq π] hacc in
theorem adding_cases {u : τ} {w : Waiter} (hadding : (Function.update pos t p' u).adding = some w) :
    (pos u).adding = some w ∨ (u = t ∧ w.id = s.nextWaiter) := by
  by_cases hu : u = t
  · subst hu
    rw [Function.update_self] at hadding
    generalize pos u = p at hevent
    cases hevent with
    | ready | push | run | runNow | ended | registered => cases hadding
    | register k c =>
      cases hadding
      exact .inr ⟨rfl, rfl⟩
    | quiet _ hsame => exact .inl (hsame ▸ hadding)
  · rw [Function.update_of_ne hu] at hadding
    exact .inl hadding

omit [DecidableEq π] in
theorem step_adder {u v : τ} {w : Waiter} (hu : (Function.update pos t p' u).adding = some w)
    (hv : (Function.update pos t p' v).adding = some w) : u = v := by
  rcases adding_cases hevent hu with hold | ⟨rfl, hnew⟩ <;>
    rcases adding_cases hevent hv with hold' | ⟨rfl, hnew'⟩
  · exact hacc.adder hold hold'
  · exact absurd (hacc.adding hold).2.1 (by omega)
  · exact absurd (hacc.adding hold').2.1 (by omega)
  · rfl

omit [DecidableEq π] [DecidableEq τ] in
theorem extWaiters_cases (k : Nat) :
    (s'.state k).extWaiters = (s.state k).extWaiters ∨
      ∃ w, (pos t).adding = some w ∧ w.state = k ∧ (s.state k).ready = false ∧
        (s'.state k).ready = false ∧ (s'.state k).extWaiters = (s.state k).extWaiters ++ [w] := by
  have hknown := hacc.known t
  generalize pos t = p at hevent hknown
  cases hevent with
  | run | runNow | ended | register | registered => exact .inl rfl
  | quiet _ _ _ _ hstate => exact .inl (hstate k).2
  | ready k' x c =>
    left
    by_cases hk : k = k'
    · subst hk
      simp [Store.setState]
    · simp [Store.setState, hk]
  | push w c =>
    by_cases hk : k = w.state
    · subst hk
      have hready : (s.state w.state).ready = false := hknown.1
      exact .inr ⟨w, rfl, rfl, hready, by simp [Store.setState, hready], by simp [Store.setState]⟩
    · exact .inl (by simp [Store.setState, hk])

omit [DecidableEq π] [DecidableEq τ] hacc in
theorem nextWaiter_le : s.nextWaiter ≤ s'.nextWaiter := by
  generalize pos t = p at hevent
  cases hevent with
  | register => exact Nat.le_succ _
  | quiet _ _ _ _ _ hnext => exact Nat.le_of_eq hnext.symm
  | _ => exact Nat.le_refl _

omit [DecidableEq π] [DecidableEq τ] in
theorem step_queued {k : Nat} {w : Waiter} (hmem : w ∈ (s'.state k).extWaiters) :
    w.state = k ∧ w.id < s'.nextWaiter := by
  have hle := nextWaiter_le hevent
  rcases hacc.extWaiters_cases hevent k with heq | ⟨w', hadding, hstate, -, -, heq⟩
  · rw [heq] at hmem
    obtain ⟨hk, hid⟩ := hacc.queued hmem
    exact ⟨hk, Nat.lt_of_lt_of_le hid hle⟩
  · rw [heq, List.mem_append, List.mem_singleton] at hmem
    rcases hmem with hmem | rfl
    · obtain ⟨hk, hid⟩ := hacc.queued hmem
      exact ⟨hk, Nat.lt_of_lt_of_le hid hle⟩
    · exact ⟨hstate, Nat.lt_of_lt_of_le (hacc.adding hadding).2.1 hle⟩

omit [DecidableEq π] [DecidableEq τ] in
theorem step_distinct (k : Nat) : (s'.state k).extWaiters.Nodup := by
  rcases hacc.extWaiters_cases hevent k with heq | ⟨w', hadding, rfl, -, -, heq⟩
  · rw [heq]
    exact hacc.distinct k
  · rw [heq, ← List.concat_eq_append]
    exact (hacc.distinct _).concat (hacc.adding hadding).2.2

omit [DecidableEq τ] [DecidableEq π] in
theorem step_ready (w : Waiter) (hpos : 0 < (h.record (pos t) p').calls w) :
    (s'.state w.state).ready = true := by
  by_cases hw : calledBy (pos t) p' = some w
  · obtain ⟨hready, rfl, -⟩ := hacc.calls_of_calledBy hevent hw
    exact hready
  · rw [h.record_calls_ne hw] at hpos
    exact (hevent.grows (hacc.known t)).ready _ (hacc.ready w hpos)

omit [DecidableEq π] [DecidableEq τ] in
theorem step_fresh (w : Waiter) (hid : s'.nextWaiter ≤ w.id) :
    (h.record (pos t) p').calls w = 0 := by
  have hle := nextWaiter_le hevent
  rw [h.record_calls_ne fun hw => ?_]
  · exact hacc.fresh w (by omega)
  · obtain ⟨-, -, hold, -⟩ := hacc.calls_of_calledBy hevent hw
    omega

omit [DecidableEq τ] [DecidableEq π] in
theorem step_added (w : Waiter) (hadded : (h.record (pos t) p').added w = true) :
    w ∈ (s'.state w.state).extWaiters ∨ 0 < (h.record (pos t) p').calls w := by
  have hgrows := hevent.grows (hacc.known t)
  have hle := h.le_record (pos t) p' w
  have hold : w ∈ (s.state w.state).extWaiters ∨ 0 < h.calls w := by
    simp only [History.record, Bool.or_eq_true, decide_eq_true_eq] at hadded
    rcases hadded with hadded | hreturned
    · exact hacc.added w hadded
    · have hknown := hacc.known t
      generalize pos t = p at hevent hknown hreturned
      cases hevent with
      | registered w' c =>
        cases hreturned
        exact hknown.1
      | quiet _ _ _ hnone =>
        rw [hnone] at hreturned
        cases hreturned
      | _ => cases hreturned
  exact hold.imp (hgrows.mem _ w) fun hpos => Nat.lt_of_lt_of_le hpos hle

section

omit [DecidableEq π]

/-- The loop calls each waiter when it gets to it. -/
theorem passed_called {k j : Nat} {w : Waiter} (hget : (s.state k).extWaiters[j]? = some w)
    (hw : calledBy (pos t) p' = some w) :
    ¬ Passed pos s k j ∧ Passed (Function.update pos t p') s' k j := by
  have hmem := List.mem_of_getElem? hget
  have hknown := hacc.known t
  have hnodup := hacc.nodup t
  have hadding := @hacc.adding t w
  have hothers : ∀ {k}, k ∈ (pos t).keys → ∀ u, u ≠ t → ∀ d, (k, d) ∉ (pos u).loops :=
    fun hkey u hu d => hacc.not_mem_of_key hkey hu
  rw [passed_update, passed_iff s t]
  generalize pos t = p at hevent hknown hnodup hothers hw hadding
  cases hevent with
  | ready | push | ended | register => cases hw
  | registered w' c =>
    rw [calledBy_self] at hw
    cases hw
  | quiet _ _ hcalled =>
    rw [hcalled] at hw
    cases hw
  | runNow w' c =>
    rw [calledBy_continuation, Option.some.injEq] at hw
    subst hw
    obtain ⟨rfl, -⟩ := hacc.queued hmem
    exact absurd hmem (hadding rfl).2.2
  | run k' i n w' c hget' =>
    rw [calledBy_continuation, Option.some.injEq] at hw
    subst hw
    obtain rfl : k' = k := (hacc.queued (List.mem_of_getElem? hget')).1.symm.trans
      (hacc.queued hmem).1
    obtain rfl : i = j :=
      (List.getElem?_inj (List.getElem?_eq_some_iff.mp hget').1 (hacc.distinct k')).mp
      (hget'.trans hget.symm)
    rw [Pos.keys, Pos.loops, Frame.loop, List.singleton_append, List.map_cons,
      List.nodup_cons] at hnodup
    refine ⟨fun hpassed => absurd (hpassed.2.1 i List.mem_cons_self) (Nat.lt_irrefl i),
      hknown.1.1.1,
      fun d hd => ?_, fun u hu d hd => absurd hd (hothers List.mem_cons_self u hu d)⟩
    rcases List.mem_cons.mp hd with heq | hd
    · cases heq
      exact Nat.lt_succ_self i
    · exact absurd (List.mem_map_of_mem (f := Prod.fst) hd) hnodup.1

theorem step_called {k j : Nat} {w : Waiter} (hget : (s'.state k).extWaiters[j]? = some w) :
    (Passed (Function.update pos t p') s' k j → (h.record (pos t) p').calls w = 1) ∧
      (¬ Passed (Function.update pos t p') s' k j → (h.record (pos t) p').calls w = 0) := by
  rcases hacc.extWaiters_cases hevent k with heq | ⟨w', hadding, rfl, hready, hready', heq⟩
  · rw [heq] at hget
    by_cases hw : calledBy (pos t) p' = some w
    · obtain ⟨hbefore, hafter⟩ := hacc.passed_called hevent hget hw
      rw [h.record_calls_self hw, (hacc.called hget).2 hbefore]
      exact ⟨fun _ => rfl, fun hnot => absurd hafter hnot⟩
    · rw [h.record_calls_ne hw, hevent.passed (hacc.known t) hget hw]
      exact hacc.called hget
  · -- the state is not ready, so that nothing of it has been called
    have hzero : h.calls w = 0 ∧ w.state = w'.state := by
      rw [heq] at hget
      have hmem := List.mem_of_getElem? hget
      rw [List.mem_append, List.mem_singleton] at hmem
      rcases hmem with hmem | rfl
      · obtain ⟨i, hi⟩ := List.mem_iff_getElem?.mp hmem
        exact ⟨(hacc.called hi).2 fun hpassed => Bool.noConfusion (hpassed.1.symm.trans hready),
          (hacc.queued hmem).1⟩
      · exact ⟨(hacc.adding hadding).1, rfl⟩
    have hne : calledBy (pos t) p' ≠ some w := by
      intro hw
      have hcalled := (hacc.calls_of_calledBy hevent hw).1
      rw [hzero.2, hready] at hcalled
      cases hcalled
    rw [h.record_calls_ne hne, hzero.1]
    exact ⟨fun hpassed => Bool.noConfusion (hpassed.1.symm.trans hready'), fun _ => rfl⟩

theorem step_once (w : Waiter) : (h.record (pos t) p').calls w ≤ 1 := by
  by_cases hw : calledBy (pos t) p' = some w
  · obtain ⟨-, rfl, -, hadding | hmem⟩ := hacc.calls_of_calledBy hevent hw
    · exact Nat.le_of_eq (by rw [h.record_calls_self hw, (hacc.adding hadding).1])
    · obtain ⟨j, hj⟩ := List.mem_iff_getElem?.mp hmem
      obtain ⟨hbefore, -⟩ := hacc.passed_called hevent hj hw
      exact Nat.le_of_eq (by rw [h.record_calls_self hw, (hacc.called hj).2 hbefore])
  · rw [h.record_calls_ne hw]
    exact hacc.once w

include hfirm in
/-- Every step of the library keeps the accounting. -/
theorem step : Accounted (Function.update pos t p') s' (h.record (pos t) p') where
  known := hacc.step_known hfirm hevent
  nodup := hacc.step_nodup hevent
  single := hacc.step_single hevent
  adding := hacc.step_adding hevent
  adder := hacc.step_adder hevent
  queued := hacc.step_queued hevent
  distinct := hacc.step_distinct hevent
  called := hacc.step_called hevent
  once := hacc.step_once hevent
  ready := hacc.step_ready hevent
  fresh := hacc.step_fresh hevent
  added := hacc.step_added hevent

end

end Accounted

end

/-! ### Runs -/

variable {may : τ → Op V E π → Bool}

omit [DecidableEq π] [DecidableEq τ] in
theorem accounted_init : Accounted (fun _ => .code .main : τ → Pos V E) (Store.empty (π := π))
    ⟨fun _ => 0, fun _ => false⟩ where
  known := fun _ => trivial
  nodup := fun _ => List.nodup_nil
  single := by simp [Pos.keys, Pos.loops, Code.loops]
  adding := by simp [Pos.adding]
  adder := by simp [Pos.adding]
  queued := by simp [Store.empty]
  distinct := by simp [Store.empty]
  called := by simp [Store.empty]
  once := by simp
  ready := by simp
  fresh := by simp
  added := by simp

theorem History.record_self (h : History) (p : Pos V E) : h.record p p = h := by
  refine h.record_quiet ?_ ?_
  · cases p <;> rfl
  · cases p with
    | op f c => cases f <;> rfl
    | _ => rfl

theorem reach_accounted {sh : State V E π τ × History}
    (hr : (watched may fun _ => true).Reachable sh) :
    Accounted (pos sh.1) sh.1.shared sh.2 := by
  refine hr.invariant (I := fun sh => Accounted (pos sh.1) sh.1.shared sh.2) (fun sh hinit => ?_)
    (fun sh l sh' hr hacc _ hstep => ?_)
  · obtain ⟨s, h⟩ := sh
    obtain ⟨rfl, rfl⟩ := hinit
    exact accounted_init
  · obtain ⟨s, h⟩ := sh
    obtain ⟨s', hs', rfl⟩ := TransitionSystem.withHistory_step.mp hstep
    have hreach := hr.forget
    rcases reach_libStep hreach hs' with ⟨hpos, hshared⟩ | ⟨o, p', hlib, hpos, -⟩
    · simp only [hpos, hshared, History.record_self]
      exact hacc
    · simp only [hpos, Function.update_self]
      exact hacc.step (fun ht hu => firm_unique hreach rfl rfl ht hu) hlib.event

theorem code_owns_nothing {green : τ → Bool} {s : State V E π τ}
    (hr : (system may green).Reachable s) {t : τ}
    {c : Code} (hpos : pos s t = .code c) (k : Nat) : (s.mutex k).owner ≠ some t := by
  intro hown
  have hmay := Machine.reach_mayOwn safe main_holds hr hown
  have hcalled := Machine.reach_called hr t
  have hat := at_pos hr t
  rw [hpos] at hat
  cases hpc : s.pc t with
  | user a | yielding a =>
    rw [hpc] at hat hmay
    obtain rfl := Option.some.inj hat
    first | exact hmay | exact hmay.1
  | locking m a | unlocking w a | unlockYield w a | pausing w a | relocking w a | relockPause w a =>
    rw [hpc] at hat hcalled
    obtain rfl := Option.some.inj hat
    cases hcalled
  | terminated =>
    rw [hpc] at hat
    cases hat

/-- Every function passed to `add_external_waiter` is called at most once, only after `ready_` is
written and without a mutex; `ext_waiters_` is not touched during the loop; and when the loop is
over, every function that was registered has been called. -/
theorem external_waiters_once {sh : State V E π τ × History}
    (hr : (watched may fun _ => true).Reachable sh) :
    (∀ w, sh.2.calls w ≤ 1) ∧
    (∀ w, 0 < sh.2.calls w → (sh.1.shared.state w.state).ready = true) ∧
    (∀ t w caller below, pos sh.1 t = .code (.continuation w caller below) →
      ∀ k, (sh.1.mutex k).owner ≠ some t) ∧
    (∀ t k d, (k, d) ∈ (pos sh.1 t).loops →
      ∀ l sh', (watched may fun _ => true).step sh l = some sh' →
      (sh'.1.shared.state k).extWaiters = (sh.1.shared.state k).extWaiters) ∧
    (∀ k, (sh.1.shared.state k).ready = true → (∀ t d, (k, d) ∉ (pos sh.1 t).loops) →
      ∀ w, w.state = k → w ∈ (sh.1.shared.state k).extWaiters ∨ sh.2.added w = true →
      sh.2.calls w = 1) := by
  have hacc := reach_accounted hr
  have hreach := hr.forget
  refine ⟨hacc.once, hacc.ready, fun t w caller below hpos => code_owns_nothing hreach hpos,
    fun t k d hloop l sh' hstep => ?_, fun k hready hover w hw hregistered => ?_⟩
  · obtain ⟨s, h⟩ := sh
    obtain ⟨s', hs', rfl⟩ := TransitionSystem.withHistory_step.mp hstep
    rcases reach_libStep hreach hs' with ⟨-, hshared⟩ | ⟨o, p', hlib, -, -⟩
    · simp only [hshared]
    · have hgrows := hlib.event.grows (hacc.known l.thread)
      exact hgrows.frozen k ((hacc.known t).ready hloop)
  · subst hw
    have hqueued : w ∈ (sh.1.shared.state w.state).extWaiters → sh.2.calls w = 1 := by
      intro hmem
      obtain ⟨j, hj⟩ := List.mem_iff_getElem?.mp hmem
      exact (hacc.called hj).1 ⟨hready, fun t d hd => absurd hd (hover t d)⟩
    rcases hregistered with hmem | hadded
    · exact hqueued hmem
    · rcases hacc.added w hadded with hmem | hpos
      · exact hqueued hmem
      · exact Nat.le_antisymm (hacc.once w) hpos

/-- Thread 0 registers a function and thread 1 makes the state ready and calls it. -/
theorem external_waiters_once_set : ∃ sh : State Unit Unit Unit (Fin 2) × History,
    (sh.1.shared.state 0).extWaiters = [⟨0, 0⟩] ∧ sh.2.calls ⟨0, 0⟩ = 1 := by
  let labels : List (Label Unit Unit Unit (Fin 2)) :=
    [.act 0 (.construct ()), .act 0 (.addWaiter 0), .call 0 false, .act 0 .go, .act 0 .go,
      .call 0 false, .act 1 (.set 0 (.value ())), .call 1 false, .act 1 .go, .act 1 .go, .act 1 .go,
      .call 1 false, .deliver 1, .wake 1, .act 1 .go, .act 1 .go, .call 1 false, .act 1 .go,
      .act 1 .finish, .call 1 false, .act 1 .go, .call 1 false]
  have hreach := ((watched (fun _ _ => true) fun _ => true).reach_of_run (fun _ _ => true)
    (Machine.initial (fun _ => .code .main) .empty, ⟨fun _ => 0, fun _ => false⟩)
      ⟨rfl, rfl⟩ labels rfl).reachable
  refine ⟨_, rfl, (external_waiters_once hreach).2.2.2.2 0 rfl (fun t d => ?_) ⟨0, 0⟩ rfl
    (.inl List.mem_cons_self)⟩
  match t with
  | 0 | 1 => exact List.not_mem_nil

end Future

end GreenThread
