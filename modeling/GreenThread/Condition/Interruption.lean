import GreenThread.Condition.Protocol

/-!
# Interrupted waits

The threads of the machine with their interruption requests. A request is accepted while
interruption is not disabled, is never withdrawn, and wakes nobody; `pause` throws
`thread_interrupted` when it returns to a thread with an accepted request while interruption is not
disabled. `yield` does not look at the request.

The `m.lock()` that ends a wait is made by the destructor of the `relock_guard`. When the pause of
the wait has thrown, that destructor runs during the unwinding; in either case it does not let an
exception out, and the program terminates if its `m.lock()` has to pause and the pause throws.
-/

namespace GreenThread

namespace Interruption

open ConditionProtocol

variable {τ μ κ α σ ω : Type} [DecidableEq τ] [DecidableEq μ] [DecidableEq κ]

/-- A client position, and whether `thread_interrupted` is on its way out of the wait that was
called there. -/
structure Frame (α : Type) where
  pos : α
  unwinding : Bool
  deriving DecidableEq, Repr

/-- The client `C` with interruptions: `caught a` is where a `thread_interrupted` that leaves the
call of `a` leads. -/
def unwind (C : Client τ μ κ α σ ω) (caught : α → α) : Client τ μ κ (Frame α) σ ω where
  call := fun f => C.call f.pos
  ret := fun f r => ⟨if f.unwinding then caught f.pos else C.ret f.pos r, false⟩
  act := fun t f x o => (C.act t f.pos x o).map fun b => (⟨b.1, false⟩, b.2)

structure State (τ μ κ α σ : Type) where
  machine : Machine.State τ μ κ (Frame α) σ
  /-- `interrupt_requested_` -/
  requested : τ → Bool
  /-- `interrupt_disable_level_` -/
  disabled : τ → Int
  /-- `std::terminate` was called -/
  terminated : Bool

inductive Label (τ ω : Type)
  | run (l : Machine.Label τ ω)
  /-- `interrupt()` is called for the thread -/
  | interrupt (t : τ)
  /-- the thread enters or leaves a `disable_interruption` or `restore_interruption` scope -/
  | disable (t : τ) (level : Int)
  deriving DecidableEq, Repr

def isTerminated : PC μ κ α → Bool
  | .terminated => true
  | _ => false

namespace State

variable (s : State τ μ κ α σ)

/-- `pause` would throw `thread_interrupted`. -/
def interrupted (t : τ) : Bool := s.disabled t = 0 && s.requested t

/-- The step of the thread `t` leads the machine to `m`. -/
def advance (t : τ) (m : Machine.State τ μ κ (Frame α) σ) : State τ μ κ α σ :=
  { s with machine := m, terminated := isTerminated (m.pc t) }

end State

variable (C : Client τ μ κ α σ ω) (caught : α → α) (green : τ → Bool)

/-- Where a thread goes whose pause throws: out of `lock`, into the destructor of the
`relock_guard`, or nowhere if it was in that destructor. -/
def pauseThrows : PC μ κ (Frame α) → Option (PC μ κ (Frame α))
  | .locking _ f => some (.user ⟨caught f.pos, false⟩)
  | .pausing w f => some (.relocking w ⟨f.pos, true⟩)
  | .relockPause _ _ => some .terminated
  | _ => none

/-- The position a switch of `t` throws from. -/
def throws (s : State τ μ κ α σ) (t : τ) : Option (PC μ κ (Frame α)) :=
  if s.interrupted t then pauseThrows caught (s.machine.pc t) else none

def wakeStep (s : State τ μ κ α σ) (t : τ) : Option (State τ μ κ α σ) :=
  match throws caught s t with
  | some p => if s.machine.delivered t = 0 then none
      else some (s.advance t ((s.machine.consume t).setPc t p))
  | none => (Machine.wakeStep (unwind C caught) s.machine t).map (s.advance t)

def step (s : State τ μ κ α σ) (l : Label τ ω) : Option (State τ μ κ α σ) :=
  if s.terminated then none else
  match l with
  | .run (.wake t) => wakeStep C caught s t
  | .run l => (Machine.step (unwind C caught) green s.machine l).map (s.advance l.thread)
  | .interrupt t =>
    some { s with requested := Function.update s.requested t (s.requested t ||
      decide (s.disabled t = 0)) }
  | .disable t level =>
    match s.machine.pc t with
    | .user _ => some { s with disabled := Function.update s.disabled t level }
    | _ => none

def initial (start : τ → α) (data : σ) : State τ μ κ α σ where
  machine := Machine.initial (fun t => ⟨start t, false⟩) data
  requested := fun _ => false
  disabled := fun _ => 0
  terminated := false

/-- The `thread_interrupted` that the pauses of a thread have thrown since it registered for its
wait. -/
def record (h : τ → Nat) (s : State τ μ κ α σ) (l : Label τ ω) (s' : State τ μ κ α σ) : τ → Nat :=
  match l with
  | .run (.call t _) => if (awaits (s'.machine.pc t)).isSome then Function.update h t 0 else h
  | .run (.wake t) => if (throws caught s t).isSome then Function.update h t (h t + 1) else h
  | _ => h

def system (start : τ → α) (data : σ) :
    TransitionSystem (State τ μ κ α σ × (τ → Nat)) (Label τ ω) :=
  TransitionSystem.withHistory
    { init := fun s => s = initial start data, step := step C caught green } (fun _ => 0)
    (record caught)

/-- No thread with an interruption due returns from the pause of the `m.lock()` in the destructor of
its `relock_guard`. -/
def calm (s : State τ μ κ α σ) : Label τ ω → Bool
  | .run (.wake t) =>
    match s.machine.pc t with
    | .relockPause _ _ => !s.interrupted t
    | _ => true
  | _ => true

/-- How a wait ends that `t` called from `a` on `w` and that would return `r`: as the owner of the
mutex, in no queue, with its result or with one exception. -/
structure Ends (s : State τ μ κ α σ) (thrown : Nat) (t : τ) (w : WaitCall μ κ) (a : α)
    (r : Ret) : Prop where
  owner : (s.machine.mutex w.mtx).owner = some t
  unqueued : ∀ c timed, (⟨t, timed⟩ : SuspendedItem τ) ∉ s.machine.cond c
  unblocked : ∀ m, t ∉ (s.machine.mutex m).suspended
  outcome : (s.machine.pc t = .user ⟨C.ret a r, false⟩ ∧ thrown = 0) ∨
    (s.machine.pc t = .user ⟨caught a, false⟩ ∧ thrown = 1)

variable {C caught green} {s s' : State τ μ κ α σ} {l : Label τ ω} {h : τ → Nat}

/-! ### What one step can do -/

inductive Move (C : Client τ μ κ α σ ω) (caught : α → α) (green : τ → Bool) (s : State τ μ κ α σ) :
    Label τ ω → State τ μ κ α σ → Prop
  | runs {l m} (hcalm : ∀ t, l = .wake t → throws caught s t = none)
      (hstep : Machine.step (unwind C caught) green s.machine l = some m) :
      Move C caught green s (.run l) (s.advance l.thread m)
  | throws {t p} (hdelivered : s.machine.delivered t ≠ 0) (hthrows : throws caught s t = some p) :
      Move C caught green s (.run (.wake t)) (s.advance t ((s.machine.consume t).setPc t p))
  | interrupts {t} : Move C caught green s (.interrupt t)
      { s with requested := Function.update s.requested t (s.requested t ||
        decide (s.disabled t = 0)) }
  | disables {t level f} (hpc : s.machine.pc t = .user f) :
      Move C caught green s
      (.disable t level) { s with disabled := Function.update s.disabled t level }

theorem step_move (hstep : step C caught green s l = some s') : Move C caught green s l s' := by
  unfold step at hstep
  rw [Option.ite_none_left_eq_some] at hstep
  obtain ⟨-, hstep⟩ := hstep
  cases l with
  | run l =>
    cases l with
    | wake t =>
      simp only [wakeStep] at hstep
      split at hstep
      · rename_i p hthrows
        simp only [Option.ite_none_left_eq_some, Option.some.injEq] at hstep
        obtain ⟨hdelivered, rfl⟩ := hstep
        exact .throws hdelivered hthrows
      · rename_i hthrows
        obtain ⟨m, hm, rfl⟩ := Option.map_eq_some_iff.mp hstep
        refine .runs (fun u hu => ?_) hm
        cases hu
        exact hthrows
    | _ =>
      obtain ⟨m, hm, rfl⟩ := Option.map_eq_some_iff.mp hstep
      exact .runs (fun _ => nofun) hm
  | interrupt t =>
    cases hstep
    exact .interrupts
  | disable t level =>
    simp only at hstep
    split at hstep
    · rename_i f hpc
      cases hstep
      exact .disables hpc
    · cases hstep

omit [DecidableEq τ] [DecidableEq μ] [DecidableEq κ] in
theorem throws_cases {t : τ} {p : PC μ κ (Frame α)} (hthrows : throws caught s t = some p) :
    s.interrupted t = true ∧
      ((∃ m f, s.machine.pc t = .locking m f ∧ p = .user ⟨caught f.pos, false⟩) ∨
        (∃ w f, s.machine.pc t = .pausing w f ∧ p = .relocking w ⟨f.pos, true⟩) ∨
        ∃ w f, s.machine.pc t = .relockPause w f ∧ p = .terminated) := by
  unfold throws at hthrows
  rw [Option.ite_none_right_eq_some] at hthrows
  obtain ⟨hinterrupted, hthrows⟩ := hthrows
  refine ⟨hinterrupted, ?_⟩
  unfold pauseThrows at hthrows
  split at hthrows
  · rename_i m f hpc
    cases hthrows
    exact .inl ⟨m, f, hpc, rfl⟩
  · rename_i w f hpc
    cases hthrows
    exact .inr (.inl ⟨w, f, hpc, rfl⟩)
  · rename_i w f hpc
    cases hthrows
    exact .inr (.inr ⟨w, f, hpc, rfl⟩)
  · cases hthrows

/-! ### The primitives -/

omit [DecidableEq μ] [DecidableEq κ] in
theorem repositioned {m : Machine.State τ μ κ α σ} {t : τ} {p p' : PC μ κ α}
    (hinv : Machine.Inv green (m.setPc t p)) (hok : (∃ a b, p = .user a ∧ p' = .user b) ∨
      ∃ w a b, p = .relocking w a ∧ p' = .relocking w b) :
    Machine.Inv green (m.setPc t p') := by
  have hsame : (m.setPc t p).setPc t p' = m.setPc t p' := by simp [Machine.State.setPc]
  have hview := hinv.thread t
  rw [Machine.State.view_setPc_self] at hview
  rw [← hsame]
  refine ((hinv.but t).setPc p').finish ?_ ?_
  · rw [Machine.State.view_setPc_self, Machine.State.view_setPc_self]
    rcases hok with ⟨a, b, rfl, rfl⟩ | ⟨w, a, b, rfl, rfl⟩ <;> exact hview
  · rcases hok with ⟨a, b, -, rfl⟩ | ⟨w, a, b, rfl, -⟩
    · exact .inr ⟨b, by simp [Machine.State.setPc]⟩
    · refine .inl ?_
      by_contra hgreen
      obtain ⟨c, hc⟩ := hinv.foreign t (by simpa using hgreen)
      simp [Machine.State.setPc] at hc

omit [DecidableEq μ] [DecidableEq κ] in
/-- A calm exception leaves the primitives as the return from the pause would. -/
theorem throws_inv (C : Client τ μ κ α σ ω) (hinv : Machine.Inv green s.machine) {t : τ}
    {p : PC μ κ (Frame α)}
    (hdelivered : s.machine.delivered t ≠ 0) (hthrows : throws caught s t = some p)
    (hok : calm s (.run (.wake t) : Label τ ω) = true) :
    Machine.Inv green ((s.machine.consume t).setPc t p) := by
  have hreturns : ∀ {q}, Machine.switchReturn (unwind C caught) s.machine t = some q →
      Machine.Inv green ((s.machine.consume t).setPc t q) := by
    intro q hq
    have hwake : Machine.wakeStep (unwind C caught) s.machine t =
      some ((s.machine.consume t).setPc t q) := by
      simp [Machine.wakeStep, hdelivered, hq]
    exact Machine.wakeStep_inv hinv hwake
  obtain ⟨hinterrupted, ⟨m, f, hpc, rfl⟩ | ⟨w, f, hpc, rfl⟩ | ⟨w, f, hpc, rfl⟩⟩ :=
    throws_cases hthrows
  · have hq : Machine.switchReturn (unwind C caught) s.machine t =
      some (.user ((unwind C caught).ret f .done)) := by
      rw [Machine.switchReturn, hpc]
    exact repositioned (hreturns hq) (.inl ⟨_, _, rfl, rfl⟩)
  · have hq : Machine.switchReturn (unwind C caught) s.machine t = some (.relocking w f) := by
      rw [Machine.switchReturn, hpc]
    exact repositioned (hreturns hq) (.inr ⟨w, _, _, rfl, rfl⟩)
  · simp [calm, hpc, hinterrupted] at hok

/-! ### The exceptions of a wait -/

/-- What the frame of a thread says about the exceptions of its wait: none before the pause has
returned, and then one when it is unwinding. -/
def FrameOk : PC μ κ (Frame α) → Nat → Prop
  | .user f, _ | .locking _ f, _ | .yielding f, _ => f.unwinding = false
  | .unlocking _ f, n | .unlockYield _ f, n | .pausing _ f, n => f.unwinding = false ∧ n = 0
  | .relocking _ f, n | .relockPause _ f, n => n = f.unwinding.toNat
  | .terminated, _ => False

structure Good (C : Client τ μ κ α σ ω) (caught : α → α) (green : τ → Bool) (s : State τ μ κ α σ)
    (h : τ → Nat) : Prop where
  running : s.terminated = false
  inv : Machine.Inv green s.machine
  called : ∀ t, (s.machine.pc t).Called (unwind C caught)
  frames : ∀ t, FrameOk (s.machine.pc t) (h t)

omit [DecidableEq τ] [DecidableEq μ] [DecidableEq κ] in
theorem running_of_inv {m : Machine.State τ μ κ α σ} (hinv : Machine.Inv green m) (t : τ) :
    isTerminated (m.pc t) = false := by
  have hthread := hinv.thread t
  cases hpc : m.pc t with
  | terminated => simp [Machine.View.Ok, Machine.State.view, hpc] at hthread
  | _ => rfl

omit [DecidableEq μ] [DecidableEq κ] in
theorem record_ne {l : Machine.Label τ ω} {t : τ} (ht : t ≠ l.thread) :
    record caught h s (.run l) s' t = h t := by
  cases l with
  | call u | wake u =>
    simp only [record]
    split
    · exact Function.update_of_ne ht _ _
    · rfl
  | _ => rfl

theorem FrameOk.runs {l : Machine.Label τ ω} {m : Machine.State τ μ κ (Frame α) σ}
    (hframe : ∀ t, FrameOk (s.machine.pc t) (h t))
    (hcalm : ∀ t, l = .wake t → throws caught s t = none)
    (hmove : Machine.Move (unwind C caught) green s.machine l m) :
    FrameOk (m.pc l.thread) (record caught h s (.run l) (s.advance l.thread m) l.thread) := by
  have hself : ∀ {m : Machine.State τ μ κ (Frame α) σ} {t p n}, FrameOk p n →
    FrameOk ((m.setPc t p).pc t) n := by
    intro m t p n hp
    show FrameOk (Function.update m.pc t p t) n
    rwa [Function.update_self]
  have hkept : ∀ {t p}, s.machine.pc t = p → FrameOk p (h t) := fun hpc => hpc ▸ hframe _
  cases hmove with
  | @act t f b o x hpc hact =>
    obtain ⟨b, -, heq⟩ := Option.map_eq_some_iff.mp hact
    cases heq
    exact hself (p := .user ⟨b.1, false⟩) rfl
  | native | lockThrew | lockFree | tryOwned | tryFree | tryBusy | unlockThrew | unlockFree
  | unlockHanded | waitThrew
  | notifyNobody | relockFree => exact hself rfl
  | lockQueued hpc => exact hself (hkept hpc)
  | unlockYield hpc => exact hself (hkept hpc)
  | @waitQueued t f w switch hpc =>
    have hstart : (s.machine.startWait t f w).pc t = .unlocking w f := by
      rw [(Machine.startWait_effect s.machine t f w).2.2, Function.update_self]
    have hzero : record caught h s (.run (.call t switch : Machine.Label τ ω))
      (s.advance t (s.machine.startWait t f w)) t = 0 := by
      simp [record, State.advance, hstart, awaits]
    show FrameOk ((s.machine.startWait t f w).pc t)
      (record caught h s (.run (.call t switch : Machine.Label τ ω))
        (s.advance t (s.machine.startWait t f w)) t)
    rw [hstart, hzero]
    exact ⟨hkept hpc, rfl⟩
  | @notifyOne t f c i rest switch hpc | @notifyAll t f c switch hpc =>
    obtain ⟨-, -, p, hpc', hp⟩ := Machine.notifyEnd_effect (unwind C caught) green _ t f
    rw [hpc', Machine.Label.thread, Function.update_self]
    rcases hp with rfl | rfl
    · exact hkept hpc
    · rfl
  | releaseFree hpc | releaseHanded hpc | releaseYield hpc | relockQueued hpc =>
    have hwait := hkept hpc
    exact hself hwait
  | deliver | expire | aborted | timeout => exact hframe _
  | @wake t p hdelivered hp =>
    have hsame : ∀ s', record caught h s (.run (.wake t : Machine.Label τ ω)) s' t = h t := by
      intro s'
      simp [record, hcalm t rfl]
    show FrameOk (((s.machine.consume t).setPc t p).pc t)
      (record caught h s (.run (.wake t : Machine.Label τ ω)) _ t)
    rw [hsame]
    refine hself ?_
    cases Machine.switched hp with
    | locked | yielded | relocked => rfl
    | unlocked hpc =>
      have hwait := hkept hpc
      exact hwait
    | resumed hpc =>
      obtain ⟨hcalled, hzero⟩ := hkept hpc
      rw [FrameOk, hzero, hcalled]
      rfl

theorem Good.runs (hgood : Good C caught green s h) {l : Machine.Label τ ω}
    {m : Machine.State τ μ κ (Frame α) σ} (hcalm : ∀ t, l = .wake t → throws caught s t = none)
    (hstep : Machine.step (unwind C caught) green s.machine l = some m) :
    Good C caught green (s.advance l.thread m)
    (record caught h s (.run l) (s.advance l.thread m)) := by
  have hmove := Machine.step_move hgood.inv hstep
  have hinv := Machine.step_inv hgood.inv hstep
  refine ⟨running_of_inv hinv _, hinv, hmove.called hgood.called, fun t => ?_⟩
  by_cases ht : t = l.thread
  · subst ht
    exact .runs hgood.frames hcalm hmove
  · have hsame : (s.advance l.thread m).machine.pc t = s.machine.pc t := hmove.pc_ne hgood.called ht
    rw [hsame, record_ne ht]
    exact hgood.frames t

omit [DecidableEq μ] [DecidableEq κ] in
theorem Good.throws (hgood : Good C caught green s h) {t : τ} {p : PC μ κ (Frame α)}
    (hdelivered : s.machine.delivered t ≠ 0) (hthrows : Interruption.throws caught s t = some p)
    (hok : calm s (.run (.wake t) : Label τ ω) = true) :
    Good C caught green (s.advance t ((s.machine.consume t).setPc t p))
      (record caught h s (.run (.wake t) : Label τ ω)
        (s.advance t ((s.machine.consume t).setPc t p))) := by
  have hinv := throws_inv C hgood.inv hdelivered hthrows hok
  have hcount : ∀ s', record caught h s (.run (.wake t) : Label τ ω) s' =
    Function.update h t (h t + 1) := by
    intro s'
    simp [record, hthrows]
  have hcases : p.Called (unwind C caught) ∧ FrameOk p (h t + 1) := by
    have hcalled := hgood.called t
    have hframe := hgood.frames t
    obtain ⟨hinterrupted, ⟨m, f, hpc, rfl⟩ | ⟨w, f, hpc, rfl⟩ | ⟨w, f, hpc, rfl⟩⟩ :=
      throws_cases hthrows
    · exact ⟨trivial, rfl⟩
    · rw [hpc] at hcalled hframe
      refine ⟨hcalled, ?_⟩
      rw [FrameOk, hframe.2]
      rfl
    · simp [calm, hpc, hinterrupted] at hok
  refine ⟨running_of_inv hinv t, hinv, fun u => ?_, fun u => ?_⟩
  · show ((Function.update s.machine.pc t p) u).Called _
    by_cases hu : u = t
    · rw [hu, Function.update_self]
      exact hcases.1
    · rw [Function.update_of_ne hu]
      exact hgood.called u
  · rw [hcount]
    show FrameOk ((Function.update s.machine.pc t p) u) _
    by_cases hu : u = t
    · rw [hu, Function.update_self, Function.update_self]
      exact hcases.2
    · rw [Function.update_of_ne hu, Function.update_of_ne hu]
      exact hgood.frames u

theorem Good.step (hgood : Good C caught green s h) (hmove : Move C caught green s l s')
    (hok : calm s l = true) :
    Good C caught green s' (record caught h s l s') := by
  cases hmove with
  | runs hcalm hstep => exact hgood.runs hcalm hstep
  | throws hdelivered hthrows => exact hgood.throws hdelivered hthrows hok
  | interrupts | disables => exact ⟨hgood.running, hgood.inv, hgood.called, hgood.frames⟩

omit [DecidableEq μ] [DecidableEq κ] in
theorem record_ends {l : Machine.Label τ ω}
    (hcalm : ∀ t, l = .wake t → throws caught s t = none) {t : τ}
    (hw' : waitOf (s'.machine.pc t) = none) : record caught h s (.run l) s' t = h t := by
  by_cases ht : t = l.thread
  · subst ht
    cases l with
    | call u =>
      have hout : awaits (s'.machine.pc u) = none := by
        cases hawaits : awaits (s'.machine.pc u) with
        | none => rfl
        | some w => cases (waitOf_of_awaits hawaits).symm.trans hw'
      simp [record, hout]
    | wake u => simp [record, hcalm u rfl]
    | _ => rfl
  · exact record_ne ht

/-- A calm step that takes a thread out of a wait ends the wait. -/
theorem Good.ends (hgood : Good C caught green s h) (hmove : Move C caught green s l s')
    (hok : calm s l = true) {t : τ} {w : WaitCall μ κ} (hw : waitOf (s.machine.pc t) = some w)
    (hw' : waitOf (s'.machine.pc t) = none) :
    ∃ f, (s.machine.pc t).at = some f ∧
      Ends C caught s' (record caught h s l s' t) t w f.pos (s.machine.waitRet t w) := by
  have hgood' := hgood.step hmove hok
  cases hmove with
  | @runs l m hcalm hstep =>
    obtain ⟨f, hpc, hpc', hown⟩ :=
      wait_ends hgood.inv hgood.called (Machine.step_move hgood.inv hstep) hw hw'
    have hpc' : (s.advance l.thread m).machine.pc t =
      .user ((unwind C caught).ret f (s.machine.waitRet t w)) := hpc'
    have hthread := hgood'.inv.thread t
    simp only [Machine.View.Ok, Machine.State.view, hpc'] at hthread
    have hat : (s.machine.pc t).at = some f := by rcases hpc with hpc | hpc <;> rw [hpc] <;> rfl
    have hcount : h t = f.unwinding.toNat := by
      have hframe := hgood.frames t
      rcases hpc with hpc | hpc <;> rwa [hpc] at hframe
    refine ⟨f, hat, hown, hthread.2.1.2, hthread.1, ?_⟩
    rw [hpc', record_ends hcalm hw', hcount]
    cases hunwinding : f.unwinding with
    | false => exact .inl ⟨by simp [unwind, hunwinding], rfl⟩
    | true => exact .inr ⟨by simp [unwind, hunwinding], rfl⟩
  | @throws u p hdelivered hthrows =>
    have hpc' : waitOf (Function.update s.machine.pc u p t) = none := hw'
    by_cases hu : t = u
    · subst hu
      rw [Function.update_self] at hpc'
      obtain ⟨hinterrupted, ⟨m, f, hpc, rfl⟩ | ⟨w', f, hpc, rfl⟩ | ⟨w', f, hpc, rfl⟩⟩ :=
        throws_cases hthrows
      · rw [hpc] at hw
        cases hw
      · cases hpc'
      · simp [calm, hpc, hinterrupted] at hok
    · rw [Function.update_of_ne hu, hw] at hpc'
      cases hpc'
  | interrupts | disables => cases hw.symm.trans hw'

variable {start : τ → α} {data : σ}

theorem reach_good {sh : State τ μ κ α σ × (τ → Nat)}
    (hr : (system C caught green start data).Reach
      (fun sh (l : Label τ ω) => calm sh.1 l = true) sh) :
    Good C caught green sh.1 sh.2 := by
  refine hr.invariant (I := fun sh => Good C caught green sh.1 sh.2) ?_ ?_
  · rintro ⟨s, h⟩ ⟨hs, hh⟩
    cases hs
    cases hh
    exact ⟨rfl, Machine.initial_inv _ _, fun _ => trivial, fun _ => rfl⟩
  · rintro ⟨s, h⟩ l sh' - hgood hok hstep
    obtain ⟨s', hs', rfl⟩ := TransitionSystem.withHistory_step.mp hstep
    exact hgood.step (step_move hs') hok

/-- While every step is calm, no exception leaves a destructor, and every step that takes a thread
out of a wait ends the wait. -/
theorem interrupted_wait (C : Client τ μ κ α σ ω) (caught : α → α) (green : τ → Bool)
    (start : τ → α) (data : σ) {sh : State τ μ κ α σ × (τ → Nat)}
    (hr : (system C caught green start data).Reach
      (fun sh (l : Label τ ω) => calm sh.1 l = true) sh) :
    (sh.1.terminated = false ∧ ∀ t, sh.1.machine.pc t ≠ .terminated) ∧
      ∀ l sh' t w, (system C caught green start data).step sh l = some sh' → calm sh.1 l = true →
        waitOf (sh.1.machine.pc t) = some w → waitOf (sh'.1.machine.pc t) = none →
        ∃ f, (sh.1.machine.pc t).at = some f ∧
        Ends C caught sh'.1 (sh'.2 t) t w f.pos (sh.1.machine.waitRet t w) := by
  have hgood := reach_good hr
  refine ⟨⟨hgood.running, fun t hpc => ?_⟩, fun l sh' t w hstep hok hw hw' => ?_⟩
  · have hrunning := running_of_inv hgood.inv t
    rw [hpc] at hrunning
    cases hrunning
  · obtain ⟨s', hs', rfl⟩ := TransitionSystem.withHistory_step.mp hstep
    exact hgood.ends (step_move hs') hok hw hw'

/-- Thread 0 is interrupted in a wait, is notified while the mutex is free, and leaves the wait by
the exception, owning the mutex. -/
theorem interrupted_wait_free :
    ∃ sh sh' : State (Fin 2) Unit Unit (Option (Call Unit Unit)) Unit × (Fin 2 → Nat),
      (sh.1.terminated = false ∧ ∀ t, sh.1.machine.pc t ≠ .terminated) ∧
      (system anyCalls id (fun _ => true) (fun _ => none) ()).step sh
      (.run (.proceed 0 false)) = some sh' ∧
      Ends anyCalls id sh'.1 (sh'.2 0) 0 ⟨(), (), false⟩ (some (.wait () ())) .done ∧
      sh'.2 0 = 1 := by
  let labels : List (Label (Fin 2) (Call Unit Unit)) :=
    [.run (.act 0 (.lock ())), .run (.call 0 false), .run (.act 0 (.wait () ())),
      .run (.call 0 false), .run (.proceed 0 false), .interrupt 0, .run (.act 1 (.notifyOne ())),
      .run (.call 1 false), .run (.deliver 0), .run (.wake 0)]
  have hreach := (system anyCalls id (fun _ => true) (fun _ => none) ()).reach_of_run
    (fun sh l => calm sh.1 l)
    (initial (fun _ => none) (), fun _ => 0) ⟨rfl, rfl⟩ labels rfl
  have hwait := interrupted_wait anyCalls id (fun _ => true) (fun _ => none) () hreach
  obtain ⟨f, hat, hends⟩ := hwait.2 (.run (.proceed 0 false)) _ 0 ⟨(), (), false⟩ rfl rfl rfl rfl
  cases hat
  exact ⟨_, _, hwait.1, rfl, hends, rfl⟩

/-- Thread 0 is interrupted in a wait and notified by thread 1, which owns the mutex: the `m.lock()`
of the destructor pauses, and its pause throws. -/
theorem relock_throws :
    ∃ sh : State (Fin 2) Unit Unit (Option (Call Unit Unit)) Unit × (Fin 2 → Nat),
    (system anyCalls id (fun _ => true) (fun _ => none) ()).Reach
    (fun _ (_ : Label (Fin 2) (Call Unit Unit)) => True) sh ∧
      sh.1.machine.pc 0 = .terminated ∧ sh.1.terminated = true ∧ sh.2 0 = 2 := by
  let labels : List (Label (Fin 2) (Call Unit Unit)) :=
    [.run (.act 0 (.lock ())), .run (.call 0 false), .run (.act 0 (.wait () ())),
      .run (.call 0 false), .run (.proceed 0 false), .interrupt 0, .run (.act 1 (.lock ())),
      .run (.call 1 false), .run (.act 1 (.notifyOne ())), .run (.call 1 false), .run (.deliver 0),
      .run (.wake 0), .run (.proceed 0 false), .run (.deliver 1), .run (.wake 1),
      .run (.act 1 (.unlock ())), .run (.call 1 false), .run (.deliver 0), .run (.wake 0)]
  have hreach := (system anyCalls id (fun _ => true) (fun _ => none) ()).reach_of_run
    (fun _ _ => true)
    (initial (fun _ => none) (), fun _ => 0) ⟨rfl, rfl⟩ labels rfl
  exact ⟨_, hreach.mono fun _ _ _ => trivial, rfl, rfl, rfl⟩

end Interruption

end GreenThread
