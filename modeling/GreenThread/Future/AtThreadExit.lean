import GreenThread.Future.Code

/-!
# Values given at thread exit

`set_value_at_thread_exit` and `set_exception_at_thread_exit` of `promise.hpp` register a function
that holds the shared state and the argument, and leave the shared state as it was. Until the thread
exits the shared state is open: another value may be given, and a promise that is destroyed breaks
it. One shared state is followed here, through the promise object that holds it; the other promise
objects are empty.
-/

namespace GreenThread

namespace Future

namespace AtThreadExit

variable {V E τ ρ : Type} [DecidableEq τ] [DecidableEq ρ]

inductive Op (V E τ ρ : Type)
  /-- `set_value` and `set_exception` of the promise `p` -/
  | set (p : ρ) (x : Arg V E)
  /-- `set_value_at_thread_exit` and `set_exception_at_thread_exit`, called by the thread `t` -/
  | setAtThreadExit (t : τ) (p : ρ) (x : Arg V E)
  /-- `q` is constructed or assigned from `std::move(p)` -/
  | move (p q : ρ)
  | swap (p q : ρ)
  | destroy (p : ρ)
  /-- the function of the thread is over -/
  | exit (t : τ)
  deriving DecidableEq, Repr

/-- How a call ends. -/
inductive Reply
  | done
  | promiseUninitialized
  | promiseAlreadySatisfied
  deriving DecidableEq, Repr

structure State (V E τ ρ : Type) where
  /-- the content of the shared state, when it is ready -/
  content : Option (Content V E)
  /-- the promise object whose `future_` is the shared state -/
  owner : Option ρ
  /-- the functions in the `cleanup_queue_` of each thread that set the shared state -/
  cleanupQueue : τ → List (Arg V E)
  exited : τ → Bool
  terminated : Bool

/-- A new promise `p`, with all threads running. -/
def State.fresh (p : ρ) : State V E τ ρ := ⟨none, some p, fun _ => [], fun _ => false, false⟩

namespace State

variable (s : State V E τ ρ)

/-- `set_value` and `set_exception` of the shared state, which throw when it is ready. -/
def setContent (x : Content V E) : Option (State V E τ ρ) :=
  match s.content with
  | none => some { s with content := some x }
  | some _ => none

/-- `owner_destroyed`. -/
def ownerDestroyed : State V E τ ρ :=
  match s.content with
  | none => { s with content := some (.except .brokenPromise) }
  | some _ => s

/-- The promise that held the shared state is gone. -/
def abandon : State V E τ ρ := { s.ownerDestroyed with owner := none }

/-- The functions that the thread has registered are run. An exception of one of them leaves the
destructor that runs them. -/
def runCleanup : List (Arg V E) → State V E τ ρ → State V E τ ρ
  | [], s => s
  | x :: xs, s =>
    match s.setContent x.content with
    | some s => runCleanup xs s
    | none => { s with terminated := true }

/-- One operation and how it ends. An empty promise must not be given a value at thread exit: the
function would use a null pointer. -/
def step : Op V E τ ρ → Option (State V E τ ρ × Reply)
  | op =>
    if s.terminated then none
    else match op with
    | .set p x =>
      if s.owner = some p then
        match s.setContent x.content with
        | some s' => some (s', .done)
        | none => some (s, .promiseAlreadySatisfied)
      else some (s, .promiseUninitialized)
    | .setAtThreadExit t p x =>
      if s.owner = some p ∧ s.exited t = false then
        some ({ s with cleanupQueue := Function.update s.cleanupQueue t (s.cleanupQueue t ++ [x]) },
          .done)
      else none
    | .move p q =>
      if s.owner = some p then some ({ s with owner := some q }, .done)
      else if s.owner = some q then some (s.abandon, .done)
      else some (s, .done)
    | .swap p q =>
      some ({ s with owner := s.owner.map fun o => if o = p then q else if o = q then p else o },
        .done)
    | .destroy p => if s.owner = some p then some (s.abandon, .done) else some (s, .done)
    | .exit t =>
      if s.exited t then none
      else some (runCleanup (s.cleanupQueue t)
        { s with
          exited := Function.update s.exited t true
          cleanupQueue := Function.update s.cleanupQueue t [] }, .done)

/-- The operation gives a value or an exception to the promise that holds the shared state. -/
def sets : Op V E τ ρ → Prop
  | .set p _ | .setAtThreadExit _ p _ => s.owner = some p
  | _ => False

/-- The promise that holds the shared state is destroyed, or another one is moved over it. -/
def loses : Op V E τ ρ → Prop
  | .move p q => s.owner ≠ some p ∧ s.owner = some q
  | .destroy p => s.owner = some p
  | _ => False

/-- The future is not ready before the thread has exited, and yields `x` from then on. -/
def Kept (t : τ) (x : Arg V E) : Prop := s.content = if s.exited t then some x.content else none

end State

/-- The promise is kept in every state of the history, and each further set call throws
`promise_already_satisfied`. -/
def Keeps (t : τ) (x : Arg V E) : State V E τ ρ → List (Op V E τ ρ) → Prop
  | s, [] => s.Kept t x
  | s, op :: ops => s.Kept t x ∧ ∀ s' r, s.step op = some (s', r) →
      (s.sets op → r = .promiseAlreadySatisfied) ∧ Keeps t x s' ops

/-- Nothing else is given to the promise at a thread exit, and until the thread exits nothing is
given to it at once and it is not lost. -/
def Harmless (t : τ) (s : State V E τ ρ) : Op V E τ ρ → Prop
  | .set p _ => s.owner = some p → s.exited t = true
  | .setAtThreadExit _ p _ => s.owner ≠ some p
  | op => s.loses op → s.exited t = true

/-- Each operation of the history is harmless when it is reached. -/
def HarmlessRun (t : τ) : State V E τ ρ → List (Op V E τ ρ) → Prop
  | _, [] => True
  | s, op :: ops => ∀ s' r, s.step op = some (s', r) → Harmless t s op ∧ HarmlessRun t s' ops

variable {s s' : State V E τ ρ} {t : τ} {x : Arg V E} {op : Op V E τ ρ} {r : Reply}

/-! ### One operation -/

/-- The value is still to be set by the function that the thread has registered, or it has been
set. -/
structure Given (t : τ) (x : Arg V E) (s : State V E τ ρ) : Prop where
  kept : s.Kept t x
  own : s.cleanupQueue t = if s.exited t then [] else [x]
  other : ∀ u, u ≠ t → s.cleanupQueue u = []
  running : s.terminated = false

/-- What an operation of a program that goes on can do. -/
inductive Steps (s : State V E τ ρ) : Op V E τ ρ → State V E τ ρ → Reply → Prop
  | gives {p : ρ} {a : Arg V E} {s₁ : State V E τ ρ} (howner : s.owner = some p)
      (hset : s.setContent a.content = some s₁) :
      Steps s (.set p a) s₁ .done
  | refuses {p : ρ} {a : Arg V E} (howner : s.owner = some p)
      (hset : s.setContent a.content = none) : Steps s (.set p a) s .promiseAlreadySatisfied
  | empty {p : ρ} {a : Arg V E} (howner : s.owner ≠ some p) :
      Steps s (.set p a) s .promiseUninitialized
  | registers {t : τ} {p : ρ} {a : Arg V E} (howner : s.owner = some p)
      (hrunning : s.exited t = false) : Steps s (.setAtThreadExit t p a)
      { s with cleanupQueue := Function.update s.cleanupQueue t (s.cleanupQueue t ++ [a]) } .done
  | moves {p q : ρ} (howner : s.owner = some p) :
      Steps s (.move p q) { s with owner := some q } .done
  | swaps {p q : ρ} :
      Steps s (.swap p q) { s with owner := s.owner.map fun o => if o = p then q
        else if o = q then p else o } .done
  | loses {op : Op V E τ ρ} (hloses : s.loses op) : Steps s op s.abandon .done
  | keeps {op : Op V E τ ρ} (hop : (∃ p q, op = .move p q) ∨ ∃ p, op = .destroy p)
      (hloses : ¬ s.loses op) : Steps s op s .done
  | exits {t : τ} (hrunning : s.exited t = false) : Steps s (.exit t)
      (State.runCleanup (s.cleanupQueue t)
        { s with
          exited := Function.update s.exited t true
          cleanupQueue := Function.update s.cleanupQueue t [] }) .done

theorem step_steps (hstep : s.step op = some (s', r)) : Steps s op s' r := by
  unfold State.step at hstep
  split at hstep
  · cases hstep
  cases op with
  | set p a =>
    simp only at hstep
    split at hstep
    · rename_i howner
      cases hset : s.setContent a.content with
      | some s₁ =>
        rw [hset] at hstep
        cases hstep
        exact .gives howner hset
      | none =>
        rw [hset] at hstep
        cases hstep
        exact .refuses howner hset
    · cases hstep
      exact .empty ‹_›
  | setAtThreadExit u p a =>
    simp only [Option.ite_none_right_eq_some] at hstep
    obtain ⟨⟨howner, hrunning⟩, hstep⟩ := hstep
    cases hstep
    exact .registers howner hrunning
  | move p q =>
    simp only at hstep
    split at hstep
    · cases hstep
      exact .moves ‹_›
    split at hstep
    · cases hstep
      exact .loses ⟨‹_›, ‹_›⟩
    · cases hstep
      exact .keeps (.inl ⟨p, q, rfl⟩) fun hloses => absurd hloses.2 ‹_›
  | swap p q =>
    cases hstep
    exact .swaps
  | destroy p =>
    simp only at hstep
    split at hstep
    · cases hstep
      exact .loses ‹_›
    · cases hstep
      exact .keeps (.inr ⟨p, rfl⟩) ‹_›
  | exit u =>
    simp only at hstep
    split at hstep
    · cases hstep
    · cases hstep
      exact .exits ((Bool.not_eq_true _).mp ‹_›)

section

omit [DecidableEq τ] [DecidableEq ρ]

theorem setContent_none {x : Content V E} (h : s.setContent x = none) : s.content ≠ none := by
  intro hnone
  rw [State.setContent, hnone] at h
  cases h

theorem setContent_some {x : Content V E} (h : s.setContent x = some s') :
    s.content = none ∧ s' = { s with content := some x } := by
  unfold State.setContent at h
  split at h
  · cases h
    exact ⟨‹_›, rfl⟩
  · cases h

theorem Kept.exited (hkept : s.Kept t x) (hcontent : s.content ≠ none) : s.exited t = true := by
  by_contra hnot
  rw [State.Kept, if_neg hnot] at hkept
  exact hcontent hkept

theorem abandon_content (hcontent : s.content ≠ none) : s.abandon = { s with owner := none } := by
  unfold State.abandon State.ownerDestroyed
  split
  · exact absurd ‹_› hcontent
  · rfl

end

omit [DecidableEq ρ] in
/-- The exit of the thread runs the one function that was registered, and those of the others run
none. -/
theorem Given.exits (hgiven : Given t x s) {u : τ} (hrunning : s.exited u = false) :
    Given t x (State.runCleanup (s.cleanupQueue u)
      { s with
        exited := Function.update s.exited u true
        cleanupQueue := Function.update s.cleanupQueue u [] }) := by
  have hkept := hgiven.kept
  by_cases hu : u = t
  · subst hu
    rw [State.Kept, hrunning] at hkept
    have hcontent : s.content = none := hkept
    have hown := hgiven.own
    rw [hrunning] at hown
    have hrun : State.runCleanup (s.cleanupQueue u)
        { s with
          exited := Function.update s.exited u true
          cleanupQueue := Function.update s.cleanupQueue u [] } =
        { s with
          content := some x.content, exited := Function.update s.exited u true
          cleanupQueue := Function.update s.cleanupQueue u [] } := by
      rw [hown]
      simp only [Bool.false_eq_true, if_false, State.runCleanup, State.setContent, hcontent]
    rw [hrun]
    refine ⟨?_, ?_, fun v hv => ?_, hgiven.running⟩
    · simp only [State.Kept, Function.update_self, if_true]
    · simp only [Function.update_self, if_true]
    · exact (Function.update_of_ne hv _ _).trans (hgiven.other v hv)
  · rw [hgiven.other u hu]
    refine ⟨?_, ?_, fun v hv => ?_, hgiven.running⟩
    · simp only [State.Kept, State.runCleanup, Function.update_of_ne (Ne.symm hu)]
      exact hkept
    · simp only [State.runCleanup, Function.update_of_ne (Ne.symm hu)]
      exact hgiven.own
    · simp only [State.runCleanup]
      by_cases hvu : v = u
      · rw [hvu, Function.update_self]
      · rw [Function.update_of_ne hvu, hgiven.other v hv]

theorem Given.step (hgiven : Given t x s) (hsteps : Steps s op s' r) (hharmless : Harmless t s op) :
    Given t x s' ∧ (s.sets op → r = .promiseAlreadySatisfied) := by
  have hkept := hgiven.kept
  have hready : s.exited t = true → s.content ≠ none := by
    intro hexited
    rw [State.Kept, if_pos hexited] at hkept
    rw [hkept]
    exact Option.some_ne_none _
  cases hsteps with
  | gives howner hset => exact absurd (setContent_some hset).1 (hready (hharmless howner))
  | refuses => exact ⟨hgiven, fun _ => rfl⟩
  | empty howner => exact ⟨hgiven, fun hsets => absurd hsets howner⟩
  | registers howner => exact absurd howner hharmless
  | moves | swaps => exact ⟨⟨hkept, hgiven.own, hgiven.other, hgiven.running⟩, False.elim⟩
  | loses hloses =>
    have hexited : s.exited t = true := by
      cases op <;> first | exact hharmless hloses | exact hloses.elim
    rw [abandon_content (hready hexited)]
    refine ⟨⟨hkept, hgiven.own, hgiven.other, hgiven.running⟩, fun hsets => ?_⟩
    cases op <;> first | exact hsets.elim | exact hloses.elim
  | keeps hop =>
    refine ⟨hgiven, fun hsets => ?_⟩
    rcases hop with ⟨p, q, rfl⟩ | ⟨p, rfl⟩ <;> exact hsets.elim
  | exits hrunning => exact ⟨hgiven.exits hrunning, False.elim⟩

/-- An operation that keeps the promise and is refused if it sets is harmless. -/
theorem Given.harmless (hgiven : Given t x s) (hsteps : Steps s op s' r) (hkept' : s'.Kept t x)
    (hsets : s.sets op → r = .promiseAlreadySatisfied) : Harmless t s op := by
  have hkept := hgiven.kept
  cases hsteps with
  | gives howner => cases hsets howner
  | refuses howner hset => exact fun _ => Kept.exited hkept (setContent_none hset)
  | empty howner => exact fun howner' => absurd howner' howner
  | registers howner => cases hsets howner
  | moves howner => exact fun hloses => absurd howner hloses.1
  | swaps => exact False.elim
  | loses hloses =>
    have hexited : s.exited t = true := by
      by_contra hnot
      rw [State.Kept, if_neg hnot] at hkept
      have hbroken : s.abandon = { s with
        content := some (.except .brokenPromise), owner := none } := by
        simp only [State.abandon, State.ownerDestroyed, hkept]
      rw [hbroken, State.Kept, if_neg hnot] at hkept'
      cases hkept'
    cases op <;> first | exact fun _ => hexited | exact hloses.elim
  | keeps hop hloses =>
    rcases hop with ⟨p, q, rfl⟩ | ⟨p, rfl⟩ <;> exact fun hlost => absurd hlost hloses
  | exits => exact False.elim

/-! ### The history -/

theorem Given.keeps_iff (hgiven : Given t x s) (ops : List (Op V E τ ρ)) :
    Keeps t x s ops ↔ HarmlessRun t s ops := by
  induction ops generalizing s with
  | nil => exact iff_of_true hgiven.kept trivial
  | cons op ops ih =>
    constructor
    · rintro ⟨-, hnext⟩ s' r hstep
      obtain ⟨hsets, hrest⟩ := hnext s' r hstep
      have hkept' : s'.Kept t x := by
        cases ops with
        | nil => exact hrest
        | cons => exact hrest.1
      have hharmless := hgiven.harmless (step_steps hstep) hkept' hsets
      exact ⟨hharmless, (ih (hgiven.step (step_steps hstep) hharmless).1).mp hrest⟩
    · intro hnext
      refine ⟨hgiven.kept, fun s' r hstep => ?_⟩
      obtain ⟨hharmless, hrest⟩ := hnext s' r hstep
      obtain ⟨hgiven', hsets⟩ := hgiven.step (step_steps hstep) hharmless
      exact ⟨hsets, (ih hgiven').mpr hrest⟩

/-- The value given at the exit of a thread is kept exactly by the histories whose operations are
harmless. -/
theorem keeps_promise_iff (t : τ) (p : ρ) (x : Arg V E) (ops : List (Op V E τ ρ)) :
    ∃ s, (State.fresh p).step (.setAtThreadExit t p x) = some (s, .done) ∧
    (Keeps t x s ops ↔ HarmlessRun t s ops) := by
  let s : State V E τ ρ :=
    { State.fresh p with cleanupQueue := Function.update (fun _ => []) t [x] }
  have hgiven : Given t x s := by
    refine ⟨rfl, ?_, fun u hu => ?_, rfl⟩
    · exact Function.update_self t [x] (fun _ => [])
    · exact Function.update_of_ne hu [x] (fun _ => [])
  exact ⟨s, if_pos ⟨rfl, rfl⟩, hgiven.keeps_iff ops⟩

/-- The promise is destroyed before the thread exits. -/
theorem promise_broken : ∃ s : State Nat Unit (Fin 1) (Fin 1),
    (State.fresh 0).step (.setAtThreadExit 0 0 (.value 7)) = some (s, .done) ∧
    ¬ Keeps 0 (.value 7) s [.destroy 0] := by
  refine ⟨_, rfl, fun hkeeps => ?_⟩
  have hkept : _ = none := (hkeeps.2 _ _ rfl).2
  cases hkept

end AtThreadExit

end Future

end GreenThread
