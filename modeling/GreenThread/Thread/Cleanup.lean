import GreenThread.Thread.Tss

/-!
# The clean-up at the end of a thread

`runner_wrapper` of `thread_object.cpp`: when the thread function returns or throws, the destructor
of `cleaner` swaps `cleanup_queue_` out and runs its functions, and then runs the cleanup functions
of the `fss_` map, all in one `try`. So the first exception ends the clean-up, and a function that
is registered during the clean-up stays in the queue.
-/

namespace GreenThread

namespace Cleanup

open Tss (FssMap exitCalls)

variable {ι κ γ π : Type*}

/-- What the clean-up calls: a function of `cleanup_queue_`, or the cleanup function of a
thread-specific value. -/
inductive Action (ι γ π : Type*)
  | function (f : ι)
  | cleanup (func : γ) (data : Option π)
  deriving DecidableEq, Repr

/-- What a call does: the functions it passes to `at_thread_exit`, and whether it ends with an
exception. -/
structure Behaviour (ι : Type*) where
  registers : List ι
  throws : Bool

/-- The functions that the thread function registered, the map it leaves, and whether it throws. -/
structure Entry (ι κ γ π : Type*) where
  registers : List ι
  fss : FssMap κ γ π
  throws : Bool

/-- The calls made, what is in `cleanup_queue_` after them, and whether the last one threw. -/
structure Calls (ι γ π : Type*) where
  calls : List (Action ι γ π)
  queue : List ι
  threw : Bool

/-- How the thread ends. -/
structure Exit (ι γ π : Type*) where
  calls : List (Action ι γ π)
  queue : List ι
  /-- `uncaught_exception_` is set -/
  uncaught : Bool
  terminated : Bool

/-- `add_cleanup_function` and `at_thread_exit`. -/
def addCleanupFunction (queue : List ι) (f : ι) : List ι := queue ++ [f]

variable (behaves : Action ι γ π → Behaviour ι)

/-- A loop of `~cleaner`. -/
def callAll : List (Action ι γ π) → List ι → Calls ι γ π
  | [], queue => ⟨[], queue, false⟩
  | a :: as, queue =>
    let queue := (behaves a).registers.foldl addCleanupFunction queue
    if (behaves a).throws then ⟨[a], queue, true⟩
    else
      let rest := callAll as queue
      { rest with calls := a :: rest.calls }

/-- `~cleaner`, up to the end of its `try` block. -/
def cleaner (queue : List ι) (fss : FssMap κ γ π) : Calls ι γ π :=
  let functions := callAll behaves (queue.map .function) []
  if functions.threw then functions
  else
    let cleanups := callAll behaves ((exitCalls fss).map fun (func, data) => .cleanup func data)
      functions.queue
    { cleanups with calls := functions.calls ++ cleanups.calls }

/-- `runner_wrapper`. The handler of a destructor's `try` block throws again when it ends, and no
exception may leave a destructor. -/
def runnerWrapper (entry : Entry ι κ γ π) : Exit ι γ π :=
  let cleaned := cleaner behaves (entry.registers.foldl addCleanupFunction []) entry.fss
  ⟨cleaned.calls, cleaned.queue, entry.throws, cleaned.threw⟩

/-- The functions that were ever registered, in the order of their registration. -/
def registered (entry : Entry ι κ γ π) : List ι :=
  entry.registers ++ (runnerWrapper behaves entry).calls.flatMap fun a => (behaves a).registers

def Action.function? : Action ι γ π → Option ι
  | .function f => some f
  | .cleanup _ _ => none

def Action.cleanup? : Action ι γ π → Option (γ × Option π)
  | .function _ => none
  | .cleanup func data => some (func, data)

/-- All that is registered runs once: the functions in the order of their registration, and the
cleanup functions of the values. -/
structure RunsAll (entry : Entry ι κ γ π) : Prop where
  functions : (runnerWrapper behaves entry).calls.filterMap Action.function? =
    registered behaves entry
  cleanups : ((runnerWrapper behaves entry).calls.filterMap Action.cleanup?).Perm
    (exitCalls entry.fss)

/-- What the clean-up is to call when the thread function is over. -/
def actions (entry : Entry ι κ γ π) : List (Action ι γ π) :=
  entry.registers.map .function ++ (exitCalls entry.fss).map fun (func, data) => .cleanup func data

/-! ### The loops -/

theorem addCleanupFunction_all (queue fs : List ι) :
    fs.foldl addCleanupFunction queue = queue ++ fs := by
  induction fs generalizing queue with
  | nil => exact (List.append_nil queue).symm
  | cons f fs ih =>
    rw [List.foldl_cons, ih, addCleanupFunction, List.append_assoc, List.singleton_append]

variable {behaves}

theorem callAll_append (as bs : List (Action ι γ π)) (queue : List ι) :
    callAll behaves (as ++ bs) queue =
      let first := callAll behaves as queue
      if first.threw then first
      else
        let second := callAll behaves bs first.queue
        { second with calls := first.calls ++ second.calls } := by
  induction as generalizing queue with
  | nil => rfl
  | cons a as ih =>
    simp only [List.cons_append, callAll]
    cases (behaves a).throws with
    | true => rfl
    | false =>
      simp only [Bool.false_eq_true, if_false, ih]
      split <;> simp

/-- A loop calls what it is given up to the first exception. -/
theorem callAll_prefix (as : List (Action ι γ π)) (queue : List ι) :
    (callAll behaves as queue).calls <+: as := by
  induction as generalizing queue with
  | nil => exact List.prefix_rfl
  | cons a as ih =>
    simp only [callAll]
    cases (behaves a).throws with
    | true => exact List.prefix_iff_eq_append.mpr rfl
    | false => exact (List.prefix_cons_inj a).mpr (ih _)

/-- A loop calls all that it is given if nothing before the last one throws. -/
theorem callAll_all (as : List (Action ι γ π)) (queue : List ι) :
    (callAll behaves as queue).calls = as ↔ ∀ a ∈ as.dropLast, (behaves a).throws = false := by
  induction as generalizing queue with
  | nil => simp [callAll]
  | cons a as ih =>
    cases as with
    | nil => cases hthrows : (behaves a).throws <;> simp [callAll, hthrows]
    | cons b bs =>
      rw [List.dropLast_cons_cons, List.forall_mem_cons]
      cases hthrows : (behaves a).throws with
      | true => simp [callAll, hthrows]
      | false =>
        have ih := ih ((behaves a).registers.foldl addCleanupFunction queue)
        rw [callAll, hthrows]
        simp only [Bool.false_eq_true, if_false, List.cons.injEq, true_and]
        exact ih

/-! ### The exit -/

theorem runnerWrapper_calls (entry : Entry ι κ γ π) :
    (runnerWrapper behaves entry).calls = (callAll behaves (actions entry) []).calls := by
  rw [actions, callAll_append]
  simp only [runnerWrapper, cleaner, addCleanupFunction_all, List.nil_append]

theorem function?_actions (entry : Entry ι κ γ π) :
    (actions entry).filterMap Action.function? = entry.registers := by
  simp [actions, List.filterMap_append, List.filterMap_map, Function.comp_def, Action.function?]

theorem cleanup?_actions (entry : Entry ι κ γ π) :
    (actions entry).filterMap Action.cleanup? = exitCalls entry.fss := by
  simp [actions, List.filterMap_append, List.filterMap_map, Function.comp_def, Action.cleanup?]

theorem length_calls (as : List (Action ι γ π)) :
    as.length = (as.filterMap Action.function?).length + (as.filterMap Action.cleanup?).length := by
  induction as with
  | nil => rfl
  | cons a as ih =>
    cases a with
    | function f =>
      simp only [List.filterMap_cons, Action.function?, Action.cleanup?, List.length_cons]
      omega
    | cleanup func data =>
      simp only [List.filterMap_cons, Action.function?, Action.cleanup?, List.length_cons]
      omega

/-- The calls are those that were to be made, when as many were made. -/
theorem calls_eq_actions {entry : Entry ι κ γ π} {calls : List (Action ι γ π)}
    (hbegins : calls <+: actions entry)
    (hfunctions : entry.registers.length ≤ (calls.filterMap Action.function?).length)
    (hcleanups : (exitCalls entry.fss).length ≤ (calls.filterMap Action.cleanup?).length) :
    calls = actions entry := by
  apply hbegins.eq_of_length_le
  rw [length_calls calls, length_calls (actions entry), function?_actions, cleanup?_actions]
  exact Nat.add_le_add hfunctions hcleanups

variable (behaves)

/-- All clean-up runs once exactly when no call before the last one throws and none registers
another function. -/
theorem runsAll_iff (entry : Entry ι κ γ π) : RunsAll behaves entry ↔
    (∀ a ∈ (actions entry).dropLast, (behaves a).throws = false) ∧
    ∀ a ∈ actions entry, (behaves a).registers = [] := by
  have hbegins : (callAll behaves (actions entry) []).calls <+: actions entry :=
    callAll_prefix (actions entry) []
  rw [← runnerWrapper_calls] at hbegins
  constructor
  · rintro ⟨hfunctions, hcleanups⟩
    have hbound := (hbegins.filterMap Action.function?).length_le
    rw [hfunctions, registered, function?_actions, List.length_append] at hbound
    have hlate := List.length_eq_zero_iff.mp
      (Nat.eq_zero_of_le_zero (Nat.le_of_add_le_add_left hbound))
    rw [registered, hlate, List.append_nil] at hfunctions
    have hcalls := calls_eq_actions hbegins (by rw [hfunctions])
      (hcleanups.length_eq ▸ Nat.le_refl _)
    rw [hcalls, List.flatMap_eq_nil_iff] at hlate
    rw [runnerWrapper_calls, callAll_all] at hcalls
    exact ⟨hcalls, hlate⟩
  · rintro ⟨hthrows, hregisters⟩
    have hcalls : (runnerWrapper behaves entry).calls = actions entry := by
      rw [runnerWrapper_calls, callAll_all]
      exact hthrows
    refine ⟨?_, ?_⟩
    · rw [registered, hcalls, List.flatMap_eq_nil_iff.mpr hregisters, List.append_nil,
        function?_actions]
    · rw [hcalls, cleanup?_actions]

/-- Of two registered functions the first throws. -/
theorem cleanup_skipped :
    ¬ RunsAll (κ := Nat) (fun a : Action Nat Nat Nat => ⟨[], a = .function 0⟩)
      ⟨[0, 1], ∅, false⟩ := by
  intro hruns
  exact absurd hruns.functions (by decide)

end Cleanup

end GreenThread
