import GreenThread.Library.System
import GreenThread.Future.Code

/-!
# Packaged tasks and their rounds

A `packaged_task` is used in rounds separated by `reset`: its future is taken, continuations may be
attached to it, and the task is invoked once. All rounds use the one shared state in `task_`, of
which `reset` clears `ready_` alone.
-/

namespace GreenThread

namespace PackagedTask

open Future

variable {V E : Type}

/-- A `packaged_task` with its shared state. The waiters that throw are those for which `throws`
holds. -/
structure Task (V E : Type) where
  obtained : Bool := false
  state : SharedState V E := ⟨false, none, none, []⟩
  nextWaiter : Nat := 0

inductive Op (V E : Type)
  | getFuture
  | addWaiter
  | invoke (result : Arg V E)
  | reset

/-- The waiters the loop of `mark_ready_and_notify_` calls: it is left by the first exception. -/
def notified (throws : Waiter → Bool) : List Waiter → List Waiter
  | [] => []
  | w :: ws => if throws w then [w] else w :: notified throws ws

/-- `task_object::run` with a function that returns or throws `result`, and the waiters it calls. -/
def run (throws : Waiter → Bool) (x : SharedState V E) (result : Arg V E) :
    SharedState V E × List Waiter :=
  -- `set_value` throws `promise_already_satisfied`, and so does the `set_exception` of its handler.
  if x.ready then (x, [])
  -- An exception of a waiter is caught as well, and then `set_exception` finds the state ready.
  else ({ x.store result.content with ready := true }, notified throws x.extWaiters)

/-- `shared_state::add_external_waiter`, and the waiter if it is called at once. -/
def addExternalWaiter (x : SharedState V E) (w : Waiter) : SharedState V E × List Waiter :=
  if x.ready then (x, [w]) else ({ x with extWaiters := x.extWaiters ++ [w] }, [])

/-- One call of a round, with the waiters it runs: a round begins with `get_future`, has one
invocation, and is over before `reset`. -/
def Task.call (throws : Waiter → Bool) (t : Task V E) : Op V E → Option (Task V E × List Waiter)
  | .getFuture => if t.obtained then none else some ({ t with obtained := true }, [])
  | .addWaiter =>
    if t.obtained then
      let added := addExternalWaiter t.state ⟨0, t.nextWaiter⟩
      some ({ t with state := added.1, nextWaiter := t.nextWaiter + 1 }, added.2)
    else none
  | .invoke result =>
    if t.obtained && !t.state.ready then
      let ran := run throws t.state result
      some ({ t with state := ran.1 }, ran.2)
    else none
  | .reset =>
    if t.state.ready
      then some ({ t with obtained := false, state := { t.state with ready := false } }, [])
      else none

/-- What `get` of a future of the task gives, when it does not wait: the futures of all rounds refer
to the state in `task_`. -/
def Task.yields (t : Task V E) : Option (Content V E) :=
  if t.state.ready then t.state.content else none

def system (V E : Type) (throws : Waiter → Bool) : TransitionSystem (Task V E) (Op V E) where
  init t := t = {}
  step t op := (t.call throws op).map (·.1)

/-! ### The rounds -/

/-- The outcomes of the rounds, the round in which each waiter was registered, and for each call of
a waiter that round and the one whose completion called it. -/
structure Rounds (V E : Type) where
  past : List (Content V E) := []
  outcome : Option (Content V E) := none
  registered : Nat → Nat := fun _ => 0
  calls : List (Nat × Nat) := []

namespace Rounds

/-- The round the task is in. -/
def current (r : Rounds V E) : Nat := r.past.length

def enter (r : Rounds V E) (nextWaiter : Nat) : Op V E → Rounds V E
  | .getFuture => r
  | .addWaiter => { r with registered := Function.update r.registered nextWaiter r.current }
  | .invoke result => { r with outcome := some result.content }
  | .reset => { r with past := r.outcome.toList ++ r.past, outcome := none }

/-- The outcomes so far, the last one first. -/
def outcomes (r : Rounds V E) : List (Content V E) := r.outcome.toList ++ r.past

end Rounds

def record (throws : Waiter → Bool) (r : Rounds V E) (t : Task V E) (op : Op V E)
    (_ : Task V E) : Rounds V E :=
  match t.call throws op with
  | some (_, called) =>
    let r := r.enter t.nextWaiter op
    { r with calls := called.map (fun w => (r.registered w.id, r.current)) ++ r.calls }
  | none => r

/-- The runs of a task with their rounds. -/
def rounds (V E : Type) (throws : Waiter → Bool) :
    TransitionSystem (Task V E × Rounds V E) (Op V E) :=
  (system V E throws).withHistory {} (record throws)

/-- The future of the round gives its outcome and the futures of the earlier rounds still give
theirs, and each waiter was called for the round it was registered in. -/
structure Fresh (t : Task V E) (r : Rounds V E) : Prop where
  current : t.obtained → t.yields = r.outcome
  earlier : ∀ x ∈ r.past, t.yields = some x
  waiters : ∀ c ∈ r.calls, c.1 = c.2

/-- The run of the given calls of a new task is fresh in each of its states. -/
def AlwaysFresh (throws : Waiter → Bool) (ops : List (Op V E)) : Prop :=
  ∀ pre tr, pre <+: ops → (rounds V E throws).run ({}, {}) pre = some tr → Fresh tr.1 tr.2

variable {throws : Waiter → Bool}

theorem rounds_step {t : Task V E} {r : Rounds V E} {op : Op V E} {tr' : Task V E × Rounds V E}
    (hstep : (rounds V E throws).step (t, r) op = some tr') :
    ∃ t' called, t.call throws op = some (t', called) ∧
      tr' = (t', { r.enter t.nextWaiter op with
        calls := called.map (fun w =>
            ((r.enter t.nextWaiter op).registered w.id, (r.enter t.nextWaiter op).current)) ++
          (r.enter t.nextWaiter op).calls }) := by
  obtain ⟨t', ht', rfl⟩ := TransitionSystem.withHistory_step.mp hstep
  obtain ⟨⟨t', called⟩, hcall, rfl⟩ := Option.map_eq_some_iff.mp ht'
  exact ⟨t', called, hcall, by rw [record, hcall]⟩

/-! ### What the shared state holds -/

def valueOf : Content V E → Option V
  | .value v => some v
  | .except _ => none

def exceptOf : Content V E → Option (Exn E)
  | .value _ => none
  | .except x => some x

/-- Nothing clears `value_` and `except_`: they are those of the last round that returned and of the
last round that threw. -/
structure Stored (t : Task V E) (r : Rounds V E) : Prop where
  ready : t.state.ready = r.outcome.isSome
  value : t.state.value = (r.outcomes.filterMap valueOf).head?
  except : t.state.except = (r.outcomes.filterMap exceptOf).head?

theorem Stored.invoke {t : Task V E} {r : Rounds V E} (h : Stored t r)
    (hready : t.state.ready = false) (result : Arg V E) (calls : List (Nat × Nat)) :
    Stored { t with state := (run throws t.state result).1 }
      { r with outcome := some result.content, calls } := by
  have hnone : r.outcome = none := by
    rw [h.ready] at hready
    exact Option.isNone_iff_eq_none.mp (by simpa using hready)
  have hvalue := h.value
  have hexcept := h.except
  rw [Rounds.outcomes, hnone, Option.toList_none, List.nil_append] at hvalue hexcept
  rw [run, if_neg (by simp [hready])]
  cases result with
  | value v => exact ⟨rfl, rfl, hexcept⟩
  | exception e => exact ⟨rfl, hvalue, rfl⟩

theorem stored_step {t : Task V E} {r : Rounds V E} (h : Stored t r) {op : Op V E}
    {tr' : Task V E × Rounds V E}
    (hstep : (rounds V E throws).step (t, r) op = some tr') : Stored tr'.1 tr'.2 := by
  obtain ⟨t', called, hcall, rfl⟩ := rounds_step hstep
  cases op with
  | getFuture =>
    simp only [Task.call, Option.ite_none_left_eq_some] at hcall
    obtain ⟨-, hcall⟩ := hcall
    cases hcall
    exact ⟨h.ready, h.value, h.except⟩
  | addWaiter =>
    simp only [Task.call, Option.ite_none_right_eq_some] at hcall
    obtain ⟨-, hcall⟩ := hcall
    cases hcall
    rw [addExternalWaiter]
    split <;> exact ⟨h.ready, h.value, h.except⟩
  | invoke result =>
    simp only [Task.call, Option.ite_none_right_eq_some, Bool.and_eq_true,
      Bool.not_eq_true'] at hcall
    obtain ⟨⟨-, hready⟩, hcall⟩ := hcall
    cases hcall
    exact h.invoke hready result _
  | reset =>
    simp only [Task.call, Option.ite_none_right_eq_some] at hcall
    obtain ⟨-, hcall⟩ := hcall
    cases hcall
    exact ⟨rfl, h.value, h.except⟩

theorem stored {tr : Task V E × Rounds V E} (hreach : (rounds V E throws).Reachable tr) :
    Stored tr.1 tr.2 := by
  refine hreach.invariant (I := fun tr => Stored tr.1 tr.2)
    (fun tr hinit => ?_) fun tr op tr' _ ih _ hstep =>
    stored_step ih hstep
  obtain ⟨ht, hr⟩ := hinit
  rw [ht, hr]
  exact ⟨rfl, rfl, rfl⟩

/-- After any rounds the futures give the exception of the last round that threw, and a value only
if none did. -/
theorem yields_eq {tr : Task V E × Rounds V E} (hreach : (rounds V E throws).Reachable tr) :
    tr.1.yields =
      if tr.2.outcome.isSome then
        ((tr.2.outcomes.filterMap exceptOf).head?.map Content.except).or
          ((tr.2.outcomes.filterMap valueOf).head?.map Content.value)
      else none := by
  have h := stored hreach
  rw [Task.yields, SharedState.content, ← h.value, ← h.except, ← h.ready]
  cases tr.1.state.except <;> rfl

/-! ### One round -/

/-- Before the first `reset`. -/
structure FirstRound (r : Rounds V E) : Prop where
  past : r.past = []
  registered : ∀ id, r.registered id = 0
  calls : ∀ c ∈ r.calls, c.1 = c.2

theorem firstRound_step {t : Task V E} {r : Rounds V E} (h : FirstRound r) {op : Op V E}
    (hop : op ≠ .reset)
    {tr' : Task V E × Rounds V E} (hstep : (rounds V E throws).step (t, r) op = some tr') :
    FirstRound tr'.2 := by
  obtain ⟨t', called, -, rfl⟩ := rounds_step hstep
  obtain ⟨hpast, hregistered, hcalls⟩ : FirstRound (r.enter t.nextWaiter op) := by
    cases op with
    | getFuture => exact h
    | addWaiter =>
      refine ⟨h.past, fun id => ?_, h.calls⟩
      have hcurrent : r.current = 0 := by rw [Rounds.current, h.past, List.length_nil]
      by_cases hid : id = t.nextWaiter
      · simp [Rounds.enter, hid, hcurrent]
      · simp [Rounds.enter, hid, h.registered]
    | invoke result => exact ⟨h.past, h.registered, h.calls⟩
    | reset => exact absurd rfl hop
  refine ⟨hpast, hregistered, fun c hc => ?_⟩
  obtain hc | hc := List.mem_append.mp hc
  · obtain ⟨w, -, rfl⟩ := List.mem_map.mp hc
    rw [hregistered, Rounds.current, hpast, List.length_nil]
  · exact hcalls c hc

theorem fresh_of_reach {tr : Task V E × Rounds V E}
    (hreach : (rounds V E throws).Reach (fun _ op => op ≠ .reset) tr) :
    Fresh tr.1 tr.2 := by
  have hfirst : FirstRound tr.2 := by
    refine hreach.invariant (I := fun tr => FirstRound tr.2)
      (fun tr hinit => ?_) fun tr op tr' _ ih hop hstep =>
      firstRound_step ih hop hstep
    obtain ⟨-, hr⟩ := hinit
    rw [hr]
    exact ⟨rfl, fun _ => rfl, fun _ hc => (nomatch hc)⟩
  refine ⟨fun _ => ?_, fun x hx => ?_, hfirst.calls⟩
  · rw [yields_eq hreach.reachable, Rounds.outcomes, hfirst.past]
    rcases tr.2.outcome with _ | _ | _ <;> rfl
  · rw [hfirst.past] at hx
    cases hx

/-- After `reset` the future of the round before is not ready any more. -/
theorem not_fresh_of_reset {tr tr' : Task V E × Rounds V E}
    (hreach : (rounds V E throws).Reachable tr)
    (hstep : (rounds V E throws).step tr .reset = some tr') : ¬ Fresh tr'.1 tr'.2 := by
  obtain ⟨t', called, hcall, rfl⟩ := rounds_step hstep
  simp only [Task.call, Option.ite_none_right_eq_some] at hcall
  obtain ⟨hready, hcall⟩ := hcall
  cases hcall
  intro hfresh
  rw [(stored hreach).ready] at hready
  obtain ⟨x, hx⟩ := Option.isSome_iff_exists.mp hready
  have hyields := hfresh.earlier x (by simp [Rounds.enter, hx])
  cases hyields

/-- A run of a task is fresh in each of its states exactly if the task is never reset. -/
theorem fresh_iff {ops : List (Op V E)} {tr : Task V E × Rounds V E}
    (hrun : (rounds V E throws).run ({}, {}) ops = some tr) :
    AlwaysFresh throws ops ↔ Op.reset ∉ ops := by
  have hinit : (rounds V E throws).init ({}, {}) := ⟨rfl, rfl⟩
  constructor
  · intro hfresh hmem
    obtain ⟨pre, suf, rfl⟩ := List.append_of_mem hmem
    rw [TransitionSystem.run_append] at hrun
    obtain ⟨mid, hpre, hrest⟩ := Option.bind_eq_some_iff.mp hrun
    obtain ⟨tr', hreset, -⟩ := Option.bind_eq_some_iff.mp hrest
    have hmid : (rounds V E throws).Reachable mid :=
      TransitionSystem.Reachable.run (.init hinit) hpre
    refine not_fresh_of_reset hmid hreset (hfresh (pre ++ [.reset]) tr' ⟨suf, by simp⟩ ?_)
    rw [TransitionSystem.run_append, hpre]
    simpa [TransitionSystem.run, TransitionSystem.runIf] using hreset
  · intro hnot pre tr' hpre hrun'
    refine fresh_of_reach (TransitionSystem.Reach.run (.init hinit) hrun' fun op hop heq => ?_)
    exact hnot (heq ▸ hpre.subset hop)

/-- One round with a waiter before the invocation and one after it. -/
theorem fresh_of_round : AlwaysFresh (E := Nat) (fun _ => false)
    [Op.getFuture, .addWaiter, .invoke (.value 5), .addWaiter] := by
  obtain ⟨tr, hrun⟩ : ∃ tr, (rounds Nat Nat fun _ => false).run ({}, {})
    [Op.getFuture, .addWaiter, .invoke (.value 5), .addWaiter] = some tr := ⟨_, rfl⟩
  exact (fresh_iff hrun).mpr (by simp)

/-- The first round throws and the second returns: its future gives the exception of the first,
whose waiter is called again. -/
theorem second_round_throws :
    ∃ tr : Task Nat Nat × Rounds Nat Nat, (rounds Nat Nat fun _ => false).Reachable tr ∧
    tr.2.outcome = some (.value 5) ∧ tr.1.yields = some (.except (.own 7)) ∧
    tr.2.calls = [(0, 1), (0, 0)] ∧
      ¬ Fresh tr.1 tr.2 := by
  let ops : List (Op Nat Nat) :=
    [.getFuture, .addWaiter, .invoke (.exception 7), .reset, .getFuture, .invoke (.value 5)]
  have hreach := (rounds Nat Nat fun _ => false).reach_of_run (fun _ _ => true) ({}, {})
    ⟨rfl, rfl⟩ ops rfl
  exact ⟨_, hreach.reachable, rfl, rfl, rfl, fun hfresh => nomatch hfresh.current rfl⟩

end PackagedTask

end GreenThread
