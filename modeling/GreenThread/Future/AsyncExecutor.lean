import GreenThread.Future.Served

/-!
# `async_executor`

The tasks of an `async_executor` are packaged tasks, so an exception of a function is caught and
becomes the content of the task's future. Whatever the functions do and whenever the destructor is
called, each task is called once, by one thread of the pool, before the destructor returns.
-/

namespace GreenThread

namespace AsyncExecutor

open Future (Content Exn Arg)
open Service (State Label Log Quiet)

variable {τ A V E : Type} [DecidableEq τ]

/-- `threads_` and `queue_`, with functions that do what `fn` says. -/
def pool (threads : List τ) (capacity : Nat) (fn : A → Arg V E) :
    Service.Pool τ A V E := ⟨threads, capacity, true, fn⟩

/-- The executor is used properly. -/
def properly (sh : State τ A V E × Log τ) (l : Label τ A) : Prop := Service.properly sh.1 l

abbrev logged (threads : List τ) (capacity : Nat) (fn : A → Arg V E) :
    TransitionSystem (State τ A V E × Log τ) (Label τ A) :=
      Service.logged (pool threads capacity fn)

/-- The function of the task has been called once, by one of the threads, and the future is ready
with what it did. -/
def Ran (threads : List τ) (fn : A → Arg V E) (s : State τ A V E) (h : Log τ) (id : Nat) : Prop :=
  (∃ w ∈ threads, (h.served.filter fun c => c.2 = id) = [(w, id)]) ∧
    ∃ a, s.tasks[id]? = some a ∧ s.content id = some (fn a).content

/-- Every task runs once, before the destructor returns. -/
structure RunsOnce (threads : List τ) (capacity : Nat) (fn : A → Arg V E) (s : State τ A V E)
    (h : Log τ) : Prop where
  once : ∀ id, (h.served.map Prod.snd).count id ≤ 1
  served : ∀ c ∈ h.served, c.1 ∈ threads
  outcome : ∀ id c, s.content id = some c → ∃ a, s.tasks[id]? = some a ∧ c = (fn a).content
  unbroken : ∀ id, s.content id ≠ some (.except .brokenPromise)
  complete : (∃ t, s.pos t = .destroyed) → ∀ id < s.tasks.length, Ran threads fn s h id
  quiet : Quiet (pool threads capacity fn) s → s.queue.shared.queue.length < capacity →
    ∀ id < s.tasks.length, Ran threads fn s h id
  returns : Quiet (pool threads capacity fn) s → ∀ t, (s.pos t).destroying = true →
    s.pos t = .destroyed

variable {threads : List τ} {capacity : Nat} {fn : A → Arg V E} {sh : State τ A V E × Log τ}

omit [DecidableEq τ] in
theorem allowed_of_properly {l : Label τ A} (hproperly : properly sh l) :
    Service.allowed (pool threads capacity fn) sh l := by
  refine ⟨hproperly, ?_⟩
  cases l with
  | go t =>
    change ((sh.1.calling t).all fun a => true || (fn a).isValue) = true
    cases sh.1.calling t <;> rfl
  | _ => trivial

omit [DecidableEq τ] in
theorem ran_of_finished (hinv : Service.Inv (pool threads capacity fn) sh.1 sh.2) {id : Nat}
    (hfinished : sh.2.stage id = .finished) :
    Ran threads fn sh.1 sh.2 id :=
  ⟨hinv.books.once hfinished, hinv.books.finished id hfinished⟩

theorem outcome (hinv : Service.Inv (pool threads capacity fn) sh.1 sh.2) {id : Nat}
    {c : Content V E}
    (hcontent : sh.1.content id = some c) : ∃ a, sh.1.tasks[id]? = some a ∧ c = (fn a).content := by
  have hfinished : sh.2.stage id = .finished := by
    by_contra hnot
    cases (hinv.books.unfinished id hnot).symm.trans hcontent
  obtain ⟨a, htask, hset⟩ := hinv.books.finished id hfinished
  exact ⟨a, htask, Option.some.inj (hcontent.symm.trans hset)⟩

/-- An `async_executor` with at least one thread runs every task once, also when it is destroyed
early. -/
theorem async_executor_runs_once [Fintype τ] (threads : List τ) (hthreads : threads ≠ [])
    (capacity : Nat) (fn : A → Arg V E)
    {sh : State τ A V E × Log τ} (hr : (logged threads capacity fn).Reach properly sh) :
    RunsOnce threads capacity fn sh.1 sh.2 := by
  have hinv := Service.reach_inv (P := pool threads capacity fn) hthreads
    (hr.mono fun _ _ => allowed_of_properly)
  have hqueue := Service.reach_queue hr
  refine ⟨fun id => ?_, hinv.books.servers, fun id c => outcome hinv, fun id hbroken => ?_,
    fun ⟨t, ht⟩ id hid => ?_,
    fun hquiet hroom id hid => ?_, fun hquiet t ht => hquiet.destroyed hqueue hinv ht⟩
  · rw [hinv.books.calls]
    split <;> omega
  · obtain ⟨a, -, heq⟩ := outcome hinv hbroken
    cases hfn : fn a with
    | value v | exception e =>
      rw [hfn] at heq
      cases heq
  · exact ran_of_finished hinv (hinv.finished_of_destroyed hthreads ht hid)
  · exact ran_of_finished hinv (hquiet.finished hqueue hinv hthreads hroom hid)

/-- The executor is destroyed while its thread has still to call two functions, the second of which
throws. -/
theorem async_executor_runs_once_early : ∃ sh : State (Fin 2) (Arg Nat Nat) Nat Nat × Log (Fin 2),
    RunsOnce [1] 9 (fun a => a) sh.1 sh.2 ∧ sh.1.pos 0 = .destroyed ∧
    sh.2.served = [(1, 0), (1, 1)] ∧
    sh.1.content 1 = some (.except (.own 3)) := by
  let calls : List (Label (Fin 2) (Arg Nat Nat)) := .submit 0 (.value 7) :: Service.pushSteps 0 0 ++
    .submit 0 (.exception 3) :: Service.pushSteps 0 1 ++ .destroy 0 :: Service.closeSteps 0
  let serves : List (Label (Fin 2) (Arg Nat Nat)) := Service.popSteps 1 ++ [.go 1, .go 1, .go 1]
  let ends : List (Label (Fin 2) (Arg Nat Nat)) :=
    Service.drainedSteps 1 ++ [.go 1, .go 1, .go 0, .go 0]
  have hreach := (logged [(1 : Fin 2)] 9 fun a : Arg Nat Nat => a).reach_of_run
    (fun sh l => decide (Service.properly sh.1 l))
    (Service.initial (pool [1] 9 fun a => a), .empty) ⟨rfl, rfl⟩
      (calls ++ serves ++ serves ++ ends) rfl
  have hproper : (logged [(1 : Fin 2)] 9 fun a : Arg Nat Nat => a).Reach properly _ :=
    hreach.mono fun _ _ h => of_decide_eq_true h
  exact ⟨_, async_executor_runs_once [(1 : Fin 2)] nofun 9 (fun a => a) hproper, rfl, rfl, rfl⟩

end AsyncExecutor

end GreenThread
