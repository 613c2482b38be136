import GreenThread.Future.Served

/-!
# `async_function`

One thread serves the calls of an `async_function` in the order in which they entered the queue.
`call` passes what the function returns to `set_value`, and nothing catches an exception: it
destroys the call in the iterator's `value_` with its promise, ends the loop and leaves the later
calls in the queue. As long as the function returns, every call is completed.
-/

namespace GreenThread

namespace AsyncFunction

open Future (Content Exn Arg)
open Service (State Label Log Quiet Pos Stage Move Inv)

variable {τ A V E : Type} [DecidableEq τ]

/-- `thread_` and `queue_`, with a function that does what `fn` says. -/
def pool (thread : τ) (capacity : Nat) (fn : A → Arg V E) :
    Service.Pool τ A V E := ⟨[thread], capacity, false, fn⟩

/-- The object is used properly. -/
def properly (sh : State τ A V E × Log τ) (l : Label τ A) : Prop := Service.properly sh.1 l

/-- And each function that is called returns. -/
def returning (thread : τ) (capacity : Nat) (fn : A → Arg V E) (sh : State τ A V E × Log τ)
    (l : Label τ A) : Prop :=
  properly sh l ∧ Service.completes (pool thread capacity fn) sh.1 l

abbrev logged (thread : τ) (capacity : Nat) (fn : A → Arg V E) :
    TransitionSystem (State τ A V E × Log τ) (Label τ A) :=
  Service.logged (pool thread capacity fn)

/-- The future of the call is ready with the value the function returned, or the exception it
threw. -/
def Completed (fn : A → Arg V E) (s : State τ A V E) (id : Nat) : Prop :=
  ∃ a, s.tasks[id]? = some a ∧ s.content id = some (fn a).content

/-- Every call is completed like the function, in the order of the calls. -/
structure Completes (thread : τ) (capacity : Nat) (fn : A → Arg V E) (s : State τ A V E)
    (h : Log τ) : Prop where
  outcome : ∀ id c, s.content id = some c → Completed fn s id
  order : h.served.map Prod.snd <+: h.pushed
  callers : ∀ t, (h.pushed.filter fun id => h.caller id = some t).Pairwise (· < ·)
  serving : (s.pos thread).isEnded = true →
    s.queue.shared.queue = [] ∧ s.queue.shared.opened = false
  complete : (∃ t, s.pos t = .destroyed) → ∀ id < s.tasks.length, Completed fn s id
  quiet : Quiet (pool thread capacity fn) s → s.queue.shared.queue.length < capacity →
    ∀ id < s.tasks.length, Completed fn s id

variable {thread : τ} {capacity : Nat} {fn : A → Arg V E} {s s' : State τ A V E} {h h' : Log τ}

/-! ### The order of the calls -/

/-- The calls in the order in which they entered the queue: those that were called, the one that was
popped, and the rest. -/
def InOrder (thread : τ) (s : State τ A V E) (h : Log τ) : Prop :=
  h.pushed = h.served.map Prod.snd ++
  ((s.pos thread).holding (Queue.phase s.queue thread)).toList ++ s.queue.shared.queue

omit [DecidableEq τ] in
theorem InOrder.congr (horder : InOrder thread s h) (hpushed : h'.pushed = h.pushed)
    (hserved : h'.served = h.served)
    (hholding : (s'.pos thread).holding (Queue.phase s'.queue thread) =
      (s.pos thread).holding (Queue.phase s.queue thread))
    (hqueue : s'.queue.shared.queue = s.queue.shared.queue) : InOrder thread s' h' := by
  unfold InOrder at horder ⊢
  rw [hpushed, hserved, hholding, hqueue, horder]

theorem inOrder_move (hmove : Move (pool thread capacity fn) s h s' h')
    (hinv : Inv (pool thread capacity fn) s h)
    (horder : InOrder thread s h) : InOrder thread s' h' := by
  have hself : ∀ {t}, t ∈ (pool thread capacity fn).workers → t = thread := List.mem_singleton.mp
  cases hmove with
  | @goes t queue p hother hshared hmaking hholding =>
    refine horder.congr rfl rfl (Service.told_setPos hother hholding thread) ?_
    change queue.shared.queue = _
    rw [hshared]
  | @submits t task a hpos =>
    exact horder.congr rfl rfl
      (Service.told_setPos (g := Pos.holding) (fun _ _ => rfl) (by simp [hpos, Pos.holding]) thread)
        rfl
  | @destroys t hpos =>
    exact horder.congr rfl rfl
      (Service.told_setPos (g := Pos.holding) (fun _ _ => rfl) (by simp [hpos, Pos.holding]) thread)
        rfl
  | @pushes t queue id task hpos hphase hother hphase' hopened hshared =>
    have hholding : (s.pos thread).holding (Queue.phase queue thread) =
      (s.pos thread).holding (Queue.phase s.queue thread) :=
      Service.told_kept hother (by rw [hpos]; rfl) thread
    change h.pushed ++ [id] = h.served.map Prod.snd ++
      ((s.pos thread).holding (Queue.phase queue thread)).toList ++ queue.shared.queue
    rw [hholding, hshared, horder, List.append_assoc _ s.queue.shared.queue]
  | @closes t queue hpos hphase hother hphase' hshared =>
    refine horder.congr rfl rfl (Service.told_kept hother (by rw [hpos]; rfl) thread) ?_
    change queue.shared.queue = _
    rw [hshared]
  | @pops t queue value id rest hpos hphase hother hphase' hqueue hshared =>
    have hrole : t = thread := by
      cases hinv.roles.fits t with
      | pops _ hrole | popped _ hrole | drains _ hrole => exact hself hrole
      | _ hp => cases hpos.symm.trans hp
    subst hrole
    unfold InOrder at horder ⊢
    rw [hpos, hphase, hqueue] at horder
    change h.pushed = h.served.map Prod.snd ++
      ((State.pos _ t).holding (Queue.phase queue t)).toList ++ queue.shared.queue
    rw [State.setPos_pos_self, hphase', hshared, horder]
    simp [Pos.holding]
  | @calls t id hpos =>
    have hrole : t = thread := by
      cases hinv.roles.fits t with
      | takes _ _ hrole => exact hself hrole
      | _ hp => cases hpos.symm.trans hp
    subst hrole
    unfold InOrder at horder ⊢
    rw [hpos] at horder
    rw [State.setPos_pos_self]
    change h.pushed = (h.served ++ [(t, id)]).map Prod.snd ++ [] ++ s.queue.shared.queue
    rw [horder]
    simp [Pos.holding]
  | @finishes t id a hpos htask =>
    have hphase : Queue.phase s.queue t = .outside := by
      cases hinv.roles.fits t with
      | finishes _ hq => exact hq
      | _ hp => cases hpos.symm.trans hp
    exact horder.congr rfl rfl (Service.told_setPos (g := Pos.holding)
      (s := { s with content := Function.update s.content id (some (fn a).content) })
        (fun _ _ => rfl)
      (by simp [hpos, hphase, Pos.holding]) thread) rfl

/-- A caller's calls enter the queue in the order in which it makes them. -/
structure Callers (s : State τ A V E) (h : Log τ) : Prop where
  arrived : ∀ id ∈ h.pushed, h.stage id ≠ .unmade ∧ ∀ t, h.stage id ≠ .made t
  made : ∀ id t, h.caller id = some t → id < s.tasks.length
  latest : ∀ t id task, s.pos t = .push id task →
    h.caller id = some t ∧ ∀ j, h.caller j = some t → j ≤ id
  sorted : ∀ t, (h.pushed.filter fun id => h.caller id = some t).Pairwise (· < ·)

theorem Callers.arrived_update (hcallers : Callers s h) {id : Nat} {x : Stage τ}
    (hunmade : x ≠ .unmade) (hmade : ∀ t, x ≠ .made t) {j : Nat} (hj : j ∈ h.pushed ∨ j = id) :
    Function.update h.stage id x j ≠ .unmade ∧ ∀ t, Function.update h.stage id x j ≠ .made t := by
  by_cases hjid : j = id
  · rw [hjid, Function.update_self]
    exact ⟨hunmade, hmade⟩
  · rw [Function.update_of_ne hjid]
    exact hcallers.arrived j (hj.resolve_right hjid)

theorem Callers.latest_setPos (hcallers : Callers s h) {t : τ} {p : Pos τ V E}
    (hp : ∀ id task, p = .push id task → s.pos t = .push id task)
    (u : τ) : ∀ id task, (s.setPos t p).pos u = .push id task →
    h.caller id = some u ∧ ∀ j, h.caller j = some u → j ≤ id :=
  Service.forall_setPos (Q := fun u p => ∀ id task, p = .push id task →
    h.caller id = some u ∧ ∀ j, h.caller j = some u → j ≤ id)
    (fun id task heq => hcallers.latest t id task (hp id task heq)) (fun u _ => hcallers.latest u) u

theorem Callers.submits (hcallers : Callers s h) (hunmade : h.stage s.tasks.length = .unmade)
    (t : τ) (task : Option Nat) (a : A) :
    Callers ({ s with tasks := s.tasks ++ [a] }.setPos t (.push s.tasks.length task))
      ({ h with caller := Function.update h.caller s.tasks.length (some t) }.setStage s.tasks.length
        (.made t)) := by
  have hnew : ∀ id ∈ h.pushed, id ≠ s.tasks.length := by
    rintro id hid rfl
    exact (hcallers.arrived _ hid).1 hunmade
  have hmade : ∀ id u, Function.update h.caller s.tasks.length (some t) id = some u →
      (id = s.tasks.length ∧ u = t) ∨ (id < s.tasks.length ∧ h.caller id = some u) := by
    intro id u hid
    rcases Machine.place_of_update hid with hlast | ⟨-, hid⟩
    · exact .inl hlast
    · exact .inr ⟨hcallers.made id u hid, hid⟩
  refine ⟨fun id hid => ?_, fun id u hid => ?_, fun u => ?_, fun u => ?_⟩
  · change Function.update h.stage s.tasks.length (.made t) id ≠ _ ∧
      ∀ u, Function.update h.stage s.tasks.length (.made t) id ≠ _
    rw [Function.update_of_ne (hnew id hid)]
    exact hcallers.arrived id hid
  · change id < (s.tasks ++ [a]).length
    rw [List.length_append, List.length_singleton]
    rcases hmade id u hid with ⟨rfl, -⟩ | ⟨hlt, -⟩ <;> omega
  · refine Service.forall_setPos (s := { s with tasks := s.tasks ++ [a] })
      (Q := fun u p => ∀ id task, p = .push id task →
        Function.update h.caller s.tasks.length (some t) id = some u ∧
        ∀ j, Function.update h.caller s.tasks.length (some t) j = some u → j ≤ id) ?_ ?_ u
    · rintro id task' heq
      obtain ⟨rfl, -⟩ := Pos.push.inj heq
      refine ⟨Function.update_self .., fun j hj => ?_⟩
      rcases hmade j t hj with ⟨rfl, -⟩ | ⟨hlt, -⟩ <;> omega
    · intro u hu id task' hp
      obtain ⟨hcaller, hlatest⟩ := hcallers.latest u id task' hp
      refine ⟨?_, fun j hj => ?_⟩
      · rw [Function.update_of_ne (Nat.ne_of_lt (hcallers.made id u hcaller))]
        exact hcaller
      · rcases hmade j u hj with ⟨-, rfl⟩ | ⟨-, hj⟩
        · exact absurd rfl hu
        · exact hlatest j hj
  · change (h.pushed.filter fun id => Function.update h.caller s.tasks.length (some t) id =
      some u).Pairwise (· < ·)
    rw [List.filter_congr fun id hid => by rw [Function.update_of_ne (hnew id hid)]]
    exact hcallers.sorted u

/-- The latest call of a thread enters the queue, behind the thread's other calls. -/
theorem Callers.pushes (hcallers : Callers s h) {t : τ} {id : Nat} {task : Option Nat}
    (hpos : s.pos t = .push id task) (hmade : h.stage id = .made t) (queue : Queue.State Nat τ) :
    Callers { s with queue := queue } ({ h with pushed := h.pushed ++ [id] }.setStage id
      .queued) := by
  obtain ⟨hcaller, hlatest⟩ := hcallers.latest t id task hpos
  refine ⟨fun j hj => hcallers.arrived_update (x := .queued) nofun (fun _ => nofun)
    ((List.mem_append.mp hj).imp_right List.mem_singleton.mp),
    hcallers.made, hcallers.latest, fun u => ?_⟩
  change ((h.pushed ++ [id]).filter fun j => h.caller j = some u).Pairwise (· < ·)
  rw [List.filter_append, List.pairwise_append]
  refine ⟨hcallers.sorted u, List.Pairwise.filter _ (List.pairwise_singleton ..),
    fun j hj k hk => ?_⟩
  obtain ⟨hjmem, hju⟩ := List.mem_filter.mp hj
  obtain ⟨hkmem, hku⟩ := List.mem_filter.mp hk
  obtain rfl := List.mem_singleton.mp hkmem
  obtain rfl := Option.some.inj (hcaller.symm.trans (of_decide_eq_true hku))
  have hne : j ≠ k := by
    rintro rfl
    exact (hcallers.arrived j hjmem).2 t hmade
  exact Nat.lt_of_le_of_ne (hlatest j (of_decide_eq_true hju)) hne

theorem callers_move (hmove : Move (pool thread capacity fn) s h s' h')
    (hinv : Inv (pool thread capacity fn) s h) (hcallers : Callers s h) : Callers s' h' := by
  cases hmove with
  | goes hother hshared _ _ _ _ hpushing =>
    exact ⟨hcallers.arrived, hcallers.made, hcallers.latest_setPos hpushing, hcallers.sorted⟩
  | submits => exact hcallers.submits ((hinv.books.unmade _).mpr le_rfl) ..
  | destroys => exact ⟨hcallers.arrived, hcallers.made, hcallers.latest_setPos nofun,
      hcallers.sorted⟩
  | @pushes t queue id task hpos hphase =>
    exact hcallers.pushes hpos ((hinv.books.making t id).mpr (by rw [hpos, hphase]; rfl)) queue
  | closes => exact ⟨hcallers.arrived, hcallers.made, hcallers.latest, hcallers.sorted⟩
  | @pops t =>
    exact ⟨fun j hj => hcallers.arrived_update (x := .held t) nofun (fun _ => nofun) (.inl hj),
      hcallers.made,
      hcallers.latest_setPos nofun, hcallers.sorted⟩
  | @calls t =>
    exact ⟨fun j hj => hcallers.arrived_update (x := .running t) nofun (fun _ => nofun) (.inl hj),
      hcallers.made,
      hcallers.latest_setPos nofun, hcallers.sorted⟩
  | finishes =>
    exact ⟨fun j hj => hcallers.arrived_update (x := .finished) nofun (fun _ => nofun) (.inl hj),
      hcallers.made,
      hcallers.latest_setPos nofun, hcallers.sorted⟩

theorem reach_order {sh : State τ A V E × Log τ}
    (hr : (logged thread capacity fn).Reach (returning thread capacity fn) sh) :
    InOrder thread sh.1 sh.2 ∧ Callers sh.1 sh.2 := by
  refine hr.invariant (I := fun sh => InOrder thread sh.1 sh.2 ∧ Callers sh.1 sh.2) ?_ ?_
  · rintro ⟨s, h⟩ ⟨hs, hh⟩
    cases hs
    cases hh
    refine ⟨?_, nofun, nofun, fun t id task hpos => ?_, fun _ => List.Pairwise.nil⟩
    · have hpos : (Service.initial (pool thread capacity fn)).pos thread = .pop none :=
        if_pos (List.mem_singleton_self thread)
      change [] = [] ++
        (Pos.holding ((Service.initial (pool thread capacity fn)).pos thread) .outside).toList ++ []
      rw [hpos]
      rfl
    · change (if t ∈ (pool thread capacity fn).workers then Pos.pop none else .code none) =
        .push id task at hpos
      split at hpos <;> cases hpos
  · rintro ⟨s, h⟩ l sh' hr ⟨horder, hcallers⟩ hok hstep
    obtain ⟨s', hs', rfl⟩ := TransitionSystem.withHistory_step.mp hstep
    have hinv := Service.reach_inv (P := pool thread capacity fn) (List.cons_ne_nil _ _) hr
    have hmove := Service.step_move (Service.reach_queue hr) hinv (List.cons_ne_nil _ _) hok hs'
    exact ⟨inOrder_move hmove hinv horder, callers_move hmove hinv hcallers⟩

/-! ### The calls are completed -/

omit [DecidableEq τ] in
theorem completed_of_finished (hinv : Inv (pool thread capacity fn) s h) {id : Nat}
    (hfinished : h.stage id = .finished) :
    Completed fn s id := hinv.books.finished id hfinished

/-- As long as the function returns, every call of an `async_function` is completed, in the order of
the calls. -/
theorem async_function_completes [Fintype τ] (thread : τ) (capacity : Nat) (fn : A → Arg V E)
    {sh : State τ A V E × Log τ}
    (hr : (logged thread capacity fn).Reach (returning thread capacity fn) sh) :
    Completes thread capacity fn sh.1 sh.2 := by
  have hworkers : (pool thread capacity fn).workers ≠ [] := List.cons_ne_nil _ _
  have hinv := Service.reach_inv (P := pool thread capacity fn) hworkers hr
  have hqueue := Service.reach_queue hr
  obtain ⟨horder, hcallers⟩ := reach_order hr
  refine ⟨fun id c hcontent => ?_, ?_, hcallers.sorted, fun hended => ?_, fun ⟨t, ht⟩ id hid => ?_,
    fun hquiet hroom id hid => ?_⟩
  · refine completed_of_finished hinv ?_
    by_contra hnot
    cases (hinv.books.unfinished id hnot).symm.trans hcontent
  · rw [horder, List.append_assoc]
    exact List.prefix_append ..
  · cases hinv.roles.fits thread with
    | ended _ _ _ hdrained => exact hdrained
    | _ hpos =>
      rw [hpos] at hended
      cases hended
  · exact completed_of_finished hinv (hinv.finished_of_destroyed hworkers ht hid)
  · exact completed_of_finished hinv (hquiet.finished hqueue hinv hworkers hroom hid)

/-- A function that throws when it is given zero. -/
def partialFn : Nat → Arg Nat Nat
  | 0 => .exception 3
  | n + 1 => .value n

attribute [local instance] Machine.neZero_two

/-- The steps of two calls. -/
def callSteps (a b : Nat) : List (Label (Fin 2) Nat) :=
  .submit 0 a :: Service.pushSteps 0 0 ++ .submit 0 b :: Service.pushSteps 0 1

/-- Two calls that return, with the destructor called before either is served. -/
theorem async_function_completes_two :
    ∃ sh : State (Fin 2) Nat Nat Nat × Log (Fin 2), Completes 1 9 partialFn sh.1 sh.2 ∧
    sh.1.pos 0 = .destroyed ∧ sh.1.content 0 = some (.value 7) ∧
    sh.1.content 1 = some (.value 5) := by
  let serves : List (Label (Fin 2) Nat) := Service.popSteps 1 ++ [.go 1, .go 1, .go 1]
  let ends : List (Label (Fin 2) Nat) := Service.drainedSteps 1 ++ [.go 1, .go 1, .go 0, .go 0]
  have hreach := (logged (1 : Fin 2) 9 partialFn).reach_of_run
    (fun sh l => decide (Service.properly sh.1 l ∧ Service.completes (pool 1 9 partialFn) sh.1 l))
    (Service.initial (pool 1 9 partialFn), .empty) ⟨rfl, rfl⟩
    (callSteps 8 6 ++ .destroy 0 :: Service.closeSteps 0 ++ serves ++ serves ++ ends) rfl
  have hreturning : (logged (1 : Fin 2) 9 partialFn).Reach (returning 1 9 partialFn) _ :=
    hreach.mono fun _ _ h => of_decide_eq_true h
  exact ⟨_, async_function_completes (1 : Fin 2) 9 partialFn hreturning, rfl, rfl, rfl⟩

/-- The first of two calls throws: its future is broken, the thread is over, and the second call is
still in the queue. -/
theorem throwing_call_breaks : ∃ sh : State (Fin 2) Nat Nat Nat × Log (Fin 2),
    (logged (1 : Fin 2) 9 partialFn).Reach properly sh ∧ ¬ Completes 1 9 partialFn sh.1 sh.2 ∧
    sh.1.content 0 = some (.except .brokenPromise) ∧ sh.1.pos 1 = .ended true ∧
    sh.1.queue.shared.queue = [1] := by
  have hreach := (logged (1 : Fin 2) 9 partialFn).reach_of_run
    (fun sh l => decide (Service.properly sh.1 l))
    (Service.initial (pool 1 9 partialFn), .empty) ⟨rfl, rfl⟩
    (callSteps 0 8 ++ Service.popSteps 1 ++ [.go 1, .go 1, .go 1, .go 1]) rfl
  have hproperly : (logged (1 : Fin 2) 9 partialFn).Reach properly _ := hreach.mono fun _ _ h =>
    of_decide_eq_true h
  refine ⟨_, hproperly, fun hcompletes => ?_, rfl, rfl, rfl⟩
  obtain ⟨hempty, -⟩ := hcompletes.serving rfl
  cases hempty

end AsyncFunction

end GreenThread
