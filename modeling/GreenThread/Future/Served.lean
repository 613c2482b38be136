import GreenThread.Future.Serving

/-!
# What the serving threads come to

The runs in which no function ends the loop of its thread: a task is called at most once, and none
is left when the destructor has returned, or when no step is left and the queue is not full.
-/

namespace GreenThread

namespace Service

open Future (Content Exn Arg)

variable {τ A V E : Type} [DecidableEq τ] {P : Pool τ A V E} {s s' : State τ A V E} {h : Log τ}

/-- The runs that are considered: the object is used properly, and no function ends the loop of its
thread. -/
def allowed (P : Pool τ A V E) (sh : State τ A V E × Log τ) (l : Label τ A) :
    Prop := properly sh.1 l ∧ completes P sh.1 l

/-! ### The runs -/

theorem goStep_queue {t : τ} (hstep : goStep P s t = some s') : s'.queue = s.queue := by
  have hdrops : ∀ (ids : List Nat) (s : State τ A V E),
    (ids.foldl State.drop s).queue = s.queue := by
    intro ids
    induction ids with
    | nil => exact fun _ => rfl
    | cons id ids ih => exact fun s => (ih (s.drop id)).trans rfl
  unfold goStep at hstep
  split at hstep
  · cases hstep
    rfl
  · cases hstep
    rfl
  · obtain ⟨a, -, rfl⟩ := Option.map_eq_some_iff.mp hstep
    rfl
  · cases hstep
    split <;> rfl
  · cases hstep
    exact dropValue_queue ..
  · rw [Option.ite_none_right_eq_some] at hstep
    cases hstep.2
    rfl
  · cases hstep
    split
    · rfl
    · exact hdrops ..
  · cases hstep

omit [DecidableEq τ] in
theorem Pos.plain_of_op {p : Pos τ V E} {op : Queue.Op Nat} (hop : p.op = some op) : op.plain := by
  cases p <;> cases hop <;> trivial

theorem reach_queue {ok : State τ A V E × Log τ → Label τ A → Prop} {sh : State τ A V E × Log τ}
    (hr : (logged P).Reach ok sh) :
    (Queue.system P.capacity true).Reach Queue.plain sh.1.queue := by
  refine hr.invariant (I := fun sh => (Queue.system P.capacity true).Reach Queue.plain sh.1.queue)
    ?_ ?_
  · rintro ⟨s, h⟩ ⟨hs, -⟩
    cases hs
    exact .init rfl
  · rintro ⟨s, h⟩ l sh' - hqueue - hstep
    obtain ⟨s', hs', rfl⟩ := TransitionSystem.withHistory_step.mp hstep
    have hs' : step P s l = some s' := hs'
    cases l with
    | queue l =>
      simp only [step, Option.ite_none_right_eq_some] at hs'
      obtain ⟨hpermits, hs'⟩ := hs'
      obtain ⟨queue, hq, rfl⟩ := Option.map_eq_some_iff.mp hs'
      rw [follow_queue]
      refine hqueue.step ?_ hq
      rintro t op rfl
      exact Pos.plain_of_op (of_decide_eq_true hpermits)
    | submit t a =>
      simp only [step] at hs'
      split at hs' <;> cases hs'
      exact hqueue
    | destroy t =>
      simp only [step] at hs'
      split at hs' <;> cases hs'
      exact hqueue
    | go t =>
      change (Queue.system P.capacity true).Reach Queue.plain s'.queue
      rw [goStep_queue hs']
      exact hqueue

theorem initial_inv : Inv P (initial P) .empty := by
  have hphase : ∀ t, Queue.phase (initial P).queue t = .outside := fun _ => rfl
  have hpos : ∀ t, (t ∈ P.workers ∧ (initial P).pos t = .pop none) ∨
    (t ∉ P.workers ∧ (initial P).pos t = .code none) := by
    intro t
    by_cases ht : t ∈ P.workers
    · exact .inl ⟨ht, if_pos ht⟩
    · exact .inr ⟨ht, if_neg ht⟩
  have hquiet : ∀ t, ((initial P).pos t).destroying = false ∧ ((initial P).pos t).pushing = false ∧
      (∀ x, ((initial P).pos t).making x = none) ∧ ((initial P).pos t).holding .outside = none ∧
      ((initial P).pos t).running = none := by
    intro t
    rcases hpos t with ⟨-, hp⟩ | ⟨-, hp⟩ <;> rw [hp] <;> exact ⟨rfl, rfl, fun _ => rfl, rfl, rfl⟩
  constructor
  · refine ⟨fun t => ?_, fun t u ht => ?_, fun t u ht => ?_, nofun⟩
    · rcases hpos t with ⟨ht, hp⟩ | ⟨ht, hp⟩
      · exact .pops hp ht nofun (.inl rfl)
      · exact .code hp rfl ht
    · exact Bool.noConfusion ((hquiet t).1.symm.trans ht)
    · exact (hquiet u).2.1
  · refine ⟨fun t id => ?_, fun t id => ?_, fun t id => ?_, fun id => ?_, fun id => ?_,
      List.nodup_nil, nofun, fun _ _ => rfl,
      fun _ => rfl, nofun⟩
    · rw [(hquiet t).2.2.1]
      exact iff_of_false nofun nofun
    · rw [hphase, (hquiet t).2.2.2.1]
      exact iff_of_false nofun nofun
    · rw [(hquiet t).2.2.2.2]
      exact iff_of_false nofun nofun
    · exact iff_of_true rfl (Nat.zero_le id)
    · exact iff_of_false nofun List.not_mem_nil

theorem reach_inv (hworkers : P.workers ≠ []) {sh : State τ A V E × Log τ}
    (hr : (logged P).Reach (allowed P) sh) :
    Inv P sh.1 sh.2 := by
  refine hr.invariant (I := fun sh => Inv P sh.1 sh.2) ?_ ?_
  · rintro ⟨s, h⟩ ⟨hs, hh⟩
    cases hs
    cases hh
    exact initial_inv
  · rintro ⟨s, h⟩ l sh' hr hinv hok hstep
    obtain ⟨s', hs', rfl⟩ := TransitionSystem.withHistory_step.mp hstep
    exact (step_move (reach_queue hr) hinv hworkers hok hs').inv hinv

/-! ### What is left -/

omit [DecidableEq τ] in
/-- A task that is nowhere on its way is finished. -/
theorem Inv.all_finished (hinv : Inv P s h)
    (hmaking : ∀ t, (s.pos t).making (Queue.phase s.queue t) = none)
    (hholding : ∀ t, (s.pos t).holding (Queue.phase s.queue t) = none)
    (hrunning : ∀ t, (s.pos t).running = none)
    (hqueue : s.queue.shared.queue = []) {id : Nat} (hid : id < s.tasks.length) :
    h.stage id = .finished := by
  have hbooks := hinv.books
  cases hstage : h.stage id with
  | finished => rfl
  | unmade => exact absurd ((hbooks.unmade id).mp hstage) (Nat.not_le.mpr hid)
  | queued =>
    have hmem := (hbooks.queued id).mp hstage
    rw [hqueue] at hmem
    cases hmem
  | made t => cases (hmaking t).symm.trans ((hbooks.making t id).mp hstage)
  | held t => cases (hholding t).symm.trans ((hbooks.holding t id).mp hstage)
  | running t => cases (hrunning t).symm.trans ((hbooks.running t id).mp hstage)

theorem Inv.finished_of_destroyed (hinv : Inv P s h) (hworkers : P.workers ≠ []) {t : τ}
    (hdestroyed : s.pos t = .destroyed)
    {id : Nat} (hid : id < s.tasks.length) : h.stage id = .finished := by
  have hdestroying : (s.pos t).destroying = true := by
    rw [hdestroyed]
    rfl
  have hall : ∀ w ∈ P.workers, s.pos w = .ended false := by
    cases hinv.roles.fits t with
    | destroyed _ _ _ hjoined => exact hjoined
    | _ hpos => cases hpos.symm.trans hdestroyed
  have hnone : ∀ u, (s.pos u).making (Queue.phase s.queue u) = none ∧
    (s.pos u).holding (Queue.phase s.queue u) = none ∧
      (s.pos u).running = none := by
    intro u
    by_cases hu : u ∈ P.workers
    · rw [hall u hu]
      exact ⟨rfl, rfl, rfl⟩
    · cases hinv.roles.fits u with
      | pushes hpos =>
        have hnot := hinv.roles.settled t u hdestroying
        rw [hpos] at hnot
        cases hnot
      | code hpos | closes hpos | joins hpos | destroyed hpos =>
        rw [hpos]
        exact ⟨rfl, rfl, rfl⟩
      | runs _ _ hrole | takes _ _ hrole | stops _ _ hrole | finishes _ _ hrole | leaves _ _ hrole
      | ended _ _ hrole => exact absurd hrole hu
      | pops _ hrole | popped _ hrole | drains _ hrole => exact absurd hrole hu
  obtain ⟨w, hw⟩ := List.exists_mem_of_ne_nil _ hworkers
  refine hinv.all_finished (fun u => (hnone u).1) (fun u => (hnone u).2.1)
    (fun u => (hnone u).2.2) ?_ hid
  cases hinv.roles.fits w with
  | ended _ _ _ hdrained => exact hdrained.1
  | _ hpos => cases hpos.symm.trans (hall w hw)

omit [DecidableEq τ] in
/-- A finished task was called once, by a serving thread. -/
theorem Books.once (hbooks : Books P s h) {id : Nat} (hfinished : h.stage id = .finished) :
    ∃ w ∈ P.workers, (h.served.filter fun c => c.2 = id) = [(w, id)] := by
  have hcount : (h.served.map Prod.snd).count id = 1 := by
    rw [hbooks.calls, hfinished]
    rfl
  have hlength : (h.served.filter fun c => c.2 = id).length = 1 := by
    rw [← hcount, List.count_eq_countP, List.countP_map, List.countP_eq_length_filter]
    rfl
  obtain ⟨⟨w, j⟩, hone⟩ := List.length_eq_one_iff.mp hlength
  have hmem : (w, j) ∈ h.served.filter fun c => c.2 = id := by
    rw [hone]
    exact List.mem_singleton_self _
  obtain ⟨hserved, hid⟩ := List.mem_filter.mp hmem
  obtain rfl := of_decide_eq_true hid
  exact ⟨w, hbooks.servers _ hserved, hone⟩

/-! ### When no step is left -/

/-- Where a thread is left, with the operation of the queue that it is in. -/
inductive Left (P : Pool τ A V E) (s : State τ A V E) (t : τ) : Prop
  | code (hpos : s.pos t = .code none)
  | pushes {id task} (hpos : s.pos t = .push id task)
      (hfull : P.capacity ≤ s.queue.shared.queue.length)
  | joins {w rest} (hpos : s.pos t = .join (w :: rest)) (hw : w ∈ P.workers)
      (hrunning : (s.pos w).isEnded = false)
      (hclosed : s.queue.shared.opened = false)
  | destroyed (hpos : s.pos t = .destroyed)
  | pops {value} (hpos : s.pos t = .pop value) (hphase : Queue.phase s.queue t = .before .pop)
      (hqueue : s.queue.shared.queue = []) (hopened : s.queue.shared.opened = true)
  | ended (hpos : s.pos t = .ended false) (hdrained : s.Drained)

omit [DecidableEq τ] in
theorem Fits.serves {w : τ} (hfits : Fits P s h w) (hw : w ∈ P.workers) :
    s.pos w ≠ .code none ∧ (s.pos w).destroying = false := by
  cases hfits with
  | code _ _ hrole | joins _ _ hrole | destroyed _ _ hrole => exact absurd hw hrole
  | closes _ hrole => exact absurd hw hrole
  | _ hpos =>
    rw [hpos]
    exact ⟨nofun, rfl⟩

namespace Quiet

theorem goes (hquiet : Quiet P s) (t : τ) :
    goStep P s t = none := hquiet (.go t) (fun _ _ => nofun) fun _ => nofun

theorem queue (hquiet : Quiet P s) : Queue.Quiet P.capacity s.queue := by
  intro l hl
  have hnone := hquiet (.queue l) (fun _ _ => nofun) fun _ => nofun
  have hpermits : s.permits l = true := by
    unfold State.permits
    split
    · exact absurd rfl (hl _ _)
    · rfl
  rw [step, if_pos hpermits] at hnone
  exact Option.map_eq_none_iff.mp hnone

theorem not_outside (hquiet : Quiet P s)
    (hr : (Queue.system P.capacity true).Reach Queue.plain s.queue) {t : τ}
    {op : Queue.Op Nat} (hop : (s.pos t).op = some op) : Queue.phase s.queue t ≠ .outside := by
  intro hphase
  have hnone := hquiet (.queue (.act t (.begin op))) (fun _ _ => nofun) fun _ => nofun
  have hpermits : s.permits (.act t (.begin op)) = true := decide_eq_true hop
  rw [step, if_pos hpermits, Option.map_eq_none_iff] at hnone
  simp [Machine.step, hquiet.queue.user_of_outside hr hphase, Queue.client] at hnone

variable [Fintype τ]

theorem left (hquiet : Quiet P s) (hr : (Queue.system P.capacity true).Reach Queue.plain s.queue)
    (hinv : Inv P s h) (t : τ) :
    Left P s t := by
  have hgo := hquiet.goes t
  have hwaits := hquiet.queue.waits hr t
  have hbooks := hinv.books
  have hafter : ∀ op r, Queue.phase s.queue t ≠ .after op r := by
    intro op r hphase
    cases hwaits with
    | _ hq => cases hphase.symm.trans hq
  cases hinv.roles.fits t with
  | code hpos => exact .code hpos
  | @runs id hpos =>
    have hrunning : h.stage id = .running t := (hbooks.running t id).mpr (by rw [hpos]; rfl)
    have hid : id < s.tasks.length := by
      by_contra hnot
      cases hrunning.symm.trans ((hbooks.unmade id).mpr (Nat.not_lt.mp hnot))
    simp [goStep, hpos, List.getElem?_eq_getElem hid] at hgo
  | pushes hpos hrole hq =>
    have hbefore := (hq.resolve_left (hquiet.not_outside hr (by rw [hpos]; rfl))).resolve_right
      (hafter _ _)
    cases hwaits with
    | pushes _ hfull => exact .pushes hpos hfull
    | idle hphase | pops hphase => cases hbefore.symm.trans hphase
  | closes hpos hrole hq =>
    have hbefore := (hq.resolve_left (hquiet.not_outside hr (by rw [hpos]; rfl))).resolve_right
      fun hq => hafter _ _ hq.1
    cases hwaits with
    | _ hphase => cases hbefore.symm.trans hphase
  | @joins rest hpos _ _ hclosed _ hrest =>
    cases rest with
    | nil => simp [goStep, hpos] at hgo
    | cons w rest =>
      exact .joins hpos (hrest w List.mem_cons_self) (by simpa [goStep, hpos] using hgo) hclosed
  | destroyed hpos => exact .destroyed hpos
  | pops hpos hrole hdone hq =>
    have hbefore := hq.resolve_left (hquiet.not_outside hr (by rw [hpos]; rfl))
    cases hwaits with
    | pops hphase hqueue hopened => exact .pops hpos hphase hqueue hopened
    | idle hphase | pushes hphase => cases hbefore.symm.trans hphase
  | popped hpos hrole hq | drains hpos hrole hdone hq => exact absurd hq (hafter _ _)
  | takes hpos | finishes hpos | leaves hpos => simp [goStep, hpos] at hgo
  | @stops value hpos => cases value <;> simp [goStep, hpos] at hgo
  | ended hpos _ _ hdrained => exact .ended hpos hdrained

/-- When no step is left and the queue is not full, no task is left. -/
theorem finished (hquiet : Quiet P s)
    (hr : (Queue.system P.capacity true).Reach Queue.plain s.queue) (hinv : Inv P s h)
    (hworkers : P.workers ≠ []) (hroom : s.queue.shared.queue.length < P.capacity) {id : Nat}
    (hid : id < s.tasks.length) :
    h.stage id = .finished := by
  have hnone : ∀ u, (s.pos u).making (Queue.phase s.queue u) = none ∧
    (s.pos u).holding (Queue.phase s.queue u) = none ∧
      (s.pos u).running = none := by
    intro u
    cases hquiet.left hr hinv u with
    | pushes hpos hfull => exact absurd hfull (Nat.not_le.mpr hroom)
    | code hpos | joins hpos | destroyed hpos | ended hpos =>
      rw [hpos]
      exact ⟨rfl, rfl, rfl⟩
    | pops hpos hphase =>
      rw [hpos, hphase]
      exact ⟨rfl, rfl, rfl⟩
  obtain ⟨w, hw⟩ := List.exists_mem_of_ne_nil _ hworkers
  refine hinv.all_finished (fun u => (hnone u).1) (fun u => (hnone u).2.1)
    (fun u => (hnone u).2.2) ?_ hid
  cases hquiet.left hr hinv w with
  | pops _ _ hqueue => exact hqueue
  | ended _ hdrained => exact hdrained.1
  | pushes _ hfull => exact absurd hfull (Nat.not_le.mpr hroom)
  | code hpos => exact absurd hpos ((hinv.roles.fits w).serves hw).1
  | joins hpos | destroyed hpos =>
    have hnot := ((hinv.roles.fits w).serves hw).2
    rw [hpos] at hnot
    cases hnot

/-- When no step is left, a destructor that has been called has returned. -/
theorem destroyed (hquiet : Quiet P s)
    (hr : (Queue.system P.capacity true).Reach Queue.plain s.queue) (hinv : Inv P s h) {t : τ}
    (hdestroying : (s.pos t).destroying = true) : s.pos t = .destroyed := by
  cases hquiet.left hr hinv t with
  | destroyed hpos => exact hpos
  | @joins w rest hpos hw hrunning hclosed =>
    cases hquiet.left hr hinv w with
    | ended hpos' =>
      rw [hpos'] at hrunning
      cases hrunning
    | pops _ _ _ hopened => cases hopened.symm.trans hclosed
    | pushes hpos' =>
      have hnot := hinv.roles.settled t w hdestroying
      rw [hpos'] at hnot
      cases hnot
    | code hpos' => exact absurd hpos' ((hinv.roles.fits w).serves hw).1
    | joins hpos' | destroyed hpos' =>
      have hnot := ((hinv.roles.fits w).serves hw).2
      rw [hpos'] at hnot
      cases hnot
  | _ hpos =>
    rw [hpos] at hdestroying
    cases hdestroying

end Quiet

/-! ### Operations of the queue without contention -/

/-- A `push` that wakes nobody. -/
def pushSteps (t : τ) (id : Nat) : List (Label τ A) :=
  [.act t (.begin (.push id)), .call t false, .act t .go, .act t .go, .act t .go, .act t .go,
    .call t false, .call t false].map .queue

/-- A `pop` that takes an element and wakes nobody. -/
def popSteps (t : τ) : List (Label τ A) :=
  [.act t (.begin .pop), .call t false, .act t .go, .act t .go, .act t .go, .act t .go,
    .call t false, .call t false].map .queue

/-- A `pop` of a queue that is closed and empty. -/
def drainedSteps (t : τ) : List (Label τ A) :=
  [.act t (.begin .pop), .call t false, .act t .go, .act t .go, .act t .go,
    .call t false].map .queue

def closeSteps (t : τ) : List (Label τ A) :=
  [.act t (.begin .close), .call t false, .act t .go, .call t false, .deliver t, .wake t,
    .call t false, .deliver t, .wake t,
    .call t false].map .queue

end Service

end GreenThread
