import GreenThread.Future.Service

/-!
# Where the tasks are

Each task is in one place: with the thread that made it until it is in the queue, with the serving
thread that popped it until its function has been called, and after that it is finished. What a step
can do is said once, in `Move`, for the runs in which no function ends the loop of its thread;
everything about these runs is derived from it.
-/

namespace GreenThread

namespace Service

open Future (Content Exn Arg)

variable {τ A V E : Type} [DecidableEq τ] {P : Pool τ A V E} {s s' : State τ A V E} {h h' : Log τ}

/-! ### The invariant -/

/-- The task that the thread is to push. -/
def Pos.making : Pos τ V E → Queue.Phase Nat → Option Nat
  | .push id _, .outside | .push id _, .before _ => some id
  | _, _ => none

/-- The task that the thread has popped and not called. -/
def Pos.holding : Pos τ V E → Queue.Phase Nat → Option Nat
  | .pop value, .after _ (.popped _) => value
  | .next value true, _ => value
  | _, _ => none

/-- The task whose function the thread has called. -/
def Pos.running : Pos τ V E → Option Nat
  | .code task | .push _ task => task
  | .finish id _ => some id
  | _ => none

/-- The task in `value_` is finished. -/
def Log.Done (h : Log τ) (value : Option Nat) :
    Prop := ∀ id, value = some id → h.stage id = .finished

/-- The queue is closed and empty. -/
def State.Drained (s : State τ A V E) :
    Prop := s.queue.shared.queue = [] ∧ s.queue.shared.opened = false

/-- Where a thread can be, and what it knows there. -/
inductive Fits (P : Pool τ A V E) (s : State τ A V E) (h : Log τ) (t : τ) : Prop
  | code (hpos : s.pos t = .code none) (hphase : Queue.phase s.queue t = .outside)
      (hrole : t ∉ P.workers)
  | runs {id} (hpos : s.pos t = .code (some id)) (hphase : Queue.phase s.queue t = .outside)
      (hrole : t ∈ P.workers)
  | pushes {id task} (hpos : s.pos t = .push id task) (hrole : t ∈ P.workers ↔ task ≠ none)
      (hphase : Queue.phase s.queue t = .outside ∨ Queue.phase s.queue t = .before (.push id) ∨
        Queue.phase s.queue t = .after (.push id) (.bool true))
  | closes (hpos : s.pos t = .close) (hrole : t ∉ P.workers)
      (hphase : Queue.phase s.queue t = .outside ∨ Queue.phase s.queue t = .before .close ∨
        Queue.phase s.queue t = .after .close .done ∧ s.queue.shared.opened = false)
  | joins {rest} (hpos : s.pos t = .join rest) (hphase : Queue.phase s.queue t = .outside)
      (hrole : t ∉ P.workers)
      (hclosed : s.queue.shared.opened = false)
      (hjoined : ∀ w ∈ P.workers, w ∈ rest ∨ s.pos w = .ended false)
      (hrest : ∀ w ∈ rest, w ∈ P.workers)
  | destroyed (hpos : s.pos t = .destroyed) (hphase : Queue.phase s.queue t = .outside)
      (hrole : t ∉ P.workers)
      (hjoined : ∀ w ∈ P.workers, s.pos w = .ended false)
  | pops {value} (hpos : s.pos t = .pop value) (hrole : t ∈ P.workers) (hdone : h.Done value)
      (hphase : Queue.phase s.queue t = .outside ∨ Queue.phase s.queue t = .before .pop)
  | popped {id} (hpos : s.pos t = .pop (some id)) (hrole : t ∈ P.workers)
      (hphase : Queue.phase s.queue t = .after .pop (.popped id))
  | drains {value} (hpos : s.pos t = .pop value) (hrole : t ∈ P.workers) (hdone : h.Done value)
      (hphase : Queue.phase s.queue t = .after .pop (.bool false)) (hdrained : s.Drained)
  | takes {id} (hpos : s.pos t = .next (some id) true) (hphase : Queue.phase s.queue t = .outside)
      (hrole : t ∈ P.workers)
  | stops {value} (hpos : s.pos t = .next value false) (hphase : Queue.phase s.queue t = .outside)
      (hrole : t ∈ P.workers)
      (hdone : h.Done value) (hdrained : s.Drained)
  | finishes {id a} (hpos : s.pos t = .finish id (P.fn a))
      (hphase : Queue.phase s.queue t = .outside)
      (hrole : t ∈ P.workers) (htask : s.tasks[id]? = some a)
      (hends : P.catches = true ∨ (P.fn a).isValue = true)
  | leaves {value} (hpos : s.pos t = .leave value false) (hphase : Queue.phase s.queue t = .outside)
      (hrole : t ∈ P.workers)
      (hdone : h.Done value) (hdrained : s.Drained)
  | ended (hpos : s.pos t = .ended false) (hphase : Queue.phase s.queue t = .outside)
      (hrole : t ∈ P.workers)
      (hdrained : s.Drained)

/-- Who is where: the destructor is called by one thread, when no call is in progress, and nobody
else closes the queue. -/
structure Roles (P : Pool τ A V E) (s : State τ A V E) (h : Log τ) : Prop where
  fits : ∀ t, Fits P s h t
  destroyer : ∀ t u, (s.pos t).destroying = true → (s.pos u).destroying = true → t = u
  settled : ∀ t u, (s.pos t).destroying = true → (s.pos u).pushing = false
  closed : s.queue.shared.opened = false → ∃ t, (s.pos t).destroying = true

def Stage.called : Stage τ → Bool
  | .running _ | .finished => true
  | _ => false

/-- The stages of the tasks are told by where the threads are, and the contents and the calls by the
stages. -/
structure Books (P : Pool τ A V E) (s : State τ A V E) (h : Log τ) : Prop where
  making : ∀ t id, h.stage id = .made t ↔ (s.pos t).making (Queue.phase s.queue t) = some id
  holding : ∀ t id, h.stage id = .held t ↔ (s.pos t).holding (Queue.phase s.queue t) = some id
  running : ∀ t id, h.stage id = .running t ↔ (s.pos t).running = some id
  unmade : ∀ id, h.stage id = .unmade ↔ s.tasks.length ≤ id
  queued : ∀ id, h.stage id = .queued ↔ id ∈ s.queue.shared.queue
  nodup : s.queue.shared.queue.Nodup
  finished : ∀ id, h.stage id = .finished →
    ∃ a, s.tasks[id]? = some a ∧ s.content id = some (P.fn a).content
  unfinished : ∀ id, h.stage id ≠ .finished → s.content id = none
  calls : ∀ id, (h.served.map Prod.snd).count id = if (h.stage id).called then 1 else 0
  servers : ∀ c ∈ h.served, c.1 ∈ P.workers

structure Inv (P : Pool τ A V E) (s : State τ A V E) (h : Log τ) : Prop where
  roles : Roles P s h
  books : Books P s h

/-! ### What a step can do -/

/-- What a step does in a run in which no function ends the loop of its thread. -/
inductive Move (P : Pool τ A V E) (s : State τ A V E) (h : Log τ) : State τ A V E → Log τ → Prop
  /-- The thread goes on with the tasks that it has. -/
  | goes {t queue p} (hother : ∀ u, u ≠ t → Queue.phase queue u = Queue.phase s.queue u)
      (hshared : queue.shared = s.queue.shared)
      (hmaking : p.making (Queue.phase queue t) = (s.pos t).making (Queue.phase s.queue t))
      (hholding : p.holding (Queue.phase queue t) = (s.pos t).holding (Queue.phase s.queue t))
      (hrunning : p.running = (s.pos t).running) (hdestroying : p.destroying = (s.pos t).destroying)
      (hpushing : ∀ id task, p = .push id task → s.pos t = .push id task)
      (hended : s.pos t = .ended false → p = .ended false)
      (hfits : Fits P ({ s with queue := queue }.setPos t p) h t) :
      Move P s h ({ s with queue := queue }.setPos t p) h
  | submits {t task a} (hpos : s.pos t = .code task) (hnone : ∀ u, (s.pos u).destroying = false) :
      Move P s h ({ s with tasks := s.tasks ++ [a] }.setPos t (.push s.tasks.length task))
        ({ h with caller := Function.update h.caller s.tasks.length (some t) }.setStage
          s.tasks.length (.made t))
  | destroys {t} (hpos : s.pos t = .code none)
      (hnone : ∀ u, (s.pos u).destroying = false ∧ (s.pos u).pushing = false) :
      Move P s h (s.setPos t .close) h
  | pushes {t queue id task} (hpos : s.pos t = .push id task)
      (hphase : Queue.phase s.queue t = .before (.push id))
      (hother : ∀ u, u ≠ t → Queue.phase queue u = Queue.phase s.queue u)
      (hphase' : Queue.phase queue t = .after (.push id) (.bool true))
      (hopened : s.queue.shared.opened = true)
      (hshared : queue.shared = { s.queue.shared with queue := s.queue.shared.queue ++ [id] }) :
      Move P s
      h { s with queue := queue } ({ h with pushed := h.pushed ++ [id] }.setStage id .queued)
  | closes {t queue} (hpos : s.pos t = .close) (hphase : Queue.phase s.queue t = .before .close)
      (hother : ∀ u, u ≠ t → Queue.phase queue u = Queue.phase s.queue u)
      (hphase' : Queue.phase queue t = .after .close .done)
      (hshared : queue.shared = { s.queue.shared with opened := false }) :
      Move P s h { s with queue := queue } h
  | pops {t queue value id rest} (hpos : s.pos t = .pop value)
      (hphase : Queue.phase s.queue t = .before .pop)
      (hother : ∀ u, u ≠ t → Queue.phase queue u = Queue.phase s.queue u)
      (hphase' : Queue.phase queue t = .after .pop (.popped id))
      (hqueue : s.queue.shared.queue = id :: rest)
      (hshared : queue.shared = { s.queue.shared with queue := rest }) :
      Move P s h ({ s with queue := queue }.setPos t (.pop (some id))) (h.setStage id (.held t))
  | calls {t id} (hpos : s.pos t = .next (some id) true) :
      Move P s h (s.setPos t (.code (some id))) ({ h with served := h.served ++ [(t, id)] }.setStage
        id (.running t))
  | finishes {t id a} (hpos : s.pos t = .finish id (P.fn a)) (htask : s.tasks[id]? = some a) :
      Move P s h ({ s with content := Function.update s.content id (some (P.fn a).content) }.setPos
        t (.pop (some id)))
        (h.setStage id .finished)

/-! ### The steps in the queue -/

@[simp] theorem setPos_self (s : State τ A V E) (t : τ) : s.setPos t (s.pos t) = s := by
  rw [State.setPos, Function.update_eq_self]

section

omit [DecidableEq τ]

@[simp] theorem dropValue_queue (s : State τ A V E) (value : Option Nat) :
    (s.dropValue value).queue = s.queue := by
  cases value <;> rfl

theorem drop_of_some {id : Nat} {c : Content V E} (hcontent : s.content id = some c) :
    s.drop id = s := by
  rw [State.drop, hcontent, Option.getD_some, ← hcontent, Function.update_eq_self]

theorem dropValue_of_some {value : Option Nat}
    (hvalue : ∀ id, value = some id → ∃ c, s.content id = some c) :
    s.dropValue value = s := by
  cases value with
  | none => rfl
  | some id =>
    obtain ⟨c, hcontent⟩ := hvalue id rfl
    exact drop_of_some hcontent

/-- A finished task is not broken by its destruction. -/
theorem Books.dropValue (hbooks : Books P s h) (queue : Queue.State Nat τ) {value : Option Nat}
    (hdone : h.Done value) :
    ({ s with queue := queue } : State τ A V E).dropValue value = { s with queue := queue } := by
  refine dropValue_of_some fun id hid => ?_
  obtain ⟨a, -, hcontent⟩ := hbooks.finished id (hdone id hid)
  exact ⟨_, hcontent⟩

end

theorem follow_queue (s : State τ A V E) (t : τ) (before after : Queue.Phase Nat) :
    (follow P s t before after).queue = s.queue := by
  unfold follow
  split
  · simp [State.setPos]
  · rfl
  · split <;> rfl
  · rfl
  · rfl

theorem follow_same (s : State τ A V E) (t : τ) (x : Queue.Phase Nat) : follow P s t x x = s := by
  unfold follow
  split <;> first | rfl | contradiction

omit [DecidableEq τ] in
theorem Log.follow_same (h : Log τ) (p : Pos τ V E) (t : τ) (x : Queue.Phase Nat) :
    h.follow p t x x = h := by
  cases p <;> cases x <;> rfl

theorem follow_begin (s : State τ A V E) (t : τ) (op : Queue.Op Nat) :
    follow P s t .outside (.before op) = s := by
  unfold follow
  split <;> first | rfl | contradiction

section

omit [DecidableEq τ]

theorem Log.follow_quiet (h : Log τ) (p : Pos τ V E) (t : τ) {x y : Queue.Phase Nat}
    (hquiet : (∀ op, x ≠ .before op) ∨ ∀ op r, y ≠ .after op r) : h.follow p t x y = h := by
  unfold Log.follow
  split
  · exact (hquiet.elim (fun hnot => hnot _ rfl) fun hnot => hnot _ _ rfl).elim
  · exact (hquiet.elim (fun hnot => hnot _ rfl) fun hnot => hnot _ _ rfl).elim
  · rfl

/-- What a thread knows stays true when others go on. -/
theorem Fits.frame {u : τ} (hfits : Fits P s h u) (hpos : s'.pos u = s.pos u)
    (hphase : Queue.phase s'.queue u = Queue.phase s.queue u) (hdrained : s.Drained → s'.Drained)
    (hclosed : s.queue.shared.opened = false → s'.queue.shared.opened = false)
    (hended : ∀ w, s.pos w = .ended false → s'.pos w = .ended false)
    (htasks : ∀ (id : Nat) (a : A), s.tasks[id]? = some a → s'.tasks[id]? = some a)
    (hfinished : ∀ id, h.stage id = .finished → h'.stage id = .finished) : Fits P s' h' u := by
  have hdone : ∀ {value}, h.Done value → h'.Done value := fun hdone id hid =>
    hfinished id (hdone id hid)
  cases hfits with
  | code hp hq hrole => exact .code (hpos.trans hp) (hphase.trans hq) hrole
  | runs hp hq hrole => exact .runs (hpos.trans hp) (hphase.trans hq) hrole
  | pushes hp hrole hq => exact .pushes (hpos.trans hp) hrole (by rwa [hphase])
  | closes hp hrole hq =>
    refine .closes (hpos.trans hp) hrole ?_
    rw [hphase]
    exact hq.imp_right (Or.imp_right (And.imp_right hclosed))
  | joins hp hq hrole hc hjoined hrest =>
    exact .joins (hpos.trans hp) (hphase.trans hq) hrole (hclosed hc)
      (fun w hw => (hjoined w hw).imp_right (hended w)) hrest
  | destroyed hp hq hrole hjoined =>
    exact .destroyed (hpos.trans hp) (hphase.trans hq) hrole fun w hw => hended w (hjoined w hw)
  | pops hp hrole hd hq => exact .pops (hpos.trans hp) hrole (hdone hd) (by rwa [hphase])
  | popped hp hrole hq => exact .popped (hpos.trans hp) hrole (hphase.trans hq)
  | drains hp hrole hd hq hdr =>
    exact .drains (hpos.trans hp) hrole (hdone hd) (hphase.trans hq) (hdrained hdr)
  | takes hp hq hrole => exact .takes (hpos.trans hp) (hphase.trans hq) hrole
  | stops hp hq hrole hd hdr =>
    exact .stops (hpos.trans hp) (hphase.trans hq) hrole (hdone hd) (hdrained hdr)
  | finishes hp hq hrole htask hends =>
    exact .finishes (hpos.trans hp) (hphase.trans hq) hrole (htasks _ _ htask) hends
  | leaves hp hq hrole hd hdr =>
    exact .leaves (hpos.trans hp) (hphase.trans hq) hrole (hdone hd) (hdrained hdr)
  | ended hp hq hrole hdr => exact .ended (hpos.trans hp) (hphase.trans hq) hrole (hdrained hdr)

theorem Fits.of_push {t : τ} {id : Nat} (hfits : Fits P s h t)
    (hphase : Queue.phase s.queue t = .before (.push id)) :
    ∃ task, s.pos t = .push id task := by
  cases hfits with
  | pushes hpos hrole hq =>
    rw [hphase] at hq
    rcases hq with hq | hq | hq <;> cases hq
    exact ⟨_, hpos⟩
  | closes hpos hrole hq =>
    rw [hphase] at hq
    rcases hq with hq | hq | ⟨hq, -⟩ <;> cases hq
  | pops hpos hrole hdone hq =>
    rw [hphase] at hq
    rcases hq with hq | hq <;> cases hq
  | popped hpos hrole hq | drains hpos hrole hdone hq => cases hphase.symm.trans hq
  | _ hpos hq => cases hphase.symm.trans hq

theorem Fits.of_close {t : τ} (hfits : Fits P s h t)
    (hphase : Queue.phase s.queue t = .before .close) :
    s.pos t = .close ∧ t ∉ P.workers := by
  cases hfits with
  | closes hpos hrole hq => exact ⟨hpos, hrole⟩
  | pushes hpos hrole hq =>
    rw [hphase] at hq
    rcases hq with hq | hq | hq <;> cases hq
  | pops hpos hrole hdone hq =>
    rw [hphase] at hq
    rcases hq with hq | hq <;> cases hq
  | popped hpos hrole hq | drains hpos hrole hdone hq => cases hphase.symm.trans hq
  | _ hpos hq => cases hphase.symm.trans hq

theorem Fits.of_pop {t : τ} (hfits : Fits P s h t) (hphase : Queue.phase s.queue t = .before .pop) :
    ∃ value, s.pos t = .pop value ∧ t ∈ P.workers ∧ h.Done value := by
  cases hfits with
  | pops hpos hrole hdone hq => exact ⟨_, hpos, hrole, hdone⟩
  | pushes hpos hrole hq =>
    rw [hphase] at hq
    rcases hq with hq | hq | hq <;> cases hq
  | closes hpos hrole hq =>
    rw [hphase] at hq
    rcases hq with hq | hq | ⟨hq, -⟩ <;> cases hq
  | popped hpos hrole hq | drains hpos hrole hdone hq => cases hphase.symm.trans hq
  | _ hpos hq => cases hphase.symm.trans hq

end

section

variable {t : τ} {queue : Queue.State Nat τ}

theorem Move.inside (hother : ∀ u, u ≠ t → Queue.phase queue u = Queue.phase s.queue u)
    (hshared : queue.shared = s.queue.shared)
    (hmaking : (s.pos t).making (Queue.phase queue t) = (s.pos t).making (Queue.phase s.queue t))
    (hholding : (s.pos t).holding (Queue.phase queue t) = (s.pos t).holding (Queue.phase s.queue t))
    (hfits : Fits P { s with queue := queue } h t) : Move P s h { s with queue := queue } h := by
  have hself : ({ s with queue := queue } : State τ A V E).setPos t (s.pos t) =
    { s with queue := queue } :=
    setPos_self { s with queue := queue } t
  have hmove := Move.goes (P := P) (h := h) (p := s.pos t) hother hshared hmaking hholding rfl rfl
    (fun _ _ hp => hp) (fun hp => hp) (by rwa [hself])
  rwa [hself] at hmove

theorem begin_move (hroles : Roles P s h) {op : Queue.Op Nat} (hop : (s.pos t).op = some op)
    (hother : ∀ u, u ≠ t → Queue.phase queue u = Queue.phase s.queue u)
    (hout : Queue.phase s.queue t = .outside)
    (hbefore : Queue.phase queue t = .before op) (hshared : queue.shared = s.queue.shared) :
    Move P s h { s with queue := queue } h := by
  cases hroles.fits t with
  | @pushes id task hpos hrole hq =>
    rw [hpos] at hop
    obtain rfl := Option.some.inj hop
    exact .inside hother hshared (by rw [hpos, hout, hbefore]; rfl) (by rw [hpos]; rfl)
      (.pushes hpos hrole (.inr (.inl hbefore)))
  | closes hpos hrole hq =>
    rw [hpos] at hop
    obtain rfl := Option.some.inj hop
    exact .inside hother hshared (by rw [hpos]; rfl) (by rw [hpos]; rfl)
      (.closes hpos hrole (.inr (.inl hbefore)))
  | @pops value hpos hrole hdone hq =>
    rw [hpos] at hop
    obtain rfl := Option.some.inj hop
    exact .inside hother hshared (by rw [hpos]; rfl) (by rw [hpos, hout, hbefore]; rfl)
      (.pops hpos hrole hdone (.inr hbefore))
  | popped hpos hrole hq | drains hpos hrole hdone hq => cases hout.symm.trans hq
  | _ hpos =>
    rw [hpos] at hop
    cases hop

theorem return_move (hroles : Roles P s h) {op : Queue.Op Nat} {r : Queue.Result Nat}
    (hother : ∀ u, u ≠ t → Queue.phase queue u = Queue.phase s.queue u)
    (hafter : Queue.phase s.queue t = .after op r)
    (hout : Queue.phase queue t = .outside) (hshared : queue.shared = s.queue.shared) :
    Move P s h (follow P { s with queue := queue } t (.after op r) .outside) h := by
  have hdrained : s.Drained →
    ∀ p, State.Drained (({ s with queue := queue } : State τ A V E).setPos t p) := by
    rintro ⟨hqueue, hclosed⟩ p
    exact ⟨hshared ▸ hqueue, hshared ▸ hclosed⟩
  have hself : ∀ p, (({ s with queue := queue } : State τ A V E).setPos t p).pos t = p :=
    fun p => Function.update_self ..
  cases hroles.fits t with
  | @pushes id task hpos hrole hq =>
    rw [hafter] at hq
    rcases hq with hq | hq | hq <;> cases hq
    simp only [follow, hpos]
    refine .goes hother hshared (by rw [hpos, hafter]; rfl) (by rw [hpos]; rfl) (by rw [hpos]; rfl)
      (by rw [hpos]; rfl) nofun
      (by rw [hpos]; nofun) ?_
    cases task with
    | none => exact .code (hself _) hout fun hworker => hrole.mp hworker rfl
    | some id' => exact .runs (hself _) hout (hrole.mpr nofun)
  | closes hpos hrole hq =>
    rw [hafter] at hq
    rcases hq with hq | hq | ⟨hq, hclosed⟩ <;> cases hq
    simp only [follow, hpos]
    exact .goes hother hshared (by rw [hpos]; rfl) (by rw [hpos]; rfl) (by rw [hpos]; rfl)
      (by rw [hpos]; rfl) nofun
      (by rw [hpos]; nofun)
        (.joins (hself _) hout hrole (hshared ▸ hclosed) (fun w hw => .inl hw) fun w hw => hw)
  | popped hpos hrole hq =>
    obtain ⟨rfl, rfl⟩ := Queue.Phase.after.inj (hafter.symm.trans hq)
    simp only [follow, hpos]
    exact .goes hother hshared (by rw [hpos]; rfl) (by rw [hpos, hafter]; rfl) (by rw [hpos]; rfl)
      (by rw [hpos]; rfl) nofun
      (by rw [hpos]; nofun) (.takes (hself _) hout hrole)
  | drains hpos hrole hdone hq hdr =>
    obtain ⟨rfl, rfl⟩ := Queue.Phase.after.inj (hafter.symm.trans hq)
    simp only [follow, hpos]
    exact .goes hother hshared (by rw [hpos]; rfl) (by rw [hpos, hafter]; rfl) (by rw [hpos]; rfl)
      (by rw [hpos]; rfl) nofun
      (by rw [hpos]; nofun) (.stops (hself _) hout hrole hdone (hdrained hdr _))
  | pops hpos hrole hdone hq =>
    rw [hafter] at hq
    rcases hq with hq | hq <;> cases hq
  | _ hpos hq => cases hafter.symm.trans hq

end

theorem queue_move (hr : (Queue.system P.capacity true).Reach Queue.plain s.queue)
    (hinv : Inv P s h)
    {l : Queue.Label Nat τ} {queue : Queue.State Nat τ} (hpermits : s.permits l = true)
    (hstep : (Queue.system P.capacity true).step s.queue l = some queue) :
    Move P s h (follow P { s with queue := queue } l.thread (Queue.phase s.queue l.thread)
      (Queue.phase queue l.thread))
      (h.follow (s.pos l.thread) l.thread (Queue.phase s.queue l.thread)
        (Queue.phase queue l.thread)) := by
  obtain ⟨hother, ⟨op, hl, hout, hbefore, hshared⟩ | ⟨-, heffect⟩⟩ := Queue.reach_effect hr hstep
  · rw [hl] at hpermits
    have hop : (s.pos l.thread).op = some op := of_decide_eq_true hpermits
    have hmove := begin_move hinv.roles hop hother hout hbefore hshared
    rw [hout, hbefore, follow_begin, Log.follow_quiet (x := .outside) h _ _ (.inl fun _ => nofun)]
    exact hmove
  · have hfits := hinv.roles.fits l.thread
    generalize l.thread = t at *
    generalize hphase : Queue.phase s.queue t = x, hphase' : Queue.phase queue t = y, hshared :
      queue.shared = d at heffect
    cases heffect with
    | stays =>
      rw [follow_same, Log.follow_same]
      refine .inside hother hshared (by rw [hphase, hphase']) (by rw [hphase, hphase']) ?_
      exact hfits.frame rfl (hphase'.trans hphase.symm)
        (fun hdr => ⟨hshared ▸ hdr.1, hshared ▸ hdr.2⟩)
        (fun hclosed => hshared ▸ hclosed) (fun _ => id) (fun _ _ => id) fun _ => id
    | returns =>
      rw [Log.follow_quiet (y := .outside) h _ _ (.inr fun _ _ => nofun)]
      exact return_move hinv.roles hother hphase hphase' hshared
    | pushes hopened hroom =>
      obtain ⟨task, hpos⟩ := hfits.of_push hphase
      simp only [follow, Log.follow, hpos]
      exact .pushes hpos hphase hother hphase' hopened hshared
    | refuses hclosed =>
      obtain ⟨task, hpos⟩ := hfits.of_push hphase
      obtain ⟨u, hu⟩ := hinv.roles.closed hclosed
      have hnot := hinv.roles.settled u t hu
      rw [hpos] at hnot
      cases hnot
    | closes =>
      obtain ⟨hpos, hrole⟩ := hfits.of_close hphase
      simp only [follow, Log.follow, hpos]
      exact .closes hpos hphase hother hphase' hshared
    | pops hqueue =>
      obtain ⟨value, hpos, hrole, hdone⟩ := hfits.of_pop hphase
      simp only [follow, Log.follow, hpos, hinv.books.dropValue queue hdone]
      exact .pops hpos hphase hother hphase' hqueue hshared
    | drained hqueue hclosed =>
      obtain ⟨value, hpos, hrole, hdone⟩ := hfits.of_pop hphase
      simp only [follow, Log.follow, hpos]
      refine .inside hother hshared (by rw [hpos]; rfl) (by rw [hpos, hphase, hphase']; rfl) ?_
      exact .drains hpos hrole hdone hphase' ⟨hshared ▸ hqueue, hshared ▸ hclosed⟩

theorem Move.own {t : τ} {p : Pos τ V E}
    (hmaking : p.making (Queue.phase s.queue t) = (s.pos t).making (Queue.phase s.queue t))
    (hholding : p.holding (Queue.phase s.queue t) = (s.pos t).holding (Queue.phase s.queue t))
    (hrunning : p.running = (s.pos t).running) (hdestroying : p.destroying = (s.pos t).destroying)
    (hpushing : p.pushing = false)
    (hended : s.pos t ≠ .ended false) (hfits : Fits P (s.setPos t p) h t) :
    Move P s h (s.setPos t p) h := by
  have hpush : ∀ id task, p = .push id task → s.pos t = .push id task := by
    intro id task hp
    rw [hp] at hpushing
    cases hpushing
  have hmove : Move P s h ({ s with queue := s.queue }.setPos t p) h :=
    .goes (fun _ _ => rfl) rfl hmaking hholding hrunning hdestroying hpush
    (fun hp => absurd hp hended) hfits
  exact hmove

omit [DecidableEq τ] in
theorem Fits.ended_of_isEnded {t : τ} (hfits : Fits P s h t) (hended : (s.pos t).isEnded = true) :
    s.pos t = .ended false := by
  cases hfits with
  | ended hpos => exact hpos
  | _ hpos =>
    rw [hpos] at hended
    cases hended

theorem go_move (hinv : Inv P s h) (hworkers : P.workers ≠ []) {t : τ}
    (hcompletes : completes P s (.go t))
    (hstep : goStep P s t = some s') : Move P s h s' (record h s (.go t) s') := by
  have hself : ∀ p, (s.setPos t p).pos t = p := fun p => Function.update_self ..
  have hkeep : t ∉ P.workers → ∀ {p w}, w ∈ P.workers → (s.setPos t p).pos w = s.pos w := by
    intro hrole p w hw
    refine Function.update_of_ne ?_ _ _
    rintro rfl
    exact hrole hw
  cases hinv.roles.fits t with
  | @runs id hpos hphase hrole =>
    simp only [goStep, hpos] at hstep
    obtain ⟨a, htask, rfl⟩ := Option.map_eq_some_iff.mp hstep
    have hends : P.catches = true ∨ (P.fn a).isValue = true := by
      simpa [completes, State.calling, hpos, htask] using hcompletes
    simp only [record, hpos]
    exact .own (by rw [hpos, hphase]; rfl) (by rw [hpos]; rfl) (by rw [hpos]; rfl)
      (by rw [hpos]; rfl) rfl (by rw [hpos]; nofun)
      (.finishes (hself _) hphase hrole htask hends)
  | @joins rest hpos hphase hrole hclosed hjoined hrest =>
    simp only [record, hpos]
    cases rest with
    | nil =>
      have hall : ∀ w ∈ P.workers, s.pos w = .ended false :=
        fun w hw => (hjoined w hw).resolve_left List.not_mem_nil
      have hcaught : (P.workers.any fun w => (s.pos w).uncaught) = false := by
        rw [List.any_eq_false]
        intro w hw
        simp [hall w hw, Pos.uncaught]
      obtain ⟨w, hw⟩ := List.exists_mem_of_ne_nil _ hworkers
      have hempty : s.queue.shared.queue = [] := by
        cases hinv.roles.fits w with
        | ended _ _ _ hdrained => exact hdrained.1
        | _ hpos' => cases hpos'.symm.trans (hall w hw)
      simp only [goStep, hpos, hcaught, hempty, Bool.false_eq_true, if_false,
        List.foldl_nil] at hstep
      cases hstep
      refine .own (by rw [hpos, hphase]; rfl) (by rw [hpos]; rfl) (by rw [hpos]; rfl)
        (by rw [hpos]; rfl) rfl (by rw [hpos]; nofun)
        (.destroyed (hself _) hphase hrole fun w hw => (hkeep hrole hw).trans (hall w hw))
    | cons w rest =>
      simp only [goStep, hpos, Option.ite_none_right_eq_some, Option.some.injEq] at hstep
      obtain ⟨hended, rfl⟩ := hstep
      have hover : s.pos w = .ended false := (hinv.roles.fits w).ended_of_isEnded hended
      refine .own (by rw [hpos, hphase]; rfl) (by rw [hpos]; rfl) (by rw [hpos]; rfl)
        (by rw [hpos]; rfl) rfl (by rw [hpos]; nofun)
        (.joins (hself _) hphase hrole hclosed (fun u hu => ?_) fun u hu => hrest u
          (List.mem_cons_of_mem w hu))
      rw [hkeep hrole hu]
      rcases hjoined u hu with hmem | hdone
      · rcases List.mem_cons.mp hmem with rfl | hmem
        · exact .inr hover
        · exact .inl hmem
      · exact .inr hdone
  | @takes id hpos hphase hrole =>
    simp only [goStep, hpos] at hstep
    cases hstep
    simp only [record, hpos]
    exact .calls hpos
  | @stops value hpos hphase hrole hdone hdrained =>
    have hstep : some (s.setPos t (.leave value false)) = some s' := by
      rw [← hstep, goStep, hpos]
      cases value <;> rfl
    cases hstep
    have hrecord : record h s (.go t) (s.setPos t (.leave value false)) = h := by
      simp only [record, hpos]
    rw [hrecord]
    exact .own (by rw [hpos, hphase]; rfl) (by rw [hpos, hphase]; rfl) (by rw [hpos]; rfl)
      (by rw [hpos]; rfl) rfl
      (by rw [hpos]; nofun) (.leaves (hself _) hphase hrole hdone hdrained)
  | @finishes id a hpos hphase hrole htask hends =>
    have hrunning : h.stage id = .running t := (hinv.books.running t id).mpr (by rw [hpos]; rfl)
    have hnone : s.content id = none := hinv.books.unfinished id (by rw [hrunning]; nofun)
    have hset : (P.catches || (P.fn a).isValue) = true := by
      rcases hends with h | h <;> simp [h]
    simp only [goStep, hpos, hset, hnone, Option.isNone_none, Bool.and_self, if_true] at hstep
    cases hstep
    simp only [record, hpos]
    exact .finishes hpos htask
  | @leaves value hpos hphase hrole hdone hdrained =>
    simp only [goStep, hpos, hinv.books.dropValue s.queue hdone] at hstep
    cases hstep
    simp only [record, hpos]
    exact .own (by rw [hpos, hphase]; rfl) (by rw [hpos]; rfl) (by rw [hpos]; rfl)
      (by rw [hpos]; rfl) rfl (by rw [hpos]; nofun)
      (.ended (hself _) hphase hrole hdrained)
  | _ hpos => simp [goStep, hpos] at hstep

theorem step_move (hr : (Queue.system P.capacity true).Reach Queue.plain s.queue) (hinv : Inv P s h)
    (hworkers : P.workers ≠ [])
    {l : Label τ A} (hok : properly s l ∧ completes P s l) (hstep : step P s l = some s') :
    Move P s h s' (record h s l s') := by
  cases l with
  | queue l =>
    simp only [step, Option.ite_none_right_eq_some] at hstep
    obtain ⟨hpermits, hstep⟩ := hstep
    obtain ⟨queue, hqueue, rfl⟩ := Option.map_eq_some_iff.mp hstep
    have hmove := queue_move hr hinv hpermits hqueue
    rwa [record, follow_queue]
  | submit t a =>
    simp only [step] at hstep
    split at hstep
    · cases hstep
      exact .submits ‹_› hok.1
    · cases hstep
  | destroy t =>
    simp only [step] at hstep
    split at hstep
    · cases hstep
      exact .destroys ‹_› hok.1
    · cases hstep
  | go t => exact go_move hinv hworkers hok.2 hstep

/-! ### The invariant is kept -/

/-- The tasks that are somewhere with a thread are told by the thread. -/
def Told (stage : Nat → Stage τ) (c : τ → Stage τ) (f : τ → Option Nat) :
    Prop := ∀ t id, stage id = c t ↔ f t = some id

theorem Told.change {stage stage' : Nat → Stage τ} {c : τ → Stage τ} {f f' : τ → Option Nat}
    (htold : Told stage c f) {t : τ}
    {id : Nat} (hstage : ∀ j, j ≠ id → stage' j = stage j) (hf : ∀ u, u ≠ t → f' u = f u)
    (hothers : ∀ u, u ≠ t → stage id ≠ c u ∧ stage' id ≠ c u)
    (hself : ∀ j, j ≠ id → (f' t = some j ↔ f t = some j))
    (hboth : stage' id = c t ↔ f' t = some id) : Told stage' c f' := by
  intro u j
  by_cases hu : u = t
  · subst hu
    by_cases hj : j = id
    · rw [hj]
      exact hboth
    · rw [hstage j hj, hself j hj]
      exact htold u j
  · rw [hf u hu]
    by_cases hj : j = id
    · rw [hj]
      exact iff_of_false (hothers u hu).2 fun hsome => (hothers u hu).1 ((htold u id).mpr hsome)
    · rw [hstage j hj]
      exact htold u j

theorem Roles.others (hroles : Roles P s h) {t : τ} (hpos : ∀ u, u ≠ t → s'.pos u = s.pos u)
    (hphase : ∀ u, u ≠ t → Queue.phase s'.queue u = Queue.phase s.queue u)
    (hdrained : s.Drained → s'.Drained)
    (hclosed : s.queue.shared.opened = false → s'.queue.shared.opened = false)
    (hended : s.pos t = .ended false → s'.pos t = .ended false)
    (htasks : ∀ (id : Nat) (a : A), s.tasks[id]? = some a → s'.tasks[id]? = some a)
    (hfinished : ∀ id, h.stage id = .finished → h'.stage id = .finished) (hself : Fits P s' h' t)
    (u : τ) : Fits P s' h' u := by
  by_cases hu : u = t
  · rwa [hu]
  · refine (hroles.fits u).frame (hpos u hu) (hphase u hu) hdrained hclosed
      (fun w hw => ?_) htasks hfinished
    by_cases hwt : w = t
    · rw [hwt] at hw ⊢
      exact hended hw
    · rw [hpos w hwt]
      exact hw

omit [DecidableEq τ] in
theorem Roles.keep (hroles : Roles P s h) (hfits : ∀ u, Fits P s' h' u)
    (hdestroying : ∀ u, (s'.pos u).destroying = (s.pos u).destroying)
    (hpushing : ∀ u, (s'.pos u).pushing = true → (s.pos u).pushing = true)
    (hclosed : s'.queue.shared.opened = false → ∃ t, (s.pos t).destroying = true) :
    Roles P s' h' where
  fits := hfits
  destroyer := by
    intro t u ht hu
    rw [hdestroying] at ht hu
    exact hroles.destroyer t u ht hu
  settled := by
    intro t u ht
    rw [hdestroying] at ht
    by_contra hnot
    rw [Bool.not_eq_false] at hnot
    exact Bool.noConfusion ((hroles.settled t u ht).symm.trans (hpushing u hnot))
  closed := by
    intro hc
    obtain ⟨t, ht⟩ := hclosed hc
    exact ⟨t, by rw [hdestroying, ht]⟩

theorem forall_setPos {Q : τ → Pos τ V E → Prop} {t : τ} {p : Pos τ V E} (hself : Q t p)
    (hother : ∀ u, u ≠ t → Q u (s.pos u)) (u : τ) :
    Q u ((s.setPos t p).pos u) := by
  by_cases hu : u = t
  · rw [hu, s.setPos_pos_self]
    exact hself
  · rw [s.setPos_pos_ne hu]
    exact hother u hu

theorem Roles.moves (hroles : Roles P s h) {x : State τ A V E} {t : τ} {p : Pos τ V E}
    (hx : x.pos = s.pos)
    (hfits : ∀ u, Fits P (x.setPos t p) h' u) (hdestroying : p.destroying = (s.pos t).destroying)
    (hpushing : p.pushing = true → (s.pos t).pushing = true)
    (hclosed : x.queue.shared.opened = false → ∃ u, (s.pos u).destroying = true) :
    Roles P (x.setPos t p) h' := by
  refine hroles.keep hfits ?_ ?_ hclosed
  · exact forall_setPos (Q := fun u p => p.destroying = (s.pos u).destroying) hdestroying
      fun u _ => by rw [hx]
  · exact forall_setPos (Q := fun u p => p.pushing = true → (s.pos u).pushing = true)
      hpushing fun u _ => by
      rw [hx]
      exact id

/-! Each move keeps the roles. -/

section

variable {t : τ} {id : Nat} {a : A} {p : Pos τ V E} {task value : Option Nat} {rest : List Nat}
    {queue : Queue.State Nat τ}

theorem Inv.roles_goes (hinv : Inv P s h)
    (hother : ∀ u, u ≠ t → Queue.phase queue u = Queue.phase s.queue u)
    (hshared : queue.shared = s.queue.shared) (hdestroying : p.destroying = (s.pos t).destroying)
    (hpushing : ∀ id task, p = .push id task → s.pos t = .push id task)
    (hended : s.pos t = .ended false → p = .ended false)
    (hfits : Fits P ({ s with queue := queue }.setPos t p) h t) :
    Roles P ({ s with queue := queue }.setPos t p) h := by
  have hroles := hinv.roles
  refine hroles.moves rfl
    (hroles.others (fun u hu => Function.update_of_ne hu _ _) hother (fun hdr => ⟨?_, ?_⟩)
      (fun hc => ?_)
    (fun hp => (Function.update_self ..).trans (hended hp)) (fun _ _ => id) (fun _ => id) hfits)
      hdestroying (fun hp => ?_)
    fun hc => hroles.closed ?_
  · exact hshared ▸ hdr.1
  · exact hshared ▸ hdr.2
  · exact hshared ▸ hc
  · cases p with
    | push id task =>
      rw [hpushing id task rfl]
      rfl
    | _ => cases hp
  · exact hshared ▸ hc

theorem Inv.roles_submits (hinv : Inv P s h) (hpos : s.pos t = .code task)
    (hnone : ∀ u, (s.pos u).destroying = false) :
    Roles P ({ s with tasks := s.tasks ++ [a] }.setPos t (.push s.tasks.length task))
      ({ h with caller := Function.update h.caller s.tasks.length (some t) }.setStage s.tasks.length
        (.made t)) := by
  have hroles := hinv.roles
  have htasks : ∀ (id : Nat) (b : A), s.tasks[id]? = some b → (s.tasks ++ [a])[id]? = some b :=
    fun id b hb => by
    rw [List.getElem?_append_left (List.getElem?_eq_some_iff.mp hb).1, hb]
  have hfinished : ∀ id, h.stage id = .finished → id ≠ s.tasks.length := by
    rintro id hid rfl
    cases hid.symm.trans ((hinv.books.unmade _).mpr le_rfl)
  have hnone' :
    ∀ u,
    ((({ s with tasks := s.tasks ++ [a] } : State τ A V E).setPos t (.push s.tasks.length task)).pos
      u).destroying = false :=
    forall_setPos (Q := fun _ p => p.destroying = false) rfl fun u _ => hnone u
  refine ⟨hroles.others (fun u hu => State.setPos_pos_ne _ hu _) (fun _ _ => rfl) id id
    (by rw [hpos]; nofun) htasks
    (fun id hid => (Function.update_of_ne (hfinished id hid) _ _).trans hid) ?_, fun t u ht =>
      ?_, fun t u ht => ?_, fun hc => ?_⟩
  · cases hroles.fits t with
    | code hp hq hrole =>
      cases hpos.symm.trans hp
      exact .pushes (State.setPos_pos_self ..)
        ⟨fun hw => absurd hw hrole, fun hne => absurd rfl hne⟩ (.inl hq)
    | runs hp hq hrole =>
      cases hpos.symm.trans hp
      exact .pushes (State.setPos_pos_self ..) ⟨fun _ => nofun, fun _ => hrole⟩ (.inl hq)
    | _ hp => cases hpos.symm.trans hp
  · exact Bool.noConfusion ((hnone' t).symm.trans ht)
  · exact Bool.noConfusion ((hnone' t).symm.trans ht)
  · obtain ⟨u, hu⟩ := hroles.closed hc
    exact Bool.noConfusion ((hnone u).symm.trans hu)

theorem Inv.roles_destroys (hinv : Inv P s h) (hpos : s.pos t = .code none)
    (hnone : ∀ u, (s.pos u).destroying = false ∧ (s.pos u).pushing = false) :
    Roles P (s.setPos t .close) h := by
  have honly : ∀ u, ((s.setPos t .close).pos u).destroying = true → u = t :=
    forall_setPos (Q := fun u p => p.destroying = true → u = t) (fun _ => rfl)
      fun u _ hu => Bool.noConfusion ((hnone u).1.symm.trans hu)
  have hpushing : ∀ u, ((s.setPos t .close).pos u).pushing = false :=
    forall_setPos (Q := fun _ p => p.pushing = false) rfl fun u _ => (hnone u).2
  refine ⟨hinv.roles.others (fun u hu => State.setPos_pos_ne _ hu _) (fun _ _ => rfl) id id
    (by rw [hpos]; nofun) (fun _ _ => id)
    (fun _ => id) ?_, fun u v hu hv => (honly u hu).trans (honly v hv).symm, fun _ u _ =>
      hpushing u, fun hc => ?_⟩
  · cases hinv.roles.fits t with
    | code hp hq hrole => exact .closes (State.setPos_pos_self ..) hrole (.inl hq)
    | _ hp => cases hpos.symm.trans hp
  · exact ⟨t, by rw [State.setPos_pos_self]; rfl⟩

theorem Inv.roles_pushes (hinv : Inv P s h) (hpos : s.pos t = .push id task)
    (hphase : Queue.phase s.queue t = .before (.push id))
    (hother : ∀ u, u ≠ t → Queue.phase queue u = Queue.phase s.queue u)
    (hphase' : Queue.phase queue t = .after (.push id) (.bool true))
    (hopened : s.queue.shared.opened = true)
    (hshared : queue.shared = { s.queue.shared with queue := s.queue.shared.queue ++ [id] }) :
    Roles P { s with queue := queue } ({ h with pushed := h.pushed ++ [id] }.setStage id
      .queued) := by
  have hroles := hinv.roles
  have hclosed : s.queue.shared.opened = false → queue.shared.opened = false := fun hc => by
    rw [hshared, hc]
  refine hroles.keep (hroles.others (t := t) (fun _ _ => rfl) hother (fun hdr => ?_) hclosed
    (fun hp => hp)
    (fun _ _ hb => hb) (fun j hj => ?_) ?_) (fun _ => rfl) (fun _ hp => hp) fun hc => ?_
  · exact Bool.noConfusion (hopened.symm.trans hdr.2)
  · refine (Function.update_of_ne ?_ _ _).trans hj
    rintro rfl
    have hmade : h.stage j = .made t := (hinv.books.making t j).mpr (by rw [hpos, hphase]; rfl)
    cases hj.symm.trans hmade
  · cases hroles.fits t with
    | pushes hp hrole hq =>
      cases hpos.symm.trans hp
      exact .pushes hp hrole (.inr (.inr hphase'))
    | _ hp => cases hpos.symm.trans hp
  · have hc : queue.shared.opened = false := hc
    rw [hshared] at hc
    exact Bool.noConfusion (hopened.symm.trans hc)

theorem Inv.roles_closes (hinv : Inv P s h) (hpos : s.pos t = .close)
    (hother : ∀ u, u ≠ t → Queue.phase queue u = Queue.phase s.queue u)
    (hphase' : Queue.phase queue t = .after .close .done)
    (hshared : queue.shared = { s.queue.shared with opened := false }) :
    Roles P { s with queue := queue } h := by
  have hclosed : queue.shared.opened = false := by rw [hshared]
  have hqueue : queue.shared.queue = s.queue.shared.queue := by rw [hshared]
  refine hinv.roles.keep
    (hinv.roles.others (t := t) (fun _ _ => rfl) hother (fun hdr => ⟨hqueue.trans hdr.1, hclosed⟩)
    (fun _ => hclosed) id (fun _ _ => id) (fun _ => id) ?_) (fun _ => rfl) (fun _ => id) fun _ =>
      ⟨t, by rw [hpos]; rfl⟩
  cases hinv.roles.fits t with
  | closes hp hrole hq => exact .closes hp hrole (.inr (.inr ⟨hphase', hclosed⟩))
  | _ hp => cases hpos.symm.trans hp

theorem Inv.roles_pops (hinv : Inv P s h) (hpos : s.pos t = .pop value)
    (hother : ∀ u, u ≠ t → Queue.phase queue u = Queue.phase s.queue u)
    (hphase' : Queue.phase queue t = .after .pop (.popped id))
    (hqueue : s.queue.shared.queue = id :: rest)
    (hshared : queue.shared = { s.queue.shared with queue := rest }) :
    Roles P ({ s with queue := queue }.setPos t (.pop (some id))) (h.setStage id (.held t)) := by
  have hroles := hinv.roles
  have hqueued : h.stage id = .queued :=
    (hinv.books.queued id).mpr (by rw [hqueue]; exact List.mem_cons_self)
  have hopened : queue.shared.opened = s.queue.shared.opened := by rw [hshared]
  refine hroles.moves rfl
    (hroles.others (fun u hu => State.setPos_pos_ne _ hu _) hother (fun hdr => ?_)
      (fun hc => hopened.trans hc)
    (by rw [hpos]; nofun) (fun _ _ hb => hb) (fun j hj => ?_) ?_) (by rw [hpos]; rfl) nofun
    fun hc => hroles.closed (hopened.symm.trans hc)
  · cases hdr.1.symm.trans hqueue
  · rw [Log.setStage_ne _ ?_, hj]
    rintro rfl
    cases hj.symm.trans hqueued
  · cases hroles.fits t with
    | pops hp hrole => exact .popped (State.setPos_pos_self ..) hrole hphase'
    | popped hp hrole | drains hp hrole => exact .popped (State.setPos_pos_self ..) hrole hphase'
    | _ hp => cases hpos.symm.trans hp

theorem Inv.roles_calls (hinv : Inv P s h) (hpos : s.pos t = .next (some id) true) :
    Roles P (s.setPos t (.code (some id))) ({ h with served := h.served ++ [(t, id)] }.setStage id
      (.running t)) := by
  have hroles := hinv.roles
  have hheld : h.stage id = .held t := (hinv.books.holding t id).mpr (by rw [hpos]; rfl)
  refine hroles.moves rfl
    (hroles.others (fun u hu => State.setPos_pos_ne _ hu _) (fun _ _ => rfl) (fun hdr => hdr)
      (fun hc => hc)
    (by rw [hpos]; nofun) (fun _ _ hb => hb) (fun j hj => ?_) ?_)
      (by rw [hpos]; rfl) nofun hroles.closed
  · rw [Log.setStage_ne _ ?_, hj]
    rintro rfl
    cases hj.symm.trans hheld
  · cases hroles.fits t with
    | takes hp hq hrole => exact .runs (State.setPos_pos_self ..) hq hrole
    | _ hp => cases hpos.symm.trans hp

theorem Inv.roles_finishes (hinv : Inv P s h) (hpos : s.pos t = .finish id (P.fn a)) :
    Roles P ({ s with content := Function.update s.content id (some (P.fn a).content) }.setPos t
      (.pop (some id)))
      (h.setStage id .finished) := by
  have hroles := hinv.roles
  refine hroles.moves rfl
    (hroles.others (fun u hu => State.setPos_pos_ne _ hu _) (fun _ _ => rfl) (fun hdr => hdr)
      (fun hc => hc)
    (by rw [hpos]; nofun) (fun _ _ hb => hb) (fun j hj => ?_) ?_)
      (by rw [hpos]; rfl) nofun hroles.closed
  · by_cases hjid : j = id
    · rw [hjid, Log.setStage_self]
    · rw [Log.setStage_ne _ hjid, hj]
  · cases hroles.fits t with
    | finishes hp hq hrole =>
      refine .pops (State.setPos_pos_self ..) hrole ?_ (.inl hq)
      rintro j hj
      obtain rfl := Option.some.inj hj
      exact Log.setStage_self ..
    | _ hp => cases hpos.symm.trans hp

end

theorem Move.roles (hmove : Move P s h s' h') (hinv : Inv P s h) : Roles P s' h' := by
  cases hmove with
  | goes hother hshared _ _ _ hdestroying hpushing hended hfits =>
    exact hinv.roles_goes hother hshared hdestroying hpushing hended hfits
  | submits hpos hnone => exact hinv.roles_submits hpos hnone
  | destroys hpos hnone => exact hinv.roles_destroys hpos hnone
  | pushes hpos hphase hother hphase' hopened hshared =>
    exact hinv.roles_pushes hpos hphase hother hphase' hopened hshared
  | closes hpos _ hother hphase' hshared => exact hinv.roles_closes hpos hother hphase' hshared
  | pops hpos _ hother hphase' hqueue hshared =>
    exact hinv.roles_pops hpos hother hphase' hqueue hshared
  | calls hpos => exact hinv.roles_calls hpos
  | finishes hpos => exact hinv.roles_finishes hpos

section

variable {stage : Nat → Stage τ} {c : τ → Stage τ} {f f' : τ → Option Nat} {t : τ}
    {id : Nat} {x : Stage τ}

theorem Told.enter (htold : Told stage c f) (hinj : Function.Injective c)
    (hbefore : ∀ u, stage id ≠ c u)
    (hf : ∀ u, u ≠ t → f' u = f u) (hnone : f t = none) (hsome : f' t = some id) :
    Told (Function.update stage id (c t)) c f' := by
  refine htold.change (fun j hj => Function.update_of_ne hj _ _) hf (fun u hu => ⟨hbefore u, ?_⟩)
    (fun j hj => ?_) ?_
  · rw [Function.update_self]
    exact fun heq => hu (hinj heq).symm
  · rw [hnone, hsome]
    exact iff_of_false (fun heq => hj (Option.some.inj heq).symm) nofun
  · rw [Function.update_self]
    exact iff_of_true rfl hsome

theorem Told.leave (htold : Told stage c f) (hinj : Function.Injective c) (hafter : ∀ u, x ≠ c u)
    (hf : ∀ u, u ≠ t → f' u = f u) (hsome : f t = some id) (hnone : f' t = none) :
    Told (Function.update stage id x) c f' := by
  refine htold.change (fun j hj => Function.update_of_ne hj _ _) hf (fun u hu => ⟨?_, ?_⟩)
    (fun j hj => ?_) ?_
  · rw [(htold t id).mpr hsome]
    exact fun heq => hu (hinj heq).symm
  · rw [Function.update_self]
    exact hafter u
  · rw [hnone, hsome]
    exact iff_of_false nofun fun heq => hj (Option.some.inj heq).symm
  · rw [Function.update_self, hnone]
    exact iff_of_false (hafter t) nofun

omit [DecidableEq τ] in
theorem Told.other (htold : Told stage c f) (hbefore : ∀ u, stage id ≠ c u) (hafter : ∀ u, x ≠ c u)
    (hf : ∀ u, f' u = f u) :
    Told (Function.update stage id x) c f' := by
  intro u j
  by_cases hj : j = id
  · rw [hj, Function.update_self, hf]
    exact iff_of_false (hafter u) fun hsome => hbefore u ((htold u id).mpr hsome)
  · rw [Function.update_of_ne hj, hf]
    exact htold u j

omit [DecidableEq τ] in
theorem update_iff {y : Stage τ} (hbefore : stage id ≠ y) (hafter : x ≠ y) (j : Nat) :
    Function.update stage id x j = y ↔ stage j = y := by
  by_cases hj : j = id
  · rw [hj, Function.update_self]
    exact iff_of_false hafter hbefore
  · rw [Function.update_of_ne hj]

omit [DecidableEq τ] in
theorem update_called (hbefore : (stage id).called = x.called) (j : Nat) :
    (Function.update stage id x j).called = (stage j).called := by
  by_cases hj : j = id
  · rw [hj, Function.update_self, hbefore]
  · rw [Function.update_of_ne hj]

end

omit [DecidableEq τ] in
theorem Told.congr {stage : Nat → Stage τ} {c : τ → Stage τ} {f f' : τ → Option Nat}
    (htold : Told stage c f)
    (hf : ∀ t, f' t = f t) : Told stage c f' := fun t id => (htold t id).trans (by rw [hf])

omit [DecidableEq τ] in
theorem Books.change (hbooks : Books P s h)
    (hmaking : Told h'.stage .made fun t => (s'.pos t).making (Queue.phase s'.queue t))
    (hholding : Told h'.stage .held fun t => (s'.pos t).holding (Queue.phase s'.queue t))
    (hrunning : Told h'.stage .running fun t => (s'.pos t).running)
    (hunmade : ∀ id, h'.stage id = .unmade ↔ s'.tasks.length ≤ id)
    (hqueued : ∀ id, h'.stage id = .queued ↔ id ∈ s'.queue.shared.queue)
    (hnodup : s'.queue.shared.queue.Nodup)
    (hfinished : ∀ id, h'.stage id = .finished ↔ h.stage id = .finished)
    (hcalled : ∀ id, (h'.stage id).called = (h.stage id).called)
    (htasks : ∀ (id : Nat) (a : A), s.tasks[id]? = some a → s'.tasks[id]? = some a)
    (hcontent : s'.content = s.content) (hserved : h'.served = h.served) : Books P s' h' where
  making := hmaking
  holding := hholding
  running := hrunning
  unmade := hunmade
  queued := hqueued
  nodup := hnodup
  finished := by
    intro id hid
    obtain ⟨a, htask, hc⟩ := hbooks.finished id ((hfinished id).mp hid)
    exact ⟨a, htasks id a htask, by rw [hcontent, hc]⟩
  unfinished := by
    intro id hid
    rw [hcontent]
    exact hbooks.unfinished id fun h => hid ((hfinished id).mpr h)
  calls := by
    intro id
    rw [hserved, hcalled]
    exact hbooks.calls id
  servers := by
    rw [hserved]
    exact hbooks.servers

theorem told_setPos {g : Pos τ V E → Queue.Phase Nat → Option Nat} {t : τ} {p : Pos τ V E}
    {queue : Queue.State Nat τ} (hother : ∀ u, u ≠ t → Queue.phase queue u = Queue.phase s.queue u)
    (hself : g p (Queue.phase queue t) = g (s.pos t) (Queue.phase s.queue t)) (u : τ) :
    g ((({ s with queue := queue } : State τ A V E).setPos t p).pos u) (Queue.phase queue u) =
    g (s.pos u) (Queue.phase s.queue u) := by
  by_cases hu : u = t
  · rw [hu, State.setPos_pos_self]
    exact hself
  · rw [State.setPos_pos_ne _ hu, hother u hu]

theorem told_kept {g : Pos τ V E → Queue.Phase Nat → Option Nat} {t : τ} {queue : Queue.State Nat τ}
    (hother : ∀ u, u ≠ t → Queue.phase queue u = Queue.phase s.queue u)
    (hself : g (s.pos t) (Queue.phase queue t) = g (s.pos t) (Queue.phase s.queue t)) (u : τ) :
    g (s.pos u) (Queue.phase queue u) = g (s.pos u) (Queue.phase s.queue u) := by
  by_cases hu : u = t
  · rw [hu]
    exact hself
  · rw [hother u hu]

omit [DecidableEq τ] in
/-- A task that is at a stage is at no other. -/
theorem Log.elsewhere {id : Nat} {x : Stage τ} (hx : h.stage id = x) (y : Stage τ) (hy : y ≠ x) :
    h.stage id ≠ y :=
  fun heq => hy (heq.symm.trans hx)

/-! Each move keeps the books. -/

section

variable {t : τ} {id : Nat} {a : A} {p : Pos τ V E} {task value : Option Nat} {rest : List Nat}
    {queue : Queue.State Nat τ}

omit [DecidableEq τ] in
theorem Inv.told (hinv : Inv P s h) :
    Told h.stage .made (fun t => (s.pos t).making (Queue.phase s.queue t)) ∧
    Told h.stage .held (fun t => (s.pos t).holding (Queue.phase s.queue t)) ∧
    Told h.stage .running fun t => (s.pos t).running :=
  ⟨hinv.books.making, hinv.books.holding, hinv.books.running⟩

theorem Inv.books_goes (hinv : Inv P s h)
    (hother : ∀ u, u ≠ t → Queue.phase queue u = Queue.phase s.queue u)
    (hqueue : queue.shared.queue = s.queue.shared.queue)
    (hmaking : p.making (Queue.phase queue t) = (s.pos t).making (Queue.phase s.queue t))
    (hholding : p.holding (Queue.phase queue t) = (s.pos t).holding (Queue.phase s.queue t))
    (hrunning : p.running = (s.pos t).running) :
    Books P ({ s with queue := queue }.setPos t p) h := by
  have hbooks := hinv.books
  obtain ⟨hmade, hheld, hrun⟩ := hinv.told
  refine hbooks.change (hmade.congr (told_setPos hother hmaking))
    (hheld.congr (told_setPos hother hholding))
    (hrun.congr (told_setPos (g := fun p _ => p.running) hother hrunning)) hbooks.unmade
      (fun id => ?_) ?_ (fun _ => Iff.rfl)
    (fun _ => rfl) (fun _ _ hb => hb) rfl rfl
  · change _ ↔ id ∈ queue.shared.queue
    rw [hqueue]
    exact hbooks.queued id
  · change queue.shared.queue.Nodup
    rw [hqueue]
    exact hbooks.nodup

theorem Inv.books_submits (hinv : Inv P s h) (hpos : s.pos t = .code task) :
    Books P ({ s with tasks := s.tasks ++ [a] }.setPos t (.push s.tasks.length task))
      ({ h with caller := Function.update h.caller s.tasks.length (some t) }.setStage s.tasks.length
        (.made t)) := by
  have hbooks := hinv.books
  obtain ⟨hmaking, hholding, hrunning⟩ := hinv.told
  have hother : ∀ u, u ≠ t → Queue.phase s.queue u = Queue.phase s.queue u := fun _ _ => rfl
  have hout : Queue.phase s.queue t = .outside := by
    cases hinv.roles.fits t with
    | code _ hq | runs _ hq => exact hq
    | _ hp => cases hpos.symm.trans hp
  have hunmade : h.stage s.tasks.length = .unmade := (hbooks.unmade _).mpr le_rfl
  have hne := Log.elsewhere hunmade
  refine hbooks.change (hmaking.enter (fun _ _ => Stage.made.inj) (fun u => hne _ nofun)
    (fun u hu => ?_) ?_ ?_)
    (hholding.other (fun u => hne _ nofun) (fun _ => nofun)
      (told_setPos hother (by rw [hpos]; rfl)))
    (hrunning.other (fun u => hne _ nofun) (fun _ => nofun)
      (told_setPos (g := fun p _ => p.running) hother (by rw [hpos]; rfl)))
    (fun id => ?_) (fun id => (update_iff (x := .made t) (hne .queued nofun) nofun id).trans
      (hbooks.queued id)) hbooks.nodup
    (update_iff (hne .finished nofun) nofun) (update_called (by rw [hunmade]; rfl))
      (fun id b hb => ?_) rfl rfl
  · rw [State.setPos_pos_ne _ hu]
    rfl
  · rw [hpos]
    rfl
  · rw [State.setPos_pos_self]
    change Pos.making (.push s.tasks.length task) (Queue.phase s.queue t) = _
    rw [hout]
    rfl
  · change Function.update h.stage s.tasks.length (.made t) id = .unmade ↔
      (s.tasks ++ [a]).length ≤ id
    rw [List.length_append, List.length_singleton]
    by_cases hid : id = s.tasks.length
    · rw [hid, Function.update_self]
      exact iff_of_false nofun (by omega)
    · rw [Function.update_of_ne hid, hbooks.unmade]
      omega
  · exact (List.getElem?_append_left (List.getElem?_eq_some_iff.mp hb).1).trans hb

theorem Inv.books_pushes (hinv : Inv P s h) (hpos : s.pos t = .push id task)
    (hphase : Queue.phase s.queue t = .before (.push id))
    (hother : ∀ u, u ≠ t → Queue.phase queue u = Queue.phase s.queue u)
    (hphase' : Queue.phase queue t = .after (.push id) (.bool true))
    (hshared : queue.shared = { s.queue.shared with queue := s.queue.shared.queue ++ [id] }) :
    Books P { s with queue := queue } ({ h with pushed := h.pushed ++ [id] }.setStage id
      .queued) := by
  have hbooks := hinv.books
  obtain ⟨hmaking, hholding, hrunning⟩ := hinv.told
  have hmade : h.stage id = .made t := (hbooks.making t id).mpr (by rw [hpos, hphase]; rfl)
  have hne := Log.elsewhere hmade
  have hout : id ∉ s.queue.shared.queue := fun hmem =>
    hne .queued nofun ((hbooks.queued id).mpr hmem)
  refine hbooks.change (hmaking.leave (t := t) (fun _ _ => Stage.made.inj) (fun _ => nofun)
    (fun u hu => ?_) ?_ ?_)
    (hholding.other (fun u => hne _ nofun) (fun _ => nofun) (told_kept hother (by rw [hpos]; rfl)))
    (hrunning.other (fun u => hne _ nofun) (fun _ => nofun) fun u => rfl)
    (fun j => (update_iff (x := .queued) (hne .unmade nofun) nofun j).trans (hbooks.unmade j))
      (fun j => ?_) ?_
    (update_iff (hne .finished nofun) nofun) (update_called (by rw [hmade]; rfl))
      (fun _ _ hb => hb) rfl rfl
  · change (s.pos u).making (Queue.phase queue u) = _
    rw [hother u hu]
  · rw [hpos, hphase]
    rfl
  · change (s.pos t).making (Queue.phase queue t) = none
    rw [hpos, hphase']
    rfl
  · change Function.update h.stage id .queued j = .queued ↔ j ∈ queue.shared.queue
    rw [hshared, List.mem_append, List.mem_singleton]
    by_cases hj : j = id
    · rw [hj, Function.update_self]
      exact iff_of_true rfl (.inr rfl)
    · rw [Function.update_of_ne hj, hbooks.queued, or_iff_left hj]
  · change queue.shared.queue.Nodup
    rw [hshared]
    exact List.nodup_append.mpr ⟨hbooks.nodup, List.nodup_singleton id, fun j hj k hk heq => by
      rw [List.mem_singleton] at hk
      exact hout (hk ▸ heq ▸ hj)⟩

theorem Inv.books_pops (hinv : Inv P s h) (hpos : s.pos t = .pop value)
    (hphase : Queue.phase s.queue t = .before .pop)
    (hother : ∀ u, u ≠ t → Queue.phase queue u = Queue.phase s.queue u)
    (hphase' : Queue.phase queue t = .after .pop (.popped id))
    (hqueue : s.queue.shared.queue = id :: rest)
    (hshared : queue.shared = { s.queue.shared with queue := rest }) :
    Books P ({ s with queue := queue }.setPos t (.pop (some id))) (h.setStage id (.held t)) := by
  have hbooks := hinv.books
  obtain ⟨hmaking, hholding, hrunning⟩ := hinv.told
  have hqueued : h.stage id = .queued :=
    (hbooks.queued id).mpr (by rw [hqueue]; exact List.mem_cons_self)
  have hne := Log.elsewhere hqueued
  have hnodup := hbooks.nodup
  rw [hqueue, List.nodup_cons] at hnodup
  refine hbooks.change (hmaking.other (fun u => hne _ nofun) (fun _ => nofun)
    (told_setPos hother (by rw [hpos]; rfl)))
    (hholding.enter (fun _ _ => Stage.held.inj) (fun u => hne _ nofun) (fun u hu => ?_) ?_ ?_)
    (hrunning.other (fun u => hne _ nofun) (fun _ => nofun)
      (told_setPos (g := fun p _ => p.running) hother (by rw [hpos]; rfl)))
    (fun j => (update_iff (x := .held t) (hne .unmade nofun) nofun j).trans (hbooks.unmade j))
      (fun j => ?_) ?_
    (update_iff (hne .finished nofun) nofun) (update_called (by rw [hqueued]; rfl))
      (fun _ _ hb => hb) rfl rfl
  · change (State.pos _ u).holding (Queue.phase queue u) = _
    rw [State.setPos_pos_ne _ hu, hother u hu]
  · rw [hpos, hphase]
    rfl
  · change (State.pos _ t).holding (Queue.phase queue t) = _
    rw [State.setPos_pos_self, hphase']
    rfl
  · change Function.update h.stage id (.held t) j = .queued ↔ j ∈ queue.shared.queue
    rw [hshared]
    by_cases hj : j = id
    · rw [hj, Function.update_self]
      exact iff_of_false nofun hnodup.1
    · rw [Function.update_of_ne hj, hbooks.queued, hqueue, List.mem_cons, or_iff_right hj]
  · change queue.shared.queue.Nodup
    rw [hshared]
    exact hnodup.2

theorem Inv.books_calls (hinv : Inv P s h) (hpos : s.pos t = .next (some id) true) :
    Books P (s.setPos t (.code (some id))) ({ h with served := h.served ++ [(t, id)] }.setStage id
      (.running t)) := by
  have hbooks := hinv.books
  obtain ⟨hmaking, hholding, hrunning⟩ := hinv.told
  have hother : ∀ u, u ≠ t → Queue.phase s.queue u = Queue.phase s.queue u := fun _ _ => rfl
  have hheld : h.stage id = .held t := (hbooks.holding t id).mpr (by rw [hpos]; rfl)
  have hne := Log.elsewhere hheld
  have hfinished : ∀ j, Function.update h.stage id (.running t) j = .finished ↔
    h.stage j = .finished :=
    update_iff (hne .finished nofun) nofun
  refine ⟨hmaking.other (fun u => hne _ nofun) (fun _ => nofun)
    (told_setPos hother (by rw [hpos]; rfl)),
    hholding.leave (t := t) (fun _ _ => Stage.held.inj) (fun _ => nofun) (fun u hu => ?_) ?_ ?_,
    hrunning.enter (t := t) (fun _ _ => Stage.running.inj) (fun u => hne _ nofun)
    (fun u hu => ?_) ?_ ?_,
    fun j => (update_iff (x := .running t) (hne .unmade nofun) nofun j).trans (hbooks.unmade j),
    fun j => (update_iff (x := .running t) (hne .queued nofun) nofun j).trans (hbooks.queued j),
      hbooks.nodup,
    fun j hj => hbooks.finished j ((hfinished j).mp hj), fun j hj => hbooks.unfinished j fun heq =>
      hj ((hfinished j).mpr heq),
    fun j => ?_, fun c hc => ?_⟩
  · rw [State.setPos_pos_ne _ hu]
    rfl
  · rw [hpos]
    rfl
  · change (State.pos _ t).holding (Queue.phase s.queue t) = none
    rw [State.setPos_pos_self]
    rfl
  · rw [State.setPos_pos_ne _ hu]
  · rw [hpos]
    rfl
  · rw [State.setPos_pos_self]
    rfl
  · have hcalls := hbooks.calls j
    change ((h.served ++ [(t, id)]).map Prod.snd).count j =
      if (Function.update h.stage id (.running t) j).called then 1 else 0
    rw [List.map_append, List.count_append, hcalls]
    by_cases hj : j = id
    · rw [hj, Function.update_self, hheld]
      simp [Stage.called]
    · rw [Function.update_of_ne hj]
      simp [Ne.symm hj]
  · rcases List.mem_append.mp hc with hc | hc
    · exact hbooks.servers c hc
    · rw [List.mem_singleton.mp hc]
      cases hinv.roles.fits t with
      | takes _ _ hrole => exact hrole
      | _ hp => cases hpos.symm.trans hp

theorem Inv.books_finishes (hinv : Inv P s h) (hpos : s.pos t = .finish id (P.fn a))
    (htask : s.tasks[id]? = some a) :
    Books P ({ s with content := Function.update s.content id (some (P.fn a).content) }.setPos t
      (.pop (some id)))
      (h.setStage id .finished) := by
  have hbooks := hinv.books
  obtain ⟨hmaking, hholding, hrunning⟩ := hinv.told
  have hother : ∀ u, u ≠ t → Queue.phase s.queue u = Queue.phase s.queue u := fun _ _ => rfl
  have hrun : h.stage id = .running t := (hbooks.running t id).mpr (by rw [hpos]; rfl)
  have hne := Log.elsewhere hrun
  have hphase : Queue.phase s.queue t = .outside := by
    cases hinv.roles.fits t with
    | finishes _ hq => exact hq
    | _ hp => cases hpos.symm.trans hp
  refine ⟨hmaking.other (fun u => hne _ nofun) (fun _ => nofun)
    (told_setPos hother (by rw [hpos]; rfl)),
    hholding.other (fun u => hne _ nofun) (fun _ => nofun) (told_setPos hother ?_),
    hrunning.leave (t := t) (fun _ _ => Stage.running.inj) (fun _ => nofun) (fun u hu => ?_) ?_ ?_,
    fun j => (update_iff (x := .finished) (hne .unmade nofun) nofun j).trans (hbooks.unmade j),
    fun j => (update_iff (x := .finished) (hne .queued nofun) nofun j).trans (hbooks.queued j),
      hbooks.nodup,
    fun j hj => ?_, fun j hj => ?_, fun j => ?_, hbooks.servers⟩
  · change (Pos.pop (some id)).holding (Queue.phase s.queue t) =
      (s.pos t).holding (Queue.phase s.queue t)
    rw [hpos, hphase]
    rfl
  · rw [State.setPos_pos_ne _ hu]
  · rw [hpos]
    rfl
  · rw [State.setPos_pos_self]
    rfl
  · change ∃ b, s.tasks[j]? = some b ∧ Function.update s.content id (some (P.fn a).content) j =
      some (P.fn b).content
    by_cases hjid : j = id
    · exact ⟨a, hjid ▸ htask, by rw [hjid, Function.update_self]⟩
    · rw [Log.setStage_ne _ hjid] at hj
      obtain ⟨b, hb, hcontent⟩ := hbooks.finished j hj
      exact ⟨b, hb, by rw [Function.update_of_ne hjid, hcontent]⟩
  · change Function.update s.content id (some (P.fn a).content) j = none
    by_cases hjid : j = id
    · rw [hjid, Log.setStage_self] at hj
      exact absurd rfl hj
    · rw [Log.setStage_ne _ hjid] at hj
      rw [Function.update_of_ne hjid]
      exact hbooks.unfinished j hj
  · exact (hbooks.calls j).trans (by rw [Log.setStage, update_called (by rw [hrun]; rfl)])

end

theorem Move.books (hmove : Move P s h s' h') (hinv : Inv P s h) : Books P s' h' := by
  cases hmove with
  | goes hother hshared hmaking hholding hrunning =>
    exact hinv.books_goes hother (by rw [hshared]) hmaking hholding hrunning
  | submits hpos => exact hinv.books_submits hpos
  | @destroys t hpos =>
    have hbooks : Books P ({ s with queue := s.queue }.setPos t .close) h :=
      hinv.books_goes (fun _ _ => rfl) rfl (by rw [hpos]; rfl) (by rw [hpos]; rfl)
      (by rw [hpos]; rfl)
    exact hbooks
  | pushes hpos hphase hother hphase' _ hshared =>
    exact hinv.books_pushes hpos hphase hother hphase' hshared
  | @closes t queue hpos hphase hother hphase' hshared =>
    have hbooks : Books P ({ s with queue := queue }.setPos t (s.pos t)) h :=
      hinv.books_goes hother (by rw [hshared]) (by rw [hpos]; rfl) (by rw [hpos]; rfl) rfl
    rwa [setPos_self { s with queue := queue } t] at hbooks
  | pops hpos hphase hother hphase' hqueue hshared =>
    exact hinv.books_pops hpos hphase hother hphase' hqueue hshared
  | calls hpos => exact hinv.books_calls hpos
  | finishes hpos htask => exact hinv.books_finishes hpos htask

theorem Move.inv (hmove : Move P s h s' h') (hinv : Inv P s h) :
    Inv P s' h' := ⟨hmove.roles hinv, hmove.books hinv⟩

end Service

end GreenThread
