import GreenThread.Machine.Moves

/-!
# Clients and the mutexes they hold

A step changes the position of one thread, and the shared data only when it is a step of the client.
A client keeps a lock discipline when its positions say which mutexes it holds: then every green
thread owns the mutexes its position holds, and two green threads never hold one mutex together.
Native threads are outside the discipline, because their `lock` does not lock.
-/

namespace GreenThread

variable {τ μ κ α σ ω : Type}

/-- The results a call can give. -/
def Call.Gives : Call μ κ → Ret → Prop
  | .lock _, .done | .lock _, .threw _ | .unlock _, .done | .unlock _, .threw _ => True
  | .tryLock _, .bool _ => True
  | .wait _ _, .done | .wait _ _, .threw _ | .waitRel _ _, .status _
  | .waitRel _ _, .threw _ => True
  | .notifyOne _, .done | .notifyAll _, .done => True
  | _, _ => False

/-- The calls that may end with a `yield`. -/
def Call.Yields : Call μ κ → Prop
  | .unlock _ | .notifyOne _ | .notifyAll _ => True
  | _ => False

/-- The client position a thread is at or called from. -/
def PC.at : PC μ κ α → Option α
  | .user a | .locking _ a | .yielding a | .unlocking _ a | .unlockYield _ a | .pausing _ a
  | .relocking _ a | .relockPause _ a => some a
  | .terminated => none

/-- The thread is inside a primitive that was called from `a`. -/
def PC.Inside (p : PC μ κ α) (a : α) : Prop := p.at = some a ∧ p ≠ .user a

/-- The position fits the call the client made. -/
def PC.Called (C : Client τ μ κ α σ ω) : PC μ κ α → Prop
  | .locking m a => C.call a = some (.lock m)
  | .yielding a => ∃ call, C.call a = some call ∧ call.Yields
  | .unlocking w a | .unlockYield w a | .pausing w a | .relocking w a | .relockPause w a =>
    C.call a = some (Machine.WaitCall.call w)
  | .user _ | .terminated => True

/-- When a call of a green thread `t` throws. -/
def Call.Throws (mutex : μ → Mutex τ) (t : τ) : Call μ κ → Prop
  | .lock m => (mutex m).owner = some t
  | .unlock m | .wait _ m | .waitRel _ m => (mutex m).owner ≠ some t
  | _ => False

/-- What happens to the position of a thread when it is not a step of the client: it enters or goes
on in a primitive, or returns from one. -/
def PC.Progress (C : Client τ μ κ α σ ω) (green : τ → Bool) (mutex : μ → Mutex τ) (t : τ)
    (p p' : PC μ κ α) :
    Prop :=
  p' = p ∨ ∃ a call, p.at = some a ∧ C.call a = some call ∧
    (p'.Inside a ∨
      ∃ r, call.Gives r ∧ (∀ e, r = .threw e → p = .user a ∧ green t = true ∧ call.Throws mutex t) ∧
        p' = .user (C.ret a r))

namespace Machine

variable [DecidableEq τ] [DecidableEq μ] [DecidableEq κ]
variable {C : Client τ μ κ α σ ω} {green : τ → Bool} {s s' : State τ μ κ α σ} {l : Label τ ω}

/-- The thread whose step it is, or whose activation or timer it is about. -/
def Label.thread : Label τ ω → τ
  | .act t _ | .call t _ | .proceed t _ | .deliver t | .wake t | .expire t | .handler t => t

omit [DecidableEq τ] [DecidableEq μ] [DecidableEq κ] in
theorem WaitCall.gives_waitRet (s : State τ μ κ α σ) (t : τ) (w : WaitCall μ κ) :
    (WaitCall.call w).Gives (s.waitRet t w) := by
  obtain ⟨c, m, timed⟩ := w
  cases timed <;> trivial

omit [DecidableEq μ] [DecidableEq κ] in
theorem WaitCall.gives_threw (w : WaitCall μ κ) (e : ErrorCode) :
    (WaitCall.call w).Gives (.threw e) := by
  obtain ⟨c, m, timed⟩ := w
  cases timed <;> trivial

omit [DecidableEq τ] [DecidableEq μ] [DecidableEq κ] in
theorem WaitCall.throws (w : WaitCall μ κ) {mutex : μ → Mutex τ} {t : τ}
    (h : (mutex w.mtx).owner ≠ some t) :
    (WaitCall.call w).Throws mutex t := by
  obtain ⟨c, m, timed⟩ := w
  cases timed <;> exact h

omit [DecidableEq τ] [DecidableEq μ] [DecidableEq κ] in
theorem WaitCall.waitRet_returns (s : State τ μ κ α σ) (t : τ) (w : WaitCall μ κ) {P : Prop}
    (e : ErrorCode) (he : s.waitRet t w = .threw e) : P := by
  unfold State.waitRet at he
  split at he <;> cases he

omit [DecidableEq μ] [DecidableEq κ] in
theorem wakeItem_mutex (s : State τ μ κ α σ) (i : SuspendedItem τ) :
    (s.wakeItem i).mutex = s.mutex := by
  unfold State.wakeItem
  split <;> rfl

omit [DecidableEq μ] [DecidableEq κ] in
theorem wakeItem_shared (s : State τ μ κ α σ) (i : SuspendedItem τ) :
    (s.wakeItem i).shared = s.shared := by
  unfold State.wakeItem
  split <;> rfl

omit [DecidableEq μ] in
theorem notifyLoop_mutex (c : κ) (items : List (SuspendedItem τ)) (s : State τ μ κ α σ) :
    (notifyLoop c items s).mutex = s.mutex := by
  induction items generalizing s with
  | nil => rfl
  | cons i rest ih => rw [notifyLoop, ih, wakeItem_mutex, State.setCond]

omit [DecidableEq μ] in
theorem notifyLoop_shared (c : κ) (items : List (SuspendedItem τ)) (s : State τ μ κ α σ) :
    (notifyLoop c items s).shared = s.shared := by
  induction items generalizing s with
  | nil => rfl
  | cons i rest ih => rw [notifyLoop, ih, wakeItem_shared, State.setCond]

omit [DecidableEq μ] [DecidableEq κ] in
theorem wakeItem_status (s : State τ μ κ α σ) (i : SuspendedItem τ) :
    (s.wakeItem i).status = s.status := by
  unfold State.wakeItem
  split <;> rfl

omit [DecidableEq μ] in
theorem notifyLoop_status (c : κ) (items : List (SuspendedItem τ)) (s : State τ μ κ α σ) :
    (notifyLoop c items s).status = s.status := by
  induction items generalizing s with
  | nil => rfl
  | cons i rest ih => rw [notifyLoop, ih, wakeItem_status, State.setCond]

/-- A notification has taken the entries `taken` from the front of the queue of `c`. -/
structure Notified (s : State τ μ κ α σ) (c : κ) (taken left : List (SuspendedItem τ))
    (mid : State τ μ κ α σ) : Prop where
  queue : s.cond c = taken ++ left
  cond : mid.cond = Function.update s.cond c left
  pending : ∀ u, mid.pending u = s.pending u + taken.count ⟨u, false⟩
  pc : mid.pc = s.pc

omit [DecidableEq μ] [DecidableEq κ] in
theorem wakeItem_pending (s : State τ μ κ α σ) (i : SuspendedItem τ) (u : τ) :
    (s.wakeItem i).pending u = s.pending u + [i].count ⟨u, false⟩ := by
  obtain ⟨f, timed⟩ := i
  cases timed with
  | true => simp [State.wakeItem, State.setTimer, State.pending]
  | false =>
    by_cases hu : u = f
    · subst hu
      simp [State.wakeItem, State.resume, State.pending, Nat.add_right_comm]
    · have hne : (⟨f, false⟩ : SuspendedItem τ) ≠ ⟨u, false⟩ := by simp [Ne.symm hu]
      simp [State.wakeItem, State.resume, State.pending, hu, hne]

omit [DecidableEq μ] in
theorem notifyOne_notified {c : κ} {i : SuspendedItem τ} {rest : List (SuspendedItem τ)}
    (hqueue : s.cond c = i :: rest) : Notified s c [i] rest ((s.setCond c rest).wakeItem i) where
  queue := hqueue
  cond := by rw [wakeItem_cond, State.setCond]
  pending := fun u => wakeItem_pending (s.setCond c rest) i u
  pc := by rw [wakeItem_pc, State.setCond]

omit [DecidableEq μ] in
theorem notifyAll_notified {c : κ} {items : List (SuspendedItem τ)} (hqueue : s.cond c = items) :
    Notified s c items [] (notifyLoop c items s) := by
  induction items generalizing s with
  | nil =>
    exact ⟨hqueue, by rw [notifyLoop, ← hqueue, Function.update_eq_self], fun u => rfl, rfl⟩
  | cons i rest ih =>
    have hone := notifyOne_notified hqueue
    have hrest := ih (s := (s.setCond c rest).wakeItem i) (by rw [hone.cond, Function.update_self])
    refine ⟨by simpa using hqueue, ?_, fun u => ?_, ?_⟩
    · rw [notifyLoop, hrest.cond, hone.cond, Function.update_idem]
    · rw [notifyLoop, hrest.pending, hone.pending, Nat.add_assoc, ← List.count_append]
      rfl
    · rw [notifyLoop, hrest.pc, hone.pc]

section

omit [DecidableEq μ] [DecidableEq κ]

theorem notifyEnd_effect (C : Client τ μ κ α σ ω) (green : τ → Bool) (s : State τ μ κ α σ)
    (t : τ) (a : α) :
    (notifyEnd C green s t a).mutex = s.mutex ∧ (notifyEnd C green s t a).shared = s.shared ∧
      ∃ p, (notifyEnd C green s t a).pc = Function.update s.pc t p ∧
        (p = .yielding a ∨ p = .user (C.ret a .done)) := by
  unfold notifyEnd
  split
  · exact ⟨rfl, rfl, _, rfl, .inl rfl⟩
  · exact ⟨rfl, rfl, _, rfl, .inr rfl⟩

theorem notifyEnd_cond (C : Client τ μ κ α σ ω) (green : τ → Bool) (s : State τ μ κ α σ)
    (t : τ) (a : α) :
    (notifyEnd C green s t a).cond = s.cond := by
  unfold notifyEnd
  split <;> rfl

theorem notifyEnd_kept (C : Client τ μ κ α σ ω) (green : τ → Bool) (s : State τ μ κ α σ)
    (t : τ) (a : α) :
    (notifyEnd C green s t a).status = s.status ∧ (notifyEnd C green s t a).timer = s.timer := by
  unfold notifyEnd
  split <;> exact ⟨rfl, rfl⟩

theorem notifyEnd_progress {mid : State τ μ κ α σ} {t : τ} {a : α} {call : Call μ κ}
    (hmid : mid.pc = s.pc) (hpc : s.pc t = .user a)
    (hcall : C.call a = some call) (hgives : call.Gives .done) (hyields : call.Yields) :
    ∃ p, (notifyEnd C green mid t a).pc = Function.update s.pc t p ∧
    (s.pc t).Progress C green s.mutex t p ∧ p.Called C := by
  obtain ⟨-, -, p, heq, hp⟩ := notifyEnd_effect C green mid t a
  refine ⟨p, by rw [heq, hmid], .inr ⟨a, call, by rw [hpc]; rfl, hcall, ?_⟩, ?_⟩
  · rcases hp with rfl | rfl
    · exact .inl ⟨rfl, by simp⟩
    · exact .inr ⟨_, hgives, fun e he => (by cases he), rfl⟩
  · rcases hp with rfl | rfl
    · exact ⟨call, hcall, hyields⟩
    · trivial

theorem notifyEnd_pending_ne (C : Client τ μ κ α σ ω) (green : τ → Bool)
    (s : State τ μ κ α σ) {t u : τ}
    (a : α) (hu : u ≠ t) : (notifyEnd C green s t a).pending u = s.pending u := by
  unfold notifyEnd
  split
  · simp [State.yieldTo, State.setPc, State.resume, State.pending, hu]
  · rfl

end

omit [DecidableEq μ] in
theorem startWait_effect (s : State τ μ κ α σ) (t : τ) (a : α) (w : WaitCall μ κ) :
    (s.startWait t a w).mutex = s.mutex ∧ (s.startWait t a w).shared = s.shared ∧
      (s.startWait t a w).pc = Function.update s.pc t (.unlocking w a) := by
  obtain ⟨c, m, timed⟩ := w
  cases timed <;> exact ⟨rfl, rfl, rfl⟩

/-- What a step does to the positions and to the shared data. -/
theorem Move.effect (h : Move C green s l s') (hcalled : ∀ t, (s.pc t).Called C) :
    (∃ t o a b x, l = .act t o ∧ s.pc t = .user a ∧ C.act t a s.shared o = some (b, x) ∧
      s'.pc = Function.update s.pc t (.user b) ∧ s'.shared = x ∧ s'.mutex = s.mutex) ∨
    (s'.shared = s.shared ∧ ∃ p, s'.pc = Function.update s.pc l.thread p ∧
      (s.pc l.thread).Progress C green s.mutex l.thread p ∧ p.Called C) := by
  have hsame : ∀ t : τ, s.pc = Function.update s.pc t (s.pc t) :=
    fun t => (Function.update_eq_self t s.pc).symm
  cases h with
  | act hpc hact => exact .inl ⟨_, _, _, _, _, rfl, hpc, hact, rfl, rfl, rfl⟩
  | native hpc hcall hg hret =>
    refine .inr ⟨rfl, _, rfl,
      .inr ⟨_, _, by simp [Label.thread, hpc, PC.at], hcall, .inr ⟨_, ?_, fun e he => ?_, rfl⟩⟩,
      trivial⟩
    · cases hret <;> trivial
    · cases hret <;> cases he
  | lockFree hpc hcall | tryOwned hpc hcall | tryFree hpc hcall | tryBusy hpc hcall
  | unlockFree hpc hcall | unlockHanded hpc hcall | notifyNobody hpc hcall =>
    exact .inr ⟨rfl, _, rfl, .inr ⟨_, _, by simp [Label.thread, hpc, PC.at], hcall,
      .inr ⟨_, by trivial, fun e he => (by cases he), rfl⟩⟩, trivial⟩
  | lockThrew hpc hcall hg hthrows | unlockThrew hpc hcall hg hthrows =>
    exact .inr ⟨rfl, _, rfl, .inr ⟨_, _, by simp [Label.thread, hpc, PC.at], hcall,
      .inr ⟨_, by trivial, fun _ _ => ⟨hpc, hg, hthrows⟩, rfl⟩⟩, trivial⟩
  | lockQueued hpc hcall =>
    exact .inr ⟨rfl, _, rfl,
      .inr ⟨_, _, by simp [Label.thread, hpc, PC.at], hcall, .inl ⟨rfl, by simp⟩⟩, hcall⟩
  | unlockYield hpc hcall =>
    exact .inr ⟨rfl, _, rfl,
      .inr ⟨_, _, by simp [Label.thread, hpc, PC.at], hcall, .inl ⟨rfl, by simp⟩⟩,
      ⟨_, hcall, trivial⟩⟩
  | @waitThrew t a w _ hpc hcall hg hthrows =>
    exact .inr ⟨rfl, _, rfl, .inr ⟨_, _, by simp [Label.thread, hpc, PC.at], hcall,
      .inr ⟨_, WaitCall.gives_threw _ _, fun _ _ => ⟨hpc, hg, WaitCall.throws w hthrows⟩, rfl⟩⟩,
      trivial⟩
  | @waitQueued t a w _ hpc hcall =>
    obtain ⟨-, hshared, heq⟩ := startWait_effect s t a w
    exact .inr ⟨hshared, _, heq,
      .inr ⟨_, _, by simp [Label.thread, hpc, PC.at], hcall, .inl ⟨rfl, by simp⟩⟩, hcall⟩
  | @notifyOne t a c i rest _ hpc hcall hqueue =>
    obtain ⟨-, hshared, -⟩ := notifyEnd_effect C green ((s.setCond c rest).wakeItem i) t a
    refine .inr ⟨?_, notifyEnd_progress ?_ hpc hcall trivial trivial⟩
    · rw [hshared, wakeItem_shared, State.setCond]
    · rw [wakeItem_pc, State.setCond]
  | @notifyAll t a c _ hpc hcall =>
    obtain ⟨-, hshared, -⟩ := notifyEnd_effect C green (Machine.notifyLoop c (s.cond c) s) t a
    refine .inr ⟨?_, notifyEnd_progress ?_ hpc hcall trivial trivial⟩
    · rw [hshared, notifyLoop_shared]
    · rw [notifyLoop_pc]
  | @releaseFree t a w _ hpc | @releaseHanded t a w _ _ hpc | @releaseYield t a w _ _ hpc
  | @relockQueued t a w _ _ hpc =>
    have hcall : C.call a = some (WaitCall.call w) := by simpa [PC.Called, hpc] using hcalled t
    exact .inr ⟨rfl, _, rfl,
      .inr ⟨_, _, by simp [Label.thread, hpc, PC.at], hcall, .inl ⟨rfl, by simp⟩⟩, hcall⟩
  | @relockFree t a w _ hpc =>
    have hcall : C.call a = some (WaitCall.call w) := by simpa [PC.Called, hpc] using hcalled t
    exact .inr ⟨rfl, _, rfl, .inr ⟨_, _, by simp [Label.thread, hpc, PC.at], hcall,
      .inr ⟨_, WaitCall.gives_waitRet s t w, WaitCall.waitRet_returns s t w, rfl⟩⟩, trivial⟩
  | @deliver t => exact .inr ⟨rfl, _, hsame t, .inl rfl, hcalled t⟩
  | @wake t p hdelivered hp =>
    have hcall := hcalled t
    refine .inr ⟨rfl, p, rfl, ?_⟩
    cases switched hp with
    | @locked m a hpc =>
      rw [hpc] at hcall
      exact ⟨.inr ⟨a, _, by simp [Label.thread, hpc, PC.at], hcall,
        .inr ⟨_, by trivial, fun e he => (by cases he), rfl⟩⟩, trivial⟩
    | @yielded a hpc =>
      rw [hpc] at hcall
      obtain ⟨call, hcall, hyields⟩ := hcall
      refine ⟨.inr ⟨a, call, by simp [Label.thread, hpc, PC.at], hcall,
        .inr ⟨_, ?_, fun e he => (by cases he), rfl⟩⟩, trivial⟩
      cases call <;> trivial
    | @unlocked w a hpc | @resumed w a hpc =>
      rw [hpc] at hcall
      exact ⟨.inr ⟨a, _, by simp [Label.thread, hpc, PC.at], hcall, .inl ⟨rfl, by simp⟩⟩, hcall⟩
    | @relocked w a hpc =>
      rw [hpc] at hcall
      exact ⟨.inr ⟨a, _, by simp [Label.thread, hpc, PC.at], hcall,
        .inr ⟨_, WaitCall.gives_waitRet s t w, WaitCall.waitRet_returns s t w, rfl⟩⟩, trivial⟩
  | @expire t | @aborted t | @timeout t => exact .inr ⟨rfl, _, hsame t, .inl rfl, hcalled t⟩

theorem Move.called (h : Move C green s l s') (hcalled : ∀ t, (s.pc t).Called C) (t : τ) :
    (s'.pc t).Called C := by
  rcases h.effect hcalled with ⟨u, o, a, b, x, -, -, -, hpc, -, -⟩ | ⟨-, p, hpc, -, hp⟩
  · rw [hpc]
    by_cases htu : t = u
    · rw [htu, Function.update_self]
      trivial
    · rw [Function.update_of_ne htu]
      exact hcalled t
  · rw [hpc]
    by_cases htl : t = l.thread
    · rwa [htl, Function.update_self]
    · rw [Function.update_of_ne htl]
      exact hcalled t

theorem reach_called {start : τ → α} {data : σ} {ok : State τ μ κ α σ → Label τ ω → Prop}
    (h : (system C green start data).Reach ok s) (t : τ) : (s.pc t).Called C := by
  refine h.invariant (I := fun s => ∀ t, (s.pc t).Called C) (fun s hs t => ?_)
    (fun s l s' hr hcalled _ hstep => (step_move (reach_inv hr) hstep).called hcalled) t
  cases hs
  trivial

/-! ### What a step leaves alone -/

theorem Move.owner_ne (h : Move C green s l s') {u : τ} (hu : u ≠ l.thread) {m : μ}
    (hown : (s.mutex m).owner = some u) : (s'.mutex m).owner = some u := by
  have hset : ∀ (m' : μ) (x : Mutex τ), (m = m' → x.owner = some u) →
      ((s.setMutex m' x).mutex m).owner = some u := by
    intro m' x hx
    by_cases hm : m = m'
    · subst hm
      simpa using hx rfl
    · simpa [hm] using hown
  cases h with
  | act | native | lockThrew | tryOwned | tryBusy | unlockThrew | waitThrew | notifyNobody
  | deliver | wake | expire | aborted | timeout => exact hown
  | lockFree _ _ _ hfree | tryFree _ _ _ hfree | relockFree _ hfree =>
    exact hset _ _ fun hm => absurd (hm ▸ hown) (by simp [hfree])
  | lockQueued | relockQueued =>
    exact hset _ _ fun hm => by simpa [hm] using hown
  | unlockFree _ _ _ hmine | unlockHanded _ _ _ hmine | unlockYield _ _ _ hmine
  | releaseFree _ hmine
  | releaseHanded _ hmine | releaseYield _ hmine =>
    refine hset _ _ fun hm => ?_
    rw [hm, hmine, Option.some.injEq] at hown
    exact absurd hown.symm hu
  | @waitQueued t a w => rwa [(startWait_effect s t a w).1]
  | @notifyOne t a c i rest =>
    rw [(notifyEnd_effect C green _ t a).1, wakeItem_mutex]
    exact hown
  | @notifyAll t a c =>
    rw [(notifyEnd_effect C green _ t a).1, notifyLoop_mutex]
    exact hown

theorem Move.pc_ne (h : Move C green s l s') (hcalled : ∀ t, (s.pc t).Called C) {u : τ}
    (hu : u ≠ l.thread) : s'.pc u = s.pc u := by
  rcases h.effect hcalled with ⟨t, o, a, b, x, rfl, -, -, hpc, -, -⟩ | ⟨-, p, hpc, -, -⟩
  · rw [hpc]
    exact Function.update_of_ne hu _ _
  · rw [hpc]
    exact Function.update_of_ne hu _ _

/-- A step of the system is a step of the client, or goes on in a primitive, or returns from one. -/
theorem reach_cases {start : τ → α} {data : σ} {ok : State τ μ κ α σ → Label τ ω → Prop}
    (hr : (system C green start data).Reach ok s)
    (hstep : (system C green start data).step s l = some s') :
    (∃ t o a b, l = .act t o ∧ s.pc t = .user a ∧ C.act t a s.shared o = some (b, s'.shared) ∧
      s'.pc = Function.update s.pc t (.user b) ∧ s'.cond = s.cond) ∨
    ((∀ t o, l ≠ .act t o) ∧ s'.shared = s.shared ∧ (∀ u, u ≠ l.thread → s'.pc u = s.pc u) ∧
      (s.pc l.thread).Progress C green s.mutex l.thread (s'.pc l.thread)) := by
  have hmove := step_move (reach_inv hr) hstep
  cases l with
  | act t o =>
    cases hmove with
    | act hpc hact => exact .inl ⟨t, o, _, _, rfl, hpc, hact, rfl, rfl⟩
  | _ =>
    rcases hmove.effect (reach_called hr) with ⟨t, o, a, b, x, hl, -⟩ |
      ⟨hshared, p, hpc, hprogress, -⟩
    · cases hl
    · refine .inr ⟨fun _ _ => nofun, hshared, fun u hu => ?_, ?_⟩
      · rw [hpc, Function.update_of_ne hu]
      · rw [hpc, Function.update_self]
        exact hprogress

/-! ### Lock discipline -/

end Machine

/-- The call takes the mutex when it gives this result. -/
def Call.Acquires : Call μ κ → Ret → μ → Prop
  | .lock m, .done, m' | .tryLock m, .bool true, m' => m' = m
  | _, _, _ => False

/-- `held a m` may be claimed of a position `a` only when the client has taken `m` on the way to
it. -/
structure Disciplined (C : Client τ μ κ α σ ω) (held : α → μ → Prop) : Prop where
  act : ∀ {t a x o b y m}, C.act t a x o = some (b, y) → held b m → held a m
  ret : ∀ {a call r m}, C.call a = some call → call.Gives r → held (C.ret a r) m →
    held a m ∨ call.Acquires r m
  released : ∀ {a m}, C.call a = some (.unlock m) → ¬ held (C.ret a .done) m

/-- The mutexes a thread counts on at its position. Inside a wait it does not count on the mutex of
the wait, and in the pause of `lock` not on that mutex. -/
def PC.Expects (C : Client τ μ κ α σ ω) (held : α → μ → Prop) : PC μ κ α → μ → Prop
  | .user a, m => held a m
  | .locking m' a, m => m ≠ m' ∧ held (C.ret a .done) m
  | .yielding a, m => held (C.ret a .done) m
  | .unlocking w a, m | .unlockYield w a, m | .pausing w a, m | .relocking w a, m
  | .relockPause w a, m =>
    m ≠ w.mtx ∧ ∃ r, (Machine.WaitCall.call w).Gives r ∧ held (C.ret a r) m
  | .terminated, _ => False

namespace Machine

variable [DecidableEq τ] [DecidableEq μ] [DecidableEq κ]
variable {C : Client τ μ κ α σ ω} {green : τ → Bool} {s s' : State τ μ κ α σ} {l : Label τ ω}
variable {held : α → μ → Prop}

section

omit [DecidableEq μ] [DecidableEq κ]

theorem WaitCall.not_acquires (w : WaitCall μ κ) (r : Ret) (m : μ) :
    ¬ (WaitCall.call w).Acquires r m := by
  obtain ⟨c, m', timed⟩ := w
  cases timed <;> exact not_false

/-- A thread with an activation in the pause of a contended `lock` owns the mutex. -/
private theorem owns_of_contends {t : τ} {m : μ} (hcontends : (s.view t).Contends m)
    (hdelivered : s.delivered t ≠ 0) :
    (s.mutex m).owner = some t := by
  obtain ⟨-, ⟨-, hzero⟩ | ⟨-, hown, -⟩⟩ := hcontends
  · simp only [State.view, State.pending] at hzero
    omega
  · exact hown

theorem Inv.owns_of_wake (h : Inv green s) {t : τ} {m : μ} {a : α} (hpc : s.pc t = .locking m a)
    (hdelivered : s.delivered t ≠ 0) : (s.mutex m).owner = some t := by
  have hthread := h.thread t
  simp only [View.Ok, State.view, hpc] at hthread
  exact owns_of_contends (by simpa only [State.view, hpc] using hthread.1) hdelivered

theorem Inv.owns_of_rewake (h : Inv green s) {t : τ} {w : WaitCall μ κ} {a : α}
    (hpc : s.pc t = .relockPause w a) (hdelivered : s.delivered t ≠ 0) :
    (s.mutex w.mtx).owner = some t := by
  have hthread := h.thread t
  simp only [View.Ok, State.view, hpc] at hthread
  exact owns_of_contends (by simpa only [State.view, hpc] using hthread.1) hdelivered

end

omit [DecidableEq τ] [DecidableEq κ] in
private theorem setMutex_owner_ne {m m' : μ} (hm : m' ≠ m) (x : Mutex τ) {t : τ}
    (hown : (s.mutex m').owner = some t) : ((s.setMutex m x).mutex m').owner = some t := by
  rwa [State.setMutex_mutex_ne s hm]

omit [DecidableEq μ] [DecidableEq κ] in
private theorem notifyEnd_expects {mid : State τ μ κ α σ} {t : τ} {a : α} {m : μ}
    (hexp : ((notifyEnd C green mid t a).pc t).Expects C held m) : held (C.ret a .done) m := by
  obtain ⟨-, -, p, heq, hp⟩ := notifyEnd_effect C green mid t a
  rw [heq, Function.update_self] at hexp
  rcases hp with rfl | rfl <;> exact hexp

theorem Move.expects (h : Move C green s l s') (hinv : Inv green s) (hdisc : Disciplined C held)
    (hg : green l.thread = true)
    (hexp : ∀ m, (s.pc l.thread).Expects C held m → (s.mutex m).owner = some l.thread) (m : μ)
    (hexp' : (s'.pc l.thread).Expects C held m) : (s'.mutex m).owner = some l.thread := by
  -- a call that does not give the mutex to the thread leaves what it held
  have hkept : ∀ {a call r}, s.pc l.thread = .user a → C.call a = some call → call.Gives r →
      held (C.ret a r) m → ¬ call.Acquires r m → (s.mutex m).owner = some l.thread := by
    intro a call r hpc hcall hgives hheld hnot
    rcases hdisc.ret hcall hgives hheld with hold | hnew
    · exact hexp m (by rwa [hpc])
    · exact absurd hnew hnot
  cases h with
  | act hpc hact =>
    simp only [Label.thread, State.setPc, Function.update_self] at hexp'
    refine hexp m ?_
    rw [Label.thread, hpc]
    exact hdisc.act hact hexp'
  | native _ _ hnative => exact absurd hg (by simp [Label.thread, hnative])
  | lockThrew hpc hcall | unlockThrew hpc hcall | notifyNobody hpc hcall =>
    simp only [Label.thread, State.setPc, Function.update_self] at hexp'
    exact hkept hpc hcall (by trivial) hexp' not_false
  | waitThrew hpc hcall =>
    simp only [Label.thread, State.setPc, Function.update_self] at hexp'
    exact hkept hpc hcall (WaitCall.gives_threw _ _) hexp' (WaitCall.not_acquires _ _ _)
  | @tryBusy _ _ m' _ _ hpc hcall =>
    simp only [Label.thread, State.setPc, Function.update_self] at hexp'
    exact hkept hpc hcall (by trivial) hexp' not_false
  | @tryOwned _ _ m' _ hpc hcall _ hown =>
    simp only [Label.thread, State.setPc, Function.update_self] at hexp'
    by_cases hm : m = m'
    · subst hm
      exact hown
    · exact hkept hpc hcall (by trivial) hexp' hm
  | @lockFree _ _ m' _ hpc hcall | @tryFree _ _ m' _ hpc hcall =>
    simp only [Label.thread, State.setPc, Function.update_self] at hexp'
    by_cases hm : m = m'
    · subst hm
      simp [State.setPc, Label.thread]
    · exact setMutex_owner_ne hm _ (hkept hpc hcall (by trivial) hexp' hm)
  | @lockQueued _ _ m' _ _ hpc hcall =>
    simp only [Label.thread, State.setPc, Function.update_self] at hexp'
    exact setMutex_owner_ne hexp'.1 _ (hkept hpc hcall (by trivial) hexp'.2 hexp'.1)
  | @unlockFree _ _ m' _ hpc hcall | @unlockHanded _ _ m' _ _ hpc hcall
  | @unlockYield _ _ m' _ _ hpc hcall =>
    simp only [Label.thread, State.setPc, State.yieldTo, Function.update_self] at hexp'
    have hm : m ≠ m' := fun hm => hdisc.released hcall (hm ▸ hexp')
    exact setMutex_owner_ne hm _ (hkept hpc hcall (by trivial) hexp' not_false)
  | @waitQueued t a w _ hpc hcall =>
    obtain ⟨hmutex, -, heq⟩ := startWait_effect s t a w
    simp only [Label.thread, heq, Function.update_self] at hexp'
    obtain ⟨-, r, hgives, hheld⟩ := hexp'
    rw [hmutex]
    exact hkept hpc hcall hgives hheld (WaitCall.not_acquires _ _ _)
  | @notifyOne t a c i rest _ hpc hcall =>
    have hheld := notifyEnd_expects hexp'
    rw [(notifyEnd_effect C green _ t a).1, wakeItem_mutex]
    exact hkept hpc hcall (by trivial) hheld not_false
  | @notifyAll t a c _ hpc hcall =>
    have hheld := notifyEnd_expects hexp'
    rw [(notifyEnd_effect C green _ t a).1, notifyLoop_mutex]
    exact hkept hpc hcall (by trivial) hheld not_false
  | @releaseFree t a w _ hpc | @releaseHanded t a w _ _ hpc | @releaseYield t a w _ _ hpc
  | @relockQueued t a w _ _ hpc =>
    simp only [Label.thread, State.setPc, State.yieldTo, Function.update_self] at hexp'
    refine setMutex_owner_ne hexp'.1 _ (hexp m ?_)
    rw [Label.thread, hpc]
    exact hexp'
  | @relockFree t a w _ hpc =>
    simp only [Label.thread, State.setPc, Function.update_self] at hexp'
    by_cases hm : m = w.mtx
    · subst hm
      simp [State.setPc, Label.thread]
    · refine setMutex_owner_ne hm _ (hexp m ?_)
      rw [Label.thread, hpc]
      exact ⟨hm, _, WaitCall.gives_waitRet s t w, hexp'⟩
  | deliver | expire | aborted | timeout => exact hexp m hexp'
  | @wake t p hdelivered hp =>
    simp only [Label.thread, State.setPc, Function.update_self] at hexp'
    change (s.mutex m).owner = some t
    have hexpt : ∀ m, (s.pc t).Expects C held m → (s.mutex m).owner = some t := hexp
    cases switched hp with
    | @locked m' a hpc =>
      by_cases hm : m = m'
      · subst hm
        exact hinv.owns_of_wake hpc hdelivered
      · exact hexpt m (by rw [hpc]; exact ⟨hm, hexp'⟩)
    | yielded hpc | unlocked hpc | resumed hpc => exact hexpt m (by rw [hpc]; exact hexp')
    | @relocked w a hpc =>
      by_cases hm : m = w.mtx
      · subst hm
        exact hinv.owns_of_rewake hpc hdelivered
      · exact hexpt m (by rw [hpc]; exact ⟨hm, _, WaitCall.gives_waitRet s t w, hexp'⟩)

/-- A green thread owns the mutexes its position counts on, in every reachable state. -/
theorem reach_expects (hdisc : Disciplined C held) {start : τ → α} {data : σ}
    (hstart : ∀ t m, ¬ held (start t) m) {ok : State τ μ κ α σ → Label τ ω → Prop}
    (h : (system C green start data).Reach ok s) {t : τ} (hg : green t = true) {m : μ}
    (hexp : (s.pc t).Expects C held m) : (s.mutex m).owner = some t := by
  refine h.invariant (I := fun s => ∀ t m, green t = true → (s.pc t).Expects C held m →
    (s.mutex m).owner = some t) (fun s hs t m _ hexp => ?_)
    (fun s l s' hr hown _ hstep t m hg hexp => ?_) t m hg hexp
  · cases hs
    exact absurd hexp (hstart t m)
  · have hmove := step_move (reach_inv hr) hstep
    by_cases ht : t = l.thread
    · subst ht
      exact hmove.expects (reach_inv hr) hdisc hg (fun m => hown _ m hg) m hexp
    · rw [hmove.pc_ne (reach_called hr) ht] at hexp
      exact hmove.owner_ne ht (hown t m hg hexp)

/-- Two green threads at positions that hold one mutex are one thread. -/
theorem reach_exclusive (hdisc : Disciplined C held) {start : τ → α} {data : σ}
    (hstart : ∀ t m, ¬ held (start t) m) {ok : State τ μ κ α σ → Label τ ω → Prop}
    (h : (system C green start data).Reach ok s) {t u : τ} {a b : α} {m : μ} (ht : green t = true)
    (hu : green u = true) (hpct : s.pc t = .user a) (hpcu : s.pc u = .user b) (ha : held a m)
    (hb : held b m) : t = u := by
  have hown := reach_expects hdisc hstart h ht (m := m) (by rw [hpct]; exact ha)
  have hown' := reach_expects hdisc hstart h hu (m := m) (by rw [hpcu]; exact hb)
  exact Option.some.inj (hown.symm.trans hown')

/-! ### Clients whose calls never throw -/

end Machine

/-- The client also keeps what it holds until it unlocks it, locks only what it does not hold, and
unlocks and waits only with what it holds. -/
structure Safe (C : Client τ μ κ α σ ω) (held : α → μ → Prop) :
    Prop extends Disciplined C held where
  keeps : ∀ {t a x o b y m}, C.act t a x o = some (b, y) → held a m → held b m
  keepsRet : ∀ {a call r m}, C.call a = some call → call.Gives r → (∀ e, r ≠ .threw e) → held a m →
    held (C.ret a r) m ∨ call = .unlock m
  takes : ∀ {a call r m}, C.call a = some call → call.Acquires r m → held (C.ret a r) m
  lock_ok : ∀ {a m}, C.call a = some (.lock m) → ¬ held a m
  unlock_ok : ∀ {a m}, C.call a = some (.unlock m) → held a m
  wait_ok : ∀ {a w}, C.call a = some (Machine.WaitCall.call w) → held a w.mtx

/-- A client with one mutex, which it has from the return of its `lock` to its `unlock`. -/
structure Scoped (C : Client τ Unit κ α σ ω) (holds : α → Bool) : Prop where
  act : ∀ {t a x o b y}, C.act t a x o = some (b, y) → holds b = holds a
  lock : ∀ {a}, C.call a = some (.lock ()) → holds a = false
  inside : ∀ {a call}, C.call a = some call → call ≠ .lock () → holds a = true
  ret : ∀ {a call r}, C.call a = some call → (∀ e, r ≠ .threw e) → call ≠ .unlock () →
    holds (C.ret a r) = true
  unlock : ∀ {a}, C.call a = some (.unlock ()) → holds (C.ret a .done) = false
  threw : ∀ {a e}, holds (C.ret a (.threw e)) = false

theorem Scoped.safe {C : Client τ Unit κ α σ ω} {holds : α → Bool} (h : Scoped C holds) :
    Safe C fun a _ => holds a = true where
  act := fun hact hb => (h.act hact).symm.trans hb
  ret := by
    intro a call r m hcall hgives hb
    by_cases hlock : call = .lock ()
    · subst hlock
      cases r with
      | done => exact .inr rfl
      | threw e => cases h.threw.symm.trans hb
      | _ => exact hgives.elim
    · exact .inl (h.inside hcall hlock)
  released := fun hcall hheld => by cases (h.unlock hcall).symm.trans hheld
  keeps := fun hact ha => (h.act hact).trans ha
  keepsRet := by
    intro a call r m hcall hgives hret ha
    by_cases hunlock : call = .unlock ()
    · exact .inr hunlock
    · exact .inl (h.ret hcall hret hunlock)
  takes := by
    intro a call r m hcall hacq
    refine h.ret hcall ?_ ?_
    · rintro e rfl
      cases call <;> exact hacq
    · rintro rfl
      exact hacq
  lock_ok := fun hcall ha => by cases (h.lock hcall).symm.trans ha
  unlock_ok := fun hcall => h.inside hcall nofun
  wait_ok := by
    intro a w hcall
    refine h.inside hcall ?_
    obtain ⟨c, m, timed⟩ := w
    cases timed <;> exact nofun

/-- The mutexes a thread may own at its position. -/
def PC.MayOwn (C : Client τ μ κ α σ ω) (held : α → μ → Prop) : PC μ κ α → μ → Prop
  | .user a, m => held a m
  | .locking m' a, m => m = m' ∨ held a m
  | .yielding a, m => held a m ∧ C.call a ≠ some (.unlock m)
  | .unlocking _ a, m | .unlockYield _ a, m | .pausing _ a, m | .relocking _ a, m
  | .relockPause _ a, m =>
    held a m
  | .terminated, _ => False

namespace Machine

variable [DecidableEq τ] [DecidableEq μ] [DecidableEq κ]
variable {C : Client τ μ κ α σ ω} {green : τ → Bool} {s s' : State τ μ κ α σ} {l : Label τ ω}
variable {held : α → μ → Prop}

omit [DecidableEq τ] [DecidableEq μ] [DecidableEq κ] in
theorem Inv.locking_of_queued (h : Inv green s) {t : τ} {m : μ} (hmem : t ∈ (s.mutex m).suspended) :
    (∃ a, s.pc t = .locking m a) ∨ ∃ w a, s.pc t = .relockPause w a ∧ w.mtx = m := by
  have hthread := h.thread t
  cases hpc : s.pc t with
  | locking m' a =>
    simp only [View.Ok, State.view, hpc] at hthread
    exact .inl ⟨a, by rw [hthread.1.1 m hmem]⟩
  | relockPause w a =>
    simp only [View.Ok, State.view, hpc] at hthread
    exact .inr ⟨w, a, rfl, (hthread.1.1 m hmem).symm⟩
  | user | yielding | unlocking | unlockYield | pausing | relocking =>
    simp only [View.Ok, State.view, hpc] at hthread
    exact absurd hmem (hthread.1 m)
  | terminated =>
    simp only [View.Ok, State.view, hpc] at hthread

/-- A mutex a thread gets by the step of another was handed over to it. -/
theorem Move.queued_of_owner (h : Move C green s l s') {u : τ} (hu : u ≠ l.thread) {m : μ}
    (hown : (s'.mutex m).owner = some u) :
    (s.mutex m).owner = some u ∨ u ∈ (s.mutex m).suspended := by
  have hset : ∀ {m' : μ} {x : Mutex τ}, ((s.setMutex m' x).mutex m).owner = some u →
      (m = m' → x.owner = some u → (s.mutex m).owner = some u ∨ u ∈ (s.mutex m).suspended) →
      (s.mutex m).owner = some u ∨ u ∈ (s.mutex m).suspended := by
    intro m' x hown hx
    by_cases hm : m = m'
    · subst hm
      exact hx rfl (by simpa using hown)
    · exact .inl (by simpa [hm] using hown)
  cases h with
  | act | native | lockThrew | tryOwned | tryBusy | unlockThrew | waitThrew | notifyNobody
  | deliver | wake | expire | aborted | timeout => exact .inl hown
  | lockFree | tryFree | relockFree =>
    exact hset hown fun _ hself => absurd (Option.some.inj hself).symm hu
  | lockQueued | relockQueued => exact hset hown fun hm hsame => .inl (by rwa [hm])
  | unlockFree | releaseFree => exact hset hown fun _ hnone => by cases hnone
  | unlockHanded _ _ _ _ hqueue | unlockYield _ _ _ _ hqueue | releaseHanded _ _ hqueue
  | releaseYield _ _ hqueue =>
    refine hset hown fun hm hnext => .inr ?_
    rw [hm, hqueue, ← Option.some.inj hnext]
    exact List.mem_cons_self
  | @waitQueued t a w => exact .inl (by rwa [(startWait_effect s t a w).1] at hown)
  | @notifyOne t a c i rest =>
    rw [(notifyEnd_effect C green _ t a).1, wakeItem_mutex] at hown
    exact .inl hown
  | @notifyAll t a c =>
    rw [(notifyEnd_effect C green _ t a).1, notifyLoop_mutex] at hown
    exact .inl hown

omit [DecidableEq μ] [DecidableEq κ] in
private theorem notifyEnd_mayOwn (hsafe : Safe C held) {mid : State τ μ κ α σ} {t : τ} {a : α}
    {call : Call μ κ} {m : μ}
    (hcall : C.call a = some call) (hgives : call.Gives .done) (hunlock : call ≠ .unlock m)
    (hheld : held a m) :
    ((notifyEnd C green mid t a).pc t).MayOwn C held m := by
  obtain ⟨-, -, p, heq, hp⟩ := notifyEnd_effect C green mid t a
  rw [heq, Function.update_self]
  rcases hp with rfl | rfl
  · exact ⟨hheld, by simpa [hcall] using hunlock⟩
  · exact (hsafe.keepsRet hcall hgives (fun e he => by cases he) hheld).resolve_right hunlock

theorem Move.mayOwn (h : Move C green s l s') (hinv : Inv green s)
    (hcalled : ∀ t, (s.pc t).Called C) (hsafe : Safe C held)
    (hexp : ∀ m, (s.pc l.thread).Expects C held m → (s.mutex m).owner = some l.thread)
    (hown : ∀ m, (s.mutex m).owner = some l.thread → (s.pc l.thread).MayOwn C held m) (m : μ)
    (hown' : (s'.mutex m).owner = some l.thread) : (s'.pc l.thread).MayOwn C held m := by
  have hmay : ∀ {p m'}, s.pc l.thread = p → (s.mutex m').owner = some l.thread →
    p.MayOwn C held m' := by
    rintro p m' rfl
    exact hown m'
  -- what the thread held before its call it still holds after it, unless the call was the unlock
  have hkept : ∀ {a call r}, s.pc l.thread = .user a → C.call a = some call → call.Gives r →
      (∀ e, r ≠ .threw e) → call ≠ .unlock m → (s.mutex m).owner = some l.thread →
      held (C.ret a r) m := by
    intro a call r hpc hcall hgives hret hne hself
    exact (hsafe.keepsRet hcall hgives hret (hmay hpc hself)).resolve_right hne
  have hsame : ∀ {m' : μ} {x : Mutex τ}, ((s.setMutex m' x).mutex m).owner = some l.thread →
      m ≠ m' → (s.mutex m).owner = some l.thread := by
    intro m' x hself hm
    rwa [State.setMutex_mutex_ne s hm] at hself
  -- a mutex that was unlocked or handed over is not the thread's
  have hgone : ∀ {m' : μ} {x : Mutex τ}, ((s.setMutex m' x).mutex m).owner = some l.thread →
      x.owner ≠ some l.thread → m ≠ m' := by
    rintro m' x hself hx rfl
    rw [State.setMutex_mutex_self] at hself
    exact hx hself
  have hdone : ∀ e, Ret.done ≠ .threw e := fun e he => by cases he
  have hwaitRet : ∀ t w e, s.waitRet t w ≠ .threw e :=
    fun t w e he => WaitCall.waitRet_returns s t w e he
  have hwaitCall : ∀ w : WaitCall μ κ, WaitCall.call w ≠ .unlock m := by
    rintro ⟨c, m', timed⟩
    cases timed <;> simp [WaitCall.call]
  cases h with
  | act hpc hact =>
    simp only [Label.thread, State.setPc, Function.update_self]
    exact hsafe.keeps hact (hmay hpc hown')
  | native _ _ hnative =>
    exact absurd (hinv.owner m _ hown') (by simp [Label.thread, hnative])
  | lockThrew hpc hcall _ hself => exact absurd (hmay hpc hself) (hsafe.lock_ok hcall)
  | unlockThrew hpc hcall _ hnot =>
    have hexp' := hexp _ (by rw [Label.thread, hpc]; exact hsafe.unlock_ok hcall)
    exact absurd hexp' hnot
  | waitThrew hpc hcall _ hnot =>
    have hexp' := hexp _ (by rw [Label.thread, hpc]; exact hsafe.wait_ok hcall)
    exact absurd hexp' hnot
  | @lockFree _ _ m' _ hpc hcall | @tryFree _ _ m' _ hpc hcall =>
    simp only [Label.thread, State.setPc, Function.update_self]
    by_cases hm : m = m'
    · exact hsafe.takes hcall hm
    · exact hkept hpc hcall (by trivial) (by simp) (by simp) (hsame hown' hm)
  | @lockQueued _ _ m' _ _ hpc hcall =>
    simp only [Label.thread, State.setPc, Function.update_self]
    by_cases hm : m = m'
    · exact .inl hm
    · exact .inr (hmay hpc (hsame hown' hm))
  | tryOwned hpc hcall | tryBusy hpc hcall | notifyNobody hpc hcall =>
    simp only [Label.thread, State.setPc, Function.update_self]
    exact hkept hpc hcall (by trivial) (by simp) (by simp) hown'
  | @unlockFree _ _ m' _ hpc hcall _ hself =>
    simp only [Label.thread, State.setPc, Function.update_self]
    have hm : m ≠ m' := hgone hown' (by simp)
    exact hkept hpc hcall (by trivial) hdone (by simp [Ne.symm hm]) (hsame hown' hm)
  | @unlockHanded _ _ m' _ _ hpc hcall _ hself hqueue =>
    simp only [Label.thread, State.setPc, Function.update_self]
    have hm : m ≠ m' := hgone hown' fun heq =>
      (hinv.mutex _).next_ne hself hqueue (Option.some.inj heq)
    exact hkept hpc hcall (by trivial) hdone (by simp [Ne.symm hm]) (hsame hown' hm)
  | @unlockYield _ _ m' _ _ hpc hcall _ hself hqueue =>
    simp only [Label.thread, State.yieldTo, State.setPc, Function.update_self]
    have hm : m ≠ m' := hgone hown' fun heq =>
      (hinv.mutex _).next_ne hself hqueue (Option.some.inj heq)
    exact ⟨hmay hpc (hsame hown' hm), by rw [hcall]; simp [Ne.symm hm]⟩
  | @waitQueued t a w _ hpc =>
    obtain ⟨hmutex, -, heq⟩ := startWait_effect s t a w
    rw [hmutex] at hown'
    simp only [Label.thread, heq, Function.update_self]
    have hheld := hmay hpc hown'
    exact hheld
  | @notifyOne t a c i rest _ hpc hcall =>
    rw [(notifyEnd_effect C green _ t a).1, wakeItem_mutex] at hown'
    exact notifyEnd_mayOwn hsafe hcall trivial (by simp) (hmay hpc hown')
  | @notifyAll t a c _ hpc hcall =>
    rw [(notifyEnd_effect C green _ t a).1, notifyLoop_mutex] at hown'
    exact notifyEnd_mayOwn hsafe hcall trivial (by simp) (hmay hpc hown')
  | releaseFree hpc =>
    simp only [Label.thread, State.setPc, Function.update_self]
    have hheld := hmay hpc (hsame hown' (hgone hown' (by simp)))
    exact hheld
  | releaseHanded hpc hself hqueue | releaseYield hpc hself hqueue =>
    simp only [Label.thread, State.yieldTo, State.setPc, Function.update_self]
    have hm := hgone hown' fun heq => (hinv.mutex _).next_ne hself hqueue (Option.some.inj heq)
    have hheld := hmay hpc (hsame hown' hm)
    exact hheld
  | @relockFree t a w _ hpc =>
    have hcall : C.call a = some (WaitCall.call w) := by simpa [PC.Called, hpc] using hcalled t
    simp only [Label.thread, State.setPc, Function.update_self]
    refine (hsafe.keepsRet hcall (WaitCall.gives_waitRet s t w) (hwaitRet t w) ?_).resolve_right
      (hwaitCall w)
    by_cases hm : m = w.mtx
    · rw [hm]
      exact hsafe.wait_ok hcall
    · exact hmay hpc (hsame hown' hm)
  | @relockQueued t a w _ _ hpc =>
    have hcall : C.call a = some (WaitCall.call w) := by simpa [PC.Called, hpc] using hcalled t
    simp only [Label.thread, State.setPc, Function.update_self]
    by_cases hm : m = w.mtx
    · rw [hm]
      exact hsafe.wait_ok hcall
    · have hheld := hmay hpc (hsame hown' hm)
      exact hheld
  | deliver | expire | aborted | timeout => exact hown m hown'
  | @wake t p hdelivered hp =>
    simp only [Label.thread, State.setPc, Function.update_self]
    have hheld : (s.pc t).MayOwn C held m := hown m hown'
    have hcall := hcalled t
    cases switched hp with
    | locked hpc =>
      rw [hpc] at hheld hcall
      rcases hheld with rfl | hheld
      · exact hsafe.takes hcall rfl
      · exact (hsafe.keepsRet hcall (by trivial) hdone hheld).resolve_right (by simp)
    | yielded hpc =>
      rw [hpc] at hheld hcall
      obtain ⟨call, hcall, hyields⟩ := hcall
      refine (hsafe.keepsRet hcall ?_ hdone hheld.1).resolve_right fun heq => hheld.2 (heq ▸ hcall)
      cases call <;> trivial
    | unlocked hpc | resumed hpc => rwa [hpc] at hheld
    | @relocked w a hpc =>
      rw [hpc] at hheld hcall
      exact (hsafe.keepsRet hcall (WaitCall.gives_waitRet s t w) (hwaitRet t w) hheld).resolve_right
        (hwaitCall w)

/-- A thread owns only mutexes it may own at its position, in every reachable state. -/
theorem reach_mayOwn (hsafe : Safe C held) {start : τ → α} {data : σ}
    (hstart : ∀ t m, ¬ held (start t) m)
    {ok : State τ μ κ α σ → Label τ ω → Prop} (h : (system C green start data).Reach ok s)
    {t : τ} {m : μ} (hown : (s.mutex m).owner = some t) : (s.pc t).MayOwn C held m := by
  refine h.invariant (I := fun s => ∀ t m, (s.mutex m).owner = some t → (s.pc t).MayOwn C held m)
    (fun s hs t m hown => ?_) (fun s l s' hr hmay _ hstep t m hown => ?_) t m hown
  · cases hs
    cases hown
  · have hinv := reach_inv hr
    have hcalled := reach_called hr
    have hmove := step_move hinv hstep
    by_cases ht : t = l.thread
    · subst ht
      by_cases hg : green l.thread = true
      · exact hmove.mayOwn hinv hcalled hsafe
          (fun m => reach_expects hsafe.toDisciplined hstart hr hg) (fun m => hmay _ m) m hown
      · exact absurd ((step_inv hinv hstep).owner m _ hown) hg
    · rw [hmove.pc_ne hcalled ht]
      rcases hmove.queued_of_owner ht hown with hold | hqueued
      · exact hmay t m hold
      · have hcall := hcalled t
        rcases hinv.locking_of_queued hqueued with ⟨a, hpc⟩ | ⟨w, a, hpc, rfl⟩
        · rw [hpc]
          exact .inl rfl
        · rw [hpc] at hcall ⊢
          exact hsafe.wait_ok hcall

/-- The calls of a safe client do not throw. -/
theorem reach_not_throws (hsafe : Safe C held) {start : τ → α} {data : σ}
    (hstart : ∀ t m, ¬ held (start t) m)
    {ok : State τ μ κ α σ → Label τ ω → Prop} (h : (system C green start data).Reach ok s) {t : τ}
    (hg : green t = true) {a : α} (hpc : s.pc t = .user a) {call : Call μ κ}
    (hcall : C.call a = some call) :
    ¬ call.Throws s.mutex t := by
  have hexp : ∀ m, held a m → (s.mutex m).owner = some t := fun m hheld =>
    reach_expects hsafe.toDisciplined hstart h hg (by rw [hpc]; exact hheld)
  intro hthrows
  cases call with
  | lock m =>
    have hmay := reach_mayOwn hsafe hstart h hthrows
    rw [hpc] at hmay
    exact hsafe.lock_ok hcall hmay
  | unlock m => exact hthrows (hexp m (hsafe.unlock_ok hcall))
  | wait c m => exact hthrows (hexp m (hsafe.wait_ok (w := ⟨c, m, false⟩) hcall))
  | waitRel c m => exact hthrows (hexp m (hsafe.wait_ok (w := ⟨c, m, true⟩) hcall))
  | tryLock | notifyOne | notifyAll => exact hthrows

theorem reach_returns (hsafe : Safe C held) {start : τ → α} {data : σ}
    (hstart : ∀ t m, ¬ held (start t) m)
    {ok : State τ μ κ α σ → Label τ ω → Prop} (h : (system C green start data).Reach ok s) {t : τ}
    {p : PC μ κ α} (hprogress : (s.pc t).Progress C green s.mutex t p) :
    p = s.pc t ∨ ∃ a call, (s.pc t).at = some a ∧ C.call a = some call ∧
      (p.Inside a ∨ ∃ r, call.Gives r ∧ (∀ e, r ≠ .threw e) ∧ p = .user (C.ret a r)) := by
  refine hprogress.imp_right fun ⟨a, call, hat, hcall, hnext⟩ => ⟨a, call, hat, hcall, ?_⟩
  refine hnext.imp_right fun ⟨r, hgives, hthrew, hp⟩ => ⟨r, hgives, fun e he => ?_, hp⟩
  obtain ⟨hpc, hg, hthrows⟩ := hthrew e he
  exact reach_not_throws hsafe hstart h hg hpc hcall hthrows

/-- Where a thread is in the client. -/
def place (s : State τ μ κ α σ) (t : τ) : Option α := (s.pc t).at

omit [DecidableEq τ] [DecidableEq μ] [DecidableEq κ] in
theorem place_of_user {t : τ} {a : α} (hpc : s.pc t = .user a) : place s t = some a := by
  rw [place, hpc]
  rfl

omit [DecidableEq μ] [DecidableEq κ] in
theorem place_update {t : τ} {p : PC μ κ α} (hpc : s'.pc = Function.update s.pc t p) :
    place s' = Function.update (place s) t p.at := by
  funext u
  unfold place
  rw [hpc]
  by_cases hu : u = t
  · subst hu
    rw [Function.update_self, Function.update_self]
  · rw [Function.update_of_ne hu, Function.update_of_ne hu]

theorem of_update {β : Type} {f : τ → β} {t u : τ} {a b : β} (hu : Function.update f t a u = b) :
    (u = t ∧ b = a) ∨ (u ≠ t ∧ f u = b) := by
  by_cases hut : u = t
  · rw [hut, Function.update_self] at hu
    exact .inl ⟨hut, hu.symm⟩
  · rw [Function.update_of_ne hut] at hu
    exact .inr ⟨hut, hu⟩

theorem place_of_update {places : τ → Option α} {t u : τ} {a b : α}
    (hu : Function.update places t (some a) u = some b) :
    (u = t ∧ b = a) ∨ (u ≠ t ∧ places u = some b) :=
  (of_update hu).imp_left fun ⟨hut, h⟩ => ⟨hut, Option.some.inj h⟩

omit [DecidableEq τ] [DecidableEq μ] [DecidableEq κ] in
theorem user_of_place {t : τ} {a : α} (hcalled : (s.pc t).Called C) (hplace : place s t = some a)
    (hcall : C.call a = none) :
    s.pc t = .user a := by
  unfold place at hplace
  cases hpc : s.pc t with
  | user b =>
    rw [hpc] at hplace
    rw [Option.some.inj hplace]
  | locking m b | unlocking w b | unlockYield w b | pausing w b | relocking w b | relockPause w b =>
    rw [hpc] at hplace hcalled
    obtain rfl := Option.some.inj hplace
    cases hcall.symm.trans hcalled
  | yielding b =>
    rw [hpc] at hplace hcalled
    obtain rfl := Option.some.inj hplace
    obtain ⟨call, hcall', -⟩ := hcalled
    cases hcall.symm.trans hcall'
  | terminated =>
    rw [hpc] at hplace
    cases hplace

/-- A step of the system moves one thread in the client, by a step of the client or by the return of
a call, or none. -/
theorem reach_place (hsafe : Safe C held) {start : τ → α} {data : σ}
    (hstart : ∀ t m, ¬ held (start t) m)
    {ok : State τ μ κ α σ → Label τ ω → Prop} (hr : (system C green start data).Reach ok s)
    (hstep : (system C green start data).step s l = some s') :
    (∃ t o a b, l = .act t o ∧ s.pc t = .user a ∧ C.act t a s.shared o = some (b, s'.shared) ∧
      place s' = Function.update (place s) t (some b)) ∨
    ((∀ t o, l ≠ .act t o) ∧ s'.shared = s.shared ∧ ∃ a call r, place s l.thread = some a ∧
      C.call a = some call ∧
      call.Gives r ∧ (∀ e, r ≠ .threw e) ∧ s'.pc l.thread = .user (C.ret a r) ∧
      place s' = Function.update (place s) l.thread (some (C.ret a r))) ∨
    ((∀ t o, l ≠ .act t o) ∧ s'.shared = s.shared ∧ place s' = place s ∧
      (s'.pc l.thread = s.pc l.thread ∨ ∃ a, (s'.pc l.thread).Inside a)) := by
  rcases reach_cases hr hstep with ⟨t, o, a, b, hl, hpc, hact, hpc', -⟩ |
    ⟨hl, hshared, hother, hprogress⟩
  · exact .inl ⟨t, o, a, b, hl, hpc, hact, place_update hpc'⟩
  · have hpc' : s'.pc = Function.update s.pc l.thread (s'.pc l.thread) := by
      funext u
      by_cases hu : u = l.thread
      · rw [hu, Function.update_self]
      · rw [Function.update_of_ne hu, hother u hu]
    have hplace := place_update hpc'
    have hstays : (s'.pc l.thread).at = place s l.thread → place s' = place s := fun hat => by
      rw [hplace, hat, Function.update_eq_self]
    rcases reach_returns hsafe hstart hr hprogress with hsame |
      ⟨a, call, hat, hcall, hin | ⟨r, hgives, hthrew, hret⟩⟩
    · exact .inr (.inr ⟨hl, hshared, hstays (by rw [hsame]; rfl), .inl hsame⟩)
    · exact .inr (.inr ⟨hl, hshared, hstays (hin.1.trans hat.symm), .inr ⟨a, hin⟩⟩)
    · refine .inr (.inl ⟨hl, hshared, a, call, r, hat, hcall, hgives, hthrew, hret, ?_⟩)
      rw [hplace, hret]
      rfl

end Machine

end GreenThread
