import GreenThread.Condition.Protocol

/-!
# The queues of the condition variables

What a step does to the queues: a wait joins one, a notification takes threads from the front of
one, a timeout takes one thread out, and nothing else touches them. A thread in a queue is in a wait
on that condition variable.
-/

namespace GreenThread

namespace ConditionProtocol

variable {τ μ κ α σ ω : Type} [DecidableEq τ] [DecidableEq μ] [DecidableEq κ]
variable {C : Client τ μ κ α σ ω} {green : τ → Bool} {s s' : Machine.State τ μ κ α σ}
    {l : Machine.Label τ ω}

/-- What a step does to the queues. -/
inductive QueueStep (C : Client τ μ κ α σ ω) (s : Machine.State τ μ κ α σ) (t : τ)
    (s' : Machine.State τ μ κ α σ) : Prop
  /-- A thread that leaves a client position has notified nobody. -/
  | same (hcond : s'.cond = s.cond) (hnobody : ∀ a c, s.pc t = .user a → s'.pc t ≠ s.pc t →
      (C.call a = some (.notifyOne c) → s.cond c = []) ∧ C.call a ≠ some (.notifyAll c))
  | joins {a w} (hpc : s.pc t = .user a) (hcall : C.call a = some (Machine.WaitCall.call w))
      (hcond : s'.cond = Function.update s.cond w.cond (s.cond w.cond ++ [⟨t, w.timed⟩]))
  | one {a c i rest} (hpc : s.pc t = .user a) (hcall : C.call a = some (.notifyOne c))
      (hqueue : s.cond c = i :: rest)
      (hcond : s'.cond = Function.update s.cond c rest)
  | all {a c} (hpc : s.pc t = .user a) (hcall : C.call a = some (.notifyAll c))
      (hcond : s'.cond = Function.update s.cond c [])
      (hpc' : s'.pc t = .yielding a ∨ s'.pc t = .user (C.ret a .done))
  | timeout {c} (htimer : s.timer t = .queued c false)
      (hcond : s'.cond = Function.update s.cond c ((s.cond c).eraseP fun i => i.f = t))

theorem queueStep (hmove : Machine.Move C green s l s') (hl : ∀ t o, l ≠ .act t o) :
    QueueStep C s l.thread s' := by
  -- a call that is no notification notifies nobody
  have hother : ∀ {t a call}, s.pc t = .user a → C.call a = some call → s'.cond = s.cond →
      (∀ c, call ≠ .notifyAll c) → (∀ c, call = .notifyOne c → s.cond c = []) →
      QueueStep C s t s' := by
    intro t a call hpc hcall hcond hall hone
    refine .same hcond fun b c hb _ => ?_
    obtain rfl := PC.user.inj (hb.symm.trans hpc)
    rw [hcall]
    exact ⟨fun heq => hone c (Option.some.inj heq), fun heq => hall c (Option.some.inj heq)⟩
  have hinside : ∀ {t}, s'.cond = s.cond → (∀ a, s.pc t ≠ .user a) → QueueStep C s t s' :=
    fun hcond hnot => .same hcond fun a _ ha => absurd ha (hnot a)
  cases hmove with
  | act => exact absurd rfl (hl _ _)
  | native hpc hcall _ hret =>
    refine hother hpc hcall rfl ?_ ?_ <;> cases hret <;> exact fun _ => nofun
  | lockThrew hpc hcall | lockFree hpc hcall | lockQueued hpc hcall | tryOwned hpc hcall
  | tryFree hpc hcall
  | tryBusy hpc hcall | unlockThrew hpc hcall | unlockFree hpc hcall | unlockHanded hpc hcall
  | unlockYield hpc hcall =>
    exact hother hpc hcall rfl (fun _ => nofun) fun _ => nofun
  | @waitThrew t a w switch hpc hcall =>
    obtain ⟨c, m, timed⟩ := w
    refine hother hpc hcall rfl ?_ ?_ <;> cases timed <;> exact fun _ => nofun
  | @waitQueued t a w switch hpc hcall => exact .joins hpc hcall (startWait_cond s t a w)
  | notifyNobody hpc hcall hempty =>
    refine hother hpc hcall rfl (fun _ => nofun) fun c heq => ?_
    cases heq
    exact hempty
  | @notifyOne t a c i rest switch hpc hcall hqueue =>
    refine .one hpc hcall hqueue ?_
    rw [Machine.notifyEnd_cond, (Machine.notifyOne_notified hqueue).cond]
  | @notifyAll t a c switch hpc hcall =>
    refine .all hpc hcall ?_ ?_
    · rw [Machine.notifyEnd_cond, (Machine.notifyAll_notified rfl).cond]
    · obtain ⟨-, -, p, hpc', hp⟩ :=
        Machine.notifyEnd_effect C green (Machine.notifyLoop c (s.cond c) s) t a
      rw [hpc', Machine.Label.thread, Function.update_self]
      rcases hp with rfl | rfl
      · exact .inl rfl
      · exact .inr rfl
  | releaseFree hpc | releaseHanded hpc | releaseYield hpc | relockFree hpc | relockQueued hpc =>
    refine hinside rfl fun a ha => ?_
    cases hpc.symm.trans ha
  | @wake t p hdelivered hp =>
    refine hinside rfl fun a ha => ?_
    have ha : s.pc t = .user a := ha
    rw [Machine.switchReturn, ha] at hp
    cases hp
  | deliver | expire | aborted => exact .same rfl fun _ _ _ hne => absurd rfl hne
  | timeout htimer => exact .timeout htimer rfl

theorem cond_act {t : τ} {o : ω} (hmove : Machine.Move C green s (.act t o) s') :
    s'.cond = s.cond := by
  cases hmove with
  | act => rfl

omit [DecidableEq τ] [DecidableEq μ] [DecidableEq κ] in
theorem timer_idle (hinv : Machine.Inv green s) {t : τ}
    (huntimed : ∀ w, waitOf (s.pc t) = some w → w.timed = false) :
    s.timer t = .idle := by
  cases hw : awaits (s.pc t) with
  | none => exact (unregistered hinv hw).1
  | some w =>
    obtain ⟨hreg, -⟩ := registered hinv hw
    have hcase := hreg.2
    rw [huntimed w (waitOf_of_awaits hw)] at hcase
    exact hcase.1

/-- The wait that a call begins. -/
def callWait : Call μ κ → Option (WaitCall μ κ)
  | .wait c m => some ⟨c, m, false⟩
  | .waitRel c m => some ⟨c, m, true⟩
  | _ => none

omit [DecidableEq μ] [DecidableEq κ] in
theorem callWait_call (w : WaitCall μ κ) : callWait (Machine.WaitCall.call w) = some w := by
  obtain ⟨c, m, timed⟩ := w
  cases timed <;> rfl

section

omit [DecidableEq τ] [DecidableEq μ] [DecidableEq κ]

theorem waitOf_inside {p : PC μ κ α} {a : α} {call : Call μ κ} (hin : p.Inside a)
    (hcalled : p.Called C) (hcall : C.call a = some call) : waitOf p = callWait call := by
  obtain ⟨hat, hne⟩ := hin
  cases p with
  | user b =>
    obtain rfl := Option.some.inj hat
    exact absurd rfl hne
  | locking m b =>
    obtain rfl := Option.some.inj hat
    obtain rfl := Option.some.inj (hcall.symm.trans hcalled)
    rfl
  | yielding b =>
    obtain rfl := Option.some.inj hat
    obtain ⟨call', hcall', hyields⟩ := hcalled
    obtain rfl := Option.some.inj (hcall.symm.trans hcall')
    cases call <;> first | rfl | exact hyields.elim
  | unlocking w b | unlockYield w b | pausing w b | relocking w b | relockPause w b =>
    obtain rfl := Option.some.inj hat
    obtain rfl := Option.some.inj (hcall.symm.trans hcalled)
    exact (callWait_call w).symm
  | terminated => cases hat

theorem waitOf_queued (hinv : Machine.Inv green s) {i : SuspendedItem τ} {c : κ}
    (hi : i ∈ s.cond c) :
    ∃ w, awaits (s.pc i.f) = some w ∧ w.cond = c ∧ w.timed = i.t := by
  cases hw : awaits (s.pc i.f) with
  | none => exact absurd hi ((unregistered hinv hw).2 c i.t)
  | some w =>
    obtain ⟨hc, ht⟩ := queued_only hinv hw (b := i.t) hi
    exact ⟨w, rfl, hc.symm, ht.symm⟩

theorem wait_queued (hinv : Machine.Inv green s) {t : τ} {c : κ} {b : Bool}
    (hmem : ⟨t, b⟩ ∈ s.cond c) :
    ∃ w, waitOf (s.pc t) = some w ∧ w.cond = c ∧ w.timed = b := by
  obtain ⟨w, hw, hc, ht⟩ := waitOf_queued hinv hmem
  exact ⟨w, waitOf_of_awaits hw, hc, ht⟩

/-- A thread whose timer runs is in its queue. -/
theorem queued_of_armed {t : τ} {c : κ} {w : WaitCall μ κ} (hinv : Machine.Inv green s)
    (harmed : s.timer t = .armed c) (hw : waitOf (s.pc t) = some w) :
    ⟨t, w.timed⟩ ∈ s.cond w.cond := by
  cases hawaits : awaits (s.pc t) with
  | none =>
    have hidle := (unregistered hinv hawaits).1
    rw [harmed] at hidle
    cases hidle
  | some v =>
    obtain rfl := Option.some.inj ((waitOf_of_awaits hawaits).symm.trans hw)
    have hcase := (registered hinv hawaits).1.2
    simp only [Machine.State.view, harmed] at hcase
    cases htimed : v.timed <;> simp [htimed] at hcase
    exact hcase.2.2

theorem queued_of_blocked (hinv : Machine.Inv green s) {t : τ} {w : WaitCall μ κ} {a : α}
    (hpc : s.pc t = .pausing w a) (htimed : w.timed = false) (hpending : s.pending t = 0) :
    (⟨t, false⟩ : SuspendedItem τ) ∈ s.cond w.cond := by
  have hthread := hinv.thread t
  simp only [Machine.View.Ok, Machine.State.view, hpc] at hthread
  have hreg := hthread.2.2
  rw [hpending] at hreg
  rcases hreg.waiting with hqueued | ⟨aborted, htimer⟩
  · rwa [htimed] at hqueued
  · have hidle := hreg.2
    rw [htimed] at hidle
    simp only at hidle htimer
    rw [hidle.1] at htimer
    cases htimer

end

theorem leaves (hmove : Machine.Move C green s l s') {t : τ} {a : α} (ht : t = l.thread)
    (hpc : s.pc t = .user a)
    (hne : s'.pc t ≠ s.pc t) : (∃ o, l = .act t o) ∨ ∃ switch, l = .call t switch := by
  subst ht
  cases hmove with
  | act => exact .inl ⟨_, rfl⟩
  | native | lockThrew | lockFree | lockQueued | tryOwned | tryFree | tryBusy | unlockThrew
  | unlockFree | unlockHanded
  | unlockYield | waitThrew | waitQueued | notifyNobody | notifyOne
  | notifyAll => exact .inr ⟨_, rfl⟩
  | releaseFree hb | releaseHanded hb | releaseYield hb | relockFree hb | relockQueued hb =>
    cases hb.symm.trans hpc
  | @wake t p hdelivered hp =>
    have hpc : s.pc t = .user a := hpc
    rw [Machine.switchReturn, hpc] at hp
    cases hp
  | deliver | expire | aborted | timeout => exact absurd rfl hne

theorem leaves_by_call (hmove : Machine.Move C green s l s') (hl : ∀ t o, l ≠ .act t o)
    (hother : ∀ u, u ≠ l.thread → s'.pc u = s.pc u) {t : τ} {a : α} (hpc : s.pc t = .user a)
    (hne : s'.pc t ≠ s.pc t) :
    t = l.thread ∧ ∃ switch, l = .call t switch := by
  have ht : t = l.thread := by
    by_contra hnot
    exact hne (hother t hnot)
  rcases leaves hmove ht hpc hne with ⟨o, hact⟩ | hcall
  · exact absurd hact (hl t o)
  · exact ⟨ht, hcall⟩

/-! ### The timers -/

omit [DecidableEq μ] [DecidableEq κ] in
/-- `cancel` does not make a handler that reports the expiry. -/
theorem wakeItem_expired {i : SuspendedItem τ} {t : τ} {c : κ}
    (htimer : (s.wakeItem i).timer t = .queued c false) :
    s.timer t = .queued c false := by
  unfold Machine.State.wakeItem at htimer
  split at htimer
  · by_cases ht : t = i.f
    · subst ht
      simp only [Machine.State.setTimer, Function.update_self] at htimer
      cases hold : s.timer i.f with
      | idle => simp [hold, Timer.cancel] at htimer
      | armed d => simp [hold, Timer.cancel] at htimer
      | queued d aborted => simpa [hold, Timer.cancel] using htimer
    · simpa only [Machine.State.setTimer, Function.update_of_ne ht] using htimer
  · exact htimer

omit [DecidableEq μ] in
theorem notifyLoop_expired {items : List (SuspendedItem τ)} {t : τ} {c c' : κ}
    (htimer : (Machine.notifyLoop c items s).timer t = .queued c' false) :
    s.timer t = .queued c' false := by
  induction items generalizing s with
  | nil => exact htimer
  | cons i rest ih => exact wakeItem_expired (s := s.setCond c rest) (ih htimer)

/-- Only the expiry makes the handler of a timer report it. -/
theorem timer_expired {t : τ} {c : κ} (hmove : Machine.Move C green s l s')
    (htimer : s'.timer t = .queued c false) :
    s.timer t = .queued c false ∨ (l = .expire t ∧ s.timer t = .armed c) := by
  cases hmove with
  | act | native | lockThrew | lockFree | lockQueued | tryOwned | tryFree | tryBusy | unlockThrew
  | unlockFree | unlockHanded
  | unlockYield | waitThrew | notifyNobody | releaseFree | releaseHanded | releaseYield | relockFree
  | relockQueued | deliver
  | wake => exact .inl htimer
  | @waitQueued u a w =>
    obtain ⟨d, m, timed⟩ := w
    cases timed with
    | false => exact .inl htimer
    | true =>
      simp only [Machine.State.startWait, Machine.State.setPc, Machine.State.setStatus,
        Machine.State.setTimer, if_true] at htimer
      by_cases ht : t = u
      · rw [ht, Function.update_self] at htimer
        cases htimer
      · rw [Function.update_of_ne ht] at htimer
        exact .inl htimer
  | @notifyOne u a d i rest =>
    rw [(Machine.notifyEnd_kept C green _ u a).2] at htimer
    exact .inl (wakeItem_expired (s := s.setCond d rest) htimer)
  | @notifyAll u a d =>
    rw [(Machine.notifyEnd_kept C green _ u a).2] at htimer
    exact .inl (notifyLoop_expired htimer)
  | @expire u d harmed =>
    by_cases ht : t = u
    · subst ht
      simp only [Machine.State.setTimer, Function.update_self, Timer.queued.injEq,
        and_true] at htimer
      exact .inr ⟨rfl, htimer ▸ harmed⟩
    · simp only [Machine.State.setTimer, Function.update_of_ne ht] at htimer
      exact .inl htimer
  | @aborted u d | @timeout u d =>
    by_cases ht : t = u
    · subst ht
      simp [Machine.State.resume, Machine.State.setTimer, Machine.State.setStatus,
        Machine.State.setCond] at htimer
    · simp only [Machine.State.resume, Machine.State.setTimer, Machine.State.setStatus,
        Machine.State.setCond,
        Function.update_of_ne ht] at htimer
      exact .inl htimer

end ConditionProtocol

end GreenThread
