import GreenThread.Condition.Queues

/-!
# Timeouts and notifications

What a wait gives back, and who took its thread out of `suspended_`. The log numbers the
registrations and keeps the numbers of the ones taken out by `notify_one`, by `notify_all` and by
the handlers of the timers, and the results of the waits that have returned.

`timeout_handler` writes `timeout` before it looks for its thread. When the timer has expired before
a notification takes the thread out, `cancel` comes too late, and the notified wait gives `timeout`.
Apart from that the results tell the truth.
-/

namespace GreenThread

namespace ConditionTimeout

open ConditionProtocol (waitOf awaits wait_queued queued_of_armed timer_expired)

variable {τ μ κ α σ ω : Type} [DecidableEq τ] [DecidableEq μ] [DecidableEq κ]

structure Log (τ : Type) where
  next : Nat
  /-- the registration of the wait that a thread is in -/
  ticket : τ → Nat
  /-- the calls of `notify_one` that found a waiter -/
  found : Nat
  /-- the registrations taken out by `notify_one`, by `notify_all` and by the handlers of the
  timers -/
  ones : List Nat
  alls : List Nat
  timeouts : List Nat
  /-- the registrations whose waits have returned, with what they gave -/
  returns : List (Nat × Ret)

namespace Log

def empty : Log τ := ⟨0, fun _ => 0, 0, [], [], [], []⟩

variable (h : Log τ)

/-- The registrations that a notification took out. -/
def notified : List Nat := h.ones ++ h.alls

/-- The registrations that were taken out of their queues. -/
def out : List Nat := h.ones ++ h.alls ++ h.timeouts

def returned : List Nat := h.returns.map Prod.fst

end Log

/-- The steps that take threads out of a queue. -/
inductive Event (κ : Type)
  | one (c : κ)
  | all (c : κ)
  | handler (c : κ)
  deriving DecidableEq, Repr

section Record

variable (C : Client τ μ κ α σ ω) (s : Machine.State τ μ κ α σ) (l : Machine.Label τ ω)
    (s' : Machine.State τ μ κ α σ)

def event : Option (Event κ) :=
  match l with
  | .call t _ =>
    match s.pc t with
    | .user a =>
      match C.call a with
      | some (.notifyOne c) => some (.one c)
      | some (.notifyAll c) => some (.all c)
      | _ => none
    | _ => none
  | .handler t =>
    match s.timer t with
    | .queued c _ => some (.handler c)
    | _ => none
  | _ => none

/-- The registrations that the step takes out of the queue of `c`. -/
def taken (h : Log τ) (c : κ) : List Nat :=
  ((s.cond c).filter fun i => i ∉ s'.cond c).map fun i => h.ticket i.f

def record (h : Log τ) : Log τ :=
  match event C s l with
  | some (.one c) =>
    { h with found := h.found + if s.cond c = [] then 0 else 1, ones := h.ones ++ taken s s' h c }
  | some (.all c) => { h with alls := h.alls ++ taken s s' h c }
  | some (.handler c) => { h with timeouts := h.timeouts ++ taken s s' h c }
  | none =>
    match waitOf (s.pc l.thread), waitOf (s'.pc l.thread) with
    | none, some _ =>
      { h with next := h.next + 1, ticket := Function.update h.ticket l.thread h.next }
    | some w, none => { h with returns := h.returns ++ [(h.ticket l.thread, s.waitRet l.thread w)] }
    | _, _ => h

/-- The timer of the waiter has not expired. -/
def unexpired (i : SuspendedItem τ) : Bool :=
  match s.timer i.f with
  | .queued _ false => false
  | _ => true

/-- No notification takes out a waiter whose timer has expired. -/
def punctual : Bool :=
  match l with
  | .call t _ =>
    match s.pc t with
    | .user a =>
      match C.call a with
      | some (.notifyOne c) => (s.cond c).head?.all (unexpired s)
      | some (.notifyAll c) => (s.cond c).all (unexpired s)
      | _ => true
    | _ => true
  | _ => true

end Record

def system (C : Client τ μ κ α σ ω) (green : τ → Bool) (start : τ → α) (data : σ) :
    TransitionSystem (Machine.State τ μ κ α σ × Log τ) (Machine.Label τ ω) :=
  (Machine.system C green start data).withHistory .empty fun h s l s' => record C s l s' h

/-- The results of the waits tell who ended them. -/
structure Truthful (s : Machine.State τ μ κ α σ) (h : Log τ) : Prop where
  /-- a registration is taken out once -/
  once : h.out.Nodup
  /-- a `notify_one` that finds a waiter takes out one registration -/
  found : h.ones.length = h.found
  /-- a wait returns once: notified without `timeout`, or taken out by its own handler with
  `timeout` -/
  returned : h.returned.Nodup
  results : ∀ k r, (k, r) ∈ h.returns →
    (k ∈ h.notified ∧ (r = .done ∨ r = .status .noTimeout)) ∨
    (k ∈ h.timeouts ∧ r = .status .timeout)
  /-- a wait whose registration was taken out has returned, or its thread is still in it and will be
  resumed from its pause -/
  pending : ∀ k ∈ h.out, k ∈ h.returned ∨ ∃ t w, waitOf (s.pc t) = some w ∧ h.ticket t = k ∧
    ∀ a, s.pc t = .pausing w a → 0 < s.pending t ∨ ∃ aborted, s.timer t = .queued w.cond aborted

/-! ### What a step writes into the log -/

section Steps

variable {C : Client τ μ κ α σ ω} {green : τ → Bool} {s s' : Machine.State τ μ κ α σ}
    {l : Machine.Label τ ω} {h h' : Log τ}
variable {t : τ} {w : WaitCall μ κ} {c c' : κ}

omit [DecidableEq μ] [DecidableEq κ] in
theorem taken_same (hcond : s'.cond c = s.cond c) : taken s s' h c = [] := by
  rw [taken, hcond, List.map_eq_nil_iff, List.filter_eq_nil_iff]
  intro i hi
  simpa using hi

omit [DecidableEq τ] [DecidableEq μ] [DecidableEq κ] in
theorem event_call {a : α} {call : Call μ κ} {switch : Bool} (hpc : s.pc t = .user a)
    (hcall : C.call a = some call)
    (hone : ∀ c, call ≠ .notifyOne c) (hall : ∀ c, call ≠ .notifyAll c) :
    event C s (.call t switch : Machine.Label τ ω) = none := by
  simp only [event, hpc, hcall]
  split
  · exact absurd (Option.some.inj ‹_›) (hone _)
  · exact absurd (Option.some.inj ‹_›) (hall _)
  · rfl

omit [DecidableEq τ] [DecidableEq μ] [DecidableEq κ] in
theorem event_wait {a : α} {switch : Bool} (hpc : s.pc t = .user a)
    (hcall : C.call a = some (Machine.WaitCall.call w)) :
    event C s (.call t switch : Machine.Label τ ω) = none := by
  obtain ⟨c, m, timed⟩ := w
  cases timed <;> exact event_call hpc hcall (fun _ => nofun) fun _ => nofun

omit [DecidableEq μ] [DecidableEq κ] in
theorem record_quiet (hevent : event C s l = none)
    (hwait : waitOf (s'.pc l.thread) = waitOf (s.pc l.thread)) :
    record C s l s' h = h := by
  unfold record
  rw [hevent, hwait]
  cases waitOf (s.pc l.thread) <;> rfl

omit [DecidableEq μ] [DecidableEq κ] in
theorem record_joins (hevent : event C s l = none) (hw : waitOf (s.pc l.thread) = none)
    (hw' : waitOf (s'.pc l.thread) = some w) :
    record C s l s' h = { h with
      next := h.next + 1, ticket := Function.update h.ticket l.thread h.next } := by
  unfold record
  rw [hevent, hw, hw']

omit [DecidableEq μ] [DecidableEq κ] in
theorem record_returns (hevent : event C s l = none) (hw : waitOf (s.pc l.thread) = some w)
    (hw' : waitOf (s'.pc l.thread) = none) :
    record C s l s' h =
    { h with returns := h.returns ++ [(h.ticket l.thread, s.waitRet l.thread w)] } := by
  unfold record
  rw [hevent, hw, hw']

/-- What a step does to the waits, to the queues and to the results, and what it writes into the
log. -/
inductive LogStep (C : Client τ μ κ α σ ω) (s : Machine.State τ μ κ α σ) (l : Machine.Label τ ω)
    (s' : Machine.State τ μ κ α σ) (h : Log τ) : Prop
  | quiet (hcond : s'.cond = s.cond) (hstatus : s'.status = s.status)
      (hwait : waitOf (s'.pc l.thread) = waitOf (s.pc l.thread))
      (hrecord : record C s l s' h = h)
  | joins {w : WaitCall μ κ} (hw : waitOf (s.pc l.thread) = none)
      (hw' : waitOf (s'.pc l.thread) = some w)
      (hcond : s'.cond = Function.update s.cond w.cond (s.cond w.cond ++ [⟨l.thread, w.timed⟩]))
      (hstatus : ∀ t, t ≠ l.thread → s'.status t = s.status t)
      (hfirst : w.timed = true → s'.status l.thread = .noTimeout)
      (hrecord : record C s l s' h =
        { h with next := h.next + 1, ticket := Function.update h.ticket l.thread h.next })
  | one {c : κ} {i rest} (hqueue : s.cond c = i :: rest)
      (hcond : s'.cond = Function.update s.cond c rest)
      (hstatus : s'.status = s.status) (hwait : waitOf (s'.pc l.thread) = waitOf (s.pc l.thread))
      (hcall : ∀ t, l ≠ .expire t) (hpunctual : punctual C s l = true → unexpired s i = true)
      (hrecord : record C s l s' h =
        { h with found := h.found + 1, ones := h.ones ++ taken s s' h c })
  | all {c : κ} (hcond : s'.cond = Function.update s.cond c []) (hstatus : s'.status = s.status)
      (hwait : waitOf (s'.pc l.thread) = waitOf (s.pc l.thread))
      (hcall : ∀ t, l ≠ .expire t)
      (hpunctual : punctual C s l = true → ∀ i ∈ s.cond c, unexpired s i = true)
      (hrecord : record C s l s' h = { h with alls := h.alls ++ taken s s' h c })
  | timeout {c : κ} (htimer : s.timer l.thread = .queued c false)
      (htimer' : s'.timer l.thread = .idle)
      (hcond : s'.cond = Function.update s.cond c ((s.cond c).eraseP fun i => i.f = l.thread))
      (hstatus : s'.status = Function.update s.status l.thread .timeout) (hpc : s'.pc = s.pc)
      (hrecord : record C s l s' h = { h with timeouts := h.timeouts ++ taken s s' h c })
  | returns {w : WaitCall μ κ} (hw : waitOf (s.pc l.thread) = some w)
      (hw' : waitOf (s'.pc l.thread) = none)
      (hawaits : awaits (s.pc l.thread) = none) (hcond : s'.cond = s.cond)
      (hstatus : s'.status = s.status)
      (hrecord : record C s l s' h =
        { h with returns := h.returns ++ [(h.ticket l.thread, s.waitRet l.thread w)] })

theorem logStep (hmove : Machine.Move C green s l s') : LogStep C s l s' h := by
  have hclient : ∀ {t a}, s.pc t = .user a → waitOf (s.pc t) = none := fun hpc => by rw [hpc]; rfl
  -- a call of a mutex operation, or one that throws, begins no wait
  have hcalled : ∀ {t a call switch} {s'' : Machine.State τ μ κ α σ}, s.pc t = .user a →
    C.call a = some call → (∀ c, call ≠ .notifyOne c) →
      (∀ c, call ≠ .notifyAll c) → s''.cond = s.cond → s''.status = s.status →
      waitOf (s''.pc t) = none →
      LogStep C s (.call t switch) s'' h := by
    intro t a call switch s'' hpc hcall hone hall hcond hstatus hw'
    have hw : waitOf (s''.pc t) = waitOf (s.pc t) := hw'.trans (hclient hpc).symm
    exact .quiet hcond hstatus hw (record_quiet (event_call hpc hcall hone hall) hw)
  have hset : ∀ {t a} (s'' : Machine.State τ μ κ α σ),
    waitOf ((s''.setPc t (.user a)).pc t) = none := by
    intro t a s''
    simp [Machine.State.setPc, waitOf]
  cases hmove with
  | @act t a b o x hpc =>
    have hw : waitOf ((s.setPc t (.user b)).pc t) = waitOf (s.pc t) :=
      (hset s).trans (hclient hpc).symm
    exact .quiet rfl rfl hw (record_quiet rfl hw)
  | @native t a call r switch hpc hcall hg hret =>
    refine hcalled hpc hcall ?_ ?_ rfl rfl (hset s) <;> cases hret <;> exact fun _ h => by cases h
  | lockThrew hpc hcall | lockFree hpc hcall | tryOwned hpc hcall | tryFree hpc hcall
  | tryBusy hpc hcall
  | unlockThrew hpc hcall | unlockFree hpc hcall | unlockHanded hpc hcall =>
    exact hcalled hpc hcall (fun _ h => by cases h) (fun _ h => by cases h) rfl rfl (hset _)
  | lockQueued hpc hcall | unlockYield hpc hcall =>
    exact hcalled hpc hcall (fun _ h => by cases h) (fun _ h => by cases h) rfl rfl
      (by simp [Machine.State.yieldTo, Machine.State.setPc, waitOf])
  | @waitThrew t a w switch hpc hcall =>
    have hw : waitOf ((s.setPc t (.user (C.ret a (.threw .operationNotPermitted)))).pc t) =
      waitOf (s.pc t) :=
      (hset s).trans (hclient hpc).symm
    exact .quiet rfl rfl hw (record_quiet (event_wait hpc hcall) hw)
  | @waitQueued t a w switch hpc hcall =>
    have hw' : waitOf ((s.startWait t a w).pc t) = some w := by
      rw [(Machine.startWait_effect s t a w).2.2, Function.update_self]
      rfl
    refine .joins (hclient hpc) hw' (ConditionProtocol.startWait_cond s t a w) (fun u hu => ?_)
      (fun htimed => ?_)
      (record_joins (event_wait hpc hcall) (hclient hpc) hw')
    · have hu : u ≠ t := hu
      obtain ⟨c, m, timed⟩ := w
      cases timed <;> simp [Machine.State.startWait, Machine.State.setPc, Machine.State.setStatus,
        Machine.State.setTimer,
        Machine.State.setCond, hu]
    · simp [Machine.State.startWait, Machine.State.setPc, Machine.State.setStatus, htimed,
        Machine.Label.thread]
  | @notifyNobody t a c switch hpc hcall hempty =>
    have hw : waitOf ((s.setPc t (.user (C.ret a .done))).pc t) = waitOf (s.pc t) :=
      (hset s).trans (hclient hpc).symm
    have hevent : event C s (.call t switch : Machine.Label τ ω) = some (.one c) := by
      simp only [event, hpc, hcall]
    refine .quiet rfl rfl hw ?_
    rw [record, hevent]
    simp [taken_same, hempty, Machine.State.setPc]
  | @notifyOne t a c i rest switch hpc hcall hqueue =>
    have hevent : event C s (.call t switch : Machine.Label τ ω) = some (.one c) := by
      simp only [event, hpc, hcall]
    obtain ⟨-, -, p, hpc', hp⟩ :=
      Machine.notifyEnd_effect C green ((s.setCond c rest).wakeItem i) t a
    refine .one hqueue ?_ ?_ ?_ (fun _ h => by cases h) (fun hpunctual => ?_) ?_
    · rw [Machine.notifyEnd_cond, (Machine.notifyOne_notified hqueue).cond]
    · rw [(Machine.notifyEnd_kept C green _ t a).1, Machine.wakeItem_status, Machine.State.setCond]
    · rw [Machine.Label.thread, hpc', Function.update_self, hpc]
      rcases hp with rfl | rfl <;> rfl
    · simpa only [punctual, hpc, hcall, hqueue, List.head?_cons, Option.all_some] using hpunctual
    · rw [record, hevent]
      simp [hqueue]
  | @notifyAll t a c switch hpc hcall =>
    have hevent : event C s (.call t switch : Machine.Label τ ω) = some (.all c) := by
      simp only [event, hpc, hcall]
    obtain ⟨-, -, p, hpc', hp⟩ :=
      Machine.notifyEnd_effect C green (Machine.notifyLoop c (s.cond c) s) t a
    refine .all (c := c) ?_ ?_ ?_ (fun _ h => by cases h) (fun hpunctual => ?_) ?_
    · rw [Machine.notifyEnd_cond, (Machine.notifyAll_notified rfl).cond]
    · rw [(Machine.notifyEnd_kept C green _ t a).1, Machine.notifyLoop_status]
    · rw [Machine.Label.thread, hpc', Function.update_self, hpc]
      rcases hp with rfl | rfl <;> rfl
    · simpa only [punctual, hpc, hcall, List.all_eq_true] using hpunctual
    · rw [record, hevent]
  | @releaseFree t a w switch hpc | @releaseHanded t a w next rest hpc
  | @releaseYield t a w next rest hpc
  | @relockQueued t a w u switch hpc =>
    have hw : ∀ {s'' : Machine.State τ μ κ α σ} {p}, waitOf p = some w →
        waitOf ((s''.setPc t p).pc t) = waitOf (s.pc t) := by
      intro s'' p hp
      simp only [Machine.State.setPc, Function.update_self, hp, hpc]
      rfl
    exact .quiet rfl rfl (hw rfl) (record_quiet rfl (hw rfl))
  | @relockFree t a w switch hpc =>
    have hw : waitOf (s.pc t) = some w := by rw [hpc]; rfl
    exact .returns hw (hset _) (by rw [Machine.Label.thread, hpc]; rfl) rfl rfl
      (record_returns rfl hw (hset _))
  | @deliver t => exact .quiet rfl rfl rfl (record_quiet rfl rfl)
  | @expire t c => exact .quiet rfl rfl rfl (record_quiet rfl rfl)
  | @wake t p hdelivered hp =>
    have hgo : ∀ {p'}, waitOf p' = waitOf (s.pc t) →
      LogStep C s (.wake t) ((s.consume t).setPc t p') h := by
      intro p' hp'
      have hw : waitOf (((s.consume t).setPc t p').pc t) = waitOf (s.pc t) := by
        simp only [Machine.State.setPc, Function.update_self, hp']
      exact .quiet rfl rfl hw (record_quiet rfl hw)
    cases Machine.switched hp with
    | locked hpc | yielded hpc | unlocked hpc | resumed hpc => exact hgo (by rw [hpc]; rfl)
    | @relocked w a hpc =>
      have hw : waitOf (s.pc t) = some w := by rw [hpc]; rfl
      exact .returns hw (hset _) (by rw [Machine.Label.thread, hpc]; rfl) rfl rfl
        (record_returns rfl hw (hset _))
  | @aborted t c htimer =>
    refine .quiet rfl rfl rfl ?_
    have hevent : event C s (.handler t : Machine.Label τ ω) = some (.handler c) := by
      simp only [event, htimer]
    rw [record, hevent]
    simp [taken_same, Machine.State.resume, Machine.State.setTimer]
  | @timeout t c htimer =>
    have hevent : event C s (.handler t : Machine.Label τ ω) = some (.handler c) := by
      simp only [event, htimer]
    refine .timeout htimer ?_ rfl rfl rfl ?_
    · simp [Machine.State.resume, Machine.State.setTimer, Machine.State.setStatus,
        Machine.State.setCond, Machine.Label.thread]
    · rw [record, hevent]

/-! ### Who took a waiter out -/

/-- The wait has not been told of a timeout. -/
def Untold (s : Machine.State τ μ κ α σ) (t : τ) (w : WaitCall μ κ) : Prop :=
  s.waitRet t w = .done ∨ s.waitRet t w = .status .noTimeout

/-- A wait whose thread is queued, or was notified, or was taken out by the handler of its timer. -/
inductive Fate (s : Machine.State τ μ κ α σ) (h : Log τ) (t : τ) (w : WaitCall μ κ) : Prop
  | queued (hmem : ⟨t, w.timed⟩ ∈ s.cond w.cond) (hout : h.ticket t ∉ h.out) (hret : Untold s t w)
  | notified (hleft : ⟨t, w.timed⟩ ∉ s.cond w.cond) (htimer : ∀ c, s.timer t ≠ .queued c false)
      (hmem : h.ticket t ∈ h.notified) (hret : Untold s t w)
  | timedOut (hleft : ⟨t, w.timed⟩ ∉ s.cond w.cond) (htimer : ∀ c, s.timer t ≠ .queued c false)
      (hmem : h.ticket t ∈ h.timeouts) (hret : s.waitRet t w = .status .timeout)

/-- The log and the waits in every state of a punctual run. -/
structure Ledger (s : Machine.State τ μ κ α σ) (h : Log τ) : Prop where
  fate : ∀ t w, waitOf (s.pc t) = some w → Fate s h t w
  fresh : ∀ t w, waitOf (s.pc t) = some w → h.ticket t < h.next ∧ h.ticket t ∉ h.returned
  distinct : ∀ t u w v, waitOf (s.pc t) = some w → waitOf (s.pc u) = some v →
    h.ticket t = h.ticket u → t = u
  once : h.out.Nodup
  held : ∀ k ∈ h.out, k ∈ h.returned ∨ ∃ t w, waitOf (s.pc t) = some w ∧ h.ticket t = k
  found : h.ones.length = h.found
  old : ∀ k ∈ h.returned, k < h.next
  returned : h.returned.Nodup
  results : ∀ k r, (k, r) ∈ h.returns →
    (k ∈ h.notified ∧ (r = .done ∨ r = .status .noTimeout)) ∨
    (k ∈ h.timeouts ∧ r = .status .timeout)

omit [DecidableEq τ] [DecidableEq μ] [DecidableEq κ] in
theorem waitRet_congr (hstatus : s'.status t = s.status t) (w : WaitCall μ κ) :
    s'.waitRet t w = s.waitRet t w := by
  rw [Machine.State.waitRet, Machine.State.waitRet, hstatus]

namespace Fate

omit [DecidableEq τ] [DecidableEq μ] [DecidableEq κ] in
theorem of_queued (hfate : Fate s h t w) (hmem : ⟨t, w.timed⟩ ∈ s.cond w.cond) :
    h.ticket t ∉ h.out ∧ Untold s t w := by
  cases hfate with
  | queued _ hout hret => exact ⟨hout, hret⟩
  | notified hleft | timedOut hleft => exact absurd hmem hleft

omit [DecidableEq τ] [DecidableEq μ] [DecidableEq κ] in
/-- A thread whose timer has expired is still in its queue. -/
theorem of_expired (hfate : Fate s h t w) (htimer : s.timer t = .queued c false) :
    ⟨t, w.timed⟩ ∈ s.cond w.cond ∧ h.ticket t ∉ h.out := by
  cases hfate with
  | queued hmem hout => exact ⟨hmem, hout⟩
  | notified _ hnot | timedOut _ hnot => exact absurd htimer (hnot c)

omit [DecidableEq τ] [DecidableEq μ] [DecidableEq κ] in
theorem left (hfate : Fate s h t w) (hout : h.ticket t ∈ h.out) : ⟨t, w.timed⟩ ∉ s.cond w.cond := by
  cases hfate with
  | queued _ hnot => exact absurd hout hnot
  | notified hleft | timedOut hleft => exact hleft

theorem keep (hfate : Fate s h t w) (hinv : Machine.Inv green s)
    (hmove : Machine.Move C green s l s') (hw : waitOf (s.pc t) = some w)
    (hqueue : ⟨t, w.timed⟩ ∈ s'.cond w.cond ↔ ⟨t, w.timed⟩ ∈ s.cond w.cond)
    (hstatus : s'.status t = s.status t)
    (hnotified : h'.ticket t ∈ h'.notified ↔ h.ticket t ∈ h.notified)
    (htimeouts : h'.ticket t ∈ h'.timeouts ↔ h.ticket t ∈ h.timeouts) : Fate s' h' t w := by
  have hret := waitRet_congr hstatus w
  have htimer : ⟨t, w.timed⟩ ∉ s.cond w.cond → (∀ c, s.timer t ≠ .queued c false) →
    ∀ c, s'.timer t ≠ .queued c false := by
    intro hleft hnot c hexpired
    rcases timer_expired hmove hexpired with hold | ⟨-, harmed⟩
    · exact hnot c hold
    · exact hleft (queued_of_armed hinv harmed hw)
  cases hfate with
  | queued hmem hout huntold =>
    refine .queued (hqueue.mpr hmem) (fun hmem' => hout ?_) (by rwa [Untold, hret])
    simp only [Log.out, Log.notified, List.mem_append] at hmem' hnotified ⊢
    exact hmem'.imp hnotified.mp htimeouts.mp
  | notified hleft hnot hmem huntold =>
    exact .notified (fun hin => hleft (hqueue.mp hin)) (htimer hleft hnot) (hnotified.mpr hmem)
      (by rwa [Untold, hret])
  | timedOut hleft hnot hmem htold =>
    exact .timedOut (fun hin => hleft (hqueue.mp hin)) (htimer hleft hnot) (htimeouts.mpr hmem)
      (hret.trans htold)

end Fate

/-! ### The registrations that a step takes out -/

section Taken

variable (hl : Ledger s h)

include hl

omit [DecidableEq τ] [DecidableEq μ] [DecidableEq κ] in
theorem Ledger.takes {ks : List Nat} (hwaits : ∀ t, waitOf (s'.pc t) = waitOf (s.pc t))
    (hnext : h'.next = h.next) (hticket : h'.ticket = h.ticket) (hreturns : h'.returns = h.returns)
    (hout : h'.out.Perm (h.out ++ ks)) (hks : ks.Nodup)
    (hnew : ∀ k ∈ ks, k ∉ h.out ∧ ∃ t w, waitOf (s.pc t) = some w ∧ h.ticket t = k)
    (hfound : h'.ones.length = h'.found)
    (hnotified : h.notified ⊆ h'.notified) (htimeouts : h.timeouts ⊆ h'.timeouts)
    (hfate : ∀ t w, waitOf (s.pc t) = some w → Fate s' h' t w) : Ledger s' h' where
  fate := fun t w hw => hfate t w ((hwaits t).symm.trans hw)
  fresh := fun t w hw => by
    rw [hnext, hticket, Log.returned, hreturns]
    exact hl.fresh t w ((hwaits t).symm.trans hw)
  distinct := fun t u w v hw hv => by
    rw [hticket]
    exact hl.distinct t u w v ((hwaits t).symm.trans hw) ((hwaits u).symm.trans hv)
  once := by
    rw [hout.nodup_iff]
    exact List.Nodup.append hl.once hks fun k hk hk' => (hnew k hk').1 hk
  held := fun k hk => by
    rw [Log.returned, hreturns, hticket]
    simp only [hwaits]
    rcases List.mem_append.mp (hout.mem_iff.mp hk) with hold | hk
    · exact hl.held k hold
    · exact .inr (hnew k hk).2
  found := hfound
  old := fun k hk => by
    rw [hnext]
    rw [Log.returned, hreturns] at hk
    exact hl.old k hk
  returned := by
    rw [Log.returned, hreturns]
    exact hl.returned
  results := fun k r hkr => by
    rw [hreturns] at hkr
    exact (hl.results k r hkr).imp (And.imp_left (hnotified ·)) (And.imp_left (htimeouts ·))

variable (hinv : Machine.Inv green s)

include hinv

omit [DecidableEq μ] [DecidableEq κ] in
theorem mem_taken (hw : waitOf (s.pc t) = some w) :
    h.ticket t ∈ taken s s' h c ↔ ∃ b, ⟨t, b⟩ ∈ s.cond c ∧ ⟨t, b⟩ ∉ s'.cond c := by
  simp only [taken, List.mem_map, List.mem_filter, decide_eq_true_eq]
  constructor
  · rintro ⟨⟨u, b⟩, ⟨hmem, hleft⟩, hticket⟩
    obtain ⟨v, hv, -⟩ := wait_queued hinv hmem
    obtain rfl := hl.distinct u t v w hv hw hticket
    exact ⟨b, hmem, hleft⟩
  · rintro ⟨b, hmem, hleft⟩
    exact ⟨⟨t, b⟩, ⟨hmem, hleft⟩, rfl⟩

omit [DecidableEq μ] [DecidableEq κ] in
theorem taken_new {k : Nat} (hk : k ∈ taken s s' h c) :
    k ∉ h.out ∧ ∃ t w, waitOf (s.pc t) = some w ∧ h.ticket t = k := by
  simp only [taken, List.mem_map, List.mem_filter] at hk
  obtain ⟨⟨t, b⟩, ⟨hmem, -⟩, rfl⟩ := hk
  obtain ⟨w, hw, rfl, rfl⟩ := wait_queued hinv hmem
  exact ⟨((hl.fate t w hw).of_queued hmem).1, t, w, hw, rfl⟩

omit [DecidableEq μ] [DecidableEq κ] in
theorem taken_nodup : (taken s s' h c).Nodup := by
  refine ((hinv.cond c).filter _).map_on fun i hi j hj hticket => ?_
  obtain ⟨t, b⟩ := i
  obtain ⟨u, d⟩ := j
  obtain ⟨v, hv, -, rfl⟩ := wait_queued hinv (List.mem_filter.mp hi).1
  obtain ⟨w, hw, -, rfl⟩ := wait_queued hinv (List.mem_filter.mp hj).1
  obtain rfl := hl.distinct t u v w hv hw hticket
  rw [Option.some.inj (hv.symm.trans hw)]

end Taken

/-! ### The ledger is kept -/

section Ledger

variable (hl : Ledger s h) (hinv : Machine.Inv green s) (hmove : Machine.Move C green s l s')

include hl hinv hmove

/-- What a notification does to the waits. -/
theorem fate_notified {left : List (SuspendedItem τ)} (hexpire : ∀ u, l ≠ .expire u)
    (hcond : s'.cond = Function.update s.cond c left) (hsub : left ⊆ s.cond c)
    (hstatus : s'.status = s.status)
    (hpunctual : ∀ i ∈ s.cond c, i ∉ left → unexpired s i = true) (hticket : h'.ticket = h.ticket)
    (hnotified : ∀ k, k ∈ h'.notified ↔ k ∈ h.notified ∨ k ∈ taken s s' h c)
    (htimeouts : h'.timeouts = h.timeouts) (hw : waitOf (s.pc t) = some w) : Fate s' h' t w := by
  have hfate := hl.fate t w hw
  by_cases hgone : ⟨t, w.timed⟩ ∈ s.cond w.cond ∧ ⟨t, w.timed⟩ ∉ s'.cond w.cond
  · obtain ⟨hmem, hleft⟩ := hgone
    have hc : w.cond = c := by
      by_contra hne
      rw [hcond, Function.update_of_ne hne] at hleft
      exact hleft hmem
    subst hc
    refine .notified hleft (fun d hexpired => ?_) ?_ ?_
    · have hold : s.timer t = .queued d false :=
        (timer_expired hmove hexpired).resolve_right fun harmed => hexpire t harmed.1
      have hun := hpunctual _ hmem (by rwa [hcond, Function.update_self] at hleft)
      simp [unexpired, hold] at hun
    · rw [hticket, hnotified]
      exact .inr ((mem_taken hl hinv hw).mpr ⟨_, hmem, hleft⟩)
    · have hret : s'.waitRet t w = s.waitRet t w := waitRet_congr (by rw [hstatus]) w
      rw [Untold, hret]
      exact (hfate.of_queued hmem).2
  · have hback : ⟨t, w.timed⟩ ∈ s'.cond w.cond → ⟨t, w.timed⟩ ∈ s.cond w.cond := by
      intro hmem
      by_cases hc : w.cond = c
      · subst hc
        rw [hcond, Function.update_self] at hmem
        exact hsub hmem
      · rwa [hcond, Function.update_of_ne hc] at hmem
    refine hfate.keep hinv hmove hw ⟨hback, fun hmem => not_not.mp fun hleft => hgone ⟨hmem, hleft⟩⟩
      (by rw [hstatus]) ?_
      (by rw [hticket, htimeouts])
    rw [hticket, hnotified, or_iff_left]
    intro htaken
    obtain ⟨b, hmem, hleft⟩ := (mem_taken hl hinv hw).mp htaken
    obtain ⟨v, hv, rfl, rfl⟩ := wait_queued hinv hmem
    obtain rfl := Option.some.inj (hv.symm.trans hw)
    exact hgone ⟨hmem, hleft⟩

theorem fate_timeout (hinv' : Machine.Inv green s') (htimer : s.timer l.thread = .queued c false)
    (htimer' : s'.timer l.thread = .idle)
    (hcond : s'.cond = Function.update s.cond c ((s.cond c).eraseP fun i => i.f = l.thread))
    (hstatus : s'.status = Function.update s.status l.thread .timeout) (hpc : s'.pc = s.pc)
    (hticket : h'.ticket = h.ticket)
    (hnotified : h'.notified = h.notified) (htimeouts : h'.timeouts = h.timeouts ++ taken s s' h c)
    (hw : waitOf (s.pc t) = some w) : Fate s' h' t w := by
  have hfate := hl.fate t w hw
  by_cases ht : t = l.thread
  · subst ht
    obtain ⟨v, hawaits⟩ := ConditionProtocol.awaits_of_timer hinv htimer
    obtain rfl := Option.some.inj ((ConditionProtocol.waitOf_of_awaits hawaits).symm.trans hw)
    have hcase := (ConditionProtocol.registered hinv hawaits).1.2
    simp only [Machine.State.view, htimer] at hcase
    have hcase' := (ConditionProtocol.registered hinv' (by rw [hpc]; exact hawaits)).1.2
    simp only [Machine.State.view, htimer'] at hcase'
    cases htimed : v.timed with
    | false => simp [htimed] at hcase
    | true =>
      simp only [htimed, reduceCtorEq, false_and, false_or, or_false, and_false, Timer.queued.injEq,
        and_true, true_and]
        at hcase hcase'
      obtain ⟨-, rfl⟩ := hcase
      have hmem := (hfate.of_expired htimer).1
      have hleft : ⟨l.thread, v.timed⟩ ∉ s'.cond v.cond := by
        rw [htimed]
        exact hcase'.2
      refine .timedOut hleft (fun d hd => by rw [htimer'] at hd; cases hd) ?_ ?_
      · rw [hticket, htimeouts]
        exact List.mem_append_right _ ((mem_taken hl hinv hw).mpr ⟨_, hmem, hleft⟩)
      · rw [Machine.State.waitRet, htimed, if_pos rfl, hstatus, Function.update_self]
  · have hqueue : ∀ d b, ⟨t, b⟩ ∈ s'.cond d ↔ ⟨t, b⟩ ∈ s.cond d := by
      intro d b
      by_cases hd : d = c
      · subst hd
        rw [hcond, Function.update_self, List.mem_eraseP_of_neg (by simpa using ht)]
      · rw [hcond, Function.update_of_ne hd]
    refine hfate.keep hinv hmove hw (hqueue _ _) (by rw [hstatus, Function.update_of_ne ht])
      (by rw [hticket, hnotified]) ?_
    rw [hticket, htimeouts, List.mem_append, or_iff_left]
    intro htaken
    obtain ⟨b, hmem, hleft⟩ := (mem_taken hl hinv hw).mp htaken
    exact hleft ((hqueue c b).mpr hmem)

end Ledger

omit [DecidableEq μ] [DecidableEq κ] in
theorem taken_one (hinv : Machine.Inv green s) {i : SuspendedItem τ} {rest : List (SuspendedItem τ)}
    (hqueue : s.cond c = i :: rest)
    (hcond : s'.cond c = rest) : taken s s' h c = [h.ticket i.f] := by
  have hnodup := hinv.cond c
  rw [hqueue, List.nodup_cons] at hnodup
  have hrest : (rest.filter fun j => j ∉ rest) = [] := by simp
  rw [taken, hqueue, hcond, List.filter_cons_of_pos (by simpa using hnodup.1), hrest,
    List.map_singleton]

omit [DecidableEq τ] [DecidableEq μ] [DecidableEq κ] in
theorem ledger_initial (start : τ → α) (data : σ) :
    Ledger (Machine.initial start data : Machine.State τ μ κ α σ) .empty where
  fate := fun _ _ => nofun
  fresh := fun _ _ => nofun
  distinct := fun _ _ _ _ => nofun
  once := .nil
  held := fun _ => nofun
  found := rfl
  old := fun _ => nofun
  returned := .nil
  results := fun _ _ => nofun

omit [DecidableEq τ] [DecidableEq μ] [DecidableEq κ] in
theorem Ledger.out_lt (hl : Ledger s h) {k : Nat} (hk : k ∈ h.out) : k < h.next := by
  rcases hl.held k hk with hold | ⟨t, w, hw, rfl⟩
  · exact hl.old k hold
  · exact (hl.fresh t w hw).1

theorem Ledger.joins (hl : Ledger s h) (hinv : Machine.Inv green s)
    (hmove : Machine.Move C green s l s')
    (hothers : ∀ u, u ≠ l.thread → s'.pc u = s.pc u) (hw : waitOf (s.pc l.thread) = none)
    (hw' : waitOf (s'.pc l.thread) = some w)
    (hcond : s'.cond = Function.update s.cond w.cond (s.cond w.cond ++ [⟨l.thread, w.timed⟩]))
    (hstatus : ∀ t, t ≠ l.thread → s'.status t = s.status t)
    (hfirst : w.timed = true → s'.status l.thread = .noTimeout)
    (hlog : h' = { h with
      next := h.next + 1, ticket := Function.update h.ticket l.thread h.next }) : Ledger s' h' := by
  have hself : h'.ticket l.thread = h.next := by
    rw [hlog]
    exact Function.update_self ..
  have hticket : ∀ {t}, t ≠ l.thread → h'.ticket t = h.ticket t := by
    intro t ht
    rw [hlog]
    exact Function.update_of_ne ht ..
  have hout : h'.out = h.out := by rw [hlog]; rfl
  have hreturned : h'.returned = h.returned := by rw [hlog]; rfl
  have hnext : h'.next = h.next + 1 := by rw [hlog]
  refine ⟨fun t v hv => ?_, fun t v hv => ?_, fun t u v v' hv hv' heq => ?_, hout ▸ hl.once,
    fun k hk => ?_, ?_, fun k hk => ?_,
    hreturned ▸ hl.returned, by rw [hlog]; exact hl.results⟩
  · by_cases ht : t = l.thread
    · subst ht
      obtain rfl := Option.some.inj (hw'.symm.trans hv)
      refine .queued (by simp [hcond]) ?_ ?_
      · rw [hself, hout]
        exact fun hk => absurd (hl.out_lt hk) (Nat.lt_irrefl _)
      · unfold Untold Machine.State.waitRet
        cases htimed : w.timed with
        | false => exact .inl rfl
        | true => exact .inr (by rw [if_pos rfl, hfirst htimed])
    · rw [hothers t ht] at hv
      refine (hl.fate t v hv).keep hinv hmove hv ?_ (hstatus t ht) ?_ ?_
      · by_cases hc : v.cond = w.cond
        · simp [hcond, hc, ht]
        · simp [hcond, hc]
      · rw [hticket ht, hlog]
        rfl
      · rw [hticket ht, hlog]
  · rw [hreturned, hnext]
    by_cases ht : t = l.thread
    · rw [ht, hself]
      exact ⟨Nat.lt_succ_self _, fun hk => absurd (hl.old _ hk) (Nat.lt_irrefl _)⟩
    · rw [hticket ht]
      rw [hothers t ht] at hv
      exact ⟨Nat.lt_succ_of_lt (hl.fresh t v hv).1, (hl.fresh t v hv).2⟩
  · -- the new number is above those of the other waits
    have hnew : ∀ {t v}, t ≠ l.thread → waitOf (s'.pc t) = some v →
      h'.ticket t ≠ h'.ticket l.thread := by
      intro t v ht hv heq
      rw [hticket ht, hself] at heq
      rw [hothers t ht] at hv
      exact absurd (hl.fresh t v hv).1 (by rw [heq]; exact Nat.lt_irrefl _)
    by_cases ht : t = l.thread <;> by_cases hu : u = l.thread
    · rw [ht, hu]
    · exact absurd (ht ▸ heq.symm) (hnew hu hv')
    · exact absurd (hu ▸ heq) (hnew ht hv)
    · rw [hothers t ht] at hv
      rw [hothers u hu] at hv'
      rw [hticket ht, hticket hu] at heq
      exact hl.distinct t u v v' hv hv' heq
  · rw [hout] at hk
    rw [hreturned]
    rcases hl.held k hk with hold | ⟨t, v, hv, rfl⟩
    · exact .inl hold
    · have ht : t ≠ l.thread := by
        rintro rfl
        rw [hw] at hv
        cases hv
      exact .inr ⟨t, v, by rwa [hothers t ht], hticket ht⟩
  · rw [hlog]
    exact hl.found
  · rw [hreturned] at hk
    rw [hnext]
    exact Nat.lt_succ_of_lt (hl.old k hk)

/-- A wait returns what was decided when its thread was taken out. -/
theorem Ledger.returns (hl : Ledger s h) (hinv : Machine.Inv green s)
    (hmove : Machine.Move C green s l s')
    (hothers : ∀ u, u ≠ l.thread → s'.pc u = s.pc u) (hw : waitOf (s.pc l.thread) = some w)
    (hw' : waitOf (s'.pc l.thread) = none)
    (hawaits : awaits (s.pc l.thread) = none) (hcond : s'.cond = s.cond)
    (hstatus : s'.status = s.status) :
    Ledger s' { h with returns := h.returns ++ [(h.ticket l.thread, s.waitRet l.thread w)] } := by
  have hstill : ∀ {t v}, waitOf (s'.pc t) = some v → t ≠ l.thread ∧ waitOf (s.pc t) = some v := by
    intro t v hv
    have ht : t ≠ l.thread := by
      rintro rfl
      rw [hw'] at hv
      cases hv
    exact ⟨ht, by rwa [← hothers t ht]⟩
  have hreturned :
    ({ h with returns := h.returns ++ [(h.ticket l.thread, s.waitRet l.thread w)] } :
      Log τ).returned =
      h.returned ++ [h.ticket l.thread] := List.map_append
  refine ⟨fun t v hv => ?_, fun t v hv => ?_, fun t u v v' hv hv' => ?_, hl.once, fun k hk => ?_,
    hl.found, fun k hk => ?_, ?_,
    fun k r hkr => ?_⟩
  · exact (hl.fate t v (hstill hv).2).keep hinv hmove (hstill hv).2 (by rw [hcond])
      (by rw [hstatus]) Iff.rfl Iff.rfl
  · obtain ⟨ht, hv⟩ := hstill hv
    obtain ⟨hlt, hnot⟩ := hl.fresh t v hv
    refine ⟨hlt, ?_⟩
    rw [hreturned, List.mem_append, List.mem_singleton, not_or]
    exact ⟨hnot, fun heq => ht (hl.distinct t _ v w hv hw heq)⟩
  · exact hl.distinct t u v v' (hstill hv).2 (hstill hv').2
  · rw [hreturned, List.mem_append, List.mem_singleton]
    rcases hl.held k hk with hold | ⟨t, v, hv, rfl⟩
    · exact .inl (.inl hold)
    · by_cases ht : t = l.thread
      · exact .inl (.inr (by rw [ht]))
      · exact .inr ⟨t, v, by rwa [hothers t ht], rfl⟩
  · rw [hreturned, List.mem_append, List.mem_singleton] at hk
    rcases hk with hold | rfl
    · exact hl.old k hold
    · exact (hl.fresh _ w hw).1
  · rw [hreturned]
    exact List.Nodup.append hl.returned (List.nodup_singleton _)
      (by simpa using (hl.fresh _ w hw).2)
  · rcases List.mem_append.mp hkr with hold | hnew
    · exact hl.results k r hold
    · obtain ⟨rfl, rfl⟩ := Prod.mk.inj (List.mem_singleton.mp hnew)
      cases hl.fate _ w hw with
      | queued hmem => exact absurd hmem ((ConditionProtocol.unregistered hinv hawaits).2 _ _)
      | notified _ _ hmem hret => exact .inl ⟨hmem, hret⟩
      | timedOut _ _ hmem hret => exact .inr ⟨hmem, hret⟩

theorem Ledger.step (hl : Ledger s h) (hinv : Machine.Inv green s) (hinv' : Machine.Inv green s')
    (hcalled : ∀ t, (s.pc t).Called C) (hmove : Machine.Move C green s l s')
    (hok : punctual C s l = true) :
    Ledger s' (record C s l s' h) := by
  have hothers : ∀ u, u ≠ l.thread → s'.pc u = s.pc u := fun u hu => hmove.pc_ne hcalled hu
  have hwaits : waitOf (s'.pc l.thread) = waitOf (s.pc l.thread) →
    ∀ t, waitOf (s'.pc t) = waitOf (s.pc t) := by
    intro hwait t
    by_cases ht : t = l.thread
    · rw [ht, hwait]
    · rw [hothers t ht]
  have hks : ∀ c, (taken s s' h c).Nodup := fun c => taken_nodup hl hinv
  cases logStep hmove (h := h) with
  | quiet hcond hstatus hwait hrecord =>
    rw [hrecord]
    refine hl.takes (hwaits hwait) rfl rfl rfl (by rw [List.append_nil]) .nil
      (fun _ => nofun) hl.found (List.Subset.refl _)
      (List.Subset.refl _) fun t w hw => ?_
    exact (hl.fate t w hw).keep hinv hmove hw (by rw [hcond]) (by rw [hstatus]) Iff.rfl Iff.rfl
  | joins hw hw' hcond hstatus hfirst hrecord =>
    exact hl.joins hinv hmove hothers hw hw' hcond hstatus hfirst hrecord
  | @one c i rest hqueue hcond hstatus hwait hcall hpunctual hrecord =>
    have htaken := taken_one (h := h) hinv hqueue (by rw [hcond, Function.update_self])
    have hun : ∀ j ∈ s.cond c, j ∉ rest → unexpired s j = true := by
      intro j hj hleft
      rw [hqueue, List.mem_cons] at hj
      obtain rfl := hj.resolve_right hleft
      exact hpunctual hok
    rw [hrecord]
    refine hl.takes (hwaits hwait) rfl rfl rfl ?_ (hks c) (fun k => taken_new hl hinv) ?_ ?_
      (List.Subset.refl _) fun t w hw => ?_
    · simp only [Log.out, List.perm_iff_count, List.count_append]
      omega
    · rw [List.length_append, htaken, hl.found, List.length_singleton]
    · simp [Log.notified]
    · refine fate_notified hl hinv hmove hcall hcond (by simp [hqueue]) hstatus hun rfl
        (fun k => ?_) rfl hw
      simp only [Log.notified, List.mem_append]
      exact or_right_comm
  | @all c hcond hstatus hwait hcall hpunctual hrecord =>
    rw [hrecord]
    refine hl.takes (hwaits hwait) rfl rfl rfl ?_ (hks c) (fun k => taken_new hl hinv) hl.found ?_
      (List.Subset.refl _) fun t w hw => ?_
    · simp only [Log.out, List.perm_iff_count, List.count_append]
      omega
    · simp [Log.notified]
    · refine fate_notified hl hinv hmove hcall hcond (List.nil_subset _) hstatus
        (fun i hi _ => hpunctual hok i hi) rfl
        (fun k => ?_) rfl hw
      simp only [Log.notified, List.mem_append]
      exact or_assoc.symm
  | @timeout c htimer htimer' hcond hstatus hpc hrecord =>
    rw [hrecord]
    refine hl.takes (fun t => by rw [hpc]) rfl rfl rfl ?_ (hks c) (fun k => taken_new hl hinv)
      hl.found (List.Subset.refl _) (List.subset_append_left _ _) fun t w hw => ?_
    · simp only [Log.out, List.perm_iff_count, List.count_append]
      omega
    · exact fate_timeout hl hinv hmove hinv' htimer htimer' hcond hstatus hpc rfl rfl rfl hw
  | returns hw hw' hawaits hcond hstatus hrecord =>
    rw [hrecord]
    exact hl.returns hinv hmove hothers hw hw' hawaits hcond hstatus

omit [DecidableEq τ] [DecidableEq μ] [DecidableEq κ] in
theorem Ledger.tells (hl : Ledger s h) (hinv : Machine.Inv green s) : Truthful s h where
  once := hl.once
  found := hl.found
  returned := hl.returned
  results := hl.results
  pending := fun k hk => by
    refine (hl.held k hk).imp_right ?_
    rintro ⟨t, w, hw, rfl⟩
    refine ⟨t, w, hw, rfl, fun a hpc => ?_⟩
    have hreg := (ConditionProtocol.registered hinv (u := t) (w := w) (by rw [hpc]; rfl)).1
    by_cases hpending : s.pending t = 0
    · rw [hpending, Nat.zero_sub] at hreg
      exact .inr (hreg.waiting.resolve_left ((hl.fate t w hw).left hk))
    · exact .inl (Nat.pos_of_ne_zero hpending)

end Steps

variable {C : Client τ μ κ α σ ω} {green : τ → Bool} {start : τ → α} {data : σ}

/-- The results of the waits tell the truth in every run in which no notification takes out a waiter
whose timer has expired. -/
theorem truthful {sh : Machine.State τ μ κ α σ × Log τ}
    (hreach : (system C green start data).Reach (fun sh l => punctual C sh.1 l = true) sh) :
    Truthful sh.1 sh.2 := by
  refine Ledger.tells ?_ (Machine.reach_inv hreach.forget)
  refine hreach.invariant (I := fun sh => Ledger sh.1 sh.2) ?_ ?_
  · rintro ⟨s, h⟩ ⟨hs, rfl⟩
    cases hs
    exact ledger_initial start data
  · rintro ⟨s, h⟩ l sh' hr hl hok hstep
    obtain ⟨s', hs', rfl⟩ := TransitionSystem.withHistory_step.mp hstep
    have hinv := Machine.reach_inv hr.forget
    have hinv' := Machine.reach_inv (hr.forget.step trivial hs')
    exact hl.step hinv hinv' (Machine.reach_called hr.forget) (Machine.step_move hinv hs') hok

/-- Thread 0 and thread 1 wait with timers; thread 2 notifies thread 0, and the timer of thread 1
expires. -/
theorem truthful_both :
    ∃ sh : Machine.State (Fin 3) Unit Unit (Option (Call Unit Unit)) Unit × Log (Fin 3),
    Truthful sh.1 sh.2 ∧ sh.2.ones = [0] ∧ sh.2.timeouts = [1] ∧
      sh.2.returns = [(0, .status .noTimeout), (1, .status .timeout)] := by
  let labels : List (Machine.Label (Fin 3) (Call Unit Unit)) :=
    [.act 0 (.lock ()), .call 0 false, .act 0 (.waitRel () ()), .call 0 false, .proceed 0 false,
      .act 1 (.lock ()), .call 1 false, .act 1 (.waitRel () ()), .call 1 false, .proceed 1 false,
      .act 2 (.notifyOne ()), .call 2 false, .expire 1, .handler 0, .handler 1, .deliver 0, .wake 0,
      .proceed 0 false, .act 0 (.unlock ()), .call 0 false, .deliver 1, .wake 1, .proceed 1 false]
  have hreach := (system ConditionProtocol.anyCalls (fun _ => true) (fun _ => none) ()).reach_of_run
    (fun sh l => punctual ConditionProtocol.anyCalls sh.1 l)
      (Machine.initial (fun _ => none) (), .empty) ⟨rfl, rfl⟩ labels rfl
  exact ⟨_, truthful hreach, rfl, rfl, rfl⟩

/-- The timer of thread 0 expires, thread 1 takes thread 0 out with `notify_one`, and the handler of
the timer is run: the wait that was notified gives `timeout`. -/
theorem notified_timeout :
    ∃ sh : Machine.State (Fin 2) Unit Unit (Option (Call Unit Unit)) Unit × Log (Fin 2),
    (system ConditionProtocol.anyCalls (fun _ => true) (fun _ => none) ()).Reachable sh ∧
    sh.2.ones = [0] ∧
      sh.2.timeouts = [] ∧ sh.2.returns = [(0, .status .timeout)] ∧ ¬ Truthful sh.1 sh.2 := by
  let labels : List (Machine.Label (Fin 2) (Call Unit Unit)) :=
    [.act 0 (.lock ()), .call 0 false, .act 0 (.waitRel () ()), .call 0 false, .proceed 0 false,
      .expire 0, .act 1 (.notifyOne ()), .call 1 false, .handler 0, .deliver 0, .wake 0,
      .proceed 0 false]
  have hreach :=
    ((system ConditionProtocol.anyCalls (fun _ => true) (fun _ => none) ()).reach_of_run
      (fun _ _ => true)
    (Machine.initial (fun _ => none) (), .empty) ⟨rfl, rfl⟩ labels rfl).reachable
  refine ⟨_, hreach, rfl, rfl, rfl, fun htruthful => ?_⟩
  rcases htruthful.results 0 (.status .timeout) (List.mem_singleton.mpr rfl) with
    ⟨-, hdone | hstatus⟩ | ⟨hmem, -⟩
  · cases hdone
  · cases hstatus
  · cases hmem

end ConditionTimeout

end GreenThread
