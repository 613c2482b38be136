import GreenThread.Machine.Discipline

/-!
# The condition variable protocol

What a wait is promised, whatever the clients do with the mutexes and the condition variables. A log
watches the run: it gives every registration in a queue a ticket, lists the resumes a thread was
given since it registered and where each came from, and remembers whether a notification or the
timeout took the thread out of its queue.
-/

namespace GreenThread

namespace ConditionProtocol

variable {τ μ κ α σ ω : Type} [DecidableEq τ] [DecidableEq μ] [DecidableEq κ]

/-- Where a resume of a waiting thread came from: a notification that removed it from its queue, the
handler of its own timer, or anything else. -/
inductive Source (τ : Type)
  | notify (notifier : τ)
  | handler
  | other
  deriving DecidableEq, Repr

structure Log (τ κ : Type) where
  next : Nat
  ticket : τ → Nat
  resumes : τ → List (Source τ)
  notified : τ → Bool
  timedOut : τ → Bool
  /-- the tickets of the threads `notify_one` removed from a queue -/
  removals : κ → List Nat

def Log.empty : Log τ κ := ⟨0, fun _ => 0, fun _ => [], fun _ => false, fun _ => false, fun _ => []⟩

/-- The wait a thread is in. -/
def waitOf : PC μ κ α → Option (WaitCall μ κ)
  | .unlocking w _ | .unlockYield w _ | .pausing w _ | .relocking w _ | .relockPause w _ => some w
  | _ => none

/-- The wait a thread is in while its pause has not returned. -/
def awaits : PC μ κ α → Option (WaitCall μ κ)
  | .unlocking w _ | .unlockYield w _ | .pausing w _ => some w
  | _ => none

section Record

variable (C : Client τ μ κ α σ ω) (s : Machine.State τ μ κ α σ) (l : Machine.Label τ ω)
  (s' : Machine.State τ μ κ α σ)

/-- The condition variable and the caller of the `notify_one` or `notify_all` the step is. -/
def notifier : Option (τ × κ) :=
  match l with
  | .call n _ =>
    match s.pc n with
    | .user a =>
      match C.call a with
      | some (.notifyOne c) | some (.notifyAll c) => some (n, c)
      | _ => none
    | _ => none
  | _ => none

/-- The thread that registers in a queue. -/
def registers : Option τ :=
  match l with
  | .call t _ => if (awaits (s'.pc t)).isSome then some t else none
  | _ => none

/-- The step takes the thread out of the queue of its wait. -/
def removed (u : τ) : Bool :=
  match awaits (s.pc u) with
  | some w => ⟨u, w.timed⟩ ∈ s.cond w.cond ∧ ⟨u, w.timed⟩ ∉ s'.cond w.cond
  | none => false

/-- The step is the `yield` of the thread's own `m.unlock()`. -/
def ownYield (u : τ) : Bool :=
  match l with
  | .proceed t _ => t = u
  | _ => false

/-- The step gives an activation to a thread whose pause has not returned. -/
def resumed (u : τ) : Bool :=
  (awaits (s.pc u)).isSome ∧ s.pending u < s'.pending u ∧ ¬ ownYield l u

def source (u : τ) : Source τ :=
  match l, notifier C s l with
  | .handler t, _ => if t = u then .handler else .other
  | _, some (n, _) => if removed s s' u then .notify n else .other
  | _, none => .other

/-- The handler of the thread's timer is run after the timer expired. -/
def expires (u : τ) : Bool :=
  match l, s.timer u with
  | .handler t, .queued _ false => t = u
  | _, _ => false

/-- The tickets of the threads a `notify_one` removes from the queue of `c`. -/
def removals (ticket : τ → Nat) (c : κ) : List Nat :=
  match l with
  | .call n _ =>
    match s.pc n with
    | .user a =>
      if C.call a = some (.notifyOne c) then
        ((s.cond c).filter fun i => i ∉ s'.cond c).map fun i => ticket i.f
      else []
    | _ => []
  | _ => []

def record (h : Log τ κ) : Log τ κ :=
  match registers l s' with
  | some t =>
    { h with
      next := h.next + 1
      ticket := Function.update h.ticket t h.next
      resumes := Function.update h.resumes t []
      notified := Function.update h.notified t false
      timedOut := Function.update h.timedOut t false }
  | none =>
    { h with
      resumes := fun u => if resumed s l s' u then h.resumes u ++ [source C s l s' u]
        else h.resumes u
      notified := fun u => h.notified u || ((notifier C s l).isSome && removed s s' u)
      timedOut := fun u => h.timedOut u || expires s l u
      removals := fun c => h.removals c ++ removals C s l s' h.ticket c }

end Record

def system (C : Client τ μ κ α σ ω) (green : τ → Bool) (start : τ → α) (data : σ) :
    TransitionSystem (Machine.State τ μ κ α σ × Log τ κ) (Machine.Label τ ω) :=
  (Machine.system C green start data).withHistory .empty fun h s l s' => record C s l s' h

/-- What holds of every wait. -/
structure Protocol (s : Machine.State τ μ κ α σ) (h : Log τ κ) : Prop where
  /-- at most one resume is given for a pause, by the notification that removed the thread or by the
  handler of its timer -/
  resumes : ∀ t w, waitOf (s.pc t) = some w → (h.resumes t).length ≤ 1 ∧ .other ∉ h.resumes t
  /-- until the pause returns, the pending activations are that resume and the activation of the
  thread's own `yield` -/
  unlocking : ∀ t w a, s.pc t = .unlocking w a → s.pending t = (h.resumes t).length
  yielding : ∀ t w a, s.pc t = .unlockYield w a → s.pending t = (h.resumes t).length + 1
  pausing : ∀ t w a, s.pc t = .pausing w a → s.pending t = (h.resumes t).length
  /-- a pause that has returned was given exactly one resume -/
  matched : ∀ t w a, s.pc t = .relocking w a ∨ s.pc t = .relockPause w a → (h.resumes t).length = 1
  /-- a thread without a resume is still queued, or the handler of its timer has not run -/
  kept : ∀ t w, awaits (s.pc t) = some w → h.resumes t = [] →
    ⟨t, w.timed⟩ ∈ s.cond w.cond ∨ ∃ aborted, s.timer t = .queued w.cond aborted
  /-- a queue is in the order of registration, and whoever `notify_one` removed had registered
  before all that are left -/
  queue : ∀ c, (s.cond c).Pairwise fun i j => h.ticket i.f < h.ticket j.f
  removals : ∀ c, (h.removals c).Pairwise (· < ·)
  order : ∀ c, ∀ k ∈ h.removals c, ∀ i ∈ s.cond c, k < h.ticket i.f
  /-- a thread that is in no wait is in no queue -/
  left : ∀ t, waitOf (s.pc t) = none → ∀ c b, ⟨t, b⟩ ∉ s.cond c
  /-- a thread in a wait is in its queue unless it was notified or timed out -/
  found : ∀ t w, waitOf (s.pc t) = some w →
    ⟨t, w.timed⟩ ∈ s.cond w.cond ∨ h.notified t = true ∨ h.timedOut t = true

/-! ### The log of one thread -/

/-- The activations pending for the thread's own `yield`. -/
def ownYields : PC μ κ α → Nat
  | .unlockYield _ _ => 1
  | _ => 0

/-- What the log says of a thread, from its position, its pending activations and whether it is in
its queue. -/
def LogOk (p : PC μ κ α) (pending : Nat) (inQueue : WaitCall μ κ → Prop) (r : List (Source τ))
    (out : Prop) : Prop :=
  .other ∉ r ∧
    (∀ w, awaits p = some w → pending = r.length + ownYields p ∧ (inQueue w ∨ out)) ∧
    (awaits p = none → waitOf p ≠ none → r.length = 1 ∧ out)

def ThreadLog (s : Machine.State τ μ κ α σ) (h : Log τ κ) (t : τ) : Prop :=
  LogOk (s.pc t) (s.pending t) (fun w => ⟨t, w.timed⟩ ∈ s.cond w.cond) (h.resumes t)
    (h.notified t = true ∨ h.timedOut t = true)

section Threads

variable {C : Client τ μ κ α σ ω} {green : τ → Bool} {s s' : Machine.State τ μ κ α σ}
  {l : Machine.Label τ ω} {h : Log τ κ} {t u : τ} {w : WaitCall μ κ}

omit [DecidableEq μ] [DecidableEq κ] in
theorem waitOf_of_awaits {p : PC μ κ α} (hp : awaits p = some w) : waitOf p = some w := by
  cases p <;> simp_all [awaits, waitOf]

omit [DecidableEq τ] [DecidableEq μ] [DecidableEq κ] in
theorem registered (hinv : Machine.Inv green s) (hw : awaits (s.pc u) = some w) :
    (s.view u).Registered w (s.pending u - ownYields (s.pc u)) ∧
    ∀ m, u ∉ (s.mutex m).suspended := by
  have hthread := hinv.thread u
  cases hpc : s.pc u <;> rw [hpc] at hw
    <;> simp only [awaits, reduceCtorEq, Option.some.injEq] at hw <;>
    subst hw <;> simp only [Machine.View.Ok, Machine.State.view, hpc] at hthread
  · exact ⟨by simpa [ownYields, Machine.State.view, hpc] using hthread.2.2, hthread.1⟩
  · exact ⟨by simpa [ownYields, Machine.State.view, hpc] using hthread.2.2.2, hthread.1⟩
  · exact ⟨by simpa [ownYields, Machine.State.view, hpc] using hthread.2.2, hthread.1⟩

omit [DecidableEq τ] [DecidableEq μ] [DecidableEq κ] in
theorem queued_only (hinv : Machine.Inv green s) (hw : awaits (s.pc u) = some w) {c : κ} {b : Bool}
    (hmem : ⟨u, b⟩ ∈ s.cond c) : c = w.cond ∧ b = w.timed :=
  (registered hinv hw).1.1 c b hmem

omit [DecidableEq τ] [DecidableEq μ] [DecidableEq κ] in
theorem unregistered (hinv : Machine.Inv green s) (hw : awaits (s.pc u) = none) :
    s.timer u = .idle ∧ ∀ c b, (⟨u, b⟩ : SuspendedItem τ) ∉ s.cond c := by
  have hthread := hinv.thread u
  cases hpc : s.pc u <;> rw [hpc] at hw <;> simp only [awaits, reduceCtorEq] at hw <;>
    simp only [Machine.View.Ok, Machine.State.view, hpc] at hthread
  · exact hthread.2.1
  · exact hthread.2
  · exact hthread.2.1
  · exact hthread.2.2.1
  · exact hthread.2

theorem record_quiet (hreg : registers l s' ≠ some u) (hresumed : resumed s l s' u = false)
    (hremoved : removed s s' u = false) (hexpires : expires s l u = false) :
    (record C s l s' h).resumes u = h.resumes u ∧ (record C s l s' h).notified u = h.notified u ∧
      (record C s l s' h).timedOut u = h.timedOut u := by
  unfold record
  split
  · rename_i t ht
    have hu : u ≠ t := by
      rintro rfl
      exact hreg ht
    simp [hu]
  · simp [hresumed, hremoved, hexpires]

theorem record_outside (hinv : Machine.Inv green s) (hreg : registers l s' ≠ some u)
    (hw : awaits (s.pc u) = none) :
    (record C s l s' h).resumes u = h.resumes u ∧ (record C s l s' h).notified u = h.notified u ∧
      (record C s l s' h).timedOut u = h.timedOut u := by
  refine record_quiet hreg (by simp [resumed, hw]) (by simp [removed, hw]) ?_
  simp [expires, (unregistered hinv hw).1]

theorem ThreadLog.outside (hlog : ThreadLog s h u) (hinv : Machine.Inv green s)
    (hreg : registers l s' ≠ some u) (hw : awaits (s.pc u) = none) (hw' : awaits (s'.pc u) = none)
    (hpc : waitOf (s'.pc u) ≠ none → waitOf (s.pc u) ≠ none) :
    ThreadLog s' (record C s l s' h) u := by
  obtain ⟨hresumes, hnotified, htimedOut⟩ := record_outside (C := C) (h := h) hinv hreg hw
  unfold ThreadLog LogOk at hlog ⊢
  rw [hresumes, hnotified, htimedOut]
  refine ⟨hlog.1, fun w hsome => ?_, fun _ hin => hlog.2.2 hw (hpc hin)⟩
  rw [hw'] at hsome
  cases hsome

theorem ThreadLog.quiet (hlog : ThreadLog s h u) (hreg : registers l s' ≠ some u)
    (hpc : s'.pc u = s.pc u)
    (hpending : s'.pending u = s.pending u) (hcond : ∀ c b, ⟨u, b⟩ ∈ s'.cond c ↔ ⟨u, b⟩ ∈ s.cond c)
    (hexpires : expires s l u = false) : ThreadLog s' (record C s l s' h) u := by
  have hresumed : resumed s l s' u = false := by simp [resumed, hpending]
  have hremoved : removed s s' u = false := by
    unfold removed
    split
    · simp [hcond]
    · rfl
  obtain ⟨hresumes, hnotified, htimedOut⟩ :=
    record_quiet (C := C) (h := h) hreg hresumed hremoved hexpires
  unfold ThreadLog at hlog ⊢
  rw [hresumes, hnotified, htimedOut, hpc, hpending]
  simpa only [hcond] using hlog

omit [DecidableEq τ] [DecidableEq μ] [DecidableEq κ] in
/-- What the log says of a thread whose pause has not returned. -/
theorem logOk_awaits {p : PC μ κ α} (hw : awaits p = some w) {n : Nat}
    {inQueue : WaitCall μ κ → Prop} {r : List (Source τ)} {out : Prop} :
    LogOk p n inQueue r out ↔ .other ∉ r ∧ n = r.length + ownYields p ∧ (inQueue w ∨ out) := by
  simp [LogOk, hw]

theorem record_resumed (hreg : registers l s' = none) (hresumed : resumed s l s' u = true) :
    (record C s l s' h).resumes u = h.resumes u ++ [source C s l s' u] := by
  simp [record, hreg, hresumed]

theorem ThreadLog.notified (hlog : ThreadLog s h u) (hreg : registers l s' = none)
    (hw : awaits (s.pc u) = some w) {n : τ}
    (hnotifier : notifier C s l = some (n, w.cond)) (hpc : s'.pc u = s.pc u)
    (hpending : s'.pending u = s.pending u + if w.timed then 0 else 1)
    (hin : ⟨u, w.timed⟩ ∈ s.cond w.cond) (hout : ⟨u, w.timed⟩ ∉ s'.cond w.cond) :
    ThreadLog s' (record C s l s' h) u := by
  have hremoved : removed s s' u = true := by simp [removed, hw, hin, hout]
  have hown : ownYield l u = false := by
    cases l <;> simp_all [notifier, ownYield]
  have hsource : source C s l s' u = .notify n := by
    cases l <;> simp_all [notifier, source]
  have hnotified : (record C s l s' h).notified u = true := by
    simp [record, hreg, hremoved, hnotifier]
  unfold ThreadLog at hlog ⊢
  rw [hpc, logOk_awaits hw] at *
  obtain ⟨hother, hcount, -⟩ := hlog
  cases htimed : w.timed with
  | true =>
    rw [htimed, if_pos rfl] at hpending
    have hresumed : resumed s l s' u = false := by simp [resumed, hpending]
    have hresumes : (record C s l s' h).resumes u = h.resumes u := by simp [record, hreg, hresumed]
    rw [hresumes]
    exact ⟨hother, hpending.trans hcount, .inr (.inl hnotified)⟩
  | false =>
    rw [htimed, if_neg (by simp)] at hpending
    have hresumed : resumed s l s' u = true := by simp [resumed, hpending, hw, hown]
    rw [record_resumed hreg hresumed, hsource]
    refine ⟨by simpa using hother, ?_, .inr (.inl hnotified)⟩
    rw [hpending, hcount, List.length_append, List.length_singleton]
    omega

theorem ThreadLog.handled (hlog : ThreadLog s h u) (hw : awaits (s.pc u) = some w)
    (hpc : s'.pc u = s.pc u) (hpending : s'.pending u = s.pending u + 1)
    (hout : ⟨u, w.timed⟩ ∈ s'.cond w.cond ∨ expires s (.handler u : Machine.Label τ ω) u = true ∨
      ⟨u, w.timed⟩ ∉ s.cond w.cond) :
    ThreadLog s' (record C s (.handler u) s' h) u := by
  have hreg : registers (.handler u : Machine.Label τ ω) s' = none := rfl
  have hresumed : resumed s (.handler u : Machine.Label τ ω) s' u = true := by
    simp [resumed, hpending, hw, ownYield]
  have hsource : source C s (.handler u) s' u = .handler := by simp [source]
  unfold ThreadLog at hlog ⊢
  rw [hpc, logOk_awaits hw] at *
  obtain ⟨hother, hcount, hfound⟩ := hlog
  rw [record_resumed hreg hresumed, hsource]
  refine ⟨by simpa using hother, ?_, ?_⟩
  · rw [hpending, hcount, List.length_append, List.length_singleton]
    omega
  · have hgrow : h.notified u = true ∨ h.timedOut u = true →
        (record C s (.handler u) s' h).notified u = true ∨
        (record C s (.handler u) s' h).timedOut u = true := by
      rintro (hn | ht)
      · exact .inl (by simp [record, registers, hn])
      · exact .inr (by simp [record, registers, ht])
    rcases hout with hstays | hexpires | hgone
    · exact .inl hstays
    · exact .inr (.inr (by simp [record, registers, hexpires]))
    · exact .inr (hgrow (hfound.resolve_left hgone))

theorem ThreadLog.registered (hreg : registers l s' = some u) {a : α}
    (hpc : s'.pc u = .unlocking w a)
    (hpending : s'.pending u = 0) (hin : ⟨u, w.timed⟩ ∈ s'.cond w.cond) :
    ThreadLog s' (record C s l s' h) u := by
  unfold ThreadLog
  rw [hpc, logOk_awaits rfl]
  simp [record, hreg, ownYields, hpending, hin]

theorem ThreadLog.proceeds (hlog : ThreadLog s h u) (hquiet : resumed s l s' u = false)
    (hreg : registers l s' ≠ some u) (hexpires : expires s l u = false)
    (hw : awaits (s.pc u) = some w) (hw' : awaits (s'.pc u) = some w) (hcond : s'.cond = s.cond)
    (hpending : s'.pending u + ownYields (s.pc u) = s.pending u + ownYields (s'.pc u)) :
    ThreadLog s' (record C s l s' h) u := by
  have hremoved : removed s s' u = false := by simp [removed, hw, hcond]
  obtain ⟨hresumes, hnotified, htimedOut⟩ :=
    record_quiet (C := C) (h := h) hreg hquiet hremoved hexpires
  unfold ThreadLog at hlog ⊢
  rw [logOk_awaits hw] at hlog
  rw [logOk_awaits hw', hresumes, hnotified, htimedOut, hcond]
  exact ⟨hlog.1, by omega, hlog.2.2⟩

/-- The pause returns: the thread was resumed exactly once. -/
theorem ThreadLog.returns (hlog : ThreadLog s h u) (hinv : Machine.Inv green s)
    (hreg : registers l s' ≠ some u) (hquiet : resumed s l s' u = false)
    (hexpires : expires s l u = false) {a : α} (hpc : s.pc u = .pausing w a)
    (hpos : 0 < s.pending u) (hpc' : s'.pc u = .relocking w a) (hcond : s'.cond = s.cond) :
    ThreadLog s' (record C s l s' h) u := by
  have hw : awaits (s.pc u) = some w := by rw [hpc, awaits]
  have hremoved : removed s s' u = false := by simp [removed, hw, hcond]
  obtain ⟨hresumes, hnotified, htimedOut⟩ :=
    record_quiet (C := C) (h := h) hreg hquiet hremoved hexpires
  have hthread := hinv.thread u
  simp only [Machine.View.Ok, Machine.State.view, hpc] at hthread
  obtain ⟨hone, -, hgone⟩ := hthread.2.2.resumed hpos
  unfold ThreadLog at hlog ⊢
  rw [logOk_awaits hw, hpc] at hlog
  rw [hresumes, hnotified, htimedOut, hpc']
  obtain ⟨hother, hcount, hfound⟩ := hlog
  simp only [ownYields] at hcount
  exact ⟨hother, fun _ hsome => by simp [awaits] at hsome,
    fun _ _ => ⟨by omega, hfound.resolve_left hgone⟩⟩

omit [DecidableEq τ] [DecidableEq μ] [DecidableEq κ] in
theorem registers_call {switch : Bool} (hw : awaits (s'.pc t) = none) :
    registers (.call t switch : Machine.Label τ ω) s' = none := by
  simp [registers, hw]

omit [DecidableEq τ] [DecidableEq μ] [DecidableEq κ] in
theorem awaits_of_queued (hinv : Machine.Inv green s) {m : μ} (hmem : u ∈ (s.mutex m).suspended) :
    awaits (s.pc u) = none := by
  cases hw : awaits (s.pc u) with
  | none => rfl
  | some w => exact absurd hmem ((registered hinv hw).2 m)

theorem ThreadLog.other (hlog : ThreadLog s h u) (hinv : Machine.Inv green s)
    (hreg : registers l s' ≠ some u) (hexpires : expires s l u = false) (hpc : s'.pc u = s.pc u)
    (hpending : awaits (s.pc u) = none ∨ s'.pending u = s.pending u) (hcond : s'.cond = s.cond) :
    ThreadLog s' (record C s l s' h) u := by
  rcases hpending with hw | hpending
  · exact hlog.outside hinv hreg hw (by rw [hpc, hw]) (by rw [hpc]; exact id)
  · exact hlog.quiet hreg hpc hpending (fun c b => by rw [hcond]) hexpires

theorem threadLog_local (hlog : ∀ u, ThreadLog s h u) (hinv : Machine.Inv green s)
    {p : PC μ κ α} (hpc : s'.pc = Function.update s.pc t p) (hl : l.thread = t)
    (hexpires : ∀ u, expires s l u = false) (hw : awaits (s.pc t) = none) (hw' : awaits p = none)
    (hp : waitOf p ≠ none → waitOf (s.pc t) ≠ none)
    (hpending : ∀ u, u ≠ t → awaits (s.pc u) = none ∨ s'.pending u = s.pending u)
    (hcond : s'.cond = s.cond) (u : τ) : ThreadLog s' (record C s l s' h) u := by
  have hself : s'.pc t = p := by rw [hpc, Function.update_self]
  have hreg : registers l s' = none := by
    unfold registers
    split
    · have hthread : s'.pc t = p := hself
      simp only [Machine.Label.thread] at hl
      rw [hl, hthread, hw']
      rfl
    · rfl
  by_cases hu : u = t
  · subst hu
    exact (hlog u).outside hinv (by simp [hreg]) hw (by rw [hself, hw']) (by rwa [hself])
  · exact (hlog u).other hinv (by simp [hreg]) (hexpires u) (by rw [hpc, Function.update_of_ne hu])
      (hpending u hu) hcond

theorem threadLog_notify (hlog : ∀ u, ThreadLog s h u) (hinv : Machine.Inv green s) {a : α} {c : κ}
    {switch : Bool} (hpc : s.pc t = .user a)
    (hcall : C.call a = some (.notifyOne c) ∨ C.call a = some (.notifyAll c))
    {taken left : List (SuspendedItem τ)} {mid : Machine.State τ μ κ α σ}
    (hmid : Machine.Notified s c taken left mid) (u : τ) :
    ThreadLog (Machine.notifyEnd C green mid t a)
      (record C s (.call t switch) (Machine.notifyEnd C green mid t a) h) u := by
  obtain ⟨-, -, p, hpc', hp⟩ := Machine.notifyEnd_effect C green mid t a
  have hcond' := (Machine.notifyEnd_cond C green mid t a).trans hmid.cond
  have hawaits : awaits p = none ∧ waitOf p = none := by
    rcases hp with rfl | rfl <;> exact ⟨rfl, rfl⟩
  have hself : (Machine.notifyEnd C green mid t a).pc t = p := by rw [hpc', Function.update_self]
  have hreg : registers (.call t switch : Machine.Label τ ω)
    (Machine.notifyEnd C green mid t a) = none :=
    registers_call (by rw [hself, hawaits.1])
  by_cases hu : u = t
  · subst hu
    refine (hlog u).outside hinv (by simp [hreg]) (by rw [hpc]; rfl) (by rw [hself, hawaits.1]) ?_
    rw [hself, hawaits.2]
    exact fun hne => absurd rfl hne
  have hother : (Machine.notifyEnd C green mid t a).pc u = s.pc u := by
    rw [hpc', Function.update_of_ne hu, hmid.pc]
  have hpending : (Machine.notifyEnd C green mid t a).pending u =
    s.pending u + taken.count ⟨u, false⟩ := by
    rw [Machine.notifyEnd_pending_ne C green mid a hu, hmid.pending]
  cases hw : awaits (s.pc u) with
  | none =>
    exact (hlog u).outside hinv (by simp [hreg]) hw (by rw [hother, hw]) (by rw [hother]; exact id)
  | some w =>
    have hnodup := hinv.cond c
    rw [hmid.queue, List.nodup_append] at hnodup
    have honly : ∀ b, ⟨u, b⟩ ∈ taken → c = w.cond ∧ b = w.timed := fun b hb =>
      queued_only hinv hw (by rw [hmid.queue]; exact List.mem_append_left _ hb)
    by_cases htaken : ⟨u, w.timed⟩ ∈ taken
    · obtain ⟨hc, -⟩ := honly _ htaken
      subst hc
      have hnotifier : notifier C s (.call t switch) = some (t, w.cond) := by
        rcases hcall with hcall | hcall <;> simp [notifier, hpc, hcall]
      refine (hlog u).notified hreg hw hnotifier hother ?_ ?_ ?_
      · rw [hpending]
        cases htimed : w.timed with
        | false => rw [if_neg (by simp), List.count_eq_one_of_mem hnodup.1 (htimed ▸ htaken)]
        | true =>
          rw [if_pos rfl, List.count_eq_zero_of_not_mem]
          intro hmem
          have hfalse := (honly _ hmem).2
          rw [htimed] at hfalse
          cases hfalse
      · rw [hmid.queue]
        exact List.mem_append_left _ htaken
      · rw [hcond', Function.update_self]
        exact fun hleft => hnodup.2.2 _ htaken _ hleft rfl
    · have hnot : ∀ b, ⟨u, b⟩ ∉ taken := fun b hb => htaken ((honly b hb).2 ▸ hb)
      refine (hlog u).quiet (by simp [hreg]) hother ?_ (fun c' b => ?_) (by simp [expires])
      · rw [hpending, List.count_eq_zero_of_not_mem (hnot _), Nat.add_zero]
      · rw [hcond']
        by_cases hc : c' = c
        · subst hc
          rw [Function.update_self, hmid.queue, List.mem_append]
          exact ⟨.inr, fun hmem => hmem.resolve_left (hnot b)⟩
        · rw [Function.update_of_ne hc]

theorem threadLog_inside (hlog : ∀ u, ThreadLog s h u) (hinv : Machine.Inv green s) {p : PC μ κ α}
    (hpc : s'.pc = Function.update s.pc t p) (hexpires : ∀ u, expires s l u = false)
    (hw : awaits (s.pc t) = some w) (hw' : awaits p = some w) (hreg : registers l s' = none)
    (hquiet : resumed s l s' t = false)
    (hpending : s'.pending t + ownYields (s.pc t) = s.pending t + ownYields p)
    (hother : ∀ u, u ≠ t → awaits (s.pc u) = none ∨ s'.pending u = s.pending u)
    (hcond : s'.cond = s.cond) (u : τ) : ThreadLog s' (record C s l s' h) u := by
  by_cases hu : u = t
  · subst hu
    have hself : s'.pc u = p := by rw [hpc, Function.update_self]
    exact (hlog u).proceeds hquiet (by simp [hreg]) (hexpires u) hw (by rw [hself, hw']) hcond
      (by rw [hself, hpending])
  · exact (hlog u).other hinv (by simp [hreg]) (hexpires u) (by rw [hpc, Function.update_of_ne hu])
      (hother u hu) hcond

omit [DecidableEq μ] in
theorem startWait_cond (s : Machine.State τ μ κ α σ) (t : τ) (a : α) (w : WaitCall μ κ) :
    (s.startWait t a w).cond = Function.update s.cond w.cond (s.cond w.cond ++ [⟨t, w.timed⟩]) := by
  unfold Machine.State.startWait
  cases w.timed <;> rfl

theorem threadLog_wait (hlog : ∀ u, ThreadLog s h u) (hinv : Machine.Inv green s) {a : α}
    {switch : Bool} (hpc : s.pc t = .user a) (u : τ) :
    ThreadLog (s.startWait t a w) (record C s (.call t switch) (s.startWait t a w) h) u := by
  obtain ⟨-, -, hpc'⟩ := Machine.startWait_effect s t a w
  have hself : (s.startWait t a w).pc t = .unlocking w a := by rw [hpc', Function.update_self]
  have hreg : registers (.call t switch : Machine.Label τ ω) (s.startWait t a w) = some t := by
    simp [registers, hself, awaits]
  have hcond := startWait_cond s t a w
  have hpending : ∀ u, (s.startWait t a w).pending u = s.pending u := by
    intro u
    unfold Machine.State.startWait
    cases w.timed <;> rfl
  by_cases hu : u = t
  · subst hu
    refine ThreadLog.registered hreg hself ?_ ?_
    · rw [hpending, (hinv.at_user hpc).2.2]
    · rw [hcond, Function.update_self]
      exact List.mem_append_right _ (List.mem_singleton_self _)
  · refine (hlog u).quiet (by simp [hreg, Ne.symm hu])
      (by rw [hpc', Function.update_of_ne hu]) (hpending u)
      (fun c b => ?_) (by simp [expires])
    rw [hcond]
    by_cases hc : c = w.cond
    · subst hc
      simp [hu]
    · rw [Function.update_of_ne hc]

theorem threadLog_wake (hlog : ∀ u, ThreadLog s h u) (hinv : Machine.Inv green s)
    (hdelivered : s.delivered t ≠ 0) {p : PC μ κ α}
    (hp : Machine.switchReturn C s t = some p) (u : τ) :
    ThreadLog ((s.consume t).setPc t p) (record C s (.wake t) ((s.consume t).setPc t p) h) u := by
  have hother : ∀ u, u ≠ t → awaits (s.pc u) = none ∨
    ((s.consume t).setPc t p).pending u = s.pending u :=
    fun u hu =>
      .inr (by simp [Machine.State.setPc, Machine.State.consume, Machine.State.pending, hu])
  have hpending : ((s.consume t).setPc t p).pending t + 1 = s.pending t := by
    simp only [Machine.State.setPc, Machine.State.consume, Machine.State.pending,
      Function.update_self]
    omega
  have hquiet : resumed s (.wake t : Machine.Label τ ω) ((s.consume t).setPc t p) t = false := by
    simp only [resumed, decide_eq_false_iff_not, not_and]
    omega
  cases Machine.switched hp with
  | locked hpc | yielded hpc | relocked hpc =>
    exact threadLog_local hlog hinv (by rfl) (by rfl) (fun u => by simp [expires])
      (by rw [hpc]; rfl)
      (by rfl) (fun hne => absurd (by rfl) hne) hother (by rfl) u
  | unlocked hpc =>
    refine threadLog_inside hlog hinv (by rfl) (fun u => by simp [expires])
      (by rw [hpc]; rfl) (by rfl)
      (by rfl) hquiet ?_ hother (by rfl) u
    rw [hpc]
    simp only [ownYields]
    exact hpending
  | resumed hpc =>
    by_cases hu : u = t
    · subst hu
      refine (hlog u).returns hinv (by simp [registers]) hquiet (by simp [expires]) hpc
        (by omega) ?_ rfl
      simp [Machine.State.setPc]
    · exact (hlog u).other hinv (by simp [registers]) (by simp [expires])
        (by simp [Machine.State.setPc, Machine.State.consume, hu]) (hother u hu) rfl

omit [DecidableEq μ] [DecidableEq κ] in
theorem expires_handler_ne (hu : u ≠ t) : expires s (.handler t : Machine.Label τ ω) u = false := by
  unfold expires
  split
  · rename_i t' c hl htimer
    cases hl
    simp [Ne.symm hu]
  · rfl

omit [DecidableEq τ] [DecidableEq μ] [DecidableEq κ] in
theorem awaits_of_timer (hinv : Machine.Inv green s) {c : κ} {aborted : Bool}
    (htimer : s.timer t = .queued c aborted) : ∃ w, awaits (s.pc t) = some w := by
  cases hw : awaits (s.pc t) with
  | some w => exact ⟨w, rfl⟩
  | none =>
    have hidle := (unregistered hinv hw).1
    rw [htimer] at hidle
    cases hidle

/-- Every thread's log is kept by every step. -/
theorem threadLog_step (hlog : ∀ u, ThreadLog s h u) (hinv : Machine.Inv green s)
    (hmove : Machine.Move C green s l s') (u : τ) : ThreadLog s' (record C s l s' h) u := by
  -- a hand-over resumes a thread that is in no pause of a wait
  have hnext : ∀ {s'' : Machine.State τ μ κ α σ} {t next : τ} {m : μ},
    next ∈ (s.mutex m).suspended →
      (∀ u, u ≠ t → u ≠ next → s''.pending u = s.pending u) →
      ∀ u, u ≠ t → awaits (s.pc u) = none ∨ s''.pending u = s.pending u := by
    intro s'' t next m hmem hpending u hu
    by_cases hun : u = next
    · exact .inl (awaits_of_queued hinv (hun ▸ hmem))
    · exact .inr (hpending u hu hun)
  cases hmove with
  | act hpc | native hpc | lockThrew hpc | lockFree hpc | lockQueued hpc
  | tryOwned hpc | tryFree hpc
  | tryBusy hpc | unlockThrew hpc | unlockFree hpc | waitThrew hpc | notifyNobody hpc =>
    exact threadLog_local hlog hinv (by rfl) (by rfl) (fun u => by simp [expires])
      (by rw [hpc]; rfl)
      (by rfl) (fun hne => absurd (by rfl) hne) (fun u _ => .inr (by rfl)) (by rfl) u
  | unlockHanded hpc _ _ _ hqueue =>
    refine threadLog_local hlog hinv (by rfl) (by rfl) (fun u => by simp [expires])
      (by rw [hpc]; rfl)
      (by rfl) (fun hne => absurd (by rfl) hne)
      (hnext (by rw [hqueue]; exact List.mem_cons_self) fun u _ hun => ?_) (by rfl) u
    simp [Machine.State.setPc, Machine.State.resume, Machine.State.setMutex,
      Machine.State.pending, hun]
  | unlockYield hpc _ _ _ hqueue =>
    refine threadLog_local hlog hinv (by rfl) (by rfl) (fun u => by simp [expires])
      (by rw [hpc]; rfl)
      (by rfl) (fun hne => absurd (by rfl) hne)
      (hnext (by rw [hqueue]; exact List.mem_cons_self) fun u hu hun => ?_) (by rfl) u
    simp [Machine.State.yieldTo, Machine.State.setPc, Machine.State.resume, Machine.State.setMutex,
      Machine.State.pending, hun, hu]
  | notifyOne hpc hcall hqueue =>
    exact threadLog_notify hlog hinv hpc (.inl hcall) (Machine.notifyOne_notified hqueue) u
  | notifyAll hpc hcall =>
    exact threadLog_notify hlog hinv hpc (.inr hcall) (Machine.notifyAll_notified rfl) u
  | @waitQueued t a w switch hpc => exact threadLog_wait hlog hinv hpc u
  | @releaseFree t a w switch hpc =>
    refine threadLog_inside hlog hinv (by rfl) (fun u => by simp [expires])
      (by rw [hpc]; rfl) (by rfl)
      (by rfl) (by simp [resumed, ownYield]) ?_ (fun u _ => .inr (by rfl)) (by rfl) u
    simp only [hpc]
    rfl
  | @releaseHanded t a w next rest hpc hown hqueue =>
    have hne : t ≠ next := ((hinv.mutex _).next_ne hown hqueue).symm
    refine threadLog_inside hlog hinv (by rfl) (fun u => by simp [expires])
      (by rw [hpc]; rfl) (by rfl)
      (by rfl) (by simp [resumed, ownYield]) ?_
      (hnext (by rw [hqueue]; exact List.mem_cons_self) fun u _ hun => ?_) (by rfl) u
    · simp only [hpc, Machine.State.setPc, Machine.State.resume, Machine.State.setMutex,
        Machine.State.pending, Function.update_of_ne hne]
      rfl
    · simp [Machine.State.setPc, Machine.State.resume, Machine.State.setMutex,
        Machine.State.pending, hun]
  | @releaseYield t a w next rest hpc hown hqueue =>
    have hne : t ≠ next := ((hinv.mutex _).next_ne hown hqueue).symm
    refine threadLog_inside hlog hinv (by rfl) (fun u => by simp [expires])
      (by rw [hpc]; rfl) (by rfl)
      (by rfl) (by simp [resumed, ownYield]) ?_
      (hnext (by rw [hqueue]; exact List.mem_cons_self) fun u hu hun => ?_) (by rfl) u
    · simp only [hpc, Machine.State.yieldTo, Machine.State.setPc, Machine.State.resume,
        Machine.State.setMutex, Machine.State.pending, Function.update_self,
        Function.update_of_ne hne, ownYields]
      omega
    · simp [Machine.State.yieldTo, Machine.State.setPc, Machine.State.resume,
        Machine.State.setMutex,
        Machine.State.pending, hun, hu]
  | relockFree hpc =>
    exact threadLog_local hlog hinv (by rfl) (by rfl) (fun u => by simp [expires])
      (by rw [hpc]; rfl)
      (by rfl) (fun hne => absurd (by rfl) hne) (fun u _ => .inr (by rfl)) (by rfl) u
  | relockQueued hpc =>
    exact threadLog_local hlog hinv (by rfl) (by rfl) (fun u => by simp [expires])
      (by rw [hpc]; rfl)
      (by rfl) (fun _ => by rw [hpc]; simp [waitOf]) (fun u _ => .inr (by rfl)) (by rfl) u
  | deliver hposted =>
    refine (hlog u).quiet (by simp [registers]) rfl ?_ (fun c b => Iff.rfl) (by simp [expires])
    exact congrArg Machine.View.pending (s.view_deliver hposted u)
  | @wake t p hdelivered hp => exact threadLog_wake hlog hinv hdelivered hp u
  | expire =>
    exact (hlog u).quiet (by simp [registers]) rfl rfl (fun c b => Iff.rfl) (by simp [expires])
  | @aborted t c htimer =>
    obtain ⟨w, hw⟩ := awaits_of_timer hinv htimer
    by_cases hu : u = t
    · subst hu
      refine (hlog u).handled hw rfl ?_ ?_
      · simp [Machine.State.resume, Machine.State.setTimer, Machine.State.pending,
          Nat.add_right_comm]
      · exact (Classical.em _).imp_right .inr
    · refine (hlog u).quiet (by simp [registers]) rfl ?_ (fun c b => Iff.rfl) ?_
      · simp [Machine.State.resume, Machine.State.setTimer, Machine.State.pending, hu]
      · exact expires_handler_ne hu
  | @timeout t c htimer =>
    obtain ⟨w, hw⟩ := awaits_of_timer hinv htimer
    by_cases hu : u = t
    · subst hu
      refine (hlog u).handled hw rfl ?_ (.inr (.inl (by simp [expires, htimer])))
      simp [Machine.State.resume, Machine.State.setTimer, Machine.State.setStatus,
        Machine.State.setCond,
        Machine.State.pending, Nat.add_right_comm]
    · refine (hlog u).quiet (by simp [registers]) rfl ?_ (fun c' b => ?_) ?_
      · simp [Machine.State.resume, Machine.State.setTimer, Machine.State.setStatus,
          Machine.State.setCond,
          Machine.State.pending, hu]
      · by_cases hc : c' = c
        · subst hc
          simp [Machine.State.resume, Machine.State.setTimer, Machine.State.setStatus,
            Machine.State.setCond, hu]
        · simp [Machine.State.resume, Machine.State.setTimer, Machine.State.setStatus,
            Machine.State.setCond, hc]
      · exact expires_handler_ne hu

/-! ### The order of the queues -/

structure QueueOrder (s : Machine.State τ μ κ α σ) (h : Log τ κ) : Prop where
  queue : ∀ c, (s.cond c).Pairwise fun i j => h.ticket i.f < h.ticket j.f
  removals : ∀ c, (h.removals c).Pairwise (· < ·)
  order : ∀ c, ∀ k ∈ h.removals c, ∀ i ∈ s.cond c, k < h.ticket i.f
  issued : ∀ c, ∀ i ∈ s.cond c, h.ticket i.f < h.next
  past : ∀ c, ∀ k ∈ h.removals c, k < h.next

theorem startWait_of_registers (hmove : Machine.Move C green s l s')
    (hreg : registers l s' = some t) :
    ∃ a w, s.pc t = .user a ∧ C.call a = some (Machine.WaitCall.call w) ∧
    s' = s.startWait t a w := by
  cases hmove with
  | @waitQueued t' a w _ hpc hcall =>
    obtain ⟨-, -, hpc'⟩ := Machine.startWait_effect s t' a w
    have ht : t' = t := by simpa [registers, hpc', awaits] using hreg
    exact ⟨a, w, ht ▸ hpc, hcall, by rw [ht]⟩
  | @notifyOne t' a c i rest =>
    obtain ⟨-, -, p, hpc', hp⟩ :=
      Machine.notifyEnd_effect C green ((s.setCond c rest).wakeItem i) t' a
    rcases hp with rfl | rfl <;> simp [registers, hpc', awaits] at hreg
  | @notifyAll t' a c =>
    obtain ⟨-, -, p, hpc', hp⟩ :=
      Machine.notifyEnd_effect C green (Machine.notifyLoop c (s.cond c) s) t' a
    rcases hp with rfl | rfl <;> simp [registers, hpc', awaits] at hreg
  | act | deliver | wake | expire | aborted | timeout | releaseFree | releaseHanded | releaseYield
  | relockFree | relockQueued => cases hreg
  | native | lockThrew | lockFree | lockQueued | tryOwned | tryFree | tryBusy
  | unlockThrew | unlockFree
  | unlockHanded | unlockYield | waitThrew | notifyNobody =>
    simp [registers, Machine.State.yieldTo, Machine.State.setPc, awaits] at hreg

theorem cond_sublist (hmove : Machine.Move C green s l s') (hreg : registers l s' = none) (c : κ) :
    (s'.cond c).Sublist (s.cond c) := by
  cases hmove with
  | @waitQueued t a w =>
    obtain ⟨-, -, hpc'⟩ := Machine.startWait_effect s t a w
    simp [registers, hpc', awaits] at hreg
  | @notifyOne t a c' i rest _ _ _ hqueue =>
    rw [Machine.notifyEnd_cond, (Machine.notifyOne_notified hqueue).cond]
    by_cases hc : c = c'
    · subst hc
      rw [Function.update_self, hqueue]
      exact List.sublist_cons_self i rest
    · rw [Function.update_of_ne hc]
  | @notifyAll t a c' =>
    rw [Machine.notifyEnd_cond, (Machine.notifyAll_notified rfl).cond]
    by_cases hc : c = c'
    · subst hc
      rw [Function.update_self]
      exact List.nil_sublist _
    · rw [Function.update_of_ne hc]
  | @timeout t c' =>
    by_cases hc : c = c'
    · subst hc
      simpa [Machine.State.resume, Machine.State.setCond] using List.eraseP_sublist
    · simp [Machine.State.resume, Machine.State.setCond, Machine.State.setStatus,
        Machine.State.setTimer, hc]
  | _ => exact List.Sublist.refl _

/-- `notify_one` removes the first of the queue, and `notify_all` everybody. -/
theorem cond_notify {n : τ} {switch : Bool}
    (hmove : Machine.Move C green s (.call n switch) s') {a : α} (hpc : s.pc n = .user a) (c : κ) :
    (C.call a = some (.notifyOne c) → s'.cond c = (s.cond c).tail) ∧
      (C.call a = some (.notifyAll c) → s'.cond c = []) := by
  have hbranch : ∀ {b call call'}, s.pc n = .user b → C.call b = some call → C.call a = some call' →
      call = call' := by
    intro b call call' hb hcall hcall'
    obtain rfl := PC.user.inj (hb.symm.trans hpc)
    exact Option.some.inj (hcall.symm.trans hcall')
  cases hmove with
  | notifyNobody hb hcall hempty =>
    refine ⟨fun hone => ?_, fun hall => by cases hbranch hb hcall hall⟩
    cases hbranch hb hcall hone
    rw [hempty]
    exact hempty
  | notifyOne hb hcall hqueue =>
    refine ⟨fun hone => ?_, fun hall => by cases hbranch hb hcall hall⟩
    cases hbranch hb hcall hone
    rw [Machine.notifyEnd_cond, (Machine.notifyOne_notified hqueue).cond,
      Function.update_self, hqueue,
      List.tail_cons]
  | notifyAll hb hcall =>
    refine ⟨fun hone => (by cases hbranch hb hcall hone), fun hall => ?_⟩
    cases hbranch hb hcall hall
    rw [Machine.notifyEnd_cond, (Machine.notifyAll_notified rfl).cond, Function.update_self]
  | native hb hcall _ hret =>
    refine ⟨fun hone => ?_, fun hall => ?_⟩
    · cases hbranch hb hcall hone
      cases hret
    · cases hbranch hb hcall hall
      cases hret
  | @waitThrew _ _ w _ hb hcall | @waitQueued _ _ w _ hb hcall =>
    refine ⟨fun hone => ?_, fun hall => ?_⟩
    · have hwait := hbranch hb hcall hone
      unfold Machine.WaitCall.call at hwait
      split at hwait <;> cases hwait
    · have hwait := hbranch hb hcall hall
      unfold Machine.WaitCall.call at hwait
      split at hwait <;> cases hwait
  | lockThrew hb hcall | lockFree hb hcall | lockQueued hb hcall | tryOwned hb hcall
  | tryFree hb hcall | tryBusy hb hcall | unlockThrew hb hcall | unlockFree hb hcall
  | unlockHanded hb hcall | unlockYield hb hcall =>
    exact ⟨fun hone => (by cases hbranch hb hcall hone), fun hall => by cases hbranch hb hcall hall⟩

theorem removals_cases (hinv : Machine.Inv green s) (hmove : Machine.Move C green s l s')
    (ticket : τ → Nat) (c : κ) :
    removals C s l s' ticket c = [] ∨
      ∃ i rest, s.cond c = i :: rest ∧ s'.cond c = rest ∧
      removals C s l s' ticket c = [ticket i.f] := by
  unfold removals
  split
  case h_2 => exact .inl rfl
  rename_i n switch
  split
  case h_2 => exact .inl rfl
  rename_i a hpc
  split
  case isFalse => exact .inl rfl
  rename_i hcall
  have hafter := (cond_notify hmove hpc c).1 hcall
  rcases hqueue : s.cond c with _ | ⟨i, rest⟩
  · exact .inl (by simp)
  · rw [hqueue, List.tail_cons] at hafter
    have hnodup := hinv.cond c
    rw [hqueue, List.nodup_cons] at hnodup
    refine .inr ⟨i, rest, rfl, hafter, ?_⟩
    rw [hafter, List.filter_cons_of_pos (by simpa using hnodup.1)]
    simp

theorem QueueOrder.joins (ho : QueueOrder s h) (hout : ∀ c b, (⟨t, b⟩ : SuspendedItem τ) ∉ s.cond c)
    (hreg : registers l s' = some t)
    (hcond : s'.cond = Function.update s.cond w.cond (s.cond w.cond ++ [⟨t, w.timed⟩])) :
    QueueOrder s' (record C s l s' h) := by
  have hrecord : (record C s l s' h).next = h.next + 1 ∧
      (record C s l s' h).ticket = Function.update h.ticket t h.next ∧
      (record C s l s' h).removals = h.removals := by simp [record, hreg]
  obtain ⟨hnext, hticket, hremovals⟩ := hrecord
  have hold : ∀ c, ∀ i ∈ s.cond c, Function.update h.ticket t h.next i.f = h.ticket i.f := by
    rintro c ⟨f, b⟩ hi
    refine Function.update_of_ne ?_ _ _
    rintro rfl
    exact hout c b hi
  have hmem : ∀ c, ∀ i ∈ s'.cond c, i ∈ s.cond c ∨ i.f = t := by
    intro c i hi
    rw [hcond] at hi
    by_cases hc : c = w.cond
    · subst hc
      rw [Function.update_self, List.mem_append, List.mem_singleton] at hi
      exact hi.imp_right fun heq => by rw [heq]
    · rw [Function.update_of_ne hc] at hi
      exact .inl hi
  refine ⟨fun c => ?_, fun c => by rw [hremovals]; exact ho.removals c, fun c k hk i hi => ?_,
    fun c i hi => ?_, fun c k hk => ?_⟩
  · have hpairs : (s.cond c).Pairwise fun i j => Function.update h.ticket t h.next i.f <
        Function.update h.ticket t h.next j.f := by
      refine (ho.queue c).imp_of_mem fun {i j} hi hj hlt => ?_
      rwa [hold c i hi, hold c j hj]
    rw [hticket, hcond]
    by_cases hc : c = w.cond
    · subst hc
      rw [Function.update_self, List.pairwise_append]
      refine ⟨hpairs, List.pairwise_singleton _ _, fun i hi j hj => ?_⟩
      rw [List.mem_singleton] at hj
      rw [hj, hold _ i hi, Function.update_self]
      exact ho.issued _ i hi
    · rwa [Function.update_of_ne hc]
  · rw [hremovals] at hk
    rw [hticket]
    rcases hmem c i hi with hi | hi
    · rw [hold c i hi]
      exact ho.order c k hk i hi
    · rw [hi, Function.update_self]
      exact ho.past c k hk
  · rw [hticket, hnext]
    rcases hmem c i hi with hi | hi
    · rw [hold c i hi]
      exact Nat.lt_succ_of_lt (ho.issued c i hi)
    · rw [hi, Function.update_self]
      exact Nat.lt_succ_self _
  · rw [hremovals] at hk
    rw [hnext]
    exact Nat.lt_succ_of_lt (ho.past c k hk)

theorem QueueOrder.step (ho : QueueOrder s h) (hinv : Machine.Inv green s)
    (hmove : Machine.Move C green s l s') : QueueOrder s' (record C s l s' h) := by
  cases hreg : registers l s' with
  | some t =>
    obtain ⟨a, w, hpc, -, rfl⟩ := startWait_of_registers hmove hreg
    exact ho.joins (unregistered hinv (by rw [hpc]; rfl)).2 hreg (startWait_cond s t a w)
  | none =>
    have hrecord : (record C s l s' h).next = h.next ∧ (record C s l s' h).ticket = h.ticket ∧
        ∀ c, (record C s l s' h).removals c =
        h.removals c ++ ConditionProtocol.removals C s l s' h.ticket c := by
      simp [record, hreg]
    obtain ⟨hnext, hticket, hremovals⟩ := hrecord
    have hsub := cond_sublist hmove hreg
    refine ⟨fun c => ?_, fun c => ?_, fun c k hk i hi => ?_, fun c i hi => ?_, fun c k hk => ?_⟩
    · rw [hticket]
      exact (ho.queue c).sublist (hsub c)
    · rw [hremovals]
      rcases removals_cases hinv hmove h.ticket c with hnone | ⟨i, rest, hqueue, -, hone⟩
      · rw [hnone, List.append_nil]
        exact ho.removals c
      · rw [hone, List.pairwise_append]
        refine ⟨ho.removals c, List.pairwise_singleton _ _, fun k hk j hj => ?_⟩
        rw [List.mem_singleton] at hj
        rw [hj]
        exact ho.order c k hk i (by rw [hqueue]; exact List.mem_cons_self)
    · rw [hremovals] at hk
      rw [hticket]
      rcases removals_cases hinv hmove h.ticket c with hnone | ⟨j, rest, hqueue, hafter, hone⟩
      · rw [hnone, List.append_nil] at hk
        exact ho.order c k hk i ((hsub c).subset hi)
      · rw [hone] at hk
        rcases List.mem_append.mp hk with hk | hk
        · exact ho.order c k hk i ((hsub c).subset hi)
        · rw [List.mem_singleton] at hk
          have hpairs := ho.queue c
          rw [hqueue, List.pairwise_cons] at hpairs
          rw [hk]
          exact hpairs.1 i (hafter ▸ hi)
    · rw [hticket, hnext]
      exact ho.issued c i ((hsub c).subset hi)
    · rw [hremovals] at hk
      rw [hnext]
      rcases removals_cases hinv hmove h.ticket c with hnone | ⟨j, rest, hqueue, hafter, hone⟩
      · rw [hnone, List.append_nil] at hk
        exact ho.past c k hk
      · rw [hone] at hk
        rcases List.mem_append.mp hk with hk | hk
        · exact ho.past c k hk
        · rw [List.mem_singleton] at hk
          rw [hk]
          exact ho.issued c j (by rw [hqueue]; exact List.mem_cons_self)

end Threads

/-! ### The protocol -/

variable {C : Client τ μ κ α σ ω} {green : τ → Bool} {start : τ → α} {data : σ}
  {s s' : Machine.State τ μ κ α σ} {l : Machine.Label τ ω} {h : Log τ κ}
  {sh : Machine.State τ μ κ α σ × Log τ κ}

omit [DecidableEq τ] [DecidableEq μ] [DecidableEq κ] in
theorem initial_log :
    (∀ t, ThreadLog (Machine.initial start data : Machine.State τ μ κ α σ) .empty t) ∧
    QueueOrder (Machine.initial start data : Machine.State τ μ κ α σ) .empty where
  left := fun _ => ⟨List.not_mem_nil, fun _ hw => (by cases hw), fun _ hw => absurd rfl hw⟩
  right :=
    { queue := fun _ => List.Pairwise.nil
      removals := fun _ => List.Pairwise.nil
      order := fun _ _ hk => (by cases hk)
      issued := fun _ _ hi => (by cases hi)
      past := fun _ _ hk => (by cases hk) }

theorem reach_log {ok : Machine.State τ μ κ α σ × Log τ κ → Machine.Label τ ω → Prop}
    (hreach : (system C green start data).Reach ok sh) :
    (∀ t, ThreadLog sh.1 sh.2 t) ∧ QueueOrder sh.1 sh.2 := by
  refine hreach.invariant (I := fun sh => (∀ t, ThreadLog sh.1 sh.2 t) ∧ QueueOrder sh.1 sh.2) ?_ ?_
  · rintro ⟨s, h⟩ ⟨hs, hh⟩
    cases hs
    cases hh
    exact initial_log
  · rintro ⟨s, h⟩ l sh' hr ⟨hlog, ho⟩ _ hstep
    obtain ⟨s', hs', rfl⟩ := TransitionSystem.withHistory_step.mp hstep
    have hinv := Machine.reach_inv hr.forget
    have hmove := Machine.step_move hinv hs'
    exact ⟨fun u => threadLog_step hlog hinv hmove u, ho.step hinv hmove⟩

/-- A wait ends with the `m.lock()` of its destructor, as the owner of the mutex. -/
theorem wait_ends (hinv : Machine.Inv green s) (hcalled : ∀ t, (s.pc t).Called C)
    (hmove : Machine.Move C green s l s')
    {t : τ} {w : WaitCall μ κ} (hw : waitOf (s.pc t) = some w) (hw' : waitOf (s'.pc t) = none) :
    ∃ a, (s.pc t = .relocking w a ∨ s.pc t = .relockPause w a) ∧
    s'.pc t = .user (C.ret a (s.waitRet t w)) ∧
      (s'.mutex w.mtx).owner = some t := by
  have ht : t = l.thread := by
    by_contra hne
    rw [hmove.pc_ne hcalled hne, hw] at hw'
    cases hw'
  subst ht
  have huser : ∀ {b}, s.pc l.thread ≠ .user b := fun hpc => by simp [hpc, waitOf] at hw
  cases hmove with
  | act hpc | native hpc | lockThrew hpc | lockFree hpc | lockQueued hpc
  | tryOwned hpc | tryFree hpc
  | tryBusy hpc | unlockThrew hpc | unlockFree hpc | unlockHanded hpc | unlockYield hpc
  | waitThrew hpc
  | waitQueued hpc | notifyNobody hpc | notifyOne hpc | notifyAll hpc => exact absurd hpc huser
  | releaseFree | releaseHanded | releaseYield | relockQueued =>
    simp [Machine.Label.thread, Machine.State.yieldTo, Machine.State.setPc, waitOf] at hw'
  | @relockFree u b w' _ hpc =>
    simp only [Machine.Label.thread, hpc, waitOf, Option.some.injEq] at hw
    subst hw
    refine ⟨b, .inl hpc, ?_, ?_⟩
      <;> simp [Machine.State.setPc, Machine.State.setMutex, Machine.Label.thread]
  | deliver | expire | aborted | timeout => cases hw.symm.trans hw'
  | @wake u p hdelivered hp =>
    simp only [Machine.Label.thread, Machine.State.setPc, Function.update_self] at hw hw' ⊢
    cases Machine.switched hp with
    | locked hpc | yielded hpc => simp [hpc, waitOf] at hw
    | unlocked | resumed => cases hw'
    | @relocked w' b hpc =>
      simp only [hpc, waitOf, Option.some.injEq] at hw
      subst hw
      exact ⟨b, .inr hpc, rfl, hinv.owns_of_rewake hpc hdelivered⟩

theorem returns_owning (hinv : Machine.Inv green s) (hcalled : ∀ t, (s.pc t).Called C)
    (hmove : Machine.Move C green s l s') {t : τ} {w : WaitCall μ κ} (hw : waitOf (s.pc t) = some w)
    {a : α} (hpc' : s'.pc t = .user a) : (s'.mutex w.mtx).owner = some t := by
  obtain ⟨b, -, -, hown⟩ := wait_ends hinv hcalled hmove hw (by rw [hpc']; rfl)
  exact hown

omit [DecidableEq τ] [DecidableEq μ] [DecidableEq κ] in
theorem ThreadLog.awaiting {t : τ} {w : WaitCall μ κ} (hlog : ThreadLog s h t)
    (hinv : Machine.Inv green s) (hw : awaits (s.pc t) = some w) :
    s.pending t = (h.resumes t).length + ownYields (s.pc t) ∧
      (s.view t).Registered w (h.resumes t).length ∧ (h.resumes t).length ≤ 1 := by
  obtain ⟨-, hcount, -⟩ := (logOk_awaits hw).mp hlog
  have hreg := (ConditionProtocol.registered hinv hw).1
  rw [hcount, Nat.add_sub_cancel] at hreg
  refine ⟨hcount, hreg, ?_⟩
  by_contra hmany
  have hone := (hreg.resumed (by omega)).1
  omega

omit [DecidableEq τ] [DecidableEq μ] [DecidableEq κ] in
theorem protocol_of_log (hinv : Machine.Inv green s) (hlog : ∀ t, ThreadLog s h t)
    (ho : QueueOrder s h) : Protocol s h where
  resumes := fun t w hw => by
    refine ⟨?_, (hlog t).1⟩
    cases hawaits : awaits (s.pc t) with
    | some w' => exact ((hlog t).awaiting hinv hawaits).2.2
    | none => exact Nat.le_of_eq ((hlog t).2.2 hawaits (by simp [hw])).1
  unlocking := fun t w a hpc => by
    simpa [hpc, ownYields] using ((hlog t).awaiting hinv (w := w) (by rw [hpc]; rfl)).1
  yielding := fun t w a hpc => by
    simpa [hpc, ownYields] using ((hlog t).awaiting hinv (w := w) (by rw [hpc]; rfl)).1
  pausing := fun t w a hpc => by
    simpa [hpc, ownYields] using ((hlog t).awaiting hinv (w := w) (by rw [hpc]; rfl)).1
  matched := fun t w a hpc => by
    rcases hpc with hpc | hpc <;>
      exact ((hlog t).2.2 (by rw [hpc]; rfl) (by simp [hpc, waitOf])).1
  kept := fun t w hw hnone => by
    have hreg := ((hlog t).awaiting hinv hw).2.1
    rw [hnone, List.length_nil] at hreg
    exact hreg.waiting
  queue := ho.queue
  removals := ho.removals
  order := ho.order
  left := fun t hw => by
    refine (unregistered hinv ?_).2
    cases hawaits : awaits (s.pc t) with
    | none => rfl
    | some w => simp [waitOf_of_awaits hawaits] at hw
  found := fun t w hw => by
    cases hawaits : awaits (s.pc t) with
    | some w' =>
      obtain rfl : w' = w := Option.some.inj ((waitOf_of_awaits hawaits).symm.trans hw)
      exact ((logOk_awaits hawaits).mp (hlog t)).2.2
    | none => exact .inr ((hlog t).2.2 hawaits (by simp [hw])).2

/-- Every wait is promised the protocol in every state of every run, and a wait that returns owns
its mutex again. -/
theorem wait_protocol (hreach : (system C green start data).Reachable sh) :
    Protocol sh.1 sh.2 ∧
      ∀ l sh' t w a, (system C green start data).step sh l = some sh' →
      waitOf (sh.1.pc t) = some w →
        sh'.1.pc t = .user a → (sh'.1.mutex w.mtx).owner = some t := by
  have hinv := Machine.reach_inv hreach.forget
  obtain ⟨hlog, ho⟩ := reach_log hreach
  refine ⟨protocol_of_log hinv hlog ho, fun l sh' t w a hstep hw hpc' => ?_⟩
  obtain ⟨s', hs', rfl⟩ := TransitionSystem.withHistory_step.mp hstep
  exact returns_owning hinv (Machine.reach_called hreach.forget)
    (Machine.step_move hinv hs') hw hpc'

/-- Threads that make any calls in any order. -/
def anyCalls : Client τ μ κ (Option (Call μ κ)) Unit (Call μ κ) where
  call := id
  ret := fun _ _ => none
  act := fun _ a _ call => if a = none then some (some call, ()) else none

/-- Thread 0 waits and gives the mutex to thread 1 on the way, which notifies it before it pauses
and unlocks; thread 0 then goes through both of its pauses. -/
theorem wait_protocol_notified :
    ∃ sh : Machine.State (Fin 2) Unit Unit (Option (Call Unit Unit)) Unit × Log (Fin 2) Unit,
    Protocol sh.1 sh.2 ∧ sh.2.resumes 0 = [.notify 1] ∧
      ∃ sh', (system anyCalls (fun _ => true) (fun _ => none) ()).step sh (.wake 0) = some sh' ∧
        (sh'.1.mutex ()).owner = some 0 := by
  let labels : List (Machine.Label (Fin 2) (Call Unit Unit)) :=
    [.act 0 (.lock ()), .call 0 false, .act 1 (.lock ()), .call 1 false, .act 0 (.wait () ()),
      .call 0 false, .proceed 0 false, .deliver 1, .wake 1, .act 1 (.notifyOne ()), .call 1 false,
      .deliver 0, .wake 0, .proceed 0 false, .deliver 1, .wake 1, .act 1 (.unlock ()),
      .call 1 false, .deliver 0]
  have hreach :=
    ((system anyCalls (fun _ => true) (fun _ => none) ()).reach_of_run (fun _ _ => true)
    (Machine.initial (fun _ => none) (), .empty) ⟨rfl, rfl⟩ labels rfl).reachable
  have hprotocol := wait_protocol hreach
  exact ⟨_, hprotocol.1, rfl, _, rfl, hprotocol.2 (.wake 0) _ 0 ⟨(), (), false⟩ none rfl rfl rfl⟩

end ConditionProtocol

end GreenThread
