import GreenThread.Machine.Step
import Mathlib.Tactic.Common

/-!
# The invariant of the primitives

What holds of every thread in every reachable state, whatever the client does: where the thread is
decides in which queues it is and how many activations are pending for it. The invariant of a thread
speaks only of its view of the state: its position, its pending activations, its timer, the mutexes
it owns or waits for, and the condition variables it is queued on. A step of another thread changes
a view in few ways, and each of them is one lemma about views.
-/

namespace GreenThread

namespace Machine

variable {τ μ κ α σ ω : Type}

/-- What one thread sees of the state. -/
@[ext] structure View (μ κ α : Type) where
  pc : PC μ κ α
  pending : Nat
  timer : Timer κ
  queued : μ → Prop
  owns : μ → Prop
  waits : κ → Bool → Prop

namespace View

/-- The thread is not registered with any condition variable. -/
def Awake (v : View μ κ α) : Prop := v.timer = .idle ∧ ∀ c b, ¬ v.waits c b

/-- The thread waits for no mutex. -/
def Unqueued (v : View μ κ α) : Prop := ∀ m, ¬ v.queued m

/-- The thread is in the pause of a contended `lock`: queued without an activation, or owner with
one. -/
def Contends (v : View μ κ α) (m : μ) : Prop :=
  (∀ m', v.queued m' → m' = m) ∧
    ((v.queued m ∧ v.pending = 0) ∨ (¬ v.queued m ∧ v.owns m ∧ v.pending = 1))

/-- The thread is registered with the condition variable of its wait, and of the pending activations
`n` are meant for the pause of the wait: none until a notification or the timer's handler has
resumed it, then one. -/
def Registered (v : View μ κ α) (w : WaitCall μ κ) (n : Nat) : Prop :=
  (∀ c b, v.waits c b → c = w.cond ∧ b = w.timed) ∧
    match w.timed with
    | false => v.timer = .idle ∧ ((v.waits w.cond false ∧ n = 0) ∨ (¬ v.waits w.cond false ∧ n = 1))
    | true =>
      (n = 0 ∧ ((v.timer = .armed w.cond ∧ v.waits w.cond true) ∨
        (v.timer = .queued w.cond true ∧ ¬ v.waits w.cond true) ∨ v.timer = .queued w.cond false)) ∨
      (n = 1 ∧ v.timer = .idle ∧ ¬ v.waits w.cond true)

/-- What holds of a thread at its position. -/
def Ok (v : View μ κ α) : Prop :=
  match v.pc with
  | .user _ => v.Unqueued ∧ v.Awake ∧ v.pending = 0
  | .locking m _ => v.Contends m ∧ v.Awake
  | .yielding _ => v.Unqueued ∧ v.Awake ∧ v.pending = 1
  | .unlocking w _ => v.Unqueued ∧ v.owns w.mtx ∧ v.Registered w v.pending
  | .unlockYield w _ => v.Unqueued ∧ ¬ v.owns w.mtx ∧ 0 < v.pending ∧ v.Registered w (v.pending - 1)
  | .pausing w _ => v.Unqueued ∧ ¬ v.owns w.mtx ∧ v.Registered w v.pending
  | .relocking w _ => v.Unqueued ∧ ¬ v.owns w.mtx ∧ v.Awake ∧ v.pending = 0
  | .relockPause w _ => v.Contends w.mtx ∧ v.Awake
  | .terminated => False

theorem Ok.congr {v v' : View μ κ α} (h : v.Ok) (hpc : v'.pc = v.pc)
    (hpending : v'.pending = v.pending)
    (htimer : v'.timer = v.timer) (hqueued : ∀ m, v'.queued m ↔ v.queued m)
    (howns : ∀ m, v'.owns m ↔ v.owns m) (hwaits : ∀ c b, v'.waits c b ↔ v.waits c b) : v'.Ok := by
  have heq : v' = v := View.ext hpc hpending htimer (funext fun m => propext (hqueued m))
    (funext fun m => propext (howns m)) (funext fun c => funext fun b => propext (hwaits c b))
  rwa [heq]

theorem Ok.timed_of_queued {v : View μ κ α} (h : v.Ok) {c c' : κ} {aborted b : Bool}
    (htimer : v.timer = .queued c aborted) (hwaits : v.waits c' b) : b = true := by
  obtain ⟨pc, pending, timer, queued, owns, waits⟩ := v
  cases pc <;> simp only [Ok, Awake, Registered] at h htimer hwaits <;> grind

/-- A registered thread that was resumed was resumed once and is out of its queue. -/
theorem Registered.resumed {v : View μ κ α} {w : WaitCall μ κ} {n : Nat} (h : v.Registered w n)
    (hn : 0 < n) : n = 1 ∧ v.timer = .idle ∧ ¬ v.waits w.cond w.timed := by
  obtain ⟨-, hcase⟩ := h
  cases htimed : w.timed <;> rw [htimed] at hcase <;> simp only at hcase <;> grind

/-- A registered thread that was not resumed is in its queue or will be resumed by the handler of
its timer. -/
theorem Registered.waiting {v : View μ κ α} {w : WaitCall μ κ} (h : v.Registered w 0) :
    v.waits w.cond w.timed ∨ ∃ aborted, v.timer = .queued w.cond aborted := by
  obtain ⟨-, hcase⟩ := h
  cases htimed : w.timed <;> rw [htimed] at hcase <;> simp only at hcase <;> grind

/-! ### What another thread's step does to a view -/

theorem Ok.granted {v : View μ κ α} (h : v.Ok) {m : μ} (hqueued : v.queued m) :
    ({ v with
        pending := v.pending + 1
        queued := fun m' => m' ≠ m ∧ v.queued m'
        owns := fun m' => m' = m ∨ v.owns m' } : View μ κ α).Ok := by
  obtain ⟨pc, pending, timer, queued, owns, waits⟩ := v
  cases pc <;> simp only [Ok, Unqueued, Contends, Awake, Registered] at h ⊢ <;> grind

theorem Ok.notified {v : View μ κ α} (h : v.Ok) {c : κ} (hwaits : v.waits c false) :
    ({ v with
        pending := v.pending + 1
        waits := fun c' b => v.waits c' b ∧ ¬ (c' = c ∧ b = false) } : View μ κ α).Ok := by
  obtain ⟨pc, pending, timer, queued, owns, waits⟩ := v
  cases pc <;> simp only [Ok, Unqueued, Contends, Awake, Registered] at h ⊢ <;> grind

theorem Ok.cancelled {v : View μ κ α} (h : v.Ok) {c : κ} (hwaits : v.waits c true) :
    ({ v with
        timer := v.timer.cancel
        waits := fun c' b => v.waits c' b ∧ ¬ (c' = c ∧ b = true) } : View μ κ α).Ok := by
  obtain ⟨pc, pending, timer, queued, owns, waits⟩ := v
  cases pc <;> simp only [Ok, Unqueued, Contends, Awake, Registered, Timer.cancel] at h ⊢ <;> grind

theorem Ok.expired {v : View μ κ α} (h : v.Ok) {c : κ} (harmed : v.timer = .armed c) :
    ({ v with timer := .queued c false } : View μ κ α).Ok := by
  obtain ⟨pc, pending, timer, queued, owns, waits⟩ := v
  cases pc <;> simp only [Ok, Unqueued, Contends, Awake, Registered] at h harmed ⊢ <;> grind

theorem Ok.handledAborted {v : View μ κ α} (h : v.Ok) {c : κ} (htimer : v.timer = .queued c true) :
    ({ v with pending := v.pending + 1, timer := .idle } : View μ κ α).Ok := by
  obtain ⟨pc, pending, timer, queued, owns, waits⟩ := v
  cases pc <;> simp only [Ok, Unqueued, Contends, Awake, Registered] at h htimer ⊢ <;> grind

theorem Ok.handledTimeout {v : View μ κ α} (h : v.Ok) {c : κ} (htimer : v.timer = .queued c false) :
    ({ v with
        pending := v.pending + 1
        timer := .idle
        waits := fun c' b => v.waits c' b ∧ c' ≠ c } : View μ κ α).Ok := by
  obtain ⟨pc, pending, timer, queued, owns, waits⟩ := v
  cases pc <;> simp only [Ok, Unqueued, Contends, Awake, Registered] at h htimer ⊢ <;> grind

end View

variable [DecidableEq τ] [DecidableEq μ] [DecidableEq κ]

namespace State

variable (s : State τ μ κ α σ)

def view (t : τ) : View μ κ α where
  pc := s.pc t
  pending := s.pending t
  timer := s.timer t
  queued := fun m => t ∈ (s.mutex m).suspended
  owns := fun m => (s.mutex m).owner = some t
  waits := fun c b => ⟨t, b⟩ ∈ s.cond c

section

omit [DecidableEq μ] [DecidableEq κ]

@[simp] theorem view_setPc_self (t : τ) (p : PC μ κ α) :
    (s.setPc t p).view t = { s.view t with pc := p } := by
  simp [view, setPc, pending]

@[simp] theorem view_setPc_ne {t u : τ} (h : u ≠ t) (p : PC μ κ α) :
    (s.setPc t p).view u = s.view u := by
  simp [view, setPc, pending, h]

@[simp] theorem view_resume_self (t : τ) :
    (s.resume t).view t = { s.view t with pending := s.pending t + 1 } := by
  simp [view, resume, pending, Nat.add_right_comm]

@[simp] theorem view_resume_ne {t u : τ} (h : u ≠ t) : (s.resume t).view u = s.view u := by
  simp [view, resume, pending, h]

@[simp] theorem view_setTimer_self (t : τ) (x : Timer κ) :
    (s.setTimer t x).view t = { s.view t with timer := x } := by
  simp [view, setTimer, pending]

@[simp] theorem view_setTimer_ne {t u : τ} (h : u ≠ t) (x : Timer κ) :
    (s.setTimer t x).view u = s.view u := by
  simp [view, setTimer, pending, h]

@[simp] theorem view_setStatus (t u : τ) (x : CvStatus) : (s.setStatus t x).view u = s.view u := rfl

theorem view_deliver {t : τ} (h : s.posted t ≠ 0) (u : τ) : (s.deliver t).view u = s.view u := by
  by_cases hu : u = t
  · subst u
    simp only [view, deliver, pending, Function.update_self, View.mk.injEq, true_and, and_true]
    omega
  · simp [view, deliver, pending, hu]

theorem view_consume_self (t : τ) (h : s.delivered t ≠ 0) :
    (s.consume t).view t = { s.view t with pending := s.pending t - 1 } := by
  simp only [view, consume, pending, Function.update_self, View.mk.injEq, true_and, and_true]
  omega

@[simp] theorem view_consume_ne {t u : τ} (h : u ≠ t) : (s.consume t).view u = s.view u := by
  simp [view, consume, pending, h]

end

omit [DecidableEq τ] [DecidableEq κ] in
@[simp] theorem setMutex_mutex_self (m : μ) (x : Mutex τ) : (s.setMutex m x).mutex m = x := by
  simp [setMutex]

omit [DecidableEq τ] [DecidableEq κ] in
@[simp] theorem setMutex_mutex_ne {m m' : μ} (h : m' ≠ m) (x : Mutex τ) :
    (s.setMutex m x).mutex m' = s.mutex m' := by
  simp [setMutex, h]

omit [DecidableEq τ] [DecidableEq μ] in
@[simp] theorem setCond_cond_self (c : κ) (q : List (SuspendedItem τ)) :
    (s.setCond c q).cond c = q := by
  simp [setCond]

omit [DecidableEq τ] [DecidableEq μ] in
@[simp] theorem setCond_cond_ne {c c' : κ} (h : c' ≠ c) (q : List (SuspendedItem τ)) :
    (s.setCond c q).cond c' = s.cond c' := by
  simp [setCond, h]

end State

/-- The invariant of the primitives, for the threads for which `green` holds and the native ones. -/
structure Inv (green : τ → Bool) (s : State τ μ κ α σ) : Prop where
  mutex : ∀ m, (s.mutex m).Ok
  cond : ∀ c, (s.cond c).Nodup
  thread : ∀ t, (s.view t).Ok
  foreign : ∀ t, green t = false → ∃ a, s.pc t = .user a
  owner : ∀ m t, (s.mutex m).owner = some t → green t = true

variable {green : τ → Bool} {s : State τ μ κ α σ}

/-- The invariant of all threads but `t`, which is in the middle of a section. -/
structure InvBut (green : τ → Bool) (t : τ) (s : State τ μ κ α σ) : Prop where
  mutex : ∀ m, (s.mutex m).Ok
  cond : ∀ c, (s.cond c).Nodup
  thread : ∀ u, u ≠ t → (s.view u).Ok
  foreign : ∀ u, u ≠ t → green u = false → ∃ a, s.pc u = .user a
  owner : ∀ m u, (s.mutex m).owner = some u → green u = true

omit [DecidableEq τ] [DecidableEq μ] [DecidableEq κ] in
theorem Inv.but (h : Inv green s) (t : τ) : InvBut green t s :=
  ⟨h.mutex, h.cond, fun u _ => h.thread u, fun u _ => h.foreign u, h.owner⟩

omit [DecidableEq τ] [DecidableEq μ] [DecidableEq κ] in
theorem Inv.green_of_queued (h : Inv green s) {t : τ} {m : μ} (hmem : t ∈ (s.mutex m).suspended) :
    green t = true := by
  by_contra hnot
  obtain ⟨a, ha⟩ := h.foreign t (by simpa using hnot)
  have hview := h.thread t
  simp only [View.Ok, State.view, ha, View.Unqueued] at hview
  exact hview.1 m hmem

namespace InvBut

variable {t : τ}

section

omit [DecidableEq μ] [DecidableEq κ]

theorem finish (h : InvBut green t s) (hself : (s.view t).Ok)
    (hgreen : green t = true ∨ ∃ a, s.pc t = .user a) : Inv green s where
  mutex := h.mutex
  cond := h.cond
  thread := fun u => by
    by_cases hu : u = t
    · rwa [hu]
    · exact h.thread u hu
  foreign := fun u hnative => by
    by_cases hu : u = t
    · subst u
      rcases hgreen with hg | hp
      · rw [hg] at hnative
        cases hnative
      · exact hp
    · exact h.foreign u hu hnative
  owner := h.owner

theorem setPc (h : InvBut green t s) (p : PC μ κ α) : InvBut green t (s.setPc t p) where
  mutex := h.mutex
  cond := h.cond
  thread := fun u hu => by
    rw [State.view_setPc_ne s hu]
    exact h.thread u hu
  foreign := fun u hu hnative => by simpa [State.setPc, hu] using h.foreign u hu hnative
  owner := h.owner

theorem resume (h : InvBut green t s) : InvBut green t (s.resume t) where
  mutex := h.mutex
  cond := h.cond
  thread := fun u hu => by
    rw [State.view_resume_ne s hu]
    exact h.thread u hu
  foreign := h.foreign
  owner := h.owner

theorem setTimer (h : InvBut green t s) (x : Timer κ) : InvBut green t (s.setTimer t x) where
  mutex := h.mutex
  cond := h.cond
  thread := fun u hu => by
    rw [State.view_setTimer_ne s hu]
    exact h.thread u hu
  foreign := h.foreign
  owner := h.owner

theorem consume (h : InvBut green t s) : InvBut green t (s.consume t) where
  mutex := h.mutex
  cond := h.cond
  thread := fun u hu => by
    rw [State.view_consume_ne s hu]
    exact h.thread u hu
  foreign := h.foreign
  owner := h.owner

theorem setStatus (h : InvBut green t s) (x : CvStatus) : InvBut green t (s.setStatus t x) :=
  ⟨h.mutex, h.cond, h.thread, h.foreign, h.owner⟩

end

omit [DecidableEq κ] in
theorem setMutex (h : InvBut green t s) {m : μ} {x : Mutex τ} (hx : x.Ok)
    (hqueued : ∀ u, u ≠ t → (u ∈ x.suspended ↔ u ∈ (s.mutex m).suspended))
    (howner : ∀ u, u ≠ t → (x.owner = some u ↔ (s.mutex m).owner = some u))
    (hgreen : green t = true) : InvBut green t (s.setMutex m x) where
  mutex := fun m' => by
    by_cases hm : m' = m
    · subst m'
      simpa using hx
    · simpa [hm] using h.mutex m'
  cond := h.cond
  thread := fun u hu => by
    refine (h.thread u hu).congr rfl rfl rfl (fun m' => ?_) (fun m' => ?_) fun _ _ => Iff.rfl
    · by_cases hm : m' = m
      · subst m'
        simpa [State.view] using hqueued u hu
      · simp [State.view, hm]
    · by_cases hm : m' = m
      · subst m'
        simpa [State.view] using howner u hu
      · simp [State.view, hm]
  foreign := h.foreign
  owner := fun m' u hown => by
    by_cases hm : m' = m
    · subst m'
      rw [State.setMutex_mutex_self] at hown
      by_cases hu : u = t
      · rw [hu, hgreen]
      · exact h.owner m u ((howner u hu).mp hown)
    · rw [State.setMutex_mutex_ne s hm] at hown
      exact h.owner m' u hown

omit [DecidableEq τ] [DecidableEq μ] in
theorem setCond (h : InvBut green t s) {c : κ} {q : List (SuspendedItem τ)} (hq : q.Nodup)
    (hmem : ∀ u b, u ≠ t → (⟨u, b⟩ ∈ q ↔ ⟨u, b⟩ ∈ s.cond c)) : InvBut green t (s.setCond c q) where
  mutex := h.mutex
  cond := fun c' => by
    by_cases hc : c' = c
    · subst c'
      simpa using hq
    · simpa [hc] using h.cond c'
  thread := fun u hu => by
    refine (h.thread u hu).congr rfl rfl rfl (fun _ => Iff.rfl) (fun _ => Iff.rfl) fun c' b => ?_
    by_cases hc : c' = c
    · subst c'
      simpa [State.view] using hmem u b hu
    · simp [State.view, hc]
  foreign := h.foreign
  owner := h.owner

end InvBut

omit [DecidableEq κ] in
/-- The owner hands a mutex over to the first waiting thread and resumes it. -/
theorem Inv.handOver (h : Inv green s) {t next : τ} {rest : List τ} {m : μ}
    (howner : (s.mutex m).owner = some t) (hqueue : (s.mutex m).suspended = next :: rest) :
    InvBut green t ((s.setMutex m ⟨some next, rest⟩).resume next) where
  mutex := fun m' => by
    by_cases hm : m' = m
    · subst m'
      simpa [State.resume] using (h.mutex m).handOver hqueue
    · simpa [State.resume, hm] using h.mutex m'
  cond := h.cond
  thread := fun u hu => by
    have hnodup := (h.mutex m).nodup
    rw [hqueue, List.nodup_cons] at hnodup
    by_cases hnext : u = next
    · subst u
      refine ((h.thread next).granted (m := m) (by simp [State.view, hqueue])).congr rfl ?_ rfl
        (fun m' => ?_) (fun m' => ?_) fun _ _ => Iff.rfl
      · simp [State.view, State.resume, State.pending, State.setMutex, Nat.add_right_comm]
      · by_cases hm : m' = m
        · subst m'
          simp [State.view, State.resume, hnodup.1]
        · simp [State.view, State.resume, hm]
      · by_cases hm : m' = m
        · subst m'
          simp [State.view, State.resume]
        · simp [State.view, State.resume, hm]
    · refine (h.thread u).congr rfl ?_ rfl (fun m' => ?_) (fun m' => ?_) fun _ _ => Iff.rfl
      · simp [State.view, State.resume, State.pending, State.setMutex, hnext]
      · by_cases hm : m' = m
        · subst m'
          simp [State.view, State.resume, hqueue, hnext]
        · simp [State.view, State.resume, hm]
      · by_cases hm : m' = m
        · subst m'
          simp [State.view, State.resume, howner, Ne.symm hnext, Ne.symm hu]
        · simp [State.view, State.resume, hm]
  foreign := fun u _ hnative => h.foreign u hnative
  owner := fun m' u hown => by
    by_cases hm : m' = m
    · subst m'
      simp only [State.resume, State.setMutex_mutex_self, Option.some.injEq] at hown
      subst u
      exact h.green_of_queued (m := m) (by simp [hqueue])
    · exact h.owner m' u (by simpa [State.resume, hm] using hown)

omit [DecidableEq μ] in
theorem Inv.popWake (h : Inv green s) {c : κ} {i : SuspendedItem τ} {rest : List (SuspendedItem τ)}
    (hqueue : s.cond c = i :: rest) : Inv green ((s.setCond c rest).wakeItem i) := by
  have hnodup := h.cond c
  rw [hqueue, List.nodup_cons] at hnodup
  have hleaves : ∀ c' u b, ⟨u, b⟩ ∈ (s.setCond c rest).cond c' ↔
      ⟨u, b⟩ ∈ s.cond c' ∧ ¬ (c' = c ∧ (⟨u, b⟩ : SuspendedItem τ) = i) := by
    intro c' u b
    by_cases hc : c' = c
    · subst c'
      rw [State.setCond_cond_self, hqueue, List.mem_cons]
      grind
    · simp [hc]
  obtain ⟨f, timed⟩ := i
  cases timed with
  | false =>
    refine ⟨h.mutex, fun c' => ?_, fun u => ?_, h.foreign, h.owner⟩
    · by_cases hc : c' = c
      · subst c'
        simpa [State.wakeItem, State.resume] using hnodup.2
      · simpa [State.wakeItem, State.resume, hc] using h.cond c'
    · by_cases hu : u = f
      · subst u
        refine ((h.thread f).notified (c := c) (by simp [State.view, hqueue])).congr rfl ?_ rfl
          (fun _ => Iff.rfl) (fun _ => Iff.rfl) fun c' b => ?_
        · simp [State.view, State.wakeItem, State.resume, State.pending, State.setCond,
            Nat.add_right_comm]
        · simpa [State.view, State.wakeItem, State.resume] using hleaves c' f b
      · refine (h.thread u).congr rfl ?_ rfl (fun _ => Iff.rfl) (fun _ => Iff.rfl) fun c' b => ?_
        · simp [State.view, State.wakeItem, State.resume, State.pending, State.setCond, hu]
        · simpa [State.view, State.wakeItem, State.resume, hu] using hleaves c' u b
  | true =>
    refine ⟨h.mutex, fun c' => ?_, fun u => ?_, h.foreign, h.owner⟩
    · by_cases hc : c' = c
      · subst c'
        simpa [State.wakeItem, State.setTimer] using hnodup.2
      · simpa [State.wakeItem, State.setTimer, hc] using h.cond c'
    · by_cases hu : u = f
      · subst u
        refine ((h.thread f).cancelled (c := c) (by simp [State.view, hqueue])).congr rfl rfl ?_
          (fun _ => Iff.rfl) (fun _ => Iff.rfl) fun c' b => ?_
        · simp [State.view, State.wakeItem, State.setTimer, State.setCond]
        · simpa [State.view, State.wakeItem, State.setTimer] using hleaves c' f b
      · refine (h.thread u).congr rfl rfl ?_ (fun _ => Iff.rfl) (fun _ => Iff.rfl) fun c' b => ?_
        · simp [State.view, State.wakeItem, State.setTimer, State.setCond, hu]
        · simpa [State.view, State.wakeItem, State.setTimer, hu] using hleaves c' u b

omit [DecidableEq μ] [DecidableEq κ] in
theorem wakeItem_pc (s : State τ μ κ α σ) (i : SuspendedItem τ) : (s.wakeItem i).pc = s.pc := by
  unfold State.wakeItem
  split <;> rfl

omit [DecidableEq μ] [DecidableEq κ] in
theorem wakeItem_cond (s : State τ μ κ α σ) (i : SuspendedItem τ) :
    (s.wakeItem i).cond = s.cond := by
  unfold State.wakeItem
  split <;> rfl

omit [DecidableEq μ] in
theorem Inv.notifyLoop {c : κ} {items : List (SuspendedItem τ)} (h : Inv green s)
    (hqueue : s.cond c = items) : Inv green (notifyLoop c items s) := by
  induction items generalizing s with
  | nil => exact h
  | cons i rest ih =>
    refine ih (h.popWake hqueue) ?_
    rw [wakeItem_cond, State.setCond_cond_self]

omit [DecidableEq μ] in
theorem notifyLoop_pc (c : κ) (items : List (SuspendedItem τ)) (s : State τ μ κ α σ) :
    (Machine.notifyLoop c items s).pc = s.pc := by
  induction items generalizing s with
  | nil => rfl
  | cons i rest ih => rw [Machine.notifyLoop, ih, wakeItem_pc, State.setCond]

/-! ### The steps keep the invariant -/

variable {C : Client τ μ κ α σ ω} {t : τ} {a : α}

omit [DecidableEq τ] [DecidableEq μ] [DecidableEq κ] in
theorem Inv.at_user (h : Inv green s) (hpc : s.pc t = .user a) :
    (s.view t).Unqueued ∧ (s.view t).Awake ∧ s.pending t = 0 := by
  have hview := h.thread t
  simpa only [View.Ok, State.view, hpc] using hview

omit [DecidableEq τ] [DecidableEq μ] [DecidableEq κ] in
theorem Inv.userOk (h : Inv green s) (hpc : s.pc t = .user a) (a' : α) :
    ({ s.view t with pc := .user a' } : View μ κ α).Ok :=
  h.at_user hpc

omit [DecidableEq μ] [DecidableEq κ] in
theorem Inv.toUser (h : Inv green s) (hpc : s.pc t = .user a) (a' : α) :
    Inv green (s.setPc t (.user a')) := by
  refine ((h.but t).setPc _).finish ?_ (.inr ⟨a', by simp [State.setPc]⟩)
  rw [State.view_setPc_self]
  exact h.userOk hpc a'

omit [DecidableEq τ] [DecidableEq κ] in
theorem setMutex_eq (s : State τ μ κ α σ) (m : μ) : s.setMutex m (s.mutex m) = s := by
  simp [State.setMutex]

section

omit [DecidableEq κ]

theorem Inv.acquires (h : Inv green s) (hpc : s.pc t = .user a) (hg : green t = true) {m : μ}
    (hfree : (s.mutex m).owner = none) (a' : α) :
    Inv green ((s.setMutex m { s.mutex m with owner := some t }).setPc t (.user a')) := by
  have huser := h.at_user hpc
  refine (((h.but t).setMutex ((h.mutex m).acquire hfree t) (fun _ _ => Iff.rfl)
    (fun u hu => by simp [hfree, Ne.symm hu]) hg).setPc _).finish ?_ (.inl hg)
  rw [State.view_setPc_self]
  refine ⟨fun m' => ?_, huser.2.1, huser.2.2⟩
  by_cases hm : m' = m
  · subst m'
    simpa [State.view] using huser.1 m
  · simpa [State.view, hm] using huser.1 m'

theorem lockStep_inv (h : Inv green s) (hpc : s.pc t = .user a) (m : μ) :
    Inv green (lockStep C green s t a m) := by
  have huser := h.at_user hpc
  cases hg : green t with
  | false => simpa [lockStep, curThread, hg, Mutex.lock, setMutex_eq] using h.toUser hpc _
  | true =>
    simp only [lockStep, curThread, hg, if_true]
    rcases (s.mutex m).lock_cases t with ⟨-, heq⟩ | ⟨hfree, heq⟩ | ⟨u, hown, hne, heq⟩ <;>
      simp only [heq]
    · rw [setMutex_eq]
      exact h.toUser hpc _
    · exact h.acquires hpc hg hfree _
    · have hout : t ∉ (s.mutex m).suspended := huser.1 m
      refine (((h.but t).setMutex ((h.mutex m).enqueue hown hne hout) (fun u hu => by simp [hu])
        (fun _ _ => Iff.rfl) hg).setPc _).finish ?_ (.inl hg)
      rw [State.view_setPc_self]
      refine ⟨⟨fun m' hmem => ?_, .inl ⟨by simp [State.view], huser.2.2⟩⟩, huser.2.1⟩
      by_contra hm
      exact huser.1 m' (by simpa [State.view, hm] using hmem)

theorem tryLockStep_inv (h : Inv green s) (hpc : s.pc t = .user a) (m : μ) :
    Inv green (tryLockStep C green s t a m) := by
  cases hg : green t with
  | false => simpa [tryLockStep, curThread, hg, Mutex.tryLock, setMutex_eq] using h.toUser hpc _
  | true =>
    simp only [tryLockStep, curThread, hg, if_true]
    rcases (s.mutex m).tryLock_cases t with ⟨-, heq⟩ | ⟨hfree, heq⟩ | ⟨u, -, -, heq⟩ <;>
      simp only [heq]
    · rw [setMutex_eq]
      exact h.toUser hpc _
    · exact h.acquires hpc hg hfree _
    · rw [setMutex_eq]
      exact h.toUser hpc _

/-- The former owner's view after a hand-over: the mutex is gone and nothing else has changed. -/
theorem Inv.view_handOver (h : Inv green s) {next : τ} {rest : List τ} {m : μ}
    (howner : (s.mutex m).owner = some t) (hqueue : (s.mutex m).suspended = next :: rest) :
    ((s.setMutex m ⟨some next, rest⟩).resume next).view t =
      { s.view t with owns := fun m' => m' ≠ m ∧ (s.mutex m').owner = some t } := by
  have hout := (h.mutex m).owner_out t howner
  rw [hqueue, List.mem_cons, not_or] at hout
  rw [State.view_resume_ne _ hout.1]
  ext m'
  · rfl
  · rfl
  · rfl
  · by_cases hm : m' = m
    · subst m'
      simp [State.view, hqueue, hout]
    · simp [State.view, hm]
  · by_cases hm : m' = m
    · subst m'
      simp [State.view, Ne.symm hout.1]
    · simp [State.view, hm]
  · rfl

theorem Inv.release (h : Inv green s) {m : μ} (howner : (s.mutex m).owner = some t)
    (hqueue : (s.mutex m).suspended = []) : InvBut green t (s.setMutex m ⟨none, []⟩) :=
  (h.but t).setMutex Mutex.Ok.empty (fun u _ => by simp [hqueue])
    (fun u hu => by simp [howner, Ne.symm hu]) (h.owner m t howner)

end

omit [DecidableEq τ] [DecidableEq κ] in
theorem Inv.view_release (hqueue : (s.mutex m).suspended = []) :
    (s.setMutex m ⟨none, []⟩).view t =
      { s.view t with owns := fun m' => m' ≠ m ∧ (s.mutex m').owner = some t } := by
  ext m'
  · rfl
  · rfl
  · rfl
  · by_cases hm : m' = m
    · subst m'
      simp [State.view, hqueue]
    · simp [State.view, hm]
  · by_cases hm : m' = m
    · subst m'
      simp [State.view]
    · simp [State.view, hm]
  · rfl

omit [DecidableEq κ] in
theorem unlockStep_inv (h : Inv green s) (hpc : s.pc t = .user a) (m : μ) (switch : Bool) :
    Inv green (unlockStep C green s t a m switch) := by
  have huser := h.at_user hpc
  cases hg : green t with
  | false => simpa [unlockStep, curThread, hg, Mutex.unlock, setMutex_eq] using h.toUser hpc _
  | true =>
    simp only [unlockStep, curThread, hg, if_true]
    rcases (s.mutex m).unlock_cases t with ⟨-, heq⟩ | ⟨hown, hqueue, heq⟩ |
      ⟨hown, next, rest, hqueue, heq⟩ <;>
      simp only [heq]
    · rw [setMutex_eq]
      exact h.toUser hpc _
    · refine ((h.release hown hqueue).setPc _).finish ?_ (.inl hg)
      rw [State.view_setPc_self, Inv.view_release hqueue]
      exact huser
    · have hview := h.view_handOver hown hqueue
      cases switch with
      | false =>
        refine ((h.handOver hown hqueue).setPc _).finish ?_ (.inl hg)
        rw [State.view_setPc_self, hview]
        exact huser
      | true =>
        refine ((h.handOver hown hqueue).resume.setPc _).finish ?_ (.inl hg)
        rw [State.view_setPc_self, State.view_resume_self, hview]
        refine ⟨huser.1, huser.2.1, ?_⟩
        have hpending : ((s.setMutex m ⟨some next, rest⟩).resume next).pending t = s.pending t :=
          congrArg View.pending hview
        simp only [hpending, huser.2.2]

omit [DecidableEq μ] in
theorem waitStep_inv (h : Inv green s) (hpc : s.pc t = .user a) (hg : green t = true)
    (w : WaitCall μ κ) : Inv green (waitStep C s t a w) := by
  obtain ⟨hunq, hawake, hpending⟩ := h.at_user hpc
  by_cases hown : (s.mutex w.mtx).owner = some t
  · have hjoin : InvBut green t (s.setCond w.cond (s.cond w.cond ++ [⟨t, w.timed⟩])) := by
      refine (h.but t).setCond ?_ fun u b hu => by simp [hu]
      rw [List.nodup_append]
      refine ⟨h.cond w.cond, List.nodup_singleton _, ?_⟩
      rintro x hx y hy rfl
      rw [List.mem_singleton] at hy
      subst hy
      exact hawake.2 w.cond w.timed hx
    have hreg : ∀ c b, (⟨t, b⟩ : SuspendedItem τ) ∈
        (s.setCond w.cond (s.cond w.cond ++ [⟨t, w.timed⟩])).cond c ↔ c = w.cond ∧ b = w.timed := by
      intro c b
      have hnot := hawake.2 c b
      by_cases hc : c = w.cond
      · subst hc
        have hnot' : (⟨t, b⟩ : SuspendedItem τ) ∉ s.cond w.cond := hnot
        simp [hnot']
      · have hnot' : (⟨t, b⟩ : SuspendedItem τ) ∉ s.cond c := hnot
        simp [hc, hnot']
    unfold waitStep
    rw [if_neg (by simp [hown])]
    cases htimed : w.timed with
    | false =>
      rw [htimed] at hjoin hreg
      refine (hjoin.setPc _).finish ?_ (.inl hg)
      rw [State.view_setPc_self]
      refine ⟨hunq, hown, fun c b hmem => by rw [htimed]; exact (hreg c b).mp hmem, ?_⟩
      rw [htimed]
      exact ⟨hawake.1, .inl ⟨(hreg _ _).mpr ⟨rfl, rfl⟩, hpending⟩⟩
    | true =>
      rw [htimed] at hjoin hreg
      refine (((hjoin.setTimer _).setStatus _).setPc _).finish ?_ (.inl hg)
      rw [State.view_setPc_self, State.view_setStatus, State.view_setTimer_self]
      refine ⟨hunq, hown, fun c b hmem => by rw [htimed]; exact (hreg c b).mp hmem, ?_⟩
      rw [htimed]
      exact .inl ⟨hpending, .inl ⟨rfl, (hreg _ _).mpr ⟨rfl, rfl⟩⟩⟩
  · unfold waitStep
    rw [if_pos hown]
    exact h.toUser hpc _

omit [DecidableEq μ] [DecidableEq κ] in
theorem notifyEnd_inv (h : Inv green s) (hpc : s.pc t = .user a) :
    Inv green (notifyEnd C green s t a) := by
  obtain ⟨hunq, hawake, hpending⟩ := h.at_user hpc
  unfold notifyEnd
  split
  case isTrue hg =>
    refine ((h.but t).resume.setPc _).finish ?_ (.inl hg)
    rw [State.view_setPc_self, State.view_resume_self]
    exact ⟨hunq, hawake, by simp only [hpending]⟩
  case isFalse => exact h.toUser hpc _

omit [DecidableEq μ] in
theorem notifyOneStep_inv (h : Inv green s) (hpc : s.pc t = .user a) (c : κ) :
    Inv green (notifyOneStep C green s t a c) := by
  unfold notifyOneStep
  split
  · exact h.toUser hpc _
  · rename_i i rest hqueue
    refine notifyEnd_inv (h.popWake hqueue) ?_
    rw [wakeItem_pc]
    exact hpc

omit [DecidableEq μ] in
theorem notifyAllStep_inv (h : Inv green s) (hpc : s.pc t = .user a) (c : κ) :
    Inv green (notifyAllStep C green s t a c) := by
  refine notifyEnd_inv (h.notifyLoop rfl) ?_
  rw [notifyLoop_pc]
  exact hpc

theorem callStep_inv (h : Inv green s) (hpc : s.pc t = .user a) {switch : Bool} {call : Call μ κ}
    {s' : State τ μ κ α σ} (hstep : callStep C green s t a switch call = some s') :
    Inv green s' := by
  cases call with
  | lock m =>
    cases hstep
    exact lockStep_inv h hpc m
  | tryLock m =>
    cases hstep
    exact tryLockStep_inv h hpc m
  | unlock m =>
    cases hstep
    exact unlockStep_inv h hpc m switch
  | wait c m =>
    simp only [callStep, Option.ite_none_right_eq_some, Option.some.injEq] at hstep
    obtain ⟨hg, rfl⟩ := hstep
    exact waitStep_inv h hpc hg _
  | waitRel c m =>
    simp only [callStep, Option.ite_none_right_eq_some, Option.some.injEq] at hstep
    obtain ⟨hg, rfl⟩ := hstep
    exact waitStep_inv h hpc hg _
  | notifyOne c =>
    cases hstep
    exact notifyOneStep_inv h hpc c
  | notifyAll c =>
    cases hstep
    exact notifyAllStep_inv h hpc c

omit [DecidableEq κ] in
theorem proceedStep_inv (h : Inv green s) {switch : Bool} {s' : State τ μ κ α σ}
    (hstep : proceedStep C s t switch = some s') : Inv green s' := by
  have hthread := h.thread t
  have hgreen : (∀ a, s.pc t ≠ .user a) → green t = true := by
    intro hnot
    by_contra hg
    obtain ⟨a, ha⟩ := h.foreign t (by simpa using hg)
    exact hnot a ha
  unfold proceedStep at hstep
  split at hstep
  · rename_i w a hpc
    have hg := hgreen (by simp [hpc])
    simp only [View.Ok, State.view, hpc] at hthread
    obtain ⟨hunq, howns, hreg⟩ := hthread
    rcases (s.mutex w.mtx).unlock_cases t with ⟨hnot, -⟩ | ⟨-, hqueue, heq⟩ |
        ⟨-, next, rest, hqueue, heq⟩
    · exact absurd howns hnot
    · rw [heq] at hstep
      cases hstep
      refine ((h.release howns hqueue).setPc _).finish ?_ (.inl hg)
      rw [State.view_setPc_self, Inv.view_release hqueue]
      exact ⟨hunq, fun hown => hown.1 rfl, hreg⟩
    · rw [heq] at hstep
      have hview := h.view_handOver howns hqueue
      cases switch with
      | false =>
        cases hstep
        refine ((h.handOver howns hqueue).setPc _).finish ?_ (.inl hg)
        rw [State.view_setPc_self, hview]
        exact ⟨hunq, fun hown => hown.1 rfl, hreg⟩
      | true =>
        cases hstep
        refine ((h.handOver howns hqueue).resume.setPc _).finish ?_ (.inl hg)
        have hpending : ((s.setMutex w.mtx ⟨some next, rest⟩).resume next).pending t =
          s.pending t :=
          congrArg View.pending hview
        rw [State.view_setPc_self, State.view_resume_self, hview, hpending]
        exact ⟨hunq, fun hown => hown.1 rfl, Nat.succ_pos _, hreg⟩
  · rename_i w a hpc
    have hg := hgreen (by simp [hpc])
    simp only [View.Ok, State.view, hpc] at hthread
    obtain ⟨hunq, hnot, hawake, hpending⟩ := hthread
    rcases (s.mutex w.mtx).lock_cases t with ⟨hown, -⟩ | ⟨hfree, heq⟩ | ⟨u, hown, hne, heq⟩
    · exact absurd hown hnot
    · rw [heq] at hstep
      cases hstep
      refine (((h.but t).setMutex ((h.mutex _).acquire hfree t) (fun _ _ => Iff.rfl)
        (fun u hu => by simp [hfree, Ne.symm hu]) hg).setPc _).finish ?_ (.inl hg)
      rw [State.view_setPc_self]
      refine ⟨fun m' => ?_, hawake, hpending⟩
      by_cases hm : m' = w.mtx
      · subst hm
        simpa [State.view] using hunq w.mtx
      · simpa [State.view, hm] using hunq m'
    · rw [heq] at hstep
      cases hstep
      have hout : t ∉ (s.mutex w.mtx).suspended := hunq w.mtx
      refine (((h.but t).setMutex ((h.mutex _).enqueue hown hne hout) (fun u hu => by simp [hu])
        (fun _ _ => Iff.rfl) hg).setPc _).finish ?_ (.inl hg)
      rw [State.view_setPc_self]
      refine ⟨⟨fun m' hmem => ?_, .inl ⟨by simp [State.view], hpending⟩⟩, hawake⟩
      by_contra hm
      exact hunq m' (by simpa [State.view, hm] using hmem)
  · cases hstep

omit [DecidableEq μ] [DecidableEq κ] in
theorem wakeStep_inv (h : Inv green s) {s' : State τ μ κ α σ} (hstep : wakeStep C s t = some s') :
    Inv green s' := by
  unfold wakeStep at hstep
  split at hstep
  case isTrue => cases hstep
  case isFalse hdelivered =>
    obtain ⟨p, hp, rfl⟩ := Option.map_eq_some_iff.mp hstep
    have hthread := h.thread t
    have hpos : 0 < s.pending t := by
      unfold State.pending
      omega
    have hgreen : green t = true := by
      by_contra hg
      obtain ⟨a, ha⟩ := h.foreign t (by simpa using hg)
      cases switched hp with
      | locked hpc | yielded hpc | unlocked hpc | resumed hpc
      | relocked hpc => cases ha.symm.trans hpc
    refine ((h.but t).consume.setPc p).finish ?_ (.inl hgreen)
    rw [State.view_setPc_self, State.view_consume_self s t hdelivered]
    cases switched hp with
    | locked hpc | relocked hpc =>
      simp only [View.Ok, hpc, State.view] at hthread
      obtain ⟨⟨hother, hcase⟩, hawake⟩ := hthread
      rcases hcase with ⟨-, hzero⟩ | ⟨hout, -, hone⟩
      · simp only at hzero
        omega
      · simp only at hone
        refine ⟨fun m' hmem => ?_, hawake, by simp only [hone]⟩
        obtain rfl := hother m' hmem
        exact hout hmem
    | yielded hpc =>
      simp only [View.Ok, hpc, State.view] at hthread
      exact ⟨hthread.1, hthread.2.1, by simp only [hthread.2.2]⟩
    | unlocked hpc =>
      simp only [View.Ok, hpc, State.view] at hthread
      exact ⟨hthread.1, hthread.2.1, hthread.2.2.2⟩
    | @resumed w a hpc =>
      simp only [View.Ok, hpc, State.view] at hthread
      obtain ⟨hunq, hnot, honly, hcase⟩ := hthread
      refine ⟨hunq, hnot, ?_, ?_⟩
      · cases htimed : w.timed with
        | false =>
          rw [htimed] at hcase honly
          rcases hcase with ⟨hidle, ⟨-, hzero⟩ | ⟨hout, -⟩⟩
          · omega
          · exact ⟨hidle, fun c b hmem => by
              obtain ⟨rfl, rfl⟩ := honly c b hmem
              exact hout hmem⟩
        | true =>
          rw [htimed] at hcase honly
          rcases hcase with ⟨hzero, -⟩ | ⟨-, hidle, hout⟩
          · omega
          · exact ⟨hidle, fun c b hmem => by
              obtain ⟨rfl, rfl⟩ := honly c b hmem
              exact hout hmem⟩
      · cases htimed : w.timed <;> rw [htimed] at hcase <;> simp only at hcase ⊢ <;> omega

private theorem mem_eraseP_unique {ι : Type} {l : List ι} (hl : l.Nodup) {p : ι → Bool} {x : ι}
    (honly : ∀ y ∈ l, p y = true → y = x) (y : ι) : y ∈ l.eraseP p ↔ y ∈ l ∧ p y = false := by
  induction l with
  | nil => simp
  | cons z l ih =>
    obtain ⟨hz, hl⟩ := List.nodup_cons.mp hl
    by_cases hpz : p z = true
    · have hzx : z = x := honly z (by simp) hpz
      rw [List.eraseP_cons_of_pos hpz]
      refine ⟨fun hy => ⟨by simp [hy], ?_⟩, fun ⟨hy, hpy⟩ => ?_⟩
      · by_contra hpy
        have hyx : y = x := honly y (by simp [hy]) (by simpa using hpy)
        exact hz (hzx ▸ hyx ▸ hy)
      · rcases List.mem_cons.mp hy with rfl | hy
        · rw [hpy] at hpz
          cases hpz
        · exact hy
    · rw [List.eraseP_cons_of_neg hpz, List.mem_cons, List.mem_cons,
        ih hl fun y hy => honly y (by simp [hy])]
      constructor
      · rintro (rfl | ⟨hy, hpy⟩)
        · exact ⟨.inl rfl, by simpa using hpz⟩
        · exact ⟨.inr hy, hpy⟩
      · rintro ⟨rfl | hy, hpy⟩
        · exact .inl rfl
        · exact .inr ⟨hy, hpy⟩

omit [DecidableEq μ] in
theorem timeoutHandler_inv (h : Inv green s) {c : κ} {aborted : Bool}
    (htimer : s.timer t = .queued c aborted) :
    Inv green (timeoutHandler (s.setTimer t .idle) t c aborted) := by
  have hgreen : green t = true := by
    by_contra hg
    obtain ⟨a, ha⟩ := h.foreign t (by simpa using hg)
    have hawake := (h.at_user ha).2.1.1
    simp [State.view, htimer] at hawake
  cases aborted with
  | true =>
    refine ((h.but t).setTimer _).resume.finish ?_ (.inl hgreen)
    refine ((h.thread t).handledAborted htimer).congr rfl ?_ ?_ (fun _ => Iff.rfl)
      (fun _ => Iff.rfl)
      fun _ _ => Iff.rfl
    · simp [State.view, State.resume, State.pending, State.setTimer, Nat.add_right_comm]
    · simp [State.view, State.resume, State.setTimer]
  | false =>
    have hmem : ∀ u b, (⟨u, b⟩ : SuspendedItem τ) ∈ (s.cond c).eraseP (fun i => i.f = t) ↔
        ⟨u, b⟩ ∈ s.cond c ∧ u ≠ t := by
      intro u b
      have honly : ∀ i ∈ s.cond c, i.f = t → i = ⟨t, true⟩ := by
        rintro ⟨f, b'⟩ hi rfl
        rw [(h.thread f).timed_of_queued htimer hi]
      rw [mem_eraseP_unique (h.cond c) fun i hi hf => honly i hi (by simpa using hf)]
      simp
    refine ((((h.but t).setTimer _).setStatus _).setCond ((h.cond c).eraseP _) ?_).resume.finish ?_
      (.inl hgreen)
    · intro u b hu
      simp [State.setStatus, State.setTimer, hu]
    · refine ((h.thread t).handledTimeout htimer).congr rfl ?_ ?_ (fun _ => Iff.rfl)
        (fun _ => Iff.rfl) fun c' b => ?_
      · simp [State.view, State.resume, State.pending, State.setTimer, State.setCond,
          State.setStatus,
          Nat.add_right_comm]
      · simp [State.view, State.resume, State.setTimer, State.setCond, State.setStatus]
      · by_cases hc : c' = c
        · subst c'
          simpa [State.view, State.resume, State.setTimer, State.setStatus] using hmem t b
        · simp [State.view, State.resume, State.setTimer, State.setStatus, hc]

theorem step_inv (h : Inv green s) {l : Label τ ω} {s' : State τ μ κ α σ}
    (hstep : step C green s l = some s') : Inv green s' := by
  cases l with
  | act t o =>
    simp only [step] at hstep
    split at hstep
    · rename_i a hpc
      obtain ⟨r, -, rfl⟩ := Option.map_eq_some_iff.mp hstep
      have huser := h.toUser hpc r.1
      exact ⟨huser.mutex, huser.cond, huser.thread, huser.foreign, huser.owner⟩
    · cases hstep
  | call t switch =>
    simp only [step] at hstep
    split at hstep
    · rename_i a hpc
      obtain ⟨call, -, hcall⟩ := Option.bind_eq_some_iff.mp hstep
      exact callStep_inv h hpc hcall
    · cases hstep
  | proceed t switch => exact proceedStep_inv h hstep
  | deliver t =>
    simp only [step, Option.ite_none_left_eq_some, Option.some.injEq] at hstep
    obtain ⟨hposted, rfl⟩ := hstep
    exact ⟨h.mutex, h.cond, fun u => by
      rw [State.view_deliver s hposted]
      exact h.thread u, h.foreign, h.owner⟩
  | wake t => exact wakeStep_inv h hstep
  | expire t =>
    simp only [step] at hstep
    split at hstep
    · rename_i c htimer
      cases hstep
      refine ⟨h.mutex, h.cond, fun u => ?_, h.foreign, h.owner⟩
      by_cases hu : u = t
      · subst u
        rw [State.view_setTimer_self]
        exact (h.thread t).expired htimer
      · rw [State.view_setTimer_ne s hu]
        exact h.thread u
    · cases hstep
  | handler t =>
    simp only [step] at hstep
    split at hstep
    · rename_i c aborted htimer
      cases hstep
      exact timeoutHandler_inv h htimer
    · cases hstep

omit [DecidableEq τ] [DecidableEq μ] [DecidableEq κ] in
theorem initial_inv (start : τ → α) (data : σ) :
    Inv green (initial start data : State τ μ κ α σ) where
  mutex := fun _ => Mutex.Ok.empty
  cond := fun _ => List.nodup_nil
  thread := fun _ => ⟨fun _ => List.not_mem_nil, ⟨rfl, fun _ _ => List.not_mem_nil⟩, rfl⟩
  foreign := fun t _ => ⟨start t, rfl⟩
  owner := fun _ _ h => by cases h

/-- The invariant holds in every reachable state, whatever the client. -/
theorem reach_inv {start : τ → α} {data : σ} {ok : State τ μ κ α σ → Label τ ω → Prop}
    (h : (system C green start data).Reach ok s) : Inv green s :=
  h.invariant (I := Inv green) (fun _ hs => by
    cases hs
    exact initial_inv start data) fun _ _ _ _ hinv _ hstep => step_inv hinv hstep

end Machine

end GreenThread
