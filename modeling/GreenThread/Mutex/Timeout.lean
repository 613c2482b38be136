import GreenThread.Mutex.Threads

/-!
# Hand-over and timeout

`unlock` leaves the wake-up of a timed waiter to the handler of its timer, so the expiry, the cancel
and the hand-over race: the handler can run before or after the hand-over, and with either error
code. A history variable counts the resumes a thread was given since it joined the queue.
-/

namespace GreenThread

namespace MutexThreads

variable {τ : Type} [DecidableEq τ]

def Pos.isPaused : Pos → Bool
  | .paused _ => true
  | _ => false

/-- The resumes of the threads since they joined the queue. -/
def recordResumes (h : τ → Nat) (s : State τ) (_ : Label τ) (s' : State τ) : τ → Nat := fun u =>
  if (s.pos u).isPaused then if s.pending u < s'.pending u then h u + 1 else h u
  else if (s'.pos u).isPaused then 0 else h u

def counted (c : MutexClass) (green : τ → Bool) :
    TransitionSystem (State τ × (τ → Nat)) (Label τ) :=
  (system c green).withHistory (fun _ => 0) recordResumes

/-- The step is no interruption request. -/
def notInterrupt : Label τ → Bool
  | .interrupt _ => false
  | _ => true

/-- The thread has returned from an operation that acquired the mutex, and has done nothing
since. -/
def Acquired (green : τ → Bool) (s : State τ) (t : τ) : Prop :=
  green t = true ∧ ∃ op : Op, s.pos t = .idle (some (op, op.success)) ∧ op ≠ .unlock

structure HandOver (green : τ → Bool) (s : State τ) (h : τ → Nat) : Prop where
  /-- `try_lock_rel` returned true exactly to the owner -/
  result : ∀ t b, s.pos t = .idle (some (.tryLockRel, .bool b)) →
    (b = true ↔ s.mutex.owner = some t)
  /-- a thread outside is not in the queue, and nothing is in flight for it -/
  left : ∀ t last, s.pos t = .idle last →
    (∀ timed, (⟨t, timed⟩ : SuspendedItem τ) ∉ s.mutex.suspended) ∧ s.pending t = 0
  /-- an entry of the queue is the only one of its thread and belongs to the call the thread is
  in -/
  entry : ∀ t timed, (⟨t, timed⟩ : SuspendedItem τ) ∈ s.mutex.suspended →
    s.pos t = .paused timed ∧ (s.mutex.suspended.map SuspendedItem.f).count t = 1
  /-- a paused thread is resumed at most once, and nothing else is in flight for it -/
  once : ∀ t timed, s.pos t = .paused timed → s.pending t = h t ∧ h t ≤ 1
  /-- a paused thread that was not resumed is in the queue, or the handler of its timer has still to
  run -/
  waits : ∀ t timed, s.pos t = .paused timed → h t = 0 →
    ⟨t, timed⟩ ∈ s.mutex.suspended ∨ ∃ aborted, s.timer t = .queued () aborted
  /-- a pause returns after one resume -/
  matched : ∀ t timed, s.pos t = .paused timed → s.delivered t ≠ 0 → h t = 1
  /-- a thread that has just acquired the mutex is the owner, and there is one such thread -/
  owner : ∀ t, Acquired green s t → s.mutex.owner = some t
  exclusive : ∀ t u, Acquired green s t → Acquired green s u → t = u

variable {c : MutexClass} {green : τ → Bool} {s s' : State τ} {h : τ → Nat} {l : Label τ}

/-! ### The resumes -/

/-- A paused thread has as many activations in flight as it was given resumes. -/
def Counts (s : State τ) (h : τ → Nat) :
    Prop := ∀ t timed, s.pos t = .paused timed → s.pending t = h t

theorem wakeItem_pending (s : State τ) (i : SuspendedItem τ) (u : τ) :
    (s.wakeItem i).pending u = s.pending u ∨ (s.wakeItem i).pending u = s.pending u + 1 := by
  unfold State.wakeItem
  split
  · exact .inl rfl
  · by_cases hu : u = i.f
    · subst hu
      exact .inr (by simp only [State.pending, State.resume, Function.update_self]; omega)
    · exact .inl (by simp [State.pending, State.resume, hu])

theorem unlockEnds_pending (s : State τ) {t u : τ} (hu : u ≠ t) (switch : Bool) :
    (s.unlockEnds t switch).pending u = s.pending u := by
  cases switch with
  | false => rfl
  | true => simp [State.unlockEnds, State.pending, State.resume, State.setPos, hu]

/-- A step gives a paused thread at most one resume, and a thread that joins the queue has none. -/
theorem Move.paused (hmove : Move c green s l s') (hinv : Inv green s) {u : τ} {timed : Bool}
    (hpos' : s'.pos u = .paused timed) :
    (s.pos u = .paused timed ∧ (s'.pending u = s.pending u ∨ s'.pending u = s.pending u + 1)) ∨
      ((s.pos u).isPaused = false ∧ s'.pending u = 0) := by
  have hends : ∀ {m : LockState τ} {t op r}, ((s.setMutex m).ends t op r).pos u = .paused timed →
      s.pos u = .paused timed ∧ ((s.setMutex m).ends t op r).pending u = s.pending u := by
    intro m t op r hpos
    by_cases hu : u = t
    · subst hu
      simp [State.ends, State.setPos] at hpos
    · exact ⟨by simpa [State.ends, State.setPos, State.setMutex, hu] using hpos, rfl⟩
  cases hmove with
  | refused => exact .inl ((hends (m := s.mutex) hpos').imp_right .inl)
  | takes | again | undoes | frees => exact .inl ((hends hpos').imp_right .inl)
  | @queues t last v switch timed' hpos =>
    by_cases hu : u = t
    · subst hu
      exact .inr ⟨by rw [hpos]; rfl, (hinv.idle hpos).2⟩
    · exact .inl ⟨by simpa [State.setPos, State.setTimer, State.setMutex, hu] using hpos', .inl rfl⟩
  | @hands t last next rest switch hpos =>
    rw [unlockEnds_pos, wakeItem_pos] at hpos'
    by_cases hu : u = t
    · subst hu
      rw [Function.update_self] at hpos'
      split at hpos' <;> cases hpos'
    · rw [Function.update_of_ne hu] at hpos'
      refine .inl ⟨hpos', ?_⟩
      rw [unlockEnds_pending _ hu]
      exact wakeItem_pending (s.setMutex _) next u
  | @deliver t hposted =>
    refine .inl ⟨hpos', .inl ?_⟩
    by_cases hu : u = t
    · subst hu
      simp only [State.pending, State.deliver, Function.update_self]
      omega
    · simp [State.pending, State.deliver, hu]
  | @returns t | @yields t =>
    by_cases hu : u = t
    · subst hu
      simp [State.ends, State.setPos] at hpos'
    · exact .inl ⟨by simpa [State.ends, State.setPos, State.consume, hu] using hpos',
        .inl (by simp [State.pending, State.ends, State.setPos, State.consume, hu])⟩
  | expires => exact .inl ⟨hpos', .inl rfl⟩
  | @handles t =>
    refine .inl ⟨hpos', ?_⟩
    by_cases hu : u = t
    · subst hu
      exact .inr
        (by simp only [State.pending, State.resume, State.setMutex, State.setTimer,
          Function.update_self]; omega)
    · exact .inl (by simp [State.pending, State.resume, State.setMutex, State.setTimer, hu])
  | interrupts | disables => exact .inl ⟨hpos', .inl rfl⟩

theorem Counts.step (hcounts : Counts s h) (hinv : Inv green s) (hmove : Move c green s l s') :
    Counts s' (recordResumes h s l s') := by
  intro u timed hpos'
  rcases hmove.paused hinv hpos' with ⟨hpos, hpending⟩ | ⟨hout, hpending⟩
  · have hsame := hcounts u timed hpos
    rcases hpending with hpending | hpending
      <;> simp [recordResumes, hpos, Pos.isPaused, hpending, hsame]
  · have hin : (s'.pos u).isPaused = true := by
      rw [hpos']
      rfl
    simp [recordResumes, hout, hin, hpending]

/-- A paused thread that was not resumed is in the queue, or the handler of its timer has still to
run. -/
theorem View.Ok.waiting {v : View} (hok : v.Ok) {timed : Bool} (hpos : v.pos = .paused timed)
    (hpending : v.pending = 0) :
    v.queued timed ∨ ∃ aborted, v.timer = .queued () aborted := by
  obtain ⟨pos, pending, timer, queued, owns⟩ := v
  cases timed <;> cases pos <;> cases timer
    <;> simp only [View.Ok, reduceCtorEq] at hok hpos hpending ⊢ <;> grind

/-! ### The results -/

/-- What the result of a thread's last operation says about the owner. -/
def Results (green : τ → Bool) (s : State τ) : Prop :=
  ∀ t op r, s.pos t = .idle (some (op, r)) → op ≠ .unlock →
    ((green t = true ∨ op ≠ .lock) → r = op.success → s.mutex.owner = some t) ∧
    (r = .bool false → s.mutex.owner ≠ some t)

/-- Nobody was interrupted. -/
def Undisturbed (s : State τ) : Prop := ∀ t, s.requested t = false

theorem pauseOutcome_fits (hinv : Inv green s) (hquiet : Undisturbed s) {t : τ} {timed : Bool}
    (hpos : s.pos t = .paused timed) (hdelivered : s.delivered t ≠ 0) :
    (pauseOutcome s t timed = (pauseOp timed).success → s.mutex.owner = some t) ∧
      (pauseOutcome s t timed = .bool false → s.mutex.owner ≠ some t) := by
  have hcalm : s.interrupted t = false := by simp [State.interrupted, hquiet t]
  have hok := hinv.thread t
  have hpending : 0 < s.pending t := Nat.add_pos_right _ (Nat.pos_of_ne_zero hdelivered)
  simp only [View.Ok, State.view, hpos] at hok
  cases timed with
  | false =>
    refine ⟨fun _ => ?_, fun hfalse => ?_⟩
    · rcases hok.2.2 with ⟨-, -, hzero⟩ | ⟨-, hown, -⟩
      · exact absurd hzero (Nat.ne_of_gt hpending)
      · exact hown
    · simp [pauseOutcome, hcalm] at hfalse
  | true =>
    simp only [pauseOutcome, hcalm, Bool.false_eq_true, if_false, if_true, pauseOp, Op.success,
      reduceCtorEq, Outcome.bool.injEq,
      decide_eq_true_eq, decide_eq_false_iff_not]
    exact ⟨id, id⟩

theorem Results.own (hresults : Results green s) (hinv : Inv green s) (hquiet : Undisturbed s)
    (hmove : Move c green s l s')
    {op : Op} {r : Outcome} (hpos' : s'.pos l.thread = .idle (some (op, r))) (hop : op ≠ .unlock) :
    ((green l.thread = true ∨ op ≠ .lock) → r = op.success → s'.mutex.owner = some l.thread) ∧
      (r = .bool false → s'.mutex.owner ≠ some l.thread) := by
  cases hmove.ended hpos' with
  | refused hl hrefused hmutex =>
    rw [hmutex]
    cases hrefused with
    | native hgreen hr =>
      refine ⟨fun hor hsuccess => ?_, fun _ hown => ?_⟩
      · have hlock : op ≠ .lock := hor.resolve_left fun hg =>
          Bool.false_ne_true (hgreen.symm.trans hg)
        rw [if_neg (not_or.mpr ⟨hlock, hop⟩)] at hr
        subst hr
        cases op <;> first | exact absurd rfl hlock | cases hsuccess
      · exact absurd (hgreen.symm.trans (hinv.ownerGreen _ hown)) Bool.false_ne_true
    | deadlock hgreen hown hclass hop' =>
      refine ⟨fun _ hr => ?_, nofun⟩
      rcases hop' with rfl | rfl <;> cases hr
    | busy hgreen hown hne =>
      exact ⟨fun _ hr => (by cases hr),
        fun _ hself => hne (Option.some.inj (hown.symm.trans hself))⟩
    | notOwner => exact absurd rfl hop
  | acquired _ hr hown =>
    subst hr
    refine ⟨fun _ _ => hown, fun hfalse => ?_⟩
    cases op <;> cases hfalse
  | released hunlock => exact absurd hunlock hop
  | paused _ hpos hdelivered hpause hr hmutex =>
    subst hpause hr
    obtain ⟨hsuccess, hfalse⟩ := pauseOutcome_fits hinv hquiet hpos hdelivered
    rw [hmutex]
    exact ⟨fun _ => hsuccess, hfalse⟩
  | earlier hpos howner =>
    rw [howner]
    exact hresults _ op r hpos hop

theorem Results.step (hresults : Results green s) (hinv : Inv green s) (hquiet : Undisturbed s)
    (hmove : Move c green s l s') : Results green s' := by
  intro t op r hpos' hop
  by_cases ht : t = l.thread
  · subst ht
    exact hresults.own hinv hquiet hmove hpos' hop
  · have hpos : s.pos t = .idle (some (op, r)) := by rwa [hmove.pos_ne ht] at hpos'
    have howner := hmove.owner_ne hinv ht hpos
    obtain ⟨htrue, hfalse⟩ := hresults t op r hpos hop
    exact ⟨fun hgreen hr => howner.mpr (htrue hgreen hr), fun hr hown => hfalse hr (howner.mp hown)⟩

theorem Undisturbed.step (hquiet : Undisturbed s) (hmove : Move c green s l s')
    (hok : notInterrupt l = true) : Undisturbed s' := by
  have hwake : ∀ (s : State τ) (i : SuspendedItem τ), (s.wakeItem i).requested = s.requested := by
    intro s i
    unfold State.wakeItem
    split <;> rfl
  cases hmove with
  | interrupts => cases hok
  | @hands t last next rest switch =>
    intro u
    cases switch
    · exact (congrFun (hwake _ next) u).trans (hquiet u)
    · exact (congrFun (hwake _ next) u).trans (hquiet u)
  | _ => exact hquiet

/-- Without interruptions, every hand-over and every timeout of a timed lock ends well, in every
class. -/
theorem hand_over (c : MutexClass) (green : τ → Bool) {sh : State τ × (τ → Nat)}
    (hr : (counted c green).Reach (fun _ l => notInterrupt l = true) sh) :
    HandOver green sh.1 sh.2 := by
  have hinv := reach_inv hr.forget
  obtain ⟨hcounts, hresults, -⟩ : Counts sh.1 sh.2 ∧ Results green sh.1 ∧ Undisturbed sh.1 := by
    refine hr.invariant (I := fun sh => Counts sh.1 sh.2 ∧ Results green sh.1 ∧ Undisturbed sh.1) ?_
      ?_
    · rintro ⟨s, h⟩ ⟨⟨level, hs, -⟩, -⟩
      cases hs
      exact ⟨fun _ _ => nofun, fun _ _ _ => nofun, fun _ => rfl⟩
    · rintro ⟨s, h⟩ l sh' hr ⟨hcounts, hresults, hquiet⟩ hok hstep
      obtain ⟨s', hs', rfl⟩ := TransitionSystem.withHistory_step.mp hstep
      have hinv := reach_inv hr.forget
      have hmove := step_move hs'
      exact ⟨hcounts.step hinv hmove, hresults.step hinv hquiet hmove, hquiet.step hmove hok⟩
  have howner : ∀ t, Acquired green sh.1 t → sh.1.mutex.owner = some t := by
    rintro t ⟨hgreen, op, hpos, hop⟩
    exact (hresults t op _ hpos hop).1 (.inl hgreen) rfl
  have honce : ∀ t timed, sh.1.pos t = .paused timed → sh.1.pending t ≤ 1 := by
    intro t timed hpos
    rcases Nat.eq_zero_or_pos (sh.1.pending t) with hzero | hpositive
    · rw [hzero]
      exact Nat.zero_le 1
    · exact Nat.le_of_eq ((hinv.thread t).returned hpositive).2
  constructor
  · intro t b hpos
    obtain ⟨htrue, hfalse⟩ := hresults t .tryLockRel _ hpos nofun
    cases b with
    | true => exact iff_of_true rfl (htrue (.inr nofun) rfl)
    | false => exact iff_of_false Bool.false_ne_true (hfalse rfl)
  · intro t last hpos
    exact ⟨(hinv.idle hpos).1.1, (hinv.idle hpos).2⟩
  · intro t timed hmem
    exact ⟨((hinv.thread t).paused hmem).1,
      List.count_eq_one_of_mem hinv.nodup (List.mem_map.mpr ⟨_, hmem, rfl⟩)⟩
  · intro t timed hpos
    refine ⟨hcounts t timed hpos, ?_⟩
    rw [← hcounts t timed hpos]
    exact honce t timed hpos
  · intro t timed hpos hzero
    have hok := hinv.thread t
    have hpending : (sh.1.view t).pending = 0 := (hcounts t timed hpos).trans hzero
    exact hok.waiting hpos hpending
  · intro t timed hpos hdelivered
    have hpositive : 0 < sh.1.pending t := Nat.add_pos_right _ (Nat.pos_of_ne_zero hdelivered)
    rw [← hcounts t timed hpos]
    exact ((hinv.thread t).returned hpositive).2
  · exact howner
  · exact fun t u ht hu => Option.some.inj ((howner t ht).symm.trans (howner u hu))

/-- The timer of thread 1 expires, thread 0 hands it the mutex before the handler runs, and
`try_lock_rel` returns true. -/
theorem hand_over_expired : ∃ sh : State (Fin 2) × (Fin 2 → Nat),
    HandOver (fun _ => true) sh.1 sh.2 ∧ sh.2 1 = 1 ∧
    sh.1.pos 1 = .idle (some (.tryLockRel, .bool true)) ∧ sh.1.mutex.owner = some 1 := by
  let labels : List (Label (Fin 2)) :=
    [.call 0 .lock false, .call 1 .tryLockRel false, .expire 1, .call 0 .unlock false, .handler 1,
      .deliver 1, .wake 1]
  have hreach := (counted .timedMutex (fun _ => true)).reach_of_run (fun _ l => notInterrupt l)
    (initial 0, fun _ => 0)
    ⟨⟨0, rfl, nofun⟩, rfl⟩ labels rfl
  exact ⟨_, hand_over .timedMutex (fun _ => true) hreach, rfl, rfl, rfl⟩

end MutexThreads

end GreenThread
