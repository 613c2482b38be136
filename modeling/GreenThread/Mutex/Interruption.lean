import GreenThread.Mutex.Timeout

/-!
# Interrupted locks

`pause` looks at the interruption request of its thread when it returns, and by then the mutex may
have been handed to the thread: `lock` is resumed by a hand-over only, and `try_lock_rel` by a
hand-over or by its timer. The exception leaves the operation with the mutex owned by a thread that
does not know of it. A thread whose timer has taken it out of the queue can be interrupted without
harm.
-/

namespace GreenThread

namespace MutexThreads

variable {τ ℓ : Type} [DecidableEq τ]

def Outcome.isException : Outcome → Bool
  | .threw _ | .interrupted => true
  | _ => false

/-- The successful acquisitions of a thread less its unlocks, after an operation. -/
def heldAfter (op : Op) (r : Outcome) (held : Nat) : Nat :=
  if op = .unlock then if r = .done then held - 1 else held
  else if r = op.success then held + 1 else held

/-- The operation of a green thread that ends with the step. -/
def ended (green : τ → Bool) (l : Label τ) (s' : State τ ℓ) (u : τ) : Option (Op × Outcome) :=
  match l with
  | .call t _ _ | .wake t =>
    match s'.pos u with
    | .idle last => if u = t ∧ green t then last else none
    | _ => none
  | _ => none

def recordHeld (green : τ → Bool) (h : τ → Nat) (_ : State τ) (l : Label τ) (s' : State τ) :
    τ → Nat := fun u =>
  match ended green l s' u with
  | some (op, r) => heldAfter op r (h u)
  | none => h u

def balanced (c : MutexClass) (green : τ → Bool) :
    TransitionSystem (State τ × (τ → Nat)) (Label τ) :=
  (system c green).withHistory (fun _ => 0) (recordHeld green)

/-- A thread that has left `lock` or `try_lock_rel` by an exception neither owns the mutex nor waits
for it. -/
def Clean (s : State τ) : Prop :=
  ∀ t op r, s.pos t = .idle (some (op, r)) → op = .lock ∨ op = .tryLockRel → r.isException = true →
    s.mutex.owner ≠ some t ∧ ∀ timed, (⟨t, timed⟩ : SuspendedItem τ) ∉ s.mutex.suspended

/-- The mutex is free once nobody is in an operation and every successful acquisition has been
unlocked. -/
def Acquirable (s : State τ) (held : τ → Nat) : Prop :=
  (∀ t, ∃ last, s.pos t = .idle last) → (∀ t, held t = 0) → s.mutex.owner = none

/-- No thread with an interruption due returns from a pause in which it was handed the mutex, and no
thread locks a mutex of a class that is not recursive while it owns it. -/
def calm (c : MutexClass) (s : State τ) : Label τ → Bool
  | .wake t => ¬ ((s.pos t).isPaused ∧ s.mutex.owner = some t ∧ s.interrupted t)
  | .call t op _ =>
    ¬ ((op = .lock ∨ op = .tryLockRel) ∧ s.mutex.owner = some t ∧ c.recursive = false)
  | _ => true

variable {c : MutexClass} {green : τ → Bool} {s s' : State τ} {h : τ → Nat} {l : Label τ}

/-! ### Exceptions -/

/-- A thread that has left `lock` or `try_lock_rel` by an exception does not own the mutex. -/
def Disowned (s : State τ) : Prop :=
  ∀ t op r, s.pos t = .idle (some (op, r)) → op = .lock ∨ op = .tryLockRel → r.isException = true →
  s.mutex.owner ≠ some t

theorem Disowned.own (hdisowned : Disowned s) (hmove : Move c green s l s')
    (hok : calm c s l = true) {op : Op} {r : Outcome}
    (hpos' : s'.pos l.thread = .idle (some (op, r))) (hop : op = .lock ∨ op = .tryLockRel)
    (hr : r.isException = true) :
    s'.mutex.owner ≠ some l.thread := by
  cases hmove.ended hpos' with
  | refused hl hrefused hmutex =>
    cases hrefused with
    | native hgreen hr' =>
      subst hr'
      split at hr <;> cases hr
    | deadlock hgreen hown hclass =>
      rw [hl] at hok
      simp [calm, hop, hown, hclass] at hok
    | busy => cases hr
    | notOwner => rcases hop with hop | hop <;> cases hop
  | acquired _ hsuccess =>
    subst hsuccess
    cases op <;> cases hr
  | released _ hdone =>
    subst hdone
    cases hr
  | @paused timed hl hpos hdelivered hpause hout hmutex =>
    subst hout
    rw [hmutex]
    intro hown
    rw [hl] at hok
    have hcalm : s.interrupted l.thread = false := by
      simpa [calm, hpos, Pos.isPaused, hown] using hok
    simp only [pauseOutcome, hcalm, Bool.false_eq_true, if_false] at hr
    split at hr <;> cases hr
  | earlier hpos howner =>
    rw [howner]
    exact hdisowned _ op r hpos hop hr

theorem Disowned.step (hdisowned : Disowned s) (hinv : Inv green s) (hmove : Move c green s l s')
    (hok : calm c s l = true) : Disowned s' := by
  intro t op r hpos' hop hr
  by_cases ht : t = l.thread
  · subst ht
    exact hdisowned.own hmove hok hpos' hop hr
  · have hpos : s.pos t = .idle (some (op, r)) := by rwa [hmove.pos_ne ht] at hpos'
    exact fun hown => hdisowned t op r hpos hop hr ((hmove.owner_ne hinv ht hpos).mp hown)

/-! ### The balance -/

/-- A thread that owns the mutex outside an operation has acquired it more often than it has
unlocked it, by `level_` in a recursive class. -/
def Account (c : MutexClass) (pos : Pos) (isGreen owns : Prop) (level held : Nat) : Prop :=
  match pos with
  | .idle _ => (owns → 0 < held ∧ (c.recursive = true → held = level)) ∧
      (c.recursive = true → ¬ owns → held = 0)
  | .paused _ => c.recursive = true → held = 0 ∧ (owns → level = 1)
  | .yielding => isGreen ∧ (c.recursive = true → held = 1)

def Balanced (c : MutexClass) (green : τ → Bool) (s : State τ) (h : τ → Nat) : Prop :=
  ∀ t, Account c (s.pos t) (green t = true) (s.mutex.owner = some t) s.mutex.level (h t)

/-- A step changes the level of another thread's mutex only when it hands the mutex over. -/
theorem Move.level_ne (hmove : Move c green s l s') (hinv : Inv green s) {u : τ} (hu : u ≠ l.thread)
    (hown : s'.mutex.owner = some u) :
    (s.mutex.owner = some u ∧ s'.mutex.level = s.mutex.level) ∨
      ((∃ timed, s.pos u = .paused timed) ∧ (c.recursive = true → s'.mutex.level = 1)) := by
  cases hmove with
  | takes => exact absurd (Option.some.inj hown).symm hu
  | again hpos hgreen hself => exact absurd (Option.some.inj (hself.symm.trans hown)).symm hu
  | undoes hpos hgreen hself => exact absurd (Option.some.inj (hself.symm.trans hown)).symm hu
  | frees => cases hown
  | @hands t last next rest switch hpos hgreen hself hlast hqueue =>
    rw [State.unlockEnds_mutex, State.wakeItem_mutex] at hown ⊢
    obtain rfl : next.f = u := Option.some.inj hown
    have hmem : next ∈ s.mutex.suspended := by
      rw [hqueue]
      exact List.mem_cons_self
    refine .inr ⟨⟨next.t, ((hinv.thread next.f).paused hmem).1⟩, fun hclass => ?_⟩
    simp [State.setMutex, MutexClass.firstLevel, hclass]
  | @handles t =>
    exact .inl ⟨(timeoutHandler_owner s.mutex t).symm.trans hown, timeoutHandler_level s.mutex t⟩
  | _ => exact .inl ⟨hown, rfl⟩

theorem ended_ne {u : τ} (hu : u ≠ l.thread) : ended green l s' u = none := by
  unfold ended
  split
  · split
    · rw [if_neg fun hand => hu hand.1]
    · rfl
  · split
    · rw [if_neg fun hand => hu hand.1]
    · rfl
  · rfl

theorem Balanced.other (hbalanced : Balanced c green s h) (hinv : Inv green s)
    (hmove : Move c green s l s') {u : τ} (hu : u ≠ l.thread) :
    Account c (s'.pos u) (green u = true) (s'.mutex.owner = some u) s'.mutex.level
    (recordHeld green h s l s' u) := by
  have haccount := hbalanced u
  have hheld : recordHeld green h s l s' u = h u := by
    unfold recordHeld
    rw [ended_ne hu]
  rw [hmove.pos_ne hu, hheld]
  cases hpos : s.pos u with
  | idle last =>
    rw [hpos] at haccount
    obtain ⟨howner, hother⟩ := haccount
    have hsame := hmove.owner_ne hinv hu hpos
    refine ⟨fun hown => ?_, fun hclass hnot => hother hclass fun hown => hnot (hsame.mpr hown)⟩
    obtain ⟨hpositive, hlevel⟩ := howner (hsame.mp hown)
    refine ⟨hpositive, fun hclass => ?_⟩
    rcases hmove.level_ne hinv hu hown with ⟨-, heq⟩ | ⟨⟨timed, hpaused⟩, -⟩
    · rw [heq]
      exact hlevel hclass
    · cases hpos.symm.trans hpaused
  | paused timed =>
    rw [hpos] at haccount
    refine fun hclass => ⟨(haccount hclass).1, fun hown => ?_⟩
    rcases hmove.level_ne hinv hu hown with ⟨hown, heq⟩ | ⟨-, heq⟩
    · rw [heq]
      exact (haccount hclass).2 hown
    · exact heq hclass
  | yielding =>
    rw [hpos] at haccount
    exact haccount

theorem recordHeld_ends {t : τ} {op : Op} {r : Outcome}
    (hl : (∃ op switch, l = .call t op switch) ∨ l = .wake t)
    (hpos' : s'.pos t = .idle (some (op, r))) (hgreen : green t = true) :
    recordHeld green h s l s' t = heldAfter op r (h t) := by
  rcases hl with ⟨op', switch, rfl⟩ | rfl <;> simp [recordHeld, ended, hpos', hgreen]

theorem recordHeld_same {t : τ} (hpos' : ∀ last, s'.pos t ≠ .idle last) :
    recordHeld green h s l s' t = h t := by
  by_cases ht : t = l.thread
  · cases hpos : s'.pos t with
    | idle last => exact absurd hpos (hpos' last)
    | paused | yielding =>
      subst ht
      unfold recordHeld ended
      cases l <;> simp only [Label.thread] at hpos <;> simp only [Label.thread, hpos]
  · unfold recordHeld
    rw [ended_ne ht]

theorem heldAfter_success {op : Op} (hop : op ≠ .unlock) (held : Nat) :
    heldAfter op op.success held = held + 1 := by
  rw [heldAfter, if_neg hop, if_pos rfl]

/-- A pause that returns calmly has acquired the mutex exactly when it was handed to the thread. -/
theorem pauseOutcome_success (hinv : Inv green s) {t : τ} {timed : Bool}
    (hpos : s.pos t = .paused timed)
    (hdelivered : s.delivered t ≠ 0) (hok : calm c s (.wake t) = true) :
    pauseOutcome s t timed = (pauseOp timed).success ↔ s.mutex.owner = some t := by
  by_cases hown : s.mutex.owner = some t
  · have hcalm : s.interrupted t = false := by simpa [calm, hpos, Pos.isPaused, hown] using hok
    cases timed <;> simp [pauseOutcome, hcalm, hown, pauseOp, Op.success]
  · refine iff_of_false (fun heq => ?_) hown
    have hok := hinv.thread t
    have hpending : 0 < s.pending t := Nat.add_pos_right _ (Nat.pos_of_ne_zero hdelivered)
    simp only [View.Ok, State.view, hpos] at hok
    cases timed with
    | false =>
      rcases hok.2.2 with ⟨-, -, hzero⟩ | ⟨-, howns, -⟩
      · exact absurd hzero (Nat.ne_of_gt hpending)
      · exact hown howns
    | true =>
      cases hinterrupted : s.interrupted t
        <;> simp [pauseOutcome, hinterrupted, hown, pauseOp, Op.success] at heq

theorem ends_pos (s : State τ) (t : τ) (op : Op) (r : Outcome) :
    (s.ends t op r).pos t = .idle (some (op, r)) :=
  Function.update_self ..

theorem recordHeld_refused {t : τ} {op : Op} {r : Outcome} {switch : Bool}
    (hrefused : Refused c green s t op r) :
    recordHeld green h s (.call t op switch) (s.ends t op r) t = h t := by
  cases hgreen : green t with
  | false => simp [recordHeld, ended, ends_pos, hgreen]
  | true =>
    rw [recordHeld_ends (.inl ⟨op, switch, rfl⟩) (ends_pos ..) hgreen]
    cases hrefused with
    | native hnot => cases hgreen.symm.trans hnot
    | deadlock _ _ _ hop => rcases hop with rfl | rfl <;> rfl
    | busy => rfl
    | notOwner => rfl

/-- The last `unlock` of an owner hands the mutex to the thread that waits first. It returns at
once, or yields with its level counted until then. -/
theorem Balanced.hands (hbalanced : Balanced c green s h) (hinv : Inv green s) {t : τ}
    {last : Option (Op × Outcome)}
    {next : SuspendedItem τ} {rest : List (SuspendedItem τ)} {switch : Bool}
    (hpos : s.pos t = .idle last) (hgreen : green t = true) (hown : s.mutex.owner = some t)
    (hlast : c.recursive = true → s.mutex.level ≤ 1) (hqueue : s.mutex.suspended = next :: rest)
    (hs' : s' =
      ((s.setMutex ⟨some next.f, c.firstLevel s.mutex.level, rest⟩).wakeItem next).unlockEnds t
        switch) :
    Account c (s'.pos t) (green t = true) (s'.mutex.owner = some t) s'.mutex.level
      (recordHeld green h s (.call t .unlock switch) s' t) := by
  have haccount := hbalanced t
  rw [hpos] at haccount
  obtain ⟨hpositive, hheld⟩ := haccount.1 hown
  have hmem : next ∈ s.mutex.suspended := by
    rw [hqueue]
    exact List.mem_cons_self
  have hnot : ¬ next.f = t := fun heq => (hinv.idle hpos).1.1 next.t (heq ▸ hmem)
  have hone : c.recursive = true → h t = 1 := by
    intro hclass
    have hlevel := hlast hclass
    have heq := hheld hclass
    omega
  have howner : s'.mutex.owner = some next.f := by
    rw [hs', State.unlockEnds_mutex, State.wakeItem_mutex]
    rfl
  cases switch with
  | false =>
    have hends : s'.pos t = .idle (some (.unlock, .done)) := by
      rw [hs']
      exact ends_pos ..
    rw [hends, recordHeld_ends (.inl ⟨.unlock, false, rfl⟩) hends hgreen]
    refine ⟨fun hown' => absurd (Option.some.inj (howner.symm.trans hown')) hnot,
      fun hclass _ => ?_⟩
    rw [heldAfter, if_pos rfl, if_pos rfl, hone hclass]
  | true =>
    have hyields : s'.pos t = .yielding := by
      rw [hs']
      exact Function.update_self ..
    rw [hyields, recordHeld_same (fun last hidle => by rw [hyields] at hidle; cases hidle)]
    exact ⟨hgreen, hone⟩

/-- A pause that ends calmly leaves the thread with one acquisition more if the mutex was handed to
it, and with none in a recursive class if it was not. -/
theorem Balanced.returns (hbalanced : Balanced c green s h) (hinv : Inv green s) {t : τ}
    {timed : Bool} (hdelivered : s.delivered t ≠ 0) (hpos : s.pos t = .paused timed)
    (hok : calm c s (.wake t) = true)
    (hs' : s' = (s.consume t).ends t (pauseOp timed) (pauseOutcome s t timed)) :
    Account c (s'.pos t) (green t = true) (s'.mutex.owner = some t) s'.mutex.level
    (recordHeld green h s (.wake t) s' t) := by
  have haccount := hbalanced t
  rw [hpos] at haccount
  have hsuccess := pauseOutcome_success hinv hpos hdelivered hok
  have hop : pauseOp timed ≠ .unlock := by cases timed <;> exact nofun
  have hends : s'.pos t = .idle (some (pauseOp timed, pauseOutcome s t timed)) := by
    rw [hs']
    exact ends_pos ..
  have hmutex : s'.mutex = s.mutex := by
    rw [hs']
    rfl
  rw [hends, hmutex]
  refine ⟨fun hown => ?_, fun hclass hnot => ?_⟩
  · rw [recordHeld_ends (.inr rfl) hends (hinv.ownerGreen t hown), hsuccess.mpr hown,
      heldAfter_success hop]
    refine ⟨Nat.succ_pos _, fun hclass => ?_⟩
    obtain ⟨hzero, hlevel⟩ := haccount hclass
    rw [hzero, hlevel hown]
  · have hzero : h t = 0 := (haccount hclass).1
    cases hgreen : green t with
    | false => simp [recordHeld, ended, hends, hgreen, hzero]
    | true =>
      rw [recordHeld_ends (.inr rfl) hends hgreen, heldAfter, if_neg hop,
        if_neg fun heq => hnot (hsuccess.mp heq), hzero]

theorem Balanced.own (hbalanced : Balanced c green s h) (hinv : Inv green s)
    (hmove : Move c green s l s') (hok : calm c s l = true) {u : τ} (hu : l.thread = u) :
    Account c (s'.pos u) (green u = true) (s'.mutex.owner = some u) s'.mutex.level
    (recordHeld green h s l s' u) := by
  have haccount := hbalanced u
  cases hmove with
  | @refused t last op r switch hpos hrefused =>
    obtain rfl : t = u := hu
    rw [hpos] at haccount
    rw [ends_pos, recordHeld_refused hrefused]
    exact haccount
  | @takes t last op switch hpos hgreen hfree hop =>
    obtain rfl : t = u := hu
    rw [hpos] at haccount
    rw [ends_pos, recordHeld_ends (.inl ⟨op, switch, rfl⟩) (ends_pos ..) hgreen,
      heldAfter_success hop]
    have hzero : c.recursive = true → h t = 0 :=
      fun hclass => haccount.2 hclass (by rw [hfree]; exact nofun)
    refine ⟨fun _ => ⟨Nat.succ_pos _, fun hclass => ?_⟩, fun _ hnot => absurd rfl hnot⟩
    rw [hzero hclass]
    simp [State.ends, State.setPos, State.setMutex, MutexClass.firstLevel, hclass]
  | @again t last op switch hpos hgreen hown hop hclass' =>
    obtain rfl : t = u := hu
    rw [hpos] at haccount
    rw [ends_pos, recordHeld_ends (.inl ⟨op, switch, rfl⟩) (ends_pos ..) hgreen,
      heldAfter_success hop]
    refine ⟨fun _ => ⟨Nat.succ_pos _, fun hclass => ?_⟩, fun _ hnot => absurd hown hnot⟩
    have hlevel : h t = s.mutex.level := (haccount.1 hown).2 hclass
    simp [State.ends, State.setPos, State.setMutex, MutexClass.nextLevel, hclass, hlevel]
  | @queues t last v switch timed hpos hgreen hown hne =>
    obtain rfl : t = u := hu
    rw [hpos] at haccount
    have hnot : ¬ s.mutex.owner = some t := fun heq => hne (Option.some.inj (hown.symm.trans heq))
    have hpaused : ∀ {s : State τ}, (s.setPos t (.paused timed)).pos t = .paused timed :=
      Function.update_self ..
    rw [hpaused, recordHeld_same (fun last hidle => by rw [hpaused] at hidle; cases hidle)]
    exact fun hclass => ⟨haccount.2 hclass hnot, fun heq => absurd heq hnot⟩
  | @undoes t last switch hpos hgreen hown hclass hlevel =>
    obtain rfl : t = u := hu
    rw [hpos] at haccount
    rw [ends_pos, recordHeld_ends (.inl ⟨.unlock, switch, rfl⟩) (ends_pos ..) hgreen]
    have hheld : h t = s.mutex.level := (haccount.1 hown).2 hclass
    have hleft : heldAfter .unlock .done (h t) = s.mutex.level - 1 := by
      rw [heldAfter, if_pos rfl, if_pos rfl, hheld]
    rw [hleft]
    exact ⟨fun _ => ⟨Nat.sub_pos_of_lt hlevel, fun _ => rfl⟩, fun _ hnot => absurd hown hnot⟩
  | @frees t last switch hpos hgreen hown hlast =>
    obtain rfl : t = u := hu
    rw [hpos] at haccount
    rw [ends_pos, recordHeld_ends (.inl ⟨.unlock, switch, rfl⟩) (ends_pos ..) hgreen]
    refine ⟨fun hown' => (by cases hown'), fun hclass _ => ?_⟩
    have hheld : h t = s.mutex.level := (haccount.1 hown).2 hclass
    have hlevel := hlast hclass
    simp [heldAfter, hheld]
    omega
  | @hands t last next rest switch hpos hgreen hown hlast hqueue =>
    obtain rfl : t = u := hu
    exact hbalanced.hands hinv hpos hgreen hown hlast hqueue rfl
  | @returns t timed hdelivered hpos =>
    obtain rfl : t = u := hu
    exact hbalanced.returns hinv hdelivered hpos hok rfl
  | @yields t hdelivered hpos =>
    obtain rfl : t = u := hu
    rw [hpos] at haccount
    have hnot : ¬ s.mutex.owner = some t := by
      have hthread := hinv.thread t
      simp only [View.Ok, State.view, hpos] at hthread
      exact hthread.2.2
    rw [ends_pos, recordHeld_ends (.inr rfl) (ends_pos ..) haccount.1]
    refine ⟨fun hown => absurd hown hnot, fun hclass _ => ?_⟩
    have hone : h t = 1 := haccount.2 hclass
    simp [heldAfter, hone]
  | deliver | expires | interrupts | disables => exact haccount
  | @handles t =>
    obtain rfl : t = u := hu
    show Account c (s.pos t) (green t = true) ((MutexClass.timeoutHandler s.mutex t).owner = some t)
      (MutexClass.timeoutHandler s.mutex t).level (h t)
    rw [timeoutHandler_owner, timeoutHandler_level]
    exact haccount

theorem Balanced.step (hbalanced : Balanced c green s h) (hinv : Inv green s)
    (hmove : Move c green s l s')
    (hok : calm c s l = true) : Balanced c green s' (recordHeld green h s l s') := by
  intro u
  by_cases hu : u = l.thread
  · exact hbalanced.own hinv hmove hok hu.symm
  · exact hbalanced.other hinv hmove hu

omit [DecidableEq τ] in
/-- When all threads are outside and have unlocked what they had acquired, the mutex is free. -/
theorem Balanced.acquirable (hbalanced : Balanced c green s h) : Acquirable s h := by
  intro hidle hzero
  cases howner : s.mutex.owner with
  | none => rfl
  | some t =>
    obtain ⟨last, hpos⟩ := hidle t
    have haccount := hbalanced t
    rw [hpos] at haccount
    exact absurd (hzero t) (Nat.ne_of_gt (haccount.1 howner).1)

/-- While every step is calm, an exception leaves no trace in the mutex. -/
theorem interrupted_clean (c : MutexClass) (green : τ → Bool) {sh : State τ × (τ → Nat)}
    (hr : (balanced c green).Reach (fun sh l => calm c sh.1 l = true) sh) :
    Clean sh.1 ∧ Acquirable sh.1 sh.2 := by
  obtain ⟨hdisowned, hbalanced⟩ : Disowned sh.1 ∧ Balanced c green sh.1 sh.2 := by
    refine hr.invariant (I := fun sh => Disowned sh.1 ∧ Balanced c green sh.1 sh.2) ?_ ?_
    · rintro ⟨s, h⟩ ⟨⟨level, hs, -⟩, hh⟩
      cases hs
      cases hh
      exact ⟨fun _ _ _ => nofun, fun _ => ⟨nofun, fun _ _ => rfl⟩⟩
    · rintro ⟨s, h⟩ l sh' hr ⟨hdisowned, hbalanced⟩ hok hstep
      obtain ⟨s', hs', rfl⟩ := TransitionSystem.withHistory_step.mp hstep
      have hinv := reach_inv hr.forget
      have hmove := step_move hs'
      exact ⟨hdisowned.step hinv hmove hok, hbalanced.step hinv hmove hok⟩
  refine ⟨fun t op r hpos hop hexception => ?_, hbalanced.acquirable⟩
  exact ⟨hdisowned t op r hpos hop hexception, ((reach_inv hr.forget).idle hpos).1.1⟩

/-- Thread 1 is interrupted in `try_lock_rel` and leaves it after its timer has expired. -/
theorem interrupted_clean_expired :
    ∃ sh : State (Fin 2) × (Fin 2 → Nat), (Clean sh.1 ∧ Acquirable sh.1 sh.2) ∧
    sh.1.pos 1 = .idle (some (.tryLockRel, .interrupted)) ∧ sh.1.mutex.owner = some 0 := by
  let labels : List (Label (Fin 2)) :=
    [.call 0 .lock false, .call 1 .tryLockRel false, .interrupt 1, .expire 1, .handler 1,
      .deliver 1, .wake 1]
  have hreach := (balanced .timedMutex (fun _ => true)).reach_of_run
    (fun sh l => calm .timedMutex sh.1 l) (initial 0, fun _ => 0)
    ⟨⟨0, rfl, nofun⟩, rfl⟩ labels rfl
  exact ⟨_, interrupted_clean .timedMutex (fun _ => true) hreach, rfl, rfl⟩

attribute [local instance] Machine.neZero_two

/-- A thread of two has left `lock` by an exception as the owner, and the mutex stays owned when
everything acquired has been unlocked. -/
def Abandons (c : MutexClass) : Prop :=
  ∃ sh : State (Fin 2) × (Fin 2 → Nat), (balanced c (fun _ => true)).Reach (fun _ _ => True) sh ∧
    sh.1.pos 1 = .idle (some (.lock, .interrupted)) ∧ ¬ Clean sh.1 ∧ ¬ Acquirable sh.1 sh.2

theorem abandons (c : MutexClass) : Abandons c := by
  let labels : List (Label (Fin 2)) :=
    [.call 0 .lock false, .call 1 .lock false, .interrupt 1, .call 0 .unlock false, .deliver 1,
      .wake 1]
  have hrun : ∃ sh : State (Fin 2) × (Fin 2 → Nat),
      (balanced c (fun _ => true)).runIf (fun _ _ => true)
      (initial 0, fun _ => 0) labels = some sh ∧
        sh.1.pos 0 = .idle (some (.unlock, .done)) ∧
        sh.1.pos 1 = .idle (some (.lock, .interrupted)) ∧
        sh.2 0 = 0 ∧ sh.2 1 = 0 ∧ sh.1.mutex.owner = some 1 := by
    cases c <;> exact ⟨_, rfl, rfl, rfl, rfl, rfl, rfl⟩
  obtain ⟨sh, hrun, hpos₀, hpos₁, hheld₀, hheld₁, hown⟩ := hrun
  have hreach := (balanced c (fun _ => true)).reach_of_run (fun _ _ => true) _
    ⟨⟨0, rfl, fun _ => rfl⟩, rfl⟩ labels hrun
  refine ⟨sh, hreach.mono fun _ _ _ => trivial, hpos₁, fun hclean => ?_, fun hacquirable => ?_⟩
  · exact (hclean 1 .lock .interrupted hpos₁ (.inl rfl) rfl).1 hown
  · have hfree := hacquirable (Fin.forall_fin_two.mpr ⟨⟨_, hpos₀⟩, ⟨_, hpos₁⟩⟩)
      (Fin.forall_fin_two.mpr ⟨hheld₀, hheld₁⟩)
    cases hown.symm.trans hfree

theorem owner_interrupted :
    Abandons .mutex ∧ Abandons .recursiveMutex ∧ Abandons .timedMutex ∧
    Abandons .recursiveTimedMutex :=
  ⟨abandons _, abandons _, abandons _, abandons _⟩

end MutexThreads

end GreenThread
