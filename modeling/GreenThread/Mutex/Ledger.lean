import GreenThread.Mutex.Interruption

/-!
# Acquisitions and unlocks

What each green thread has acquired and unlocked without interruptions, counted from what its
operations returned. In a recursive class `level_` is what the owner has still to unlock. In the
other classes an owner has one acquisition to undo: its own `try_lock` returns `true`, because it
owns the mutex, and acquires nothing, so only the successes of the threads that did not own the
mutex are worth an unlock.
-/

namespace GreenThread

namespace MutexThreads

variable {τ ℓ : Type} [DecidableEq τ]

/-- The successful acquisitions and the unlocks of each thread. -/
structure Ledger (τ : Type) where
  acquired : τ → Nat
  unlocked : τ → Nat

/-- An acquisition of the thread ends with the step. A `try_lock` by the owner counts as one if
`again` says so. -/
def acquires (again : Bool) (green : τ → Bool) (s : State τ ℓ) (l : Label τ) (s' : State τ ℓ)
    (u : τ) : Bool :=
  match ended green l s' u with
  | some (op, r) => op ≠ .unlock ∧ r = op.success ∧
      (again ∨ ¬ (op = .tryLock ∧ s.mutex.owner = some u))
  | none => false

/-- The thread calls `unlock`, which does not throw. -/
def unlocks (green : τ → Bool) (l : Label τ) (s' : State τ ℓ) (u : τ) : Bool :=
  match l with
  | .call t .unlock _ =>
    match s'.pos t with
    | .idle (some (_, .threw _)) => false
    | _ => t = u ∧ green u
  | _ => false

def recordLedger (again : Bool) (green : τ → Bool) (h : Ledger τ) (s : State τ ℓ) (l : Label τ)
    (s' : State τ ℓ) :
    Ledger τ where
  acquired := fun u => h.acquired u + if acquires again green s l s' u then 1 else 0
  unlocked := fun u => h.unlocked u + if unlocks green l s' u then 1 else 0

variable [OfNat ℓ 0] [OfNat ℓ 1] [Add ℓ] [Sub ℓ] [LT ℓ] [DecidableLT ℓ]

/-- The threads and what they have acquired and unlocked. -/
def audited (again : Bool) (c : MutexClass) (green : τ → Bool) :
    TransitionSystem (State τ ℓ × Ledger τ) (Label τ) :=
  (system c green).withHistory ⟨fun _ => 0, fun _ => 0⟩ (recordLedger again green)

/-- What the thread has to unlock, outside its operations. -/
def outstanding (c : MutexClass) (s : State τ) (t : τ) : Nat :=
  match s.pos t with
  | .idle _ => if s.mutex.owner = some t then if c.recursive then s.mutex.level else 1 else 0
  | _ => 0

/-- The ledger agrees with the mutex. -/
structure Settled (c : MutexClass) (s : State τ) (h : Ledger τ) : Prop where
  balance : ∀ t, h.acquired t = h.unlocked t + outstanding c s t
  handed : ∀ t timed, s.pos t = .paused timed → s.mutex.owner = some t → c.recursive = true →
    s.mutex.level = 1
  owned : ∀ t, s.mutex.owner = some t → c.recursive = true → 1 ≤ s.mutex.level
  free : s.mutex.owner = none → c = .recursiveMutex → s.mutex.level = 0

variable {again : Bool} {c : MutexClass} {green : τ → Bool} {s s' : State τ} {h : Ledger τ}
    {l : Label τ} {t : τ}

/-! ### What is outstanding -/

theorem outstanding_idle {last : Option (Op × Outcome)} (hpos : s.pos t = .idle last) :
    outstanding c s t = if s.mutex.owner = some t then if c.recursive then s.mutex.level
    else 1 else 0 := by
  rw [outstanding, hpos]

theorem outstanding_paused {timed : Bool} (hpos : s.pos t = .paused timed) :
    outstanding c s t = 0 := by
  rw [outstanding, hpos]

theorem outstanding_yielding (hpos : s.pos t = .yielding) : outstanding c s t = 0 := by
  rw [outstanding, hpos]

theorem outstanding_not_owner (hown : s.mutex.owner ≠ some t) : outstanding c s t = 0 := by
  unfold outstanding
  split
  · exact if_neg hown
  · rfl

/-- The steps of the others leave alone what a thread has to unlock. -/
theorem outstanding_ne (hinv : Inv green s) (hmove : Move c green s l s') (ht : t ≠ l.thread) :
    outstanding c s' t = outstanding c s t := by
  have hpos' := hmove.pos_ne ht
  cases hpos : s.pos t with
  | idle last =>
    have hsame := hmove.owner_ne hinv ht hpos
    rw [outstanding_idle (hpos'.trans hpos), outstanding_idle hpos]
    by_cases hown : s.mutex.owner = some t
    · rw [if_pos hown, if_pos (hsame.mpr hown)]
      rcases hmove.level_ne hinv ht (hsame.mpr hown) with ⟨-, hlevel⟩ | ⟨⟨timed, hpaused⟩, -⟩
      · rw [hlevel]
      · cases hpos.symm.trans hpaused
    · rw [if_neg hown, if_neg fun hown' => hown (hsame.mp hown')]
  | paused timed => rw [outstanding_paused (hpos'.trans hpos), outstanding_paused hpos]
  | yielding => rw [outstanding_yielding (hpos'.trans hpos), outstanding_yielding hpos]

/-! ### What a step records -/

theorem acquires_ne (hu : t ≠ l.thread) : acquires again green s l s' t = false := by
  rw [acquires, ended_ne hu]

theorem unlocks_ne (hu : t ≠ l.thread) : unlocks green l s' t = false := by
  unfold unlocks
  split
  · split
    · rfl
    · rw [decide_eq_false fun hand => hu hand.1.symm]
  · rfl

theorem acquires_ends {op : Op} {r : Outcome} (hl : (∃ switch, l = .call t op switch) ∨ l = .wake t)
    (hpos' : s'.pos t = .idle (some (op, r))) (hgreen : green t = true) :
    acquires again green s l s' t =
      (op ≠ .unlock ∧ r = op.success ∧
        (again ∨ ¬ (op = .tryLock ∧ s.mutex.owner = some t)) : Bool) := by
  rcases hl with ⟨switch, rfl⟩ | rfl <;> simp [acquires, ended, hpos', hgreen]

theorem acquires_unlock {r : Outcome} (hl : (∃ switch, l = .call t .unlock switch) ∨ l = .wake t)
    (hpos' : s'.pos t = .idle (some (.unlock, r))) : acquires again green s l s' t = false := by
  unfold acquires
  split
  · rename_i op r' hended
    have hop : op = .unlock := by
      rcases hl with ⟨switch, rfl⟩ | rfl
      · simp only [ended, hpos', Option.ite_none_right_eq_some, Option.some.injEq,
          Prod.mk.injEq] at hended
        exact hended.2.1.symm
      · simp only [ended, hpos', Option.ite_none_right_eq_some, Option.some.injEq,
          Prod.mk.injEq] at hended
        exact hended.2.1.symm
    exact decide_eq_false fun hand => hand.1 hop
  · rfl

theorem acquires_inside (hpos' : ∀ last, s'.pos t ≠ .idle last) :
    acquires again green s l s' t = false := by
  have hnone : ended green l s' t = none := by
    by_cases ht : t = l.thread
    · unfold ended
      cases hpos : s'.pos t with
      | idle last => exact absurd hpos (hpos' last)
      | paused | yielding => split <;> simp
    · exact ended_ne ht
  rw [acquires, hnone]

theorem acquires_native (hgreen : green t = false) : acquires again green s l s' t = false := by
  have hnone : ended green l s' t = none := by
    have hnot : ∀ u, ¬ (t = u ∧ green u = true) := by
      rintro u ⟨rfl, htrue⟩
      exact Bool.noConfusion (hgreen.symm.trans htrue)
    unfold ended
    split
    · split
      · exact if_neg (hnot _)
      · rfl
    · split
      · exact if_neg (hnot _)
      · rfl
    · rfl
  rw [acquires, hnone]

theorem unlocks_other (hl : ∀ switch, l ≠ .call t .unlock switch) :
    unlocks green l s' t = false := by
  unfold unlocks
  split
  · rename_i u switch
    split
    · rfl
    · exact decide_eq_false fun hand => hl switch (hand.1 ▸ rfl)
  · rfl

theorem unlocks_done {switch : Bool} (hgreen : green t = true)
    (hpos' : ∀ op e, s'.pos t ≠ .idle (some (op, .threw e))) :
    unlocks green (.call t .unlock switch) s' t = true := by
  simp only [unlocks, hgreen, and_self, decide_true]

/-! ### The steps -/

theorem balance_record {a b : Bool} (hbalance : h.acquired t = h.unlocked t + outstanding c s t)
    (hacquires : acquires again green s l s' t = a) (hunlocks : unlocks green l s' t = b)
    (houtstanding : outstanding c s' t + b.toNat = outstanding c s t + a.toNat) :
    (recordLedger again green h s l s').acquired t =
    (recordLedger again green h s l s').unlocked t + outstanding c s' t := by
  simp only [recordLedger, hacquires, hunlocks]
  cases a <;> cases b <;> simp only [Bool.toNat_true, Bool.toNat_false, Bool.false_eq_true, if_true,
    if_false] at houtstanding ⊢ <;> omega

theorem unlocks_ended {switch : Bool} (hgreen : green t = true)
    (hpos' : s'.pos t = .idle (some (.unlock, .done)) ∨ s'.pos t = .yielding) :
    acquires again green s (.call t .unlock switch) s' t = false ∧
    unlocks green (.call t .unlock switch) s' t = true := by
  rcases hpos' with hpos' | hpos'
  · refine ⟨acquires_unlock (.inl ⟨switch, rfl⟩) hpos', unlocks_done hgreen fun op e heq => ?_⟩
    cases hpos'.symm.trans heq
  · refine ⟨acquires_inside fun last heq => ?_, unlocks_done hgreen fun op e heq => ?_⟩
    · cases hpos'.symm.trans heq
    · cases hpos'.symm.trans heq

theorem Refused.records {op : Op} {r : Outcome} {switch : Bool}
    (hrefused : Refused c green s t op r) :
    acquires again green s (.call t op switch) (s.ends t op r) t = false ∧
      unlocks green (.call t op switch) (s.ends t op r) t = false := by
  cases hrefused with
  | native hgreen =>
    refine ⟨acquires_native hgreen, ?_⟩
    unfold unlocks
    split
    · split
      · rfl
      · exact decide_eq_false fun hand => Bool.noConfusion (hgreen.symm.trans hand.2)
    · rfl
  | deadlock hgreen hown hclass hop =>
    refine ⟨?_, unlocks_other fun switch' heq => ?_⟩
    · rw [acquires_ends (.inl ⟨switch, rfl⟩) (ends_pos ..) hgreen]
      rcases hop with rfl | rfl <;> rfl
    · cases heq
      rcases hop with hop | hop <;> cases hop
  | busy hgreen =>
    refine ⟨?_, unlocks_other fun switch' heq => by cases heq⟩
    rw [acquires_ends (.inl ⟨switch, rfl⟩) (ends_pos ..) hgreen]
    rfl
  | notOwner hgreen =>
    refine ⟨?_, ?_⟩
    · rw [acquires_ends (.inl ⟨switch, rfl⟩) (ends_pos ..) hgreen]
      rfl
    · simp [unlocks, ends_pos]

theorem acquires_success {op : Op} {switch : Bool}
    (hpos' : s'.pos t = .idle (some (op, op.success))) (hgreen : green t = true)
    (hop : op ≠ .unlock) : acquires again green s (.call t op switch) s' t =
    (again || decide (¬ (op = .tryLock ∧ s.mutex.owner = some t))) := by
  rw [acquires_ends (.inl ⟨switch, rfl⟩) hpos' hgreen]
  simp [hop]

theorem outstanding_last (hsettled : Settled c s h) {last : Option (Op × Outcome)}
    (hpos : s.pos t = .idle last)
    (hown : s.mutex.owner = some t) (hlast : c.recursive = true → s.mutex.level ≤ 1) :
    outstanding c s t = 1 := by
  rw [outstanding_idle hpos, if_pos hown]
  split
  · rename_i hclass
    have hle := hlast hclass
    have hlevel := hsettled.owned t hown hclass
    omega
  · rfl

theorem Settled.own (hsettled : Settled c s h) (hagain : again = c.recursive) (hinv : Inv green s)
    (hquiet : Undisturbed s) (hmove : Move c green s l s') (ht : l.thread = t) :
    (recordLedger again green h s l s').acquired t =
    (recordLedger again green h s l s').unlocked t + outstanding c s' t := by
  have hbalance := hsettled.balance t
  cases hmove with
  | @refused u last op r switch hpos hrefused =>
    obtain rfl : u = t := ht
    obtain ⟨hacquires, hunlocks⟩ := hrefused.records
    refine balance_record hbalance hacquires hunlocks ?_
    rw [outstanding_idle hpos, outstanding_idle (ends_pos ..)]
    rfl
  | @takes u last op switch hpos hgreen hfree hop =>
    obtain rfl : u = t := ht
    have hnot : s.mutex.owner ≠ some u := by
      rw [hfree]
      exact nofun
    refine balance_record (a := true) (b := false) hbalance ?_
      (unlocks_other fun switch' heq => ?_) ?_
    · rw [acquires_success (ends_pos ..) hgreen hop]
      simp [hnot]
    · cases heq
      exact hop rfl
    · rw [outstanding_idle (ends_pos ..), outstanding_not_owner hnot]
      cases hclass : c.recursive
        <;> simp [State.ends, State.setPos, State.setMutex, MutexClass.firstLevel, hclass]
  | @again u last op switch hpos hgreen hown hop hclass =>
    obtain rfl : u = t := ht
    refine balance_record (a := c.recursive) (b := false) hbalance ?_
      (unlocks_other fun switch' heq => ?_) ?_
    · rw [acquires_success (ends_pos ..) hgreen hop, hagain]
      rcases hclass with hclass | rfl
      · rw [hclass]
        rfl
      · simp [hown]
    · cases heq
      exact hop rfl
    · rw [outstanding_idle (ends_pos ..), outstanding_idle hpos, if_pos hown]
      cases hclass : c.recursive
        <;> simp [State.ends, State.setPos, State.setMutex, MutexClass.nextLevel, hclass, hown]
  | @queues u last v switch timed hpos hgreen hown hne =>
    obtain rfl : u = t := ht
    have hpaused : ∀ s : State τ, (s.setPos u (.paused timed)).pos u = .paused timed :=
      fun s => Function.update_self ..
    refine balance_record (a := false) (b := false) hbalance (acquires_inside fun last' heq => ?_)
      (unlocks_other fun switch' heq => ?_) ?_
    · cases (hpaused _).symm.trans heq
    · cases timed <;> cases heq
    · rw [outstanding_paused (hpaused _),
        outstanding_not_owner fun heq => hne (Option.some.inj (hown.symm.trans heq))]
  | @undoes u last switch hpos hgreen hown hclass hlevel =>
    obtain rfl : u = t := ht
    obtain ⟨hacquires, hunlocks⟩ := unlocks_ended hgreen (.inl (ends_pos ..))
    refine balance_record hbalance hacquires hunlocks ?_
    rw [outstanding_idle (ends_pos ..), outstanding_idle hpos, if_pos hown]
    simp only [State.ends, State.setPos, State.setMutex, hown, hclass, if_true, Bool.toNat_true,
      Bool.toNat_false]
    omega
  | @frees u last switch hpos hgreen hown hlast =>
    obtain rfl : u = t := ht
    obtain ⟨hacquires, hunlocks⟩ := unlocks_ended hgreen (.inl (ends_pos ..))
    refine balance_record hbalance hacquires hunlocks ?_
    have hfree :
      outstanding c
        ((s.setMutex ⟨none, if c.recursive then 0 else s.mutex.level, []⟩).ends u .unlock .done) u =
      0 :=
      outstanding_not_owner fun heq => Option.some_ne_none u heq.symm
    rw [outstanding_last hsettled hpos hown hlast, hfree]
    rfl
  | @hands u last next rest switch hpos hgreen hown hlast hqueue =>
    obtain rfl : u = t := ht
    have hmem : next ∈ s.mutex.suspended := by
      rw [hqueue]
      exact List.mem_cons_self
    have hnot : next.f ≠ u := fun heq => (hinv.idle hpos).1.1 next.t (heq ▸ hmem)
    have hends :
      (((s.setMutex ⟨some next.f, c.firstLevel s.mutex.level, rest⟩).wakeItem next).unlockEnds u
        switch).pos u =
        .idle (some (.unlock, .done)) ∨
        (((s.setMutex ⟨some next.f, c.firstLevel s.mutex.level, rest⟩).wakeItem next).unlockEnds u
          switch).pos u = .yielding := by
      rw [unlockEnds_pos, Function.update_self]
      cases switch
      · exact .inl rfl
      · exact .inr rfl
    obtain ⟨hacquires, hunlocks⟩ := unlocks_ended hgreen hends
    refine balance_record hbalance hacquires hunlocks ?_
    rw [outstanding_last hsettled hpos hown hlast, outstanding_not_owner]
    · rfl
    · rw [State.unlockEnds_mutex, State.wakeItem_mutex]
      exact fun heq => hnot (Option.some.inj heq)
  | @returns u timed hdelivered hpos =>
    obtain rfl : u = t := ht
    have hsuccess := pauseOutcome_success (c := c) hinv hpos hdelivered
      (by simp [calm, State.interrupted, hquiet u])
    refine balance_record (a := s.mutex.owner = some u) (b := false) hbalance ?_
      (unlocks_other fun switch heq => by cases heq) ?_
    · cases hgreen : green u with
      | false =>
        rw [acquires_native hgreen]
        exact (decide_eq_false fun hown => Bool.noConfusion
          (hgreen.symm.trans (hinv.ownerGreen u hown))).symm
      | true =>
        rw [acquires_ends (.inr rfl) (ends_pos ..) hgreen]
        cases timed <;> simp only [← hsuccess] <;> simp [pauseOp]
    · rw [outstanding_idle (ends_pos ..), outstanding_paused hpos]
      by_cases hown : s.mutex.owner = some u
      · have hlevel := hsettled.handed u timed hpos hown
        cases hclass : c.recursive
          <;> simp [State.ends, State.setPos, State.consume, hown, hclass, hlevel]
      · simp [State.ends, State.setPos, State.consume, hown]
  | @yields u hdelivered hpos =>
    obtain rfl : u = t := ht
    have hnot : s.mutex.owner ≠ some u := by
      have hthread := hinv.thread u
      simp only [View.Ok, State.view, hpos] at hthread
      exact hthread.2.2
    refine balance_record hbalance (acquires_unlock (.inr rfl) (ends_pos ..))
      (unlocks_other fun switch heq => by cases heq) ?_
    rw [outstanding_yielding hpos, outstanding_not_owner]
    exact hnot
  | deliver | expires | interrupts | disables =>
    exact balance_record (a := false) (b := false) hbalance rfl rfl rfl
  | @handles u =>
    refine balance_record (a := false) (b := false) hbalance rfl rfl ?_
    simp only [outstanding]
    rw [show (((s.setTimer u .idle).setMutex (MutexClass.timeoutHandler s.mutex u)).resume
      u).mutex = MutexClass.timeoutHandler s.mutex u from rfl,
      timeoutHandler_owner, timeoutHandler_level]
    rfl

/-! ### The owner and the level -/

/-- What a step does to the owner and the level. -/
inductive Change (c : MutexClass) (s : State τ) (l : Label τ) (s' : State τ) : Prop
  | same (howner : s'.mutex.owner = s.mutex.owner) (hlevel : s'.mutex.level = s.mutex.level)
  | takes {op switch} (hl : l = .call l.thread op switch) (hop : op ≠ .unlock)
      (hends : s'.pos l.thread = .idle (some (op, op.success)))
      (hfree : s.mutex.owner = none) (howner : s'.mutex.owner = some l.thread)
      (hlevel : s'.mutex.level = c.firstLevel s.mutex.level)
  | again {op switch} (hl : l = .call l.thread op switch) (hop : op ≠ .unlock)
      (hends : s'.pos l.thread = .idle (some (op, op.success)))
      (hown : s.mutex.owner = some l.thread) (howner : s'.mutex.owner = some l.thread)
      (hlevel : s'.mutex.level = c.nextLevel s.mutex.level)
  | undoes {switch} (hl : l = .call l.thread .unlock switch) (hown : s.mutex.owner = some l.thread)
      (hmore : 1 < s.mutex.level) (howner : s'.mutex.owner = some l.thread)
      (hlevel : s'.mutex.level = s.mutex.level - 1)
  | frees {switch} (hl : l = .call l.thread .unlock switch) (hown : s.mutex.owner = some l.thread)
      (hlast : c.recursive = true → s.mutex.level ≤ 1) (howner : s'.mutex.owner = none)
      (hlevel : s'.mutex.level = if c.recursive then 0 else s.mutex.level)
  | hands {switch next} (hl : l = .call l.thread .unlock switch)
      (hown : s.mutex.owner = some l.thread)
      (hlast : c.recursive = true → s.mutex.level ≤ 1) (hmem : next ∈ s.mutex.suspended)
      (howner : s'.mutex.owner = some next.f)
      (hlevel : s'.mutex.level = c.firstLevel s.mutex.level)

theorem Move.change (hmove : Move c green s l s') : Change c s l s' := by
  cases hmove with
  | takes hpos hgreen hfree hop => exact .takes rfl hop (ends_pos ..) hfree rfl rfl
  | again hpos hgreen hown hop => exact .again rfl hop (ends_pos ..) hown hown rfl
  | undoes hpos hgreen hown hclass hlevel => exact .undoes rfl hown hlevel hown rfl
  | frees hpos hgreen hown hlast => exact .frees rfl hown hlast rfl rfl
  | @hands t last next rest switch hpos hgreen hown hlast hqueue =>
    have hmem : next ∈ s.mutex.suspended := by
      rw [hqueue]
      exact List.mem_cons_self
    refine .hands rfl hown hlast hmem ?_ ?_
    · rw [State.unlockEnds_mutex, State.wakeItem_mutex]
      rfl
    · rw [State.unlockEnds_mutex, State.wakeItem_mutex]
      rfl
  | @handles t => exact .same (timeoutHandler_owner s.mutex t) (timeoutHandler_level s.mutex t)
  | _ => exact .same rfl rfl

omit [DecidableEq τ] in
theorem Change.owned (hchange : Change c s l s')
    (howned : ∀ t, s.mutex.owner = some t → c.recursive = true → 1 ≤ s.mutex.level)
    (hown : s'.mutex.owner = some t) (hclass : c.recursive = true) : 1 ≤ s'.mutex.level := by
  cases hchange with
  | same howner hlevel =>
    rw [hlevel]
    exact howned t (howner.symm.trans hown) hclass
  | takes _ _ _ _ _ hlevel | hands _ _ _ _ _ hlevel =>
    have hfirst : s'.mutex.level = 1 := by rw [hlevel, MutexClass.firstLevel, if_pos hclass]
    exact Nat.le_of_eq hfirst.symm
  | again _ _ _ _ _ hlevel =>
    rw [hlevel, MutexClass.nextLevel, if_pos hclass]
    exact Nat.le_add_left ..
  | undoes _ _ hmore _ hlevel =>
    rw [hlevel]
    omega
  | frees _ _ _ howner => cases howner.symm.trans hown

omit [DecidableEq τ] in
theorem Change.free (hchange : Change c s l s')
    (hfree : s.mutex.owner = none → c = .recursiveMutex → s.mutex.level = 0)
    (hown : s'.mutex.owner = none) (hclass : c = .recursiveMutex) : s'.mutex.level = 0 := by
  cases hchange with
  | same howner hlevel =>
    rw [hlevel]
    exact hfree (howner.symm.trans hown) hclass
  | takes _ _ _ _ howner | again _ _ _ _ howner | undoes _ _ _ howner | hands _ _ _ _ howner =>
    cases howner.symm.trans hown
  | frees _ _ _ _ hlevel =>
    rw [hlevel, hclass]
    rfl

theorem Settled.handed_step (hsettled : Settled c s h) (hinv : Inv green s)
    (hmove : Move c green s l s') {timed : Bool}
    (hpos' : s'.pos t = .paused timed) (hown : s'.mutex.owner = some t)
    (hclass : c.recursive = true) : s'.mutex.level = 1 := by
  by_cases ht : t = l.thread
  · have hends : ∀ {op r} {s : State τ}, (s.ends t op r).pos t ≠ .paused timed := fun hpaused => by
      cases (ends_pos ..).symm.trans hpaused
    cases hmove with
    | refused | takes | again | undoes | frees | returns | yields =>
      subst ht
      exact absurd hpos' hends
    | queues timed' hpos hgreen hown' hne =>
      subst ht
      exact absurd (Option.some.inj (hown'.symm.trans hown)) hne
    | hands =>
      subst ht
      rw [unlockEnds_pos, wakeItem_pos] at hpos'
      have hpos' := (Function.update_self ..).symm.trans hpos'
      split at hpos' <;> cases hpos'
    | deliver | expires | interrupts | disables => exact hsettled.handed t timed hpos' hown hclass
    | @handles u =>
      refine (timeoutHandler_level s.mutex u).trans (hsettled.handed t timed hpos' ?_ hclass)
      exact (timeoutHandler_owner s.mutex u).symm.trans hown
  · have hpos : s.pos t = .paused timed := (hmove.pos_ne ht).symm.trans hpos'
    rcases hmove.level_ne hinv ht hown with ⟨hown, hlevel⟩ | ⟨-, hlevel⟩
    · rw [hlevel]
      exact hsettled.handed t timed hpos hown hclass
    · exact hlevel hclass

theorem Settled.step (hsettled : Settled c s h) (hagain : again = c.recursive) (hinv : Inv green s)
    (hquiet : Undisturbed s)
    (hmove : Move c green s l s') : Settled c s' (recordLedger again green h s l s') where
  balance := by
    intro t
    by_cases ht : t = l.thread
    · exact hsettled.own hagain hinv hquiet hmove ht.symm
    · refine balance_record (hsettled.balance t) (acquires_ne ht) (unlocks_ne ht) ?_
      rw [outstanding_ne hinv hmove ht]
  handed := fun t timed hpos' hown hclass => hsettled.handed_step hinv hmove hpos' hown hclass
  owned := fun t hown hclass => hmove.change.owned hsettled.owned hown hclass
  free := fun hown hclass => hmove.change.free hsettled.free hown hclass

/-- Without interruptions the ledger agrees with the mutex in every state. -/
theorem reach_settled (hagain : again = c.recursive) {sh : State τ × Ledger τ}
    (hr : (audited again c green).Reach (fun _ l => notInterrupt l = true) sh) :
    Inv green sh.1 ∧ Undisturbed sh.1 ∧ Settled c sh.1 sh.2 := by
  refine ⟨reach_inv hr.forget,
    hr.invariant (I := fun sh => Undisturbed sh.1 ∧ Settled c sh.1 sh.2) ?_ ?_⟩
  · rintro ⟨s, h⟩ ⟨⟨level, hs, hlevel⟩, hh⟩
    cases hs
    cases hh
    exact ⟨fun _ => rfl, fun _ => rfl, nofun, nofun, fun _ hclass => hlevel hclass⟩
  · rintro ⟨s, h⟩ l sh' hr ⟨hquiet, hsettled⟩ hok hstep
    obtain ⟨s', hs', rfl⟩ := TransitionSystem.withHistory_step.mp hstep
    have hmove := step_move hs'
    exact ⟨hquiet.step hmove hok, hsettled.step hagain (reach_inv hr.forget) hquiet hmove⟩

/-! ### The recursive classes -/

/-- The acquisition of a thread that has been handed the mutex and has not returned from its
pause. -/
def Pos.inFlight (p : Pos) : Nat := if p.isPaused then 1 else 0

/-- The level, which stands for the number `value`, is what the owner has acquired and not unlocked,
and only the operations that succeed change it. -/
structure RecursiveBalance (value : ℓ → Nat) (c : MutexClass) (green : τ → Bool) (s : State τ ℓ)
    (h : Ledger τ) : Prop where
  level : ∀ t, s.mutex.owner = some t →
    1 ≤ value s.mutex.level ∧ h.acquired t + (s.pos t).inFlight = h.unlocked t + value s.mutex.level
  /-- The assertions where a free mutex is acquired. -/
  free : s.mutex.owner = none → s.mutex.suspended = [] ∧ (c = .recursiveMutex → s.mutex.level = 0)
  released : ∀ l s' t, step c green s l = some s' → s.mutex.owner = some t →
    (s'.mutex.owner ≠ some t ↔ (∃ switch, l = .call t .unlock switch) ∧
      h.acquired t = h.unlocked t + 1)
  fresh : ∀ l s' t, step c green s l = some s' → s.mutex.owner ≠ some t → s'.mutex.owner = some t →
    s'.mutex.level = 1 ∧ h.acquired t = h.unlocked t
  kept : ∀ l s', step c green s l = some s' → (∀ t switch, l ≠ .call t .unlock switch) →
    (∀ t op switch, l = .call t op switch → s'.pos t ≠ .idle (some (op, op.success))) →
    s'.mutex.level = s.mutex.level

omit [DecidableEq τ] in
theorem owner_not_yielding (hinv : Inv green s) (hown : s.mutex.owner = some t) :
    s.pos t ≠ .yielding := by
  intro hpos
  have hthread := hinv.thread t
  simp only [View.Ok, State.view, hpos] at hthread
  exact hthread.2.2 hown

theorem Settled.level (hsettled : Settled c s h) (hinv : Inv green s) (hclass : c.recursive = true)
    (hown : s.mutex.owner = some t) :
    1 ≤ s.mutex.level ∧ h.acquired t + (s.pos t).inFlight = h.unlocked t + s.mutex.level := by
  refine ⟨hsettled.owned t hown hclass, ?_⟩
  rw [hsettled.balance t]
  cases hpos : s.pos t with
  | idle last =>
    rw [outstanding_idle hpos, if_pos hown, if_pos hclass]
    rfl
  | paused timed =>
    rw [outstanding_paused hpos, hsettled.handed t timed hpos hown hclass]
    rfl
  | yielding => exact absurd hpos (owner_not_yielding hinv hown)

/-- The owner loses the mutex exactly by the `unlock` that undoes its first acquisition. -/
theorem Settled.released (hsettled : Settled c s h) (hinv : Inv green s)
    (hclass : c.recursive = true) (hmove : Move c green s l s') (hown : s.mutex.owner = some t) :
    s'.mutex.owner ≠ some t ↔ (∃ switch, l = .call t .unlock switch) ∧
    h.acquired t = h.unlocked t + 1 := by
  have hbalance := hsettled.balance t
  cases hmove with
  | @refused u last op r switch hpos hrefused =>
    refine iff_of_false (fun hnot => hnot hown) ?_
    rintro ⟨⟨switch', heq⟩, -⟩
    cases heq
    cases hrefused with
    | native hgreen => cases hgreen.symm.trans (hinv.ownerGreen t hown)
    | deadlock _ _ _ hop => rcases hop with hop | hop <;> cases hop
    | notOwner _ hnot => exact hnot hown
  | takes _ _ hfree => cases hown.symm.trans hfree
  | again _ _ _ hop =>
    refine iff_of_false (fun hnot => hnot hown) ?_
    rintro ⟨⟨switch', heq⟩, -⟩
    cases heq
    exact hop rfl
  | queues timed =>
    refine iff_of_false (fun hnot => hnot hown) ?_
    rintro ⟨⟨switch', heq⟩, -⟩
    cases timed <;> cases heq
  | undoes hpos _ hself _ hlevel =>
    obtain rfl := Option.some.inj (hself.symm.trans hown)
    rw [outstanding_idle hpos, if_pos hown, if_pos hclass] at hbalance
    refine iff_of_false (fun hnot => hnot hown) fun hand => ?_
    omega
  | frees hpos _ hself hlast =>
    obtain rfl := Option.some.inj (hself.symm.trans hown)
    rw [outstanding_last hsettled hpos hown hlast] at hbalance
    exact iff_of_true (fun heq => Option.some_ne_none _ heq.symm) ⟨⟨_, rfl⟩, hbalance⟩
  | @hands u last next rest switch hpos _ hself hlast hqueue =>
    obtain rfl := Option.some.inj (hself.symm.trans hown)
    rw [outstanding_last hsettled hpos hown hlast] at hbalance
    have hmem : next ∈ s.mutex.suspended := by
      rw [hqueue]
      exact List.mem_cons_self
    refine iff_of_true (fun heq => ?_) ⟨⟨_, rfl⟩, hbalance⟩
    rw [State.unlockEnds_mutex, State.wakeItem_mutex] at heq
    have hnext : next.f = u := Option.some.inj heq
    exact (hinv.idle hpos).1.1 next.t (hnext ▸ hmem)
  | @handles u =>
    refine iff_of_false (fun hnot => hnot ((timeoutHandler_owner s.mutex u).trans hown)) ?_
    rintro ⟨⟨switch', heq⟩, -⟩
    cases heq
  | deliver | returns | yields | expires | interrupts | disables =>
    refine iff_of_false (fun hnot => hnot hown) ?_
    rintro ⟨⟨switch', heq⟩, -⟩
    cases heq

/-- A level without a bound balances in every run. -/
theorem reach_balanced (hclass : c.recursive = true) {sh : State τ × Ledger τ}
    (hr : (audited true c green).Reach (fun _ l => notInterrupt l = true) sh) :
    RecursiveBalance id c green sh.1 sh.2 := by
  obtain ⟨hinv, hquiet, hsettled⟩ := reach_settled hclass.symm hr
  refine ⟨fun t => hsettled.level hinv hclass, fun hfree => ?_,
    fun l s' t hstep => hsettled.released hinv hclass (step_move hstep), ?_, ?_⟩
  · exact ⟨hinv.free hfree, hsettled.free hfree⟩
  · intro l s' t hstep hnot hown
    have hbalance := hsettled.balance t
    rw [outstanding_not_owner hnot] at hbalance
    refine ⟨?_, hbalance⟩
    cases (step_move hstep).change with
    | same howner => exact absurd (howner.symm.trans hown) hnot
    | takes _ _ _ _ _ hlevel | hands _ _ _ _ _ hlevel =>
      rw [hlevel, MutexClass.firstLevel, if_pos hclass]
    | again _ _ _ hself howner | undoes _ hself _ howner =>
      exact absurd (hself.trans (howner.symm.trans hown)) hnot
    | frees _ _ _ howner => cases howner.symm.trans hown
  · intro l s' hstep hunlock hsuccess
    cases (step_move hstep).change with
    | same _ hlevel => exact hlevel
    | takes hl _ hends | again hl _ hends => exact absurd hends (hsuccess _ _ _ hl)
    | undoes hl | frees hl | hands hl => exact absurd hl (hunlock _ _)

/-! ### The classes without a level -/

/-- A thread that has something to unlock is the owner, so it is the only one, and its `unlock` is
not refused. -/
structure Protects (c : MutexClass) (green : τ → Bool) (s : State τ) (h : Ledger τ) : Prop where
  owner : ∀ t, h.unlocked t < h.acquired t → s.mutex.owner = some t
  exclusive : ∀ t u, h.unlocked t < h.acquired t → h.unlocked u < h.acquired u → t = u
  accepted : ∀ t switch s' e, h.unlocked t < h.acquired t →
    step c green s (.call t .unlock switch) = some s' →
    s'.pos t ≠ .idle (some (.unlock, .threw e))

theorem Settled.owner (hsettled : Settled c s h) (hmore : h.unlocked t < h.acquired t) :
    s.mutex.owner = some t := by
  by_contra hnot
  have hbalance := hsettled.balance t
  rw [outstanding_not_owner hnot] at hbalance
  omega

theorem unlock_accepted (hown : s.mutex.owner = some t) {switch : Bool}
    (hmove : Move c green s (.call t .unlock switch) s') (e : ErrorCode) :
    s'.pos t ≠ .idle (some (.unlock, .threw e)) := by
  intro hpos'
  generalize hl : Label.call t .unlock switch = l at hmove
  cases hmove with
  | refused hpos hrefused =>
    cases hl
    obtain ⟨-, rfl⟩ := pos_ends hpos'
    cases hrefused with
    | native _ hr => cases hr
    | deadlock _ _ _ hop => rcases hop with hop | hop <;> cases hop
    | notOwner _ hnot => exact hnot hown
  | takes _ _ _ hop | again _ _ _ hop =>
    cases hl
    exact hop rfl
  | queues timed => cases timed <;> cases hl
  | undoes | frees =>
    cases hl
    obtain ⟨-, hr⟩ := pos_ends hpos'
    cases hr
  | hands =>
    cases hl
    rw [unlockEnds_pos, Function.update_self] at hpos'
    split at hpos' <;> cases hpos'
  | _ => cases hl

/-- What a thread has acquired, other than by the `try_lock` of an owner, protects it until it has
unlocked as often. -/
theorem acquisitions_protect (hclass : c.recursive = false) {sh : State τ × Ledger τ}
    (hr : (audited false c green).Reach (fun _ l => notInterrupt l = true) sh) :
    Protects c green sh.1 sh.2 := by
  obtain ⟨-, -, hsettled⟩ := reach_settled hclass.symm hr
  refine ⟨fun t hmore => hsettled.owner hmore, fun t u ht hu => ?_,
    fun t switch s' e hmore hstep => ?_⟩
  · exact Option.some.inj ((hsettled.owner ht).symm.trans (hsettled.owner hu))
  · exact unlock_accepted (hsettled.owner hmore) (step_move hstep) e

/-- Thread 0 locks, tries again as the owner and unlocks, which hands the mutex to thread 1. -/
theorem acquisitions_protect_handed : ∃ sh : State (Fin 2) × Ledger (Fin 2),
    Protects .timedMutex (fun _ => true) sh.1 sh.2 ∧ sh.1.mutex.owner = some 1 ∧
    sh.2.acquired 0 = 1 ∧ sh.2.unlocked 0 = 1 ∧
      sh.2.acquired 1 = 1 := by
  let labels : List (Label (Fin 2)) :=
    [.call 0 .lock false, .call 0 .tryLock false, .call 1 .lock false, .call 0 .unlock false,
      .deliver 1, .wake 1]
  have hreach := (audited false .timedMutex (fun _ => true)).reach_of_run
    (fun _ l => notInterrupt l)
    (initial 0, ⟨fun _ => 0, fun _ => 0⟩) ⟨⟨0, rfl, nofun⟩, rfl⟩ labels rfl
  exact ⟨_, acquisitions_protect rfl hreach, rfl, rfl, rfl, rfl⟩

/-- Thread 0 locks, tries again with success and unlocks once. Thread 1 then locks too. -/
theorem try_lock_counted : ¬ ∀ sh : State (Fin 2) × Ledger (Fin 2),
    (audited true .mutex (fun _ => true)).Reach (fun _ l => notInterrupt l = true) sh →
    Protects .mutex (fun _ => true) sh.1 sh.2 := by
  intro hprotects
  let labels : List (Label (Fin 2)) :=
    [.call 0 .lock false, .call 0 .tryLock false, .call 0 .unlock false, .call 1 .lock false]
  have hreach := (audited true .mutex (fun _ => true)).reach_of_run (fun _ l => notInterrupt l)
    (initial 0, ⟨fun _ => 0, fun _ => 0⟩) ⟨⟨0, rfl, nofun⟩, rfl⟩ labels rfl
  exact absurd ((hprotects _ hreach).exclusive 0 1 (by decide) (by decide)) (by decide)

end MutexThreads

end GreenThread
