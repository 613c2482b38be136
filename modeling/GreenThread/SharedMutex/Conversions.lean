import GreenThread.SharedMutex.Stranded

/-!
# Conversions

A pending upgrade is granted by the last reader, unless that reader takes the lock itself in
`try_unlock_shared_and_lock_until`, which does not look at `upgrade` as `try_unlock_shared_and_lock`
does. The timed conversions sleep on the condition variables of other waiters, and are woken only by
the sections that notify all of these, or by a `notify_one` of which they are the longest waiter.
-/

namespace GreenThread

namespace SharedMutex

variable {τ : Type} [DecidableEq τ]

/-! ### Pending upgrades -/

/-- A thread that waits in `unlock_upgrade_and_lock` finds the flag and a reader, or a thread that
has granted it the lock is about to notify `upgrade_cond`. -/
def UpgradeBacked (s : State τ) : Prop :=
  ∀ t c timed, s.pc t = .asleep .unlockUpgradeAndLock c timed →
    (s.data.upgrade = true ∧ 1 ≤ s.data.sharedCount) ∨ AboutTo s (.one .upgrade)

/-- The section is the end of a `try_unlock_shared_and_lock_until` that takes the lock while
`upgrade` is set. -/
def steals (s : State τ) (l : Label τ) : Prop :=
  ∃ t r, l.section? s = some (t, .tryUnlockSharedAndLockUntil, r) ∧ s.data.sharedCount = 1 ∧
  s.data.upgrade = true

/-- At most one upgrader waits, and nobody else holds upgrade ownership. -/
structure Pending [Fintype τ] (s : State τ) : Prop where
  single : ∀ {t u c c' timed timed'}, s.pc t = .asleep .unlockUpgradeAndLock c timed →
    s.pc u = .asleep .unlockUpgradeAndLock c' timed' → t = u
  backed : Sleeps s .unlockUpgradeAndLock →
    (s.data.upgrade = true ∧ s.held .upgrade = 0) ∨ AboutTo s (.one .upgrade)

section

variable {op : Op} {r : Option CvStatus} {d : StateData} {l : Leaves}

/-- The upgrade flag is cleared by the holder, by a grant, or by a conversion that does not look at
it. -/
theorem Does.upgrade (h : Does op r d l) (hflag : d.upgrade = true) :
    l.state.upgrade = true ∨ .one .upgrade ∈ l.after ∨ op.source = some .upgrade ∨
      op = .tryUnlockSharedAndLockUntil ∧ d.sharedCount = 1 := by
  cases h with
  | takesShared _ _ | takesExclusive _ _ | gives _ | waits _ _ _ _ | blocks _ _ | abandons _
  | unlocksShared _ | unlocks
  | waitsUpgrade _ | downgradesShared => exact .inl hflag
  | takesUpgrade _ _ | downgrades | sharedToUpgrade _ _ => exact .inl rfl
  | grants _ _ => exact .inr (.inl List.mem_cons_self)
  | unlocksLast _ hnot => cases hnot.symm.trans hflag
  | unlocksUpgrade _ | unlocksLastUpgrade _ | upgrades _ | upgradesWoken _ | upgradeToShared =>
    exact .inr (.inr (.inl rfl))
  | converts htries htarget hone hnot _ =>
    cases op with
    | tryUnlockUpgradeAndLock | tryUnlockUpgradeAndLockUntil => exact .inr (.inr (.inl rfl))
    | tryUnlockSharedAndLock => cases (hnot rfl).symm.trans hflag
    | tryUnlockSharedAndLockUntil => exact .inr (.inr (.inr ⟨rfl, hone⟩))
    | tryUnlockSharedAndLockUpgrade | tryUnlockSharedAndLockUpgradeUntil => cases htarget
    | _ => cases htries

/-- Upgrade ownership is taken from the exclusive holder, or while the flag is clear. -/
theorem Does.takesFlag (h : Does op r d l) (hflag : d.upgrade = true)
    (htarget : op.target = some .upgrade)
    (hret : l.next = .ret true) : op.source = some .exclusive := by
  cases h with
  | takesUpgrade _ hcan | sharedToUpgrade _ hcan => cases hcan.2.2.symm.trans hflag
  | takesShared hop _ => rcases hop with rfl | rfl | rfl <;> cases htarget
  | takesExclusive hop _ => rcases hop with rfl | rfl | rfl <;> cases htarget
  | converts _ hexclusive _ _ _ => cases hexclusive.symm.trans htarget
  | gives _ | waits _ _ _ _ | blocks _ _ | abandons _ | waitsUpgrade _ => cases hret
  | downgrades => rfl
  | unlocksShared _ | grants _ _ | unlocksLast _ _ | unlocks | unlocksUpgrade _
  | unlocksLastUpgrade _ | upgrades _
  | upgradesWoken _ | downgradesShared | upgradeToShared => cases htarget

theorem Does.waits_upgrade (h : Does .unlockUpgradeAndLock r d l) {c : Cond} {timed : Bool}
    (hnext : l.next = .wait c timed) :
    (r = none ∧ l.state.upgrade = d.upgrade) ∨ r ≠ none ∧ d.moreShared := by
  cases h with
  | waitsUpgrade hmore => exact .inl ⟨rfl, rfl⟩
  | waits _ hnot _ hfirst => exact .inr ⟨hfirst rfl, not_not.mp hnot⟩
  | blocks hop _ => rcases hop with h | h <;> cases h
  | takesShared _ _ | takesUpgrade _ _ | takesExclusive _ _ | gives _ | converts _ _ _ _ _
  | sharedToUpgrade _ _
  | upgrades _ | upgradesWoken _ => cases hnext

theorem Op.exit_upgrade_le {b : Bool} {h : Holds} (hne : b = true → op.target ≠ some .upgrade) :
    (op.exit b h).upgrade ≤ h.upgrade := by
  cases b with
  | false => exact Nat.le_refl _
  | true =>
    have hdrop : (if op.tries then op.source.elim h h.drop else h).upgrade ≤ h.upgrade := by
      split
      · cases op.source with
        | none => exact Nat.le_refl _
        | some m =>
          cases m with
          | upgrade => exact Nat.sub_le _ _
          | shared => exact Nat.le_refl _
          | exclusive => exact Nat.le_refl _
      · exact Nat.le_refl _
    refine Nat.le_trans ?_ hdrop
    rw [Op.exit, if_pos rfl]
    cases htarget : op.target with
    | none => exact Nat.le_refl _
    | some m =>
      cases m with
      | upgrade => exact absurd htarget (hne rfl)
      | shared => exact Nat.le_refl _
      | exclusive => exact Nat.le_refl _

theorem Op.locks_upgrade_le {h : Holds} : (op.locks r h).upgrade ≤ h.upgrade := by
  cases r with
  | some _ => exact Nat.le_refl _
  | none =>
    rw [Op.locks, Op.enter]
    split
    · rename_i m hsource
      split
      · exact Nat.le_refl _
      · cases m with
        | upgrade => exact Nat.sub_le _ _
        | shared => exact Nat.le_refl _
        | exclusive => exact Nat.le_refl _
    · exact Nat.le_refl _

end

variable [Fintype τ] {s s' : State τ} {t : τ} {l : Label τ}

section

variable {op : Op} {r : Option CvStatus} {le : Leaves}

theorem Ran.source (h : Ran s t op r le s') (hinv : Inv s) {m : Mode} (hsource : op.source = some m)
    (hfirst : r = none ∨ op.tries = true) : 0 < (s.hold t).count m := by
  rcases h.enters with ⟨-, -, hholds⟩ | ⟨status, notified, timed, rfl, hpc⟩
  · exact hholds m hsource
  · exact hinv.source (by rw [hpc]; rfl) (hfirst.resolve_left (Option.some_ne_none _)) hsource

omit [DecidableEq τ] in
theorem Inv.le_held (s : State τ) (m : Mode) (t : τ) : (s.hold t).count m ≤ s.held m :=
  Counting.le_total (fun u => (s.hold u).count m) t

theorem Ran.first (h : Ran s t op r le s') (hinv : Inv s) (hcond : op.cond = none) : r = none := by
  rcases h.enters with ⟨hr, -, -⟩ | ⟨status, notified, timed, -, hpc⟩
  · exact hr
  · exact absurd hcond (hinv.queues.woken hpc)

theorem Ran.granted (h : Ran s t op r le s') (hop : op = .unlockUpgradeAndLock) (hr : r ≠ none) :
    0 < ∑ u, (s.pc u).grants := by
  obtain ⟨status, notified, timed, -, hpc⟩ := h.enters.resolve_left fun hfirst => hr hfirst.1
  subst hop
  have hle := Counting.le_total (fun u => (s.pc u).grants) t
  have hone : (s.pc t).grants = 1 := by
    rw [hpc]
    rfl
  omega

omit [DecidableEq τ] in
theorem grants_of_aboutTo (h : AboutTo s (.one .upgrade)) : 0 < ∑ u, (s.pc u).grants := by
  obtain ⟨u, hu⟩ := h
  exact Nat.lt_of_lt_of_le (pos_of_pending hu) (Counting.le_total (fun v => (s.pc v).grants) u)

theorem Ran.held_change (h : Ran s t op r le s') (m : Mode) :
    s'.held m + (s.hold t).count m = s.held m + (s'.hold t).count m := by
  refine Counting.total_change (f := fun u => (s.hold u).count m)
    (g := fun u => (s'.hold u).count m) (i := t)
    fun u hu => ?_
  rw [h.hold, Function.update_of_ne hu]

theorem source_upgrade {op : Op} (hsource : op.source = some .upgrade) :
    op.cond = none ∨ op.tries = true ∨ op = .unlockUpgradeAndLock := by
  cases op <;> first
    | exact .inl rfl
    | exact .inr (.inl rfl)
    | exact .inr (.inr rfl)
    | cases hsource

theorem cond_of_exclusive {op : Op} (hsource : op.source = some .exclusive) : op.cond = none := by
  cases op <;> first | rfl | cases hsource

theorem Pending.alone (hpending : Pending s) (h : Ran s t .unlockUpgradeAndLock r le s')
    (hinv : Inv s) {c : Cond} {timed : Bool} (hnext : le.next = .wait c timed) :
    ¬ Sleeps s .unlockUpgradeAndLock ∧ s'.data.upgrade = true ∧ s'.held .upgrade = 0 := by
  have hbal := hinv.balanced
  rcases h.does.waits_upgrade hnext with ⟨rfl, hflag⟩ | ⟨hr, hmore⟩
  · have hpos : 0 < (s.hold t).count .upgrade := h.source hinv rfl (.inl rfl)
    have hle := Inv.le_held s .upgrade t
    have hone := hbal.le_one
    have htrue := hbal.upgrade_true (by omega)
    refine ⟨fun hsleeps => ?_, ?_, ?_⟩
    · rcases hpending.backed hsleeps with ⟨-, hzero⟩ | habout
      · omega
      · have hgrants := grants_of_aboutTo habout
        obtain ⟨-, -, hzero, -⟩ := hbal.of_exclusive (by omega)
        omega
    · rw [h.data, hflag, htrue]
    · have hchange := h.held_change .upgrade
      have hnew : (s'.hold t).count .upgrade = (s.hold t).count .upgrade - 1 := by
        rw [h.hold, Function.update_self, Leaves.holds, hnext]
        rfl
      omega
  · have hgrants := h.granted rfl hr
    obtain ⟨-, -, -, -, -, hzero⟩ := hbal.of_exclusive (by omega)
    rw [StateData.moreShared, hzero] at hmore
    cases hmore

theorem Pending.ran (hpending : Pending s) (h : Ran s t op r le s') (hinv : Inv s)
    (hsteal : op = .tryUnlockSharedAndLockUntil → s.data.sharedCount = 1 →
      ¬ s.data.upgrade = true) : Pending s' := by
  have hbal := hinv.balanced
  constructor
  · intro t₁ t₂ c₁ c₂ timed₁ timed₂ h₁ h₂
    rcases h.asleep h₁ with ⟨-, hold₁⟩ | ⟨rfl, rfl, hnext⟩ <;> rcases h.asleep h₂ with ⟨-, hold₂⟩ |
      ⟨rfl, hop, hnext₂⟩
    · exact hpending.single hold₁ hold₂
    · subst hop
      exact absurd ⟨_, _, _, hold₁⟩ (hpending.alone h hinv hnext₂).1
    · exact absurd ⟨_, _, _, hold₂⟩ (hpending.alone h hinv hnext).1
    · rfl
  · intro hsleeps
    rcases h.sleeps hsleeps with hold | ⟨rfl, c, timed, hnext⟩
    · rcases hpending.backed hold with ⟨hflag, hzero⟩ | habout
      · have hnotExclusive : ¬ 0 < s.held .exclusive + ∑ u, (s.pc u).grants := by
          intro hpos
          obtain ⟨-, -, -, -, hfalse, -⟩ := hbal.of_exclusive hpos
          cases hfalse.symm.trans hflag
        rcases h.does.upgrade hflag with hkept | hgrant | hsource | ⟨hop, hone⟩
        · refine .inl ⟨by rw [h.data, hkept], ?_⟩
          have hchange := h.held_change .upgrade
          have hle : (s'.hold t).upgrade ≤ (s.hold t).upgrade := by
            rw [h.hold, Function.update_self, Leaves.holds]
            cases hnext : le.next with
            | wait c timed => exact Op.locks_upgrade_le
            | ret b =>
              refine (Op.exit_upgrade_le fun hb htarget => ?_).trans Op.locks_upgrade_le
              subst hb
              have hsource := h.does.takesFlag hflag htarget hnext
              have hfirst := h.first hinv (cond_of_exclusive hsource)
              have hpos := h.source hinv hsource (.inl hfirst)
              have hheld := Inv.le_held s .exclusive t
              omega
          have hle : (s'.hold t).count .upgrade ≤ (s.hold t).count .upgrade := hle
          omega
        · exact .inr ⟨t, h.after _ hgrant⟩
        · have hheld := Inv.le_held s .upgrade t
          rcases source_upgrade hsource with hcond | htries | hop
          · have hpos := h.source hinv hsource (.inl (h.first hinv hcond))
            omega
          · have hpos := h.source hinv hsource (.inr htries)
            omega
          · by_cases hr : r = none
            · have hpos := h.source hinv hsource (.inl hr)
              omega
            · have hgrants := h.granted hop hr
              omega
        · exact absurd hflag (hsteal hop hone)
      · exact .inr (h.aboutTo habout)
    · exact .inl (hpending.alone h hinv hnext).2

end

theorem Pending.expire (hpending : Pending s) {op : Op} {c : Cond}
    (hpc : s.pc t = .asleep op c true) :
    Pending ((s.setQueue c ((s.queue c).erase t)).setPc t (.woken op false true)) := by
  have hpass := passes_expire hpc
  refine ⟨fun h₁ h₂ => hpending.single (hpass.asleep h₁) (hpass.asleep h₂), fun hs => ?_⟩
  refine (hpending.backed (hpass.sleeps hs)).imp id ?_
  rintro ⟨u, hu⟩
  exact ⟨u, by rwa [expire_pending hpc]⟩

theorem Pending.notify (hpending : Pending s) (hinv : Inv s) {n : Notify} {ns : List Notify}
    (hpc : s.pc t = .notifying n ns) : Pending ((s.setPc t (PC.notifyNext ns)).notify n) := by
  have hq₁ := hinv.queues.setPc hpc
  have hpass := hinv.queues.passes_notify hpc
  refine ⟨fun h₁ h₂ => hpending.single (hpass.asleep h₁) (hpass.asleep h₂), fun hs => ?_⟩
  rcases hpending.backed (hpass.sleeps hs) with hflag | habout
  · exact .inl hflag
  · rcases hinv.queues.aboutTo_notify hpc habout with hkept | rfl
    · exact .inr hkept
    · -- the notification wakes the only thread that sleeps
      obtain ⟨u, c, timed, hsleep⟩ := hs
      have hold := hpass.asleep hsleep
      cases (hinv.queues.asleep hold).1
      have hmem := (hinv.queues.queued .upgrade u).mpr ⟨_, timed, hold⟩
      obtain ⟨w, q, hqueue⟩ := List.exists_cons_of_ne_nil (List.ne_nil_of_mem hmem)
      obtain ⟨op, timed', hw⟩ := (hinv.queues.queued .upgrade w).mp (hqueue ▸ List.mem_cons_self)
      obtain rfl := op_of_upgrade (hinv.queues.asleep hw).1
      obtain rfl := hpending.single hold hw
      rcases hq₁.notify_pc (.one .upgrade) u with ⟨-, op', timed'', -, hnew⟩ | ⟨hnot, -⟩
      · rw [hnew] at hsleep
        cases hsleep
      · refine absurd ?_ hnot
        show u ∈ (s.queue .upgrade).take 1
        rw [hqueue]
        exact List.mem_cons_self

theorem Pending.move (hpending : Pending s) (hinv : Inv s) (hfits : fits s l)
    (hsteals : ¬ steals s l) (hmove : Move s l s') : Pending s' := by
  cases hmove with
  | @runs t op r hl he =>
    obtain ⟨le, hran⟩ := hinv.ran he (hfits _ _ _ hl)
    refine hpending.ran hran hinv ?_
    rintro rfl hone hflag
    exact hsteals ⟨t, r, hl, hone, hflag⟩
  | expires hpc => exact hpending.expire hpc
  | notifies _ hpc => exact hpending.notify hinv hpc

/-- In every run in which no timed conversion takes the lock from it, a pending upgrade is backed by
the flag and a reader until it is granted. -/
theorem upgrade_backed (hreach : system.Reach (fun s l => fits s l ∧ ¬ steals s l) s) :
    UpgradeBacked s := by
  have hinv : Inv s := reach_inv (hreach.mono fun _ _ h => h.1)
  have hpending : Pending s := by
    refine hreach.invariant ?_ ?_
    · rintro s rfl
      refine ⟨fun h => (by cases h), ?_⟩
      rintro ⟨t, c, timed, hpc⟩
      cases hpc
    · intro s l s' hr hpending hok hstep
      exact hpending.move (reach_inv (hr.mono fun _ _ h => h.1)) hok.1 hok.2 (step_move hstep)
  intro t c timed hpc
  refine (hpending.backed ⟨t, c, timed, hpc⟩).imp ?_ id
  rintro ⟨hflag, -⟩
  refine ⟨hflag, ?_⟩
  have hused := hinv.balanced.used hflag
  rw [UInt32.le_iff_toNat_le, UInt32.toNat_one, hinv.balanced.counted]
  exact hused

/-- A check of one step that is enough for the condition. -/
def keepsPending (s : State τ) (l : Label τ) : Bool :=
  fewHeld s l &&
    match l.section? s with
    | some (_, .tryUnlockSharedAndLockUntil, _) => s.data.sharedCount ≠ 1 || !s.data.upgrade
    | _ => true

omit [DecidableEq τ] in
theorem of_keepsPending (h : keepsPending s l = true) : fits s l ∧ ¬ steals s l := by
  rw [keepsPending, Bool.and_eq_true] at h
  refine ⟨fits_of_fewHeld h.1, ?_⟩
  rintro ⟨t, r, hl, hone, hflag⟩
  have hcheck := h.2
  simp only [hl, hone, hflag] at hcheck
  cases hcheck

/-- Thread 0 waits for its upgrade behind the reader 1. -/
theorem upgrade_backed_waiting : ∃ s : State (Fin 2), UpgradeBacked s ∧
    s.pc 0 = .asleep .unlockUpgradeAndLock .upgrade false ∧ s.data = ⟨1, false, true, false⟩ := by
  let labels : List (Label (Fin 2)) :=
    [.call 0 .lockUpgrade, .call 1 .lockShared, .call 0 .unlockUpgradeAndLock]
  have hreach := system.reach_of_run keepsPending .initial rfl labels rfl
  exact ⟨_, upgrade_backed (hreach.mono fun _ _ => of_keepsPending), rfl, rfl⟩

/-- The last reader takes the lock with a timed conversion: the upgrader sleeps on, the flag is
clear, and nobody is about to notify it. -/
theorem upgrade_abandoned : ∃ s : State (Fin 2), system.Reachable s ∧
    s.pc 0 = .asleep .unlockUpgradeAndLock .upgrade false ∧ s.pc 1 = .idle ∧
    s.data = ⟨0, true, false, false⟩ ∧
    ¬ UpgradeBacked s := by
  let labels : List (Label (Fin 2)) :=
    [.call 0 .lockUpgrade, .call 1 .lockShared, .call 0 .unlockUpgradeAndLock,
      .call 1 .tryUnlockSharedAndLockUntil]
  have hreach :=
    (system.reach_of_run (fun _ _ => true) (.initial : State (Fin 2)) rfl labels rfl).reachable
  refine ⟨_, hreach, rfl, rfl, rfl, fun hbacked => ?_⟩
  rcases hbacked 0 .upgrade false rfl with ⟨hflag, -⟩ | ⟨t, ht⟩
  · cases hflag
  · match t with
    | 0 => cases ht
    | 1 => cases ht

/-! ### Timed conversions -/

/-- No timed conversion sleeps that could succeed, unless a thread is about to notify the condition
variable it sleeps on. -/
structure ConversionsHeard (s : State τ) : Prop where
  exclusive : s.data.sharedCount = 1 → ∀ t op c timed, s.pc t = .asleep op c timed →
    op = .tryUnlockUpgradeAndLockUntil ∨ op = .tryUnlockSharedAndLockUntil →
    AboutTo s (.all .shared)
  upgrade : s.data.canLockUpgrade → ∀ t c timed, s.pc t =
    .asleep .tryUnlockSharedAndLockUpgradeUntil c timed →
    AboutTo s (.one .exclusive)

/-- The section takes `shared_count` from 2 to 1 and notifies nobody, while a conversion to
exclusive sleeps. -/
def leavesOne (s : State τ) (l : Label τ) : Prop :=
  ∃ t op r, l.section? s = some (t, op, r) ∧
  (op = .unlockShared ∨ op = .unlockUpgradeAndLock ∧ r = none) ∧
    s.data.sharedCount = 2 ∧
    (Sleeps s .tryUnlockUpgradeAndLockUntil ∨ Sleeps s .tryUnlockSharedAndLockUntil) ∧
    ¬ AboutTo s (.all .shared)

/-- The section is an `unlock_upgrade` that clears the flag and does not notify `exclusive_cond`,
while a conversion to upgrade sleeps there. -/
def clearsFlag (s : State τ) (l : Label τ) : Prop :=
  ∃ t r, l.section? s = some (t, .unlockUpgrade, r) ∧ s.data.exclusiveWaitingBlocked = false ∧
    2 ≤ s.data.sharedCount ∧ Sleeps s .tryUnlockSharedAndLockUpgradeUntil ∧
    ¬ AboutTo s (.one .exclusive)

/-- A conversion to upgrade sleeps behind the longest waiter of `exclusive_cond`. -/
def SleepsBehind (s : State τ) : Prop :=
  ∃ t ∈ (s.queue .exclusive).drop 1, (s.pc t).waiter? = some .tryUnlockSharedAndLockUpgradeUntil

/-- The step notifies one thread on `exclusive_cond` when a conversion to upgrade that sleeps behind
it could succeed: with an `unlock_upgrade_and_lock_shared`, with a `try_lock_until` that gives up,
or with the notification that an `unlock_shared` has still to give. -/
def notifiesFirst (s : State τ) (l : Label τ) : Prop :=
  SleepsBehind s ∧
    (((∃ t r, l.section? s = some (t, .unlockUpgradeAndLockShared, r)) ∨
        (∃ t, l.section? s = some (t, .tryLockUntil, some .timeout)) ∧ s.data.exclusive = false ∧
          s.data.upgrade = false) ∧ ¬ AboutTo s (.one .exclusive) ∨
      ∃ t ns, l = .notify t ∧ s.pc t = .notifying (.one .exclusive) ns ∧ s.data.canLockUpgrade ∧
        ¬ AboutTo (s.setPc t (PC.notifyNext ns)) (.one .exclusive))

/-- The step leaves no timed conversion asleep that it lets succeed. -/
def hears (s : State τ) (l : Label τ) :
    Prop := ¬ leavesOne s l ∧ ¬ clearsFlag s l ∧ ¬ notifiesFirst s l

section

variable {op : Op} {r : Option CvStatus} {d : StateData} {le : Leaves}

theorem eq_zero_of_succ {c : UInt32} (h : c + 1 = 1) : c = 0 := by
  rw [← UInt32.add_sub_cancel c 1, h]
  rfl

theorem eq_two_of_pred {c : UInt32} (h : c - 1 = 1) : c = 2 := by
  rw [← UInt32.sub_add_cancel c 1, h]
  rfl

/-- A section that leaves one holder had one, or none, or notifies `shared_cond`, or is one of the
two that notify nobody. -/
theorem Does.one (h : Does op r d le) (hone : le.state.sharedCount = 1) :
    d.sharedCount = 1 ∨ d.sharedCount = 0 ∨ .all .shared ∈ le.notify ∨
      (op = .unlockShared ∨ op = .unlockUpgradeAndLock ∧ r = none) ∧ d.sharedCount = 2 := by
  cases h with
  | takesExclusive _ _ | gives _ | waits _ _ _ _ | blocks _ _ | abandons _ | unlocks
  | upgradesWoken _
  | upgradeToShared | sharedToUpgrade _ _ => exact .inl hone
  | takesShared _ _ | takesUpgrade _ _ | downgrades | downgradesShared =>
    exact .inr (.inl (eq_zero_of_succ hone))
  | unlocksShared _ | grants _ _ | unlocksLast _ _ =>
    exact .inr (.inr (.inr ⟨.inl rfl, eq_two_of_pred hone⟩))
  | waitsUpgrade _ | upgrades _ => exact .inr (.inr (.inr ⟨.inr ⟨rfl, rfl⟩, eq_two_of_pred hone⟩))
  | unlocksUpgrade _ => exact .inr (.inr (.inl List.mem_cons_self))
  | unlocksLastUpgrade _ => exact .inr (.inr (.inl all_mem_release))
  | converts _ _ _ _ _ => exact absurd (show (0 : UInt32) = 1 from hone) (by decide)

/-- The sections that let a conversion to upgrade succeed. -/
theorem Does.opens (h : Does op r d le) (hcan : le.state.canLockUpgrade) :
    d.canLockUpgrade ∨ op.source = some .exclusive ∨ le.state.sharedCount = 0 ∨
      (op = .unlockUpgrade ∧ d.exclusiveWaitingBlocked = false ∧ d.unlockUpgrade.moreShared) ∨
      ((op = .unlockUpgradeAndLockShared ∨ op = .tryLockUntil ∧ r = some .timeout ∧
        d.exclusive = false ∧
        d.upgrade = false) ∧ le.notify = releaseWaiters ∧ ∃ b, le.next = .ret b) := by
  cases h with
  | takesShared _ _ | gives _ | waits _ _ _ _ | unlocksShared _ | waitsUpgrade _ => exact .inl hcan
  | takesUpgrade _ _ | sharedToUpgrade _ _ => cases hcan.2.2
  | takesExclusive _ _ | grants _ _ | upgrades _ | upgradesWoken _
  | converts _ _ _ _ _ => cases hcan.1
  | blocks _ _ => cases hcan.2.1
  | unlocks | downgrades | downgradesShared => exact .inr (.inl rfl)
  | unlocksLast hlast _ | unlocksLastUpgrade hlast =>
    refine .inr (.inr (.inl ?_))
    rw [StateData.moreShared, pos_iff, Nat.not_lt, Nat.le_zero] at hlast
    exact (eq_zero_iff _).mpr hlast
  | unlocksUpgrade hmore => exact .inr (.inr (.inr (.inl ⟨rfl, hcan.2.1, hmore⟩)))
  | abandons _ => exact .inr (.inr (.inr (.inr ⟨.inr ⟨rfl, rfl, hcan.1, hcan.2.2⟩, rfl, _, rfl⟩)))
  | upgradeToShared => exact .inr (.inr (.inr (.inr ⟨.inl rfl, rfl, _, rfl⟩)))

end

omit [DecidableEq τ] in
theorem Inv.counted_asleep (hinv : Inv s) {op : Op} {c : Cond} {timed : Bool}
    (hpc : s.pc t = .asleep op c timed)
    (hop : op = .tryUnlockUpgradeAndLockUntil ∨ op = .tryUnlockSharedAndLockUntil ∨
      op = .tryUnlockSharedAndLockUpgradeUntil) : s.data.sharedCount ≠ 0 := by
  have hwaiter : (s.pc t).waiter? = some op := by
    rw [hpc]
    rfl
  rcases hop with rfl | rfl | rfl
  · exact hinv.counted (.inr (hinv.source (m := .upgrade) hwaiter rfl rfl))
  · exact hinv.counted (.inl (hinv.source (m := .shared) hwaiter rfl rfl))
  · exact hinv.counted (.inl (hinv.source (m := .shared) hwaiter rfl rfl))

section

variable {op : Op} {r : Option CvStatus} {le : Leaves}

theorem ConversionsHeard.exclusive_ran (hheard : ConversionsHeard s) (h : Ran s t op r le s')
    (hl : l.section? s = some (t, op, r)) (hok : ¬ leavesOne s l) (hinv : Inv s) (hinv' : Inv s')
    (hone : s'.data.sharedCount = 1) {u : τ} {op' : Op} {c : Cond} {timed : Bool}
    (hpc : s'.pc u = .asleep op' c timed)
    (hop : op' = .tryUnlockUpgradeAndLockUntil ∨ op' = .tryUnlockSharedAndLockUntil) :
    AboutTo s' (.all .shared) := by
  have hstate : le.state.sharedCount = 1 := by rwa [← h.data]
  obtain ⟨hcond, -⟩ := hinv'.queues.asleep hpc
  have hshared : c = .shared := by
    rcases hop with rfl | rfl <;> cases hcond <;> rfl
  subst hshared
  have hold : s.pc u = .asleep op' .shared timed := h.slept hpc
    (by rcases hop with rfl | rfl <;> exact hone)
  rcases h.does.one hstate with hbefore | hzero | hnotify | ⟨hsection, htwo⟩
  · exact h.aboutTo (hheard.exclusive hbefore u op' .shared timed hold hop)
  · exact absurd hzero (hinv.counted_asleep hold (hop.imp id .inl))
  · exact absurd hpc (h.all hnotify _ _ _)
  · apply h.aboutTo
    by_contra hnot
    refine hok ⟨t, op, r, hl, hsection, htwo, ?_, hnot⟩
    rcases hop with rfl | rfl
    · exact .inl ⟨u, _, timed, hold⟩
    · exact .inr ⟨u, _, timed, hold⟩

theorem ConversionsHeard.upgrade_ran (hheard : ConversionsHeard s) (h : Ran s t op r le s')
    (hl : l.section? s = some (t, op, r)) (hclears : ¬ clearsFlag s l)
    (hfirst : ¬ notifiesFirst s l) (hinv : Inv s)
    (hinv' : Inv s') (hcan : s'.data.canLockUpgrade) {u : τ} {c : Cond} {timed : Bool}
    (hpc : s'.pc u = .asleep .tryUnlockSharedAndLockUpgradeUntil c timed) :
    AboutTo s' (.one .exclusive) := by
  have hstate : le.state.canLockUpgrade := by rwa [← h.data]
  have hold : s.pc u = .asleep .tryUnlockSharedAndLockUpgradeUntil c timed := h.slept hpc hcan
  have hcounted := hinv.counted_asleep hold (.inr (.inr rfl))
  rcases h.does.opens hstate with hbefore | hsource | hzero | ⟨rfl, hblocked, hmore⟩ |
    ⟨hop, hnotify, b, hret⟩
  · exact h.aboutTo (hheard.upgrade hbefore u c timed hold)
  · have hpos := h.source hinv hsource (.inl (h.first hinv (cond_of_exclusive hsource)))
    have hheld := Inv.le_held s .exclusive t
    obtain ⟨-, -, -, -, -, hzero⟩ := hinv.balanced.of_exclusive (by omega)
    exact absurd hzero hcounted
  · rw [← h.data] at hzero
    exact absurd hzero (hinv'.counted_asleep hpc (.inr (.inr rfl)))
  · apply h.aboutTo
    by_contra hnot
    refine hclears ⟨t, r, hl, hblocked, ?_, ⟨u, c, timed, hold⟩, hnot⟩
    have hpos : 0 < (s.data.sharedCount - 1).toNat := (pos_iff _).mp hmore
    have hne : s.data.sharedCount.toNat ≠ 0 := fun h => hcounted ((eq_zero_iff _).mpr h)
    rw [toNat_pred (Nat.pos_of_ne_zero hne)] at hpos
    rw [UInt32.le_iff_toNat_le]
    show 2 ≤ s.data.sharedCount.toNat
    omega
  · apply h.aboutTo
    by_contra hnot
    obtain ⟨hcond, -⟩ := hinv'.queues.asleep hpc
    cases hcond
    have hbehind := h.behind (c := .exclusive) hret (by rw [hnotify]; exact one_mem_release) hpc
    refine hfirst ⟨⟨u, hbehind, by rw [hold]; rfl⟩, .inl ⟨?_, hnot⟩⟩
    rcases hop with rfl | ⟨rfl, rfl, he, hflag⟩
    · exact .inl ⟨t, r, hl⟩
    · exact .inr ⟨⟨t, hl⟩, he, hflag⟩

end

omit [Fintype τ] in
theorem ConversionsHeard.expire (hheard : ConversionsHeard s) {op : Op} {c : Cond}
    (hpc : s.pc t = .asleep op c true) :
    ConversionsHeard ((s.setQueue c ((s.queue c).erase t)).setPc t (.woken op false true)) := by
  have hpass := passes_expire hpc
  have habout : ∀ {n}, AboutTo s n →
    AboutTo ((s.setQueue c ((s.queue c).erase t)).setPc t (.woken op false true)) n := by
    rintro n ⟨u, hu⟩
    exact ⟨u, by rwa [expire_pending hpc]⟩
  exact ⟨fun hone u op' c' timed h hop => habout
    (hheard.exclusive hone u op' c' timed (hpass.asleep h) hop),
    fun hcan u c' timed h => habout (hheard.upgrade hcan u c' timed (hpass.asleep h))⟩

omit [Fintype τ] in
theorem ConversionsHeard.notify (hheard : ConversionsHeard s) (hq : Queues s) {n : Notify}
    {ns : List Notify} (hpc : s.pc t = .notifying n ns) (hfirst : ¬ notifiesFirst s (.notify t)) :
    ConversionsHeard ((s.setPc t (PC.notifyNext ns)).notify n) := by
  have hpass := hq.passes_notify hpc
  have hq₁ := hq.setPc hpc
  refine ⟨fun hone u op c timed h hop => ?_, fun hcan u c timed h => ?_⟩
  · rcases hq.aboutTo_notify hpc (hheard.exclusive hone u op c timed (hpass.asleep h) hop) with
      hkept | rfl
    · exact hkept
    · obtain ⟨hcond, -⟩ := (hq₁.notify _).asleep h
      have hshared : c = .shared := by
        rcases hop with rfl | rfl <;> cases hcond <;> rfl
      subst hshared
      exact absurd h (hq₁.notify_all .shared)
  · rcases hq.aboutTo_notify hpc (hheard.upgrade hcan u c timed (hpass.asleep h)) with hkept | rfl
    · exact hkept
    · obtain ⟨hcond, -⟩ := (hq₁.notify _).asleep h
      cases hcond
      have hmem := ((hq₁.notify (.one .exclusive)).queued .exclusive u).mpr ⟨_, timed, h⟩
      rw [notify_one_queue] at hmem
      by_contra hnot
      refine hfirst ⟨⟨u, hmem, by rw [hpass.asleep h]; rfl⟩,
        .inr ⟨t, ns, rfl, hpc, hcan, fun habout => hnot ?_⟩⟩
      obtain ⟨v, hv⟩ := habout
      exact ⟨v, by rwa [hq₁.notify_pending]⟩

theorem ConversionsHeard.move (hheard : ConversionsHeard s) (hinv : Inv s) (hfits : fits s l)
    (hok : hears s l) (hmove : Move s l s') : ConversionsHeard s' := by
  have hinv' := hinv.move hfits hmove
  obtain ⟨hone, hclears, hfirst⟩ := hok
  cases hmove with
  | @runs t op r hl he =>
    obtain ⟨le, hran⟩ := hinv.ran he (hfits _ _ _ hl)
    exact ⟨fun h u op' c timed hpc hop => hheard.exclusive_ran hran hl hone hinv hinv' h hpc hop,
      fun h u c timed hpc => hheard.upgrade_ran hran hl hclears hfirst hinv hinv' h hpc⟩
  | expires hpc => exact hheard.expire hpc
  | notifies hl hpc =>
    subst hl
    exact hheard.notify hinv.queues hpc hfirst

/-- In every run in which no step leaves a conversion asleep that it lets succeed, none sleeps that
could. -/
theorem conversions_heard (hreach : system.Reach (fun s l => fits s l ∧ hears s l) s) :
    ConversionsHeard s := by
  refine hreach.invariant ?_ ?_
  · rintro s rfl
    exact ⟨fun h => (by cases h), fun _ u c timed h => (by cases h)⟩
  · intro s l s' hr hheard hok hstep
    exact hheard.move (reach_inv (hr.mono fun _ _ h => h.1)) hok.1 hok.2 (step_move hstep)

/-- A check of one step that is enough for the condition: no conversion to upgrade waits, and nobody
gives a shared lock up. -/
def hearsCheck (s : State (Fin 2)) (l : Label (Fin 2)) : Bool :=
  fewHeld s l && (∀ t, (s.pc t).waiter? ≠ some .tryUnlockSharedAndLockUpgradeUntil : Bool) &&
    match l.section? s with
    | some (_, .unlockShared, _) | some (_, .unlockUpgradeAndLock, _) => false
    | _ => true

theorem of_hearsCheck {s : State (Fin 2)} {l : Label (Fin 2)} (h : hearsCheck s l = true) :
    fits s l ∧ hears s l := by
  simp only [hearsCheck, Bool.and_eq_true, decide_eq_true_eq] at h
  obtain ⟨⟨hfew, hnone⟩, hsection⟩ := h
  have hawake : ¬ Sleeps s .tryUnlockSharedAndLockUpgradeUntil := by
    rintro ⟨t, c, timed, hpc⟩
    exact hnone t (by rw [hpc]; rfl)
  refine ⟨fits_of_fewHeld hfew, ?_, fun ⟨_, _, _, _, _, hs, _⟩ => hawake hs,
    fun ⟨⟨t, _, ht⟩, _⟩ => hnone t ht⟩
  rintro ⟨t, op, r, hl, rfl | ⟨rfl, -⟩, -⟩ <;> simp only [hl] at hsection <;> cases hsection

/-- Thread 1 waits to turn its shared lock into an exclusive one, and the `unlock_upgrade` of thread
0 wakes it. -/
theorem conversions_heard_woken : ∃ s : State (Fin 2), ConversionsHeard s ∧ s.data.sharedCount = 1 ∧
    s.pc 1 = .woken .tryUnlockSharedAndLockUntil true true := by
  let labels : List (Label (Fin 2)) :=
    [.call 0 .lockUpgrade, .call 1 .lockShared, .call 1 .tryUnlockSharedAndLockUntil,
      .call 0 .unlockUpgrade]
  have hreach := system.reach_of_run hearsCheck .initial rfl labels rfl
  exact ⟨_, conversions_heard (hreach.mono fun _ _ => of_hearsCheck), rfl, rfl⟩

/-- Each kind of excluded step strands a conversion. An `unlock_shared` leaves the upgrader 0 as the
only holder; an `unlock_upgrade` leaves the reader 1, which waits to become an upgrader; and the one
notification of an `unlock_upgrade_and_lock_shared` goes to the writer 2, which waits longer than
the reader 1. -/
theorem conversions_unheard :
    (∃ s : State (Fin 2), system.Reachable s ∧
      s.pc 0 = .asleep .tryUnlockUpgradeAndLockUntil .shared true ∧
      s.pc 1 = .idle ∧ s.data.sharedCount = 1 ∧ ¬ ConversionsHeard s) ∧
    (∃ s : State (Fin 2), system.Reachable s ∧ s.pc 0 = .idle ∧
      s.pc 1 = .asleep .tryUnlockSharedAndLockUpgradeUntil .exclusive true ∧
      s.data = ⟨1, false, false, false⟩ ∧
      ¬ ConversionsHeard s) ∧
    ∃ s : State (Fin 3), system.Reachable s ∧ s.pc 0 = .idle ∧
      s.pc 1 = .asleep .tryUnlockSharedAndLockUpgradeUntil .exclusive true ∧
      s.pc 2 = .woken .lock true false ∧
      s.data = ⟨2, false, false, false⟩ ∧ ¬ ConversionsHeard s := by
  refine ⟨?_, ?_, ?_⟩
  · let labels : List (Label (Fin 2)) :=
      [.call 0 .lockUpgrade, .call 1 .lockShared, .call 0 .tryUnlockUpgradeAndLockUntil,
        .call 1 .unlockShared]
    have hreach :=
      (system.reach_of_run (fun _ _ => true) (.initial : State (Fin 2)) rfl labels rfl).reachable
    refine ⟨_, hreach, rfl, rfl, rfl, fun hheard => ?_⟩
    obtain ⟨t, ht⟩ := hheard.exclusive rfl 0 _ _ _ rfl (.inl rfl)
    match t with
    | 0 => cases ht
    | 1 => cases ht
  · let labels : List (Label (Fin 2)) :=
      [.call 0 .lockUpgrade, .call 1 .lockShared, .call 1 .tryUnlockSharedAndLockUpgradeUntil,
        .call 0 .unlockUpgrade]
    have hreach :=
      (system.reach_of_run (fun _ _ => true) (.initial : State (Fin 2)) rfl labels rfl).reachable
    refine ⟨_, hreach, rfl, rfl, rfl, fun hheard => ?_⟩
    obtain ⟨t, ht⟩ := hheard.upgrade ⟨rfl, rfl, rfl⟩ 1 _ _ rfl
    match t with
    | 0 => cases ht
    | 1 => cases ht
  · let labels : List (Label (Fin 3)) :=
      [.call 0 .lockUpgrade, .call 1 .lockShared, .call 2 .lock,
        .call 1 .tryUnlockSharedAndLockUpgradeUntil, .call 0 .unlockUpgradeAndLockShared]
    have hreach :=
      (system.reach_of_run (fun _ _ => true) (.initial : State (Fin 3)) rfl labels rfl).reachable
    refine ⟨_, hreach, rfl, rfl, rfl, rfl, fun hheard => ?_⟩
    obtain ⟨t, ht⟩ := hheard.upgrade ⟨rfl, rfl, rfl⟩ 1 _ _ rfl
    match t with
    | 0 => cases ht
    | 1 => cases ht
    | 2 => cases ht

end SharedMutex

end GreenThread
