import GreenThread.SharedMutex.Waiters

/-!
# Blocking lockers

No blocking locker of a `shared_timed_mutex` is stranded: when a section makes its condition true,
it notifies the condition variable on which the locker sleeps, and a writer that is notified either
takes the lock, or finds it taken and leaves the next notification to whoever gives it back. The
flag `exclusive_waiting_blocked` is set only while there is a writer.
-/

namespace GreenThread

namespace SharedMutex

variable {τ : Type} [DecidableEq τ]

/-- The thread holds the lock exclusively, or is in an operation that waits to. -/
def Writer (s : State τ) (t : τ) : Prop :=
  0 < (s.hold t).exclusive ∨
    ∃ op, (s.pc t).waiter? = some op ∧
    (op = .lock ∨ op = .tryLockUntil ∨ op = .unlockUpgradeAndLock)

/-- No locker sleeps that could go on, unless a thread whose wait on the same condition variable has
ended is still to check its condition, or a thread is about to notify it. -/
structure NoStranded (s : State τ) : Prop where
  lock : s.data.canLock → ∀ t timed, s.pc t = .asleep .lock .exclusive timed →
    Rechecks s .exclusive ∨ AboutTo s (.one .exclusive)
  lockShared : s.data.canLockShared → ∀ t timed, s.pc t = .asleep .lockShared .shared timed →
    Rechecks s .shared ∨ AboutTo s (.all .shared)
  lockUpgrade : s.data.canLockUpgrade → ∀ t timed, s.pc t = .asleep .lockUpgrade .shared timed →
    Rechecks s .shared ∨ AboutTo s (.all .shared)
  blocked : s.data.exclusiveWaitingBlocked = true → ∃ t, Writer s t

/-- The threads on `shared_cond` are all about to be notified when they can go on, and one of those
on `exclusive_cond` is, or has been. -/
structure Roused (s : State τ) : Prop where
  lock : s.data.canLock → s.queue .exclusive ≠ [] →
    Rechecks s .exclusive ∨ AboutTo s (.one .exclusive)
  lockShared : s.data.canLockShared → Sleeps s .lockShared → AboutTo s (.all .shared)
  lockUpgrade : s.data.canLockUpgrade → Sleeps s .lockUpgrade → AboutTo s (.all .shared)
  blocked : s.data.exclusiveWaitingBlocked = true →
    s.data.exclusive = true ∨ ∃ t op, (s.pc t).waiter? = some op ∧ op.blocking

variable [Fintype τ] {s s' : State τ} {t : τ} {l : Label τ}

omit [DecidableEq τ] in
theorem Inv.counted (hinv : Inv s) (h : 0 < (s.hold t).shared ∨ 0 < (s.hold t).upgrade) :
    s.data.sharedCount ≠ 0 := by
  have hs : (s.hold t).shared ≤ s.held .shared := Counting.le_total (fun u => (s.hold u).shared) t
  have hu : (s.hold t).upgrade ≤ s.held .upgrade :=
    Counting.le_total (fun u => (s.hold u).upgrade) t
  have hcount := hinv.balanced.counted
  intro hzero
  rw [hzero, UInt32.toNat_zero] at hcount
  omega

theorem Op.exit_pos {op : Op} {h : Holds} {m : Mode} (htarget : op.target = some m) :
    0 < (op.exit true h).count m := by
  rw [Op.exit, htarget]
  cases m <;> exact Nat.succ_pos _

section

variable {op : Op} {r : Option CvStatus} {le : Leaves}

theorem Ran.counted (h : Ran s t op r le s') (hinv' : Inv s') (hnext : le.next = .ret true)
    (htarget : op.target = some .shared ∨ op.target = some .upgrade) : s'.data.sharedCount ≠ 0 := by
  have hhold : s'.hold t = op.exit true (op.locks r (s.hold t)) := by
    rw [h.hold, Function.update_self, Leaves.holds, hnext]
  apply hinv'.counted (t := t)
  rw [hhold]
  rcases htarget with htarget | htarget
  · exact .inl (Op.exit_pos htarget)
  · exact .inr (Op.exit_pos htarget)

/-- The operations that wait on `exclusive_cond` block writers, or convert a shared lock. -/
theorem blocking_or_tries {op : Op} (hcond : op.cond = some .exclusive) :
    op.blocking ∨ op = .tryUnlockSharedAndLockUpgradeUntil := by
  cases op <;> cases hcond
  · exact .inl (.inl rfl)
  · exact .inl (.inr rfl)
  · exact .inr rfl

theorem Ran.converter_counted (h : Ran s t op r le s') (hinv : Inv s) (hinv' : Inv s')
    (hop : op = .tryUnlockSharedAndLockUpgradeUntil) (hr : r ≠ none) : s'.data.sharedCount ≠ 0 := by
  subst hop
  obtain ⟨status, notified, timed, -, hpc⟩ := h.enters.resolve_left fun hfirst => hr hfirst.1
  have hheld : 0 < (s.hold t).shared := hinv.source (m := .shared) (by rw [hpc]; rfl) rfl rfl
  by_cases hret : le.next = .ret true
  · exact h.counted hinv' hret (.inr rfl)
  · apply hinv'.counted (t := t)
    left
    have hsame : s'.hold t = s.hold t := by
      rw [h.hold, Function.update_self, Op.locks_of_tries rfl, Leaves.holds]
      cases hnext : le.next with
      | wait c timed => rfl
      | ret b =>
        cases b with
        | true => exact absurd hnext hret
        | false => rfl
    rwa [hsame]

theorem Roused.lock_ran (hroused : Roused s) (h : Ran s t op r le s') (hinv : Inv s)
    (hinv' : Inv s') (hcan : s'.data.canLock) (hne : s'.queue .exclusive ≠ []) :
    Rechecks s' .exclusive ∨ AboutTo s' (.one .exclusive) := by
  have hstate : le.state.canLock := by rwa [← h.data]
  have hnew := fun hret htarget => h.data ▸ h.counted hinv' hret htarget
  rcases h.does.canLock hstate hnew with hbefore | hnotify | hafter
  · -- the lock was free before: nobody goes to sleep for it now
    have hqueue : s.queue .exclusive ≠ [] := by
      intro hnil
      apply hne
      apply List.eq_nil_iff_forall_not_mem.mpr
      intro u hu
      obtain ⟨op', timed, hpc⟩ := (hinv'.queues.queued .exclusive u).mp hu
      rcases blocking_or_tries (hinv'.queues.asleep hpc).1 with hop | hop
      · have hold := h.slept hpc (by rcases hop with rfl | rfl <;> exact hcan)
        have hmem := (hinv.queues.queued .exclusive u).mpr ⟨op', timed, hold⟩
        rw [hnil] at hmem
        cases hmem
      · subst hop
        have hheld : 0 < (s'.hold u).count .shared := hinv'.source (by rw [hpc]; rfl) rfl rfl
        exact hinv'.counted (.inl hheld) hcan.1
    rcases hroused.lock hbefore hqueue with ⟨u, op', notified, timed, hpc, hcond⟩ | habout
    · by_cases hu : u = t
      · subst hu
        rcases h.enters with ⟨-, hidle, -⟩ | ⟨status, notified', timed', rfl, hwoken⟩
        · rw [hpc] at hidle
          cases hidle
        · rw [hpc] at hwoken
          cases hwoken
          rcases blocking_or_tries hcond with hop | hop
          · have htakes := h.does.takes hop hbefore
            cases hstate.2.symm.trans htakes
          · exact absurd hcan.1 (h.converter_counted hinv hinv' hop (Option.some_ne_none _))
      · exact .inl ⟨u, op', notified, timed, h.woken hu hpc, hcond⟩
    · exact .inr (h.aboutTo habout)
  · exact .inl ((h.one hnotify).resolve_left hne)
  · exact .inr ⟨t, h.after _ hafter⟩

omit [Fintype τ] in
theorem Roused.blocked_ran (hroused : Roused s) (h : Ran s t op r le s')
    (hblocked : s'.data.exclusiveWaitingBlocked = true) :
    s'.data.exclusive = true ∨ ∃ u op, (s'.pc u).waiter? = some op ∧ op.blocking := by
  rw [h.data] at hblocked ⊢
  rcases h.does.blocked hblocked with he | ⟨hop, timed, hnext⟩ | ⟨hold, hfree, hnot⟩
  · exact .inl he
  · exact .inr ⟨t, op, h.waits hnext, hop⟩
  · rcases hroused.blocked hold with he | ⟨u, op', hwaiter, hop⟩
    · cases hfree.symm.trans he
    · refine .inr ⟨u, op', ?_, hop⟩
      rwa [h.waiter]
      rintro rfl
      rcases h.enters with ⟨-, hidle, -⟩ | ⟨status, notified, timed, -, hwoken⟩
      · rw [hidle] at hwaiter
        cases hwaiter
      · rw [hwoken] at hwaiter
        cases hwaiter
        exact hnot hop

theorem Roused.ran (hroused : Roused s) (h : Ran s t op r le s') (hinv : Inv s) (hinv' : Inv s') :
    Roused s' := by
  refine ⟨hroused.lock_ran h hinv hinv', fun hcan hsleeps => ?_, fun hcan hsleeps => ?_,
    hroused.blocked_ran h⟩
  · obtain ⟨u, c, timed, hpc⟩ := hsleeps
    obtain ⟨hcond, -⟩ := hinv'.queues.asleep hpc
    cases hcond
    have hsleeps : Sleeps s .lockShared := ⟨u, _, timed, h.slept hpc hcan⟩
    rw [h.data] at hcan
    rcases h.does.canLockShared hcan with hbefore | hnotify | hafter
    · exact h.aboutTo (hroused.lockShared hbefore hsleeps)
    · exact absurd hpc (h.all hnotify _ _ _)
    · exact ⟨t, h.after _ hafter⟩
  · obtain ⟨u, c, timed, hpc⟩ := hsleeps
    obtain ⟨hcond, -⟩ := hinv'.queues.asleep hpc
    cases hcond
    have hsleeps : Sleeps s .lockUpgrade := ⟨u, _, timed, h.slept hpc hcan⟩
    rw [h.data] at hcan
    rcases h.does.canLockUpgrade hcan with hbefore | hnotify | hafter
    · exact h.aboutTo (hroused.lockUpgrade hbefore hsleeps)
    · exact absurd hpc (h.all hnotify _ _ _)
    · exact ⟨t, h.after _ hafter⟩

omit [Fintype τ] in
theorem Roused.expire (hroused : Roused s) (hq : Queues s) {c : Cond}
    (hpc : s.pc t = .asleep op c true) :
    Roused ((s.setQueue c ((s.queue c).erase t)).setPc t (.woken op false true)) := by
  have hpass := passes_expire hpc
  have habout : ∀ {n}, AboutTo s n →
    AboutTo ((s.setQueue c ((s.queue c).erase t)).setPc t (.woken op false true)) n := by
    rintro n ⟨u, hu⟩
    exact ⟨u, by rwa [expire_pending hpc]⟩
  refine ⟨fun hcan hne => ?_, fun hcan hs => habout (hroused.lockShared hcan (hpass.sleeps hs)),
    fun hcan hs => habout (hroused.lockUpgrade hcan (hpass.sleeps hs)), fun hb => ?_⟩
  · have hold : s.queue .exclusive ≠ [] := by
      obtain ⟨u, hu⟩ := List.exists_mem_of_ne_nil _ hne
      obtain ⟨op', timed, hsleep⟩ := ((hq.expire hpc).queued .exclusive u).mp hu
      exact List.ne_nil_of_mem ((hq.queued .exclusive u).mpr ⟨op', timed, hpass.asleep hsleep⟩)
    exact (hroused.lock hcan hold).imp hpass.rechecks habout
  · refine (hroused.blocked hb).imp id ?_
    rintro ⟨u, op', hwaiter, hop⟩
    exact ⟨u, op', (hpass.waiter u).trans hwaiter, hop⟩

omit [Fintype τ] in
theorem Roused.notify (hroused : Roused s) (hq : Queues s) {n : Notify} {ns : List Notify}
    (hpc : s.pc t = .notifying n ns) : Roused ((s.setPc t (PC.notifyNext ns)).notify n) := by
  have hpass := hq.passes_notify hpc
  have hall : ∀ {op}, AboutTo s (.all .shared) →
    Sleeps ((s.setPc t (PC.notifyNext ns)).notify n) op →
      op.cond = some .shared → AboutTo ((s.setPc t (PC.notifyNext ns)).notify n)
      (.all .shared) := by
    rintro op habout ⟨u, c, timed, hsleep⟩ hcond
    rcases hq.aboutTo_notify hpc habout with hkept | rfl
    · exact hkept
    · have hc := (((hq.setPc hpc).notify (.all .shared)).asleep hsleep).1
      rw [hcond, Option.some.injEq] at hc
      subst hc
      exact absurd hsleep ((hq.setPc hpc).notify_all .shared)
  refine ⟨fun hcan hne => ?_, fun hcan hs => hall
    (hroused.lockShared hcan (hpass.sleeps hs)) hs rfl,
    fun hcan hs => hall (hroused.lockUpgrade hcan (hpass.sleeps hs)) hs rfl, fun hb => ?_⟩
  · have hold : s.queue .exclusive ≠ [] := by
      obtain ⟨u, hu⟩ := List.exists_mem_of_ne_nil _ hne
      obtain ⟨op', timed, hsleep⟩ := (((hq.setPc hpc).notify n).queued .exclusive u).mp hu
      exact List.ne_nil_of_mem ((hq.queued .exclusive u).mpr ⟨op', timed, hpass.asleep hsleep⟩)
    rcases hroused.lock hcan hold with hrecheck | habout
    · exact .inl (hpass.rechecks hrecheck)
    · rcases hq.aboutTo_notify hpc habout with hkept | rfl
      · exact .inr hkept
      · refine .inl (((hq.setPc hpc).notify_wakes (.one .exclusive)).resolve_left
          fun hnil => hold ?_)
        exact hnil
  · refine (hroused.blocked hb).imp id ?_
    rintro ⟨u, op', hwaiter, hop⟩
    exact ⟨u, op', (hpass.waiter u).trans hwaiter, hop⟩

end

theorem Roused.move (hroused : Roused s) (hinv : Inv s) (hfits : fits s l) (hmove : Move s l s') :
    Roused s' := by
  have hinv' := hinv.move hfits hmove
  cases hmove with
  | runs hl he =>
    obtain ⟨le, hran⟩ := hinv.ran he (hfits _ _ _ hl)
    exact hroused.ran hran hinv hinv'
  | expires hpc => exact hroused.expire hinv.queues hpc
  | notifies _ hpc => exact hroused.notify hinv.queues hpc

theorem reach_roused (hreach : system.Reach fits s) : Roused s := by
  refine hreach.invariant ?_ ?_
  · rintro s rfl
    refine ⟨fun _ hne => absurd rfl hne, fun _ hs => ?_, fun _ hs => ?_, fun hb => (by cases hb)⟩
      <;>
      obtain ⟨t, c, timed, hpc⟩ := hs <;> cases hpc
  · intro s l s' hr hroused hfits hstep
    exact hroused.move (reach_inv hr) hfits (step_move hstep)

omit [DecidableEq τ] in
theorem Inv.writer (hinv : Inv s) (he : s.data.exclusive = true) : ∃ t, Writer s t := by
  have hone := hinv.balanced.owned
  rw [he, Bool.toNat_true] at hone
  rcases Nat.eq_zero_or_pos (s.held .exclusive) with hzero | hpos
  · obtain ⟨t, ht⟩ := Counting.exists_pos_of_total (f := fun t => (s.pc t).grants) (by omega)
    cases hpc : s.pc t with
    | idle | asleep _ _ _ | failed =>
      rw [hpc] at ht
      exact absurd ht (Nat.lt_irrefl 0)
    | woken op notified timed =>
      rw [hpc] at ht
      refine ⟨t, .inr ⟨op, by rw [hpc]; rfl, .inr (.inr ?_)⟩⟩
      cases op <;> first | rfl | exact absurd ht (Nat.lt_irrefl 0)
    | notifying n ns =>
      rw [hpc] at ht
      have hmem : .one .upgrade ∈ (s.pc t).pending := by
        rw [hpc]
        exact List.count_pos_iff.mp ht
      obtain ⟨u, hu⟩ := List.exists_mem_of_ne_nil _ (hinv.granting hmem)
      obtain ⟨op, timed, hsleep⟩ := (hinv.queues.queued .upgrade u).mp hu
      refine ⟨u, .inr ⟨op, by rw [hsleep]; rfl,
        .inr (.inr (op_of_upgrade (hinv.queues.asleep hsleep).1))⟩⟩
  · obtain ⟨t, ht⟩ := Counting.exists_pos_of_total hpos
    exact ⟨t, .inl ht⟩

/-- While `shared_count` does not wrap, no blocking locker is stranded. -/
theorem no_stranded (hreach : system.Reach fits s) : NoStranded s := by
  have hinv := reach_inv hreach
  have hroused := reach_roused hreach
  refine ⟨fun hcan t timed hpc => ?_, fun hcan t timed hpc => .inr ?_,
    fun hcan t timed hpc => .inr ?_, fun hb => ?_⟩
  · exact hroused.lock hcan
      (List.ne_nil_of_mem ((hinv.queues.queued .exclusive t).mpr ⟨_, timed, hpc⟩))
  · exact hroused.lockShared hcan ⟨t, _, timed, hpc⟩
  · exact hroused.lockUpgrade hcan ⟨t, _, timed, hpc⟩
  · rcases hroused.blocked hb with he | ⟨t, op, hwaiter, hop⟩
    · exact hinv.writer he
    · exact ⟨t, .inr ⟨op, hwaiter, hop.imp id .inl⟩⟩

/-- The writer that sleeps in `lock` is about to be notified by the last reader. -/
theorem no_stranded_notified : ∃ s : State (Fin 2), NoStranded s ∧ s.data.canLock ∧
    s.pc 0 = .asleep .lock .exclusive false ∧
    s.pc 1 = .notifying (.one .exclusive) [.all .shared] := by
  let labels : List (Label (Fin 2)) := [.call 1 .lockShared, .call 0 .lock, .call 1 .unlockShared]
  have hreach := system.reach_of_run fewHeld .initial rfl labels rfl
  exact ⟨_, no_stranded (hreach.mono fun _ _ => fits_of_fewHeld), ⟨rfl, rfl⟩, rfl, rfl⟩

/-- Before the readers: thread 2 sleeps in `lock` behind thread 1, which gets the notification of
thread 0 and leaves the mutex open to readers. -/
def opened : List (Label (Fin (2 ^ 32 + 1))) :=
  [.call 0 .lockUpgrade, .call 1 .lockShared, .call 1 .tryUnlockSharedAndLockUpgradeUntil,
    .call 2 .lock, .call 0 .unlockUpgradeAndLockShared, .resume 1 .noTimeout]

/-- The state after these steps: everybody but thread 2 is idle, and two locks are held. -/
theorem run_opened : ∃ s : State (Fin (2 ^ 32 + 1)),
    system.Reachable s ∧ s.data = ⟨2, false, true, false⟩ ∧
    s.pc 2 = .asleep .lock .exclusive false ∧ (∀ t, t ≠ 2 → s.pc t = .idle) ∧ ∀ t, 3 ≤ t.val →
    s.hold t = .none := by
  obtain ⟨s, hrun, hdata, hpc, hidle, hhold⟩ : ∃ s : State (Fin (2 ^ 32 + 1)),
    system.run .initial opened = some s ∧
      s.data = ⟨2, false, true, false⟩ ∧ s.pc 2 = .asleep .lock .exclusive false ∧
      (∀ t, t ≠ 2 → s.pc t = .idle) ∧ ∀ t, 3 ≤ t.val → s.hold t = .none := by
    refine ⟨_, rfl, rfl, rfl, ?_, ?_⟩
    · rintro ⟨t, ht⟩ hne
      match t, ht, hne with
      | 0, _, _ => rfl
      | 1, _, _ => rfl
      | 2, _, hne => exact absurd rfl hne
      | t + 3, _, _ => rfl
    · rintro ⟨t, ht⟩ hle
      match t, ht, hle with
      | t + 3, _, _ => rfl
  exact ⟨s, TransitionSystem.Reachable.run (.init rfl) hrun, hdata, hpc, hidle, hhold⟩

/-- When 2^32 - 2 more readers come, `shared_count` is 0, and nobody notifies the sleeping
writer. -/
theorem stranded_by_wrap :
    ¬ ∀ s : State (Fin (2 ^ 32 + 1)), system.Reachable s → NoStranded s := by
  intro hall
  obtain ⟨s, hreach, hdata, hsleep, hidle, hhold⟩ := run_opened
  have hcan : s.data.canLockShared := by
    rw [hdata]
    exact ⟨rfl, rfl⟩
  obtain ⟨s', hreach', hdata', -, hpc', -⟩ := reach_readers hreach (a := 3) (2 ^ 32 - 2) (by omega)
    (fun t ht => ⟨hidle t (by
      rintro rfl
      exact absurd ht (by decide)), hhold t ht⟩) hcan
  have hlock : s'.data.canLock := by
    rw [hdata', hdata]
    exact ⟨by decide, rfl⟩
  have hquiet : ∀ t, s'.pc t = .idle ∨ s'.pc t = .asleep .lock .exclusive false := by
    intro t
    rw [hpc']
    by_cases ht : t = 2
    · rw [ht]
      exact .inr hsleep
    · exact .inl (hidle t ht)
  rcases (hall s' hreach').lock hlock 2 false (by rw [hpc']; exact hsleep) with
    ⟨t, op, notified, timed, hpc, -⟩ | ⟨t, ht⟩
  · rcases hquiet t with h | h <;> rw [hpc] at h <;> cases h
  · rcases hquiet t with h | h <;> rw [h] at ht <;> cases ht

end SharedMutex

end GreenThread
