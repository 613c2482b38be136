import GreenThread.SharedMutex.Protocol

/-!
# Waiters

Which waits a `shared_timed_mutex` ends. A writer that sleeps in `lock` is passed a notification
whenever the lock is free, and the readers and upgraders on `shared_cond` are all notified when they
can go on. The timed conversions are not: they sleep on the condition variables of other waiters,
and several sections that let them succeed notify nobody, or only the longest waiter. A timed
conversion can also take the lock that a pending upgrade waits for.
-/

namespace GreenThread

namespace SharedMutex

/-- The condition that ends the loop of the operation. -/
def Op.ready : Op → StateData → Prop
  | .lockShared, d | .tryLockShared, d | .tryLockSharedUntil, d => d.canLockShared
  | .lock, d | .tryLock, d | .tryLockUntil, d => d.canLock
  | .lockUpgrade, d | .tryLockUpgradeUntil, d | .tryLockUpgrade, d => d.canLockUpgrade
  | .tryUnlockUpgradeAndLockUntil, d | .tryUnlockSharedAndLockUntil, d => d.sharedCount = 1
  | .tryUnlockSharedAndLockUpgrade, d | .tryUnlockSharedAndLockUpgradeUntil, d => d.canLockUpgrade
  | .unlockUpgradeAndLock, d => ¬ d.moreShared
  | _, _ => True

/-- What a section can do. -/
inductive Does : Op → Option CvStatus → StateData → Leaves → Prop
  | takesShared {op r d} (hop : op = .lockShared ∨ op = .tryLockShared ∨ op = .tryLockSharedUntil)
      (hcan : d.canLockShared) : Does op r d ⟨d.lockShared, .ret true, [], []⟩
  | takesUpgrade {op r d} (hop : op = .lockUpgrade ∨ op = .tryLockUpgrade ∨
      op = .tryLockUpgradeUntil)
      (hcan : d.canLockUpgrade) :
      Does op r d ⟨{ d.lockShared with upgrade := true }, .ret true, [], []⟩
  | takesExclusive {op r d} (hop : op = .lock ∨ op = .tryLock ∨ op = .tryLockUntil)
      (hcan : d.canLock) :
      Does op r d ⟨{ d with exclusive := true }, .ret true, [], []⟩
  | gives {op r d} (hop : op ≠ .lock ∧ op ≠ .tryLockUntil) : Does op r d ⟨d, .ret false, [], []⟩
  | waits {op r d c timed} (hcond : op.cond = some c) (hnot : ¬ op.ready d)
      (hop : op ≠ .lock ∧ op ≠ .tryLockUntil)
      (hfirst : op = .unlockUpgradeAndLock → r ≠ none) : Does op r d ⟨d, .wait c timed, [], []⟩
  | blocks {op r d timed} (hop : op = .lock ∨ op = .tryLockUntil) (hnot : ¬ d.canLock) :
      Does op r d ⟨{ d with exclusiveWaitingBlocked := true }, .wait .exclusive timed, [], []⟩
  | abandons {d} (hnot : ¬ d.canLock) :
      Does .tryLockUntil (some .timeout) d ⟨{ d with exclusiveWaitingBlocked := false }, .ret false,
        releaseWaiters, []⟩
  | unlocksShared {r d} (hmore : d.unlockShared.moreShared) :
      Does .unlockShared r d ⟨d.unlockShared, .ret true, [], []⟩
  | grants {r d} (hlast : ¬ d.unlockShared.moreShared) (hflag : d.upgrade = true) :
      Does .unlockShared r d ⟨{ d.unlockShared with upgrade := false, exclusive := true },
        .ret true, [],
        .one .upgrade :: releaseWaiters⟩
  | unlocksLast {r d} (hlast : ¬ d.unlockShared.moreShared) (hflag : d.upgrade = false) :
      Does .unlockShared r d ⟨{ d.unlockShared with exclusiveWaitingBlocked := false }, .ret true,
        [], releaseWaiters⟩
  | unlocks {r d} : Does .unlock r d
      ⟨{ d with exclusive := false, exclusiveWaitingBlocked := false }, .ret true,
        releaseWaiters, []⟩
  | unlocksUpgrade {r d} (hmore : d.unlockUpgrade.moreShared) :
      Does .unlockUpgrade r d ⟨d.unlockUpgrade, .ret true, [.all .shared], []⟩
  | unlocksLastUpgrade {r d} (hlast : ¬ d.unlockUpgrade.moreShared) :
      Does .unlockUpgrade r d ⟨{ d.unlockUpgrade with exclusiveWaitingBlocked := false }, .ret true,
        releaseWaiters, []⟩
  | waitsUpgrade {d timed} (hmore : d.unlockShared.moreShared) :
      Does .unlockUpgradeAndLock none d ⟨d.unlockShared, .wait .upgrade timed, [], []⟩
  | upgrades {d} (hlast : ¬ d.unlockShared.moreShared) : Does .unlockUpgradeAndLock none d
      ⟨{ d.unlockShared with upgrade := false, exclusive := true }, .ret true, [], []⟩
  | upgradesWoken {status d} (hlast : ¬ d.moreShared) : Does .unlockUpgradeAndLock (some status) d
      ⟨{ d with upgrade := false, exclusive := true }, .ret true, [], []⟩
  | downgrades {r d} : Does .unlockAndLockUpgrade r d
      ⟨⟨d.sharedCount + 1, false, true, false⟩, .ret true, releaseWaiters, []⟩
  | downgradesShared {r d} : Does .unlockAndLockShared r d
      ⟨⟨d.sharedCount + 1, false, d.upgrade, false⟩, .ret true, releaseWaiters, []⟩
  | converts {op r d b} (htries : op.tries = true) (htarget : op.target = some .exclusive)
      (hone : d.sharedCount = 1)
      (hflag : op = .tryUnlockSharedAndLock → d.upgrade = false)
      (hb : b = true → d.exclusiveWaitingBlocked = true) :
      Does op r d ⟨⟨0, true, false, b⟩, .ret true, [], []⟩
  | upgradeToShared {r d} : Does .unlockUpgradeAndLockShared r d
      ⟨{ d with upgrade := false, exclusiveWaitingBlocked := false }, .ret true, releaseWaiters, []⟩
  | sharedToUpgrade {op r d} (hop : op = .tryUnlockSharedAndLockUpgrade ∨
      op = .tryUnlockSharedAndLockUpgradeUntil)
      (hcan : d.canLockUpgrade) : Does op r d ⟨{ d with upgrade := true }, .ret true, [], []⟩

section

variable {r : Option CvStatus} {d : StateData} {l : Leaves}

theorem guard_bind {p : Prop} [Decidable p] {f : Unit → Section} (h : (guard p >>= f) = some l) :
    p ∧ f () = some l := by
  rw [Option.bind_eq_bind, Option.bind_eq_some_iff] at h
  obtain ⟨x, hguard, hf⟩ := h
  rw [Option.guard_eq_some'] at hguard
  exact ⟨hguard, hf⟩

theorem untilOneLeft_does {op : Op}
    (hop : op = .tryUnlockUpgradeAndLockUntil ∨ op = .tryUnlockSharedAndLockUntil)
    (hrun : untilOneLeft r d = some l) : Does op r d l := by
  have htries : op.tries = true := by rcases hop with rfl | rfl <;> rfl
  rw [untilOneLeft] at hrun
  split at hrun
  · rename_i hone
    obtain rfl := Option.some.inj hrun
    refine .converts htries (by rcases hop with rfl | rfl <;> rfl) hone ?_ fun h => (by cases h)
    rintro rfl
    rcases hop with h | h <;> cases h
  · rename_i hone
    split at hrun
    · obtain rfl := Option.some.inj hrun
      refine .gives ⟨?_, ?_⟩ <;> rcases hop with rfl | rfl <;> decide
    · obtain rfl := Option.some.inj hrun
      rcases hop with rfl | rfl
      · exact .waits rfl hone ⟨by decide, by decide⟩ fun h => by cases h
      · exact .waits rfl hone ⟨by decide, by decide⟩ fun h => by cases h

theorem does_some {op : Op} {a : Leaves} (hrun : some a = some l) (ha : Does op r d a) :
    Does op r d l :=
  Option.some.inj hrun ▸ ha

theorem does_ite {op : Op} {p : Prop} [Decidable p] {a : Leaves} {f : Section}
    (hrun : (if p then some a else f) = some l)
    (ha : p → Does op r d a) (hf : ¬ p → f = some l → Does op r d l) : Does op r d l := by
  split at hrun
  · exact does_some hrun (ha ‹_›)
  · exact hf ‹_› hrun

theorem does_try {op : Op} {p : Prop} [Decidable p] {a : Leaves}
    (hrun : (if p then some a else returns d false) = some l)
    (ha : p → Does op r d a) (hgives : Does op r d ⟨d, .ret false, [], []⟩) : Does op r d l :=
  does_ite hrun ha fun _ hf => does_some hf hgives

/-- The sections do nothing else. -/
theorem run_does {op : Op} (hrun : op.run r d = some l) : Does op r d l := by
  cases op with
  | lockShared =>
    refine does_ite hrun (.takesShared (.inl rfl)) fun hnot hrun => does_some hrun ?_
    exact .waits rfl hnot ⟨by decide, by decide⟩ fun h => by cases h
  | tryLockShared =>
    exact does_try hrun (.takesShared (.inr (.inl rfl))) (.gives ⟨by decide, by decide⟩)
  | tryLockSharedUntil =>
    refine does_ite hrun (fun _ => .gives ⟨by decide, by decide⟩) fun _ hrun => ?_
    refine does_ite hrun (.takesShared (.inr (.inr rfl))) fun hnot hrun => does_some hrun ?_
    exact .waits rfl hnot ⟨by decide, by decide⟩ fun h => by cases h
  | unlockShared =>
    obtain ⟨-, hrun⟩ := guard_bind hrun
    refine does_ite hrun .unlocksShared fun hlast hrun => ?_
    refine does_ite hrun (.grants hlast) fun hflag hrun => does_some hrun ?_
    exact .unlocksLast hlast (Bool.not_eq_true _ ▸ hflag)
  | lock => exact does_ite hrun (.takesExclusive (.inl rfl)) fun hnot hrun =>
    does_some hrun (.blocks (.inl rfl) hnot)
  | tryLock =>
    exact does_try hrun (.takesExclusive (.inr (.inl rfl))) (.gives ⟨by decide, by decide⟩)
  | tryLockUntil =>
    refine does_ite hrun (.takesExclusive (.inr (.inr rfl))) fun hnot hrun => ?_
    refine does_ite hrun (fun hr => ?_) fun _ hrun => does_some hrun (.blocks (.inr rfl) hnot)
    subst hr
    exact .abandons hnot
  | unlock =>
    obtain ⟨-, hrun⟩ := guard_bind hrun
    obtain ⟨-, hrun⟩ := guard_bind hrun
    exact does_some hrun .unlocks
  | lockUpgrade =>
    refine does_ite hrun (.takesUpgrade (.inl rfl)) fun hnot hrun => does_some hrun ?_
    exact .waits rfl hnot ⟨by decide, by decide⟩ fun h => by cases h
  | tryLockUpgradeUntil =>
    refine does_ite hrun (.takesUpgrade (.inr (.inr rfl))) fun hnot hrun => ?_
    refine does_ite hrun (fun _ => .gives ⟨by decide, by decide⟩) fun _ hrun => does_some hrun ?_
    exact .waits rfl hnot ⟨by decide, by decide⟩ fun h => by cases h
  | tryLockUpgrade =>
    simp only [Op.run, SharedMutex.tryLockUpgrade] at hrun
    split at hrun
    · obtain ⟨-, hrun⟩ := guard_bind hrun
      exact does_some hrun (.takesUpgrade (.inr (.inl rfl)) ‹_›)
    · exact does_some hrun (.gives ⟨by decide, by decide⟩)
  | unlockUpgrade =>
    exact does_ite hrun .unlocksUpgrade fun hlast hrun => does_some hrun (.unlocksLastUpgrade hlast)
  | unlockUpgradeAndLock =>
    simp only [Op.run, SharedMutex.unlockUpgradeAndLock] at hrun
    cases r with
    | none =>
      obtain ⟨-, hrun⟩ := guard_bind hrun
      rw [pure_bind] at hrun
      refine does_ite hrun .waitsUpgrade fun hone hrun => ?_
      obtain ⟨-, hrun⟩ := guard_bind hrun
      exact does_some hrun (.upgrades hone)
    | some status =>
      rw [if_neg (Option.some_ne_none _), pure_bind] at hrun
      refine does_ite hrun (fun hmore => ?_) fun hone hrun => ?_
      · have hready : ¬ Op.ready .unlockUpgradeAndLock d := fun h => h hmore
        exact .waits rfl hready ⟨by decide, by decide⟩ fun _ => Option.some_ne_none _
      · obtain ⟨-, hrun⟩ := guard_bind hrun
        exact does_some hrun (.upgradesWoken hone)
  | unlockAndLockUpgrade =>
    obtain ⟨-, hrun⟩ := guard_bind hrun
    obtain ⟨-, hrun⟩ := guard_bind hrun
    exact does_some hrun .downgrades
  | tryUnlockUpgradeAndLock =>
    obtain ⟨-, hrun⟩ := guard_bind hrun
    split at hrun
    · rename_i hcan
      obtain ⟨-, hrun⟩ := guard_bind hrun
      exact does_some hrun (.converts rfl rfl hcan.2.2.2 (fun h => by cases h) id)
    · exact does_some hrun (.gives ⟨by decide, by decide⟩)
  | tryUnlockUpgradeAndLockUntil =>
    refine untilOneLeft_does (.inl rfl) ?_
    cases r with
    | none =>
      obtain ⟨-, hrun⟩ := guard_bind hrun
      exact hrun
    | some status => exact hrun
  | unlockAndLockShared =>
    obtain ⟨-, hrun⟩ := guard_bind hrun
    exact does_some hrun .downgradesShared
  | tryUnlockSharedAndLock =>
    obtain ⟨-, hrun⟩ := guard_bind hrun
    refine does_try hrun (fun hcan => ?_) (.gives ⟨by decide, by decide⟩)
    have hflag := hcan.2.2.1
    have hdoes : Does .tryUnlockSharedAndLock r d
        ⟨⟨0, true, false, d.exclusiveWaitingBlocked⟩, .ret true, [], []⟩ :=
      .converts rfl rfl hcan.2.2.2 (fun _ => hflag) id
    rw [← hflag] at hdoes
    exact hdoes
  | tryUnlockSharedAndLockUntil =>
    refine untilOneLeft_does (.inr rfl) ?_
    cases r with
    | none =>
      obtain ⟨-, hrun⟩ := guard_bind hrun
      exact hrun
    | some status => exact hrun
  | unlockUpgradeAndLockShared =>
    obtain ⟨-, hrun⟩ := guard_bind hrun
    exact does_some hrun .upgradeToShared
  | tryUnlockSharedAndLockUpgrade =>
    obtain ⟨-, hrun⟩ := guard_bind hrun
    exact does_try hrun (.sharedToUpgrade (.inl rfl)) (.gives ⟨by decide, by decide⟩)
  | tryUnlockSharedAndLockUpgradeUntil =>
    have hrun : (if d.canLockUpgrade then returns { d with upgrade := true } true
        else if r = some .timeout then returns d false else waits d .exclusive true) = some l := by
      cases r with
      | none =>
        obtain ⟨-, hrun⟩ := guard_bind hrun
        exact hrun
      | some status => exact hrun
    refine does_ite hrun (.sharedToUpgrade (.inr rfl)) fun hnot hrun => ?_
    refine does_ite hrun (fun _ => .gives ⟨by decide, by decide⟩) fun _ hrun => does_some hrun ?_
    exact .waits rfl hnot ⟨by decide, by decide⟩ fun h => by cases h

end

/-! ### Conditions that a section makes true -/

/-- The operations of writers that set `exclusive_waiting_blocked`. -/
def Op.blocking (op : Op) : Prop := op = .lock ∨ op = .tryLockUntil

section

variable {op : Op} {r : Option CvStatus} {d : StateData} {l : Leaves}

theorem all_mem_release : .all .shared ∈ releaseWaiters := by
  decide

theorem one_mem_release : .one .exclusive ∈ releaseWaiters := by
  decide

/-- A section that goes to sleep leaves its own condition false. -/
theorem Does.not_ready (h : Does op r d l) {c : Cond} {timed : Bool}
    (hnext : l.next = .wait c timed) : ¬ op.ready l.state := by
  cases h with
  | waits _ hnot _ _ => exact hnot
  | blocks hop hnot => rcases hop with rfl | rfl <;> exact hnot
  | waitsUpgrade hmore => exact not_not.mpr hmore
  | _ => cases hnext

theorem Does.canLockShared (h : Does op r d l) (hcan : l.state.canLockShared) :
    d.canLockShared ∨ .all .shared ∈ l.notify ∨ .all .shared ∈ l.after := by
  cases h with
  | takesShared _ _ | takesUpgrade _ _ | gives _ | waits _ _ _ _ | unlocksShared _ | waitsUpgrade _
  | sharedToUpgrade _ _ =>
    exact .inl hcan
  | takesExclusive _ _ | grants _ _ | upgrades _ | upgradesWoken _
  | converts _ _ _ _ _ => cases hcan.1
  | blocks _ _ => cases hcan.2
  | unlocksLast _ _ => exact .inr (.inr all_mem_release)
  | unlocksUpgrade _ => exact .inr (.inl List.mem_cons_self)
  | abandons _ | unlocks | unlocksLastUpgrade _ | downgrades | downgradesShared | upgradeToShared =>
    exact .inr (.inl all_mem_release)

theorem Does.canLockUpgrade (h : Does op r d l) (hcan : l.state.canLockUpgrade) :
    d.canLockUpgrade ∨ .all .shared ∈ l.notify ∨ .all .shared ∈ l.after := by
  cases h with
  | takesShared _ _ | gives _ | waits _ _ _ _ | unlocksShared _ | waitsUpgrade _ => exact .inl hcan
  | takesUpgrade _ _ | sharedToUpgrade _ _ => cases hcan.2.2
  | takesExclusive _ _ | grants _ _ | upgrades _ | upgradesWoken _
  | converts _ _ _ _ _ => cases hcan.1
  | blocks _ _ => cases hcan.2.1
  | unlocksLast _ _ => exact .inr (.inr all_mem_release)
  | unlocksUpgrade _ => exact .inr (.inl List.mem_cons_self)
  | abandons _ | unlocks | unlocksLastUpgrade _ | downgrades | downgradesShared | upgradeToShared =>
    exact .inr (.inl all_mem_release)

theorem Does.canLock (h : Does op r d l) (hcan : l.state.canLock) (hnew : l.next = .ret true →
      op.target = some .shared ∨ op.target = some .upgrade → l.state.sharedCount ≠ 0) :
    d.canLock ∨ .one .exclusive ∈ l.notify ∨ .one .exclusive ∈ l.after := by
  cases h with
  | gives _ | waits _ _ _ _ | blocks _ _ | abandons _ => exact .inl hcan
  | takesShared hop _ =>
    exact absurd hcan.1 (hnew rfl (by rcases hop with rfl | rfl | rfl <;> exact .inl rfl))
  | takesUpgrade hop _ =>
    exact absurd hcan.1 (hnew rfl (by rcases hop with rfl | rfl | rfl <;> exact .inr rfl))
  | sharedToUpgrade hop _ =>
    exact absurd hcan.1 (hnew rfl (by rcases hop with rfl | rfl <;> exact .inr rfl))
  | unlocksShared hmore | waitsUpgrade hmore | unlocksUpgrade hmore =>
    exact absurd ((eq_zero_iff _).mp hcan.1) (Nat.ne_of_gt ((pos_iff _).mp hmore))
  | takesExclusive _ _ | grants _ _ | upgrades _ | upgradesWoken _
  | converts _ _ _ _ _ => cases hcan.2
  | unlocksLast _ _ => exact .inr (.inr one_mem_release)
  | unlocks | unlocksLastUpgrade _ | downgrades | downgradesShared | upgradeToShared =>
    exact .inr (.inl one_mem_release)

theorem Does.takes (h : Does op r d l) (hop : op.blocking) (hcan : d.canLock) :
    l.state.exclusive = true := by
  cases h with
  | takesExclusive _ _ => rfl
  | blocks _ hnot | abandons hnot => exact absurd hcan hnot
  | gives hne | waits _ _ hne _ => exact absurd hop (not_or.mpr hne)
  | takesShared h _ | takesUpgrade h _ => rcases h with rfl | rfl |
      rfl <;> rcases hop with h | h <;> cases h
  | sharedToUpgrade h _ => rcases h with rfl | rfl <;> rcases hop with h | h <;> cases h
  | converts htries _ _ _ _ => rcases hop with rfl | rfl <;> cases htries
  | unlocksShared _ | grants _ _ | unlocksLast _ _ | unlocks | unlocksUpgrade _
  | unlocksLastUpgrade _
  | waitsUpgrade _ | upgrades _ | upgradesWoken _ | downgrades | downgradesShared
  | upgradeToShared =>
    rcases hop with h | h <;> cases h

/-- Only a writer that goes to sleep sets `exclusive_waiting_blocked`, and it is cleared with
`exclusive`. -/
theorem Does.blocked (h : Does op r d l) (hblocked : l.state.exclusiveWaitingBlocked = true) :
    l.state.exclusive = true ∨ (op.blocking ∧ ∃ timed, l.next = .wait .exclusive timed) ∨
      d.exclusiveWaitingBlocked = true ∧ d.exclusive = false ∧ ¬ op.blocking := by
  -- a section that changes neither flag
  have hsame : d.exclusiveWaitingBlocked = true → ¬ op.blocking → d.exclusive = true ∨
      (op.blocking ∧ ∃ timed, l.next = .wait .exclusive timed) ∨
        d.exclusiveWaitingBlocked = true ∧ d.exclusive = false ∧ ¬ op.blocking := by
    intro hb hop
    cases he : d.exclusive with
    | true => exact .inl rfl
    | false => exact .inr (.inr ⟨hb, rfl, hop⟩)
  have hne : op ≠ .lock ∧ op ≠ .tryLockUntil → ¬ op.blocking := not_or.mpr
  cases h with
  | takesShared _ hcan => cases hcan.2.symm.trans hblocked
  | takesUpgrade _ hcan | sharedToUpgrade _ hcan => cases hcan.2.1.symm.trans hblocked
  | takesExclusive _ _ | grants _ _ | upgrades _ | upgradesWoken _ | converts _ _ _ _ _ =>
    exact .inl rfl
  | gives h | waits _ _ h _ => exact hsame hblocked (hne h)
  | blocks hop _ => exact .inr (.inl ⟨hop, _, rfl⟩)
  | unlocksShared _ | unlocksUpgrade _ | waitsUpgrade _ =>
    exact hsame hblocked (hne ⟨by decide, by decide⟩)
  | abandons _ | unlocksLast _ _ | unlocks | unlocksLastUpgrade _ | downgrades | downgradesShared
  | upgradeToShared =>
    cases hblocked

end

/-! ### What the sections and the notifications leave -/

variable {τ : Type} [DecidableEq τ]

/-- A thread is about to give the notification. -/
def AboutTo (s : State τ) (n : Notify) : Prop := ∃ t, n ∈ (s.pc t).pending

/-- A thread whose wait on the condition variable has ended is still to check its condition
again. -/
def Rechecks (s : State τ) (c : Cond) : Prop :=
  ∃ t op notified timed, s.pc t = .woken op notified timed ∧ op.cond = some c

/-- A thread sleeps in the operation. -/
def Sleeps (s : State τ) (op : Op) : Prop := ∃ t c timed, s.pc t = .asleep op c timed

section

variable {s : State τ} {ns : List Notify}

theorem Queues.notifyAll (hq : Queues s) (ns : List Notify) : Queues (ns.foldl State.notify s) := by
  induction ns generalizing s with
  | nil => exact hq
  | cons n ns ih => exact ih (hq.notify n)

theorem notifyAll_data (s : State τ) (ns : List Notify) :
    (ns.foldl State.notify s).data = s.data := by
  induction ns generalizing s with
  | nil => rfl
  | cons n ns ih => exact ih _

theorem notifyAll_hold (s : State τ) (ns : List Notify) :
    (ns.foldl State.notify s).hold = s.hold := by
  induction ns generalizing s with
  | nil => rfl
  | cons n ns ih => exact ih _

theorem Queues.notifyAll_pending (hq : Queues s) (ns : List Notify) (t : τ) :
    ((ns.foldl State.notify s).pc t).pending = (s.pc t).pending := by
  induction ns generalizing s with
  | nil => rfl
  | cons n ns ih => exact (ih (hq.notify n)).trans (hq.notify_pending n t)

theorem Queues.notifyAll_waiter (hq : Queues s) (ns : List Notify) (t : τ) :
    ((ns.foldl State.notify s).pc t).waiter? = (s.pc t).waiter? := by
  induction ns generalizing s with
  | nil => rfl
  | cons n ns ih => exact (ih (hq.notify n)).trans (hq.notify_waiter n t)

theorem Queues.notify_asleep (hq : Queues s) {n : Notify} {t : τ} {op : Op} {c : Cond}
    {timed : Bool} (h : (s.notify n).pc t = .asleep op c timed) : s.pc t = .asleep op c timed := by
  rcases hq.notify_pc n t with ⟨-, op', timed', -, hnew⟩ | ⟨-, hsame⟩
  · rw [hnew] at h
    cases h
  · rwa [hsame] at h

theorem Queues.notify_woken (hq : Queues s) {n : Notify} {t : τ} {op : Op} {notified timed : Bool}
    (h : s.pc t = .woken op notified timed) : (s.notify n).pc t = .woken op notified timed := by
  rcases hq.notify_pc n t with ⟨-, op', timed', hold, -⟩ | ⟨-, hsame⟩
  · rw [hold] at h
    cases h
  · rwa [hsame]

theorem Queues.notifyAll_asleep (hq : Queues s) {t : τ} {op : Op} {c : Cond} {timed : Bool}
    (h : (ns.foldl State.notify s).pc t = .asleep op c timed) : s.pc t = .asleep op c timed := by
  induction ns generalizing s with
  | nil => exact h
  | cons n ns ih => exact hq.notify_asleep (ih (hq.notify n) h)

theorem Queues.notifyAll_woken (hq : Queues s) {t : τ} {op : Op} {notified timed : Bool}
    (h : s.pc t = .woken op notified timed) :
    (ns.foldl State.notify s).pc t = .woken op notified timed := by
  induction ns generalizing s with
  | nil => exact h
  | cons n ns ih => exact ih (hq.notify n) (hq.notify_woken h)

theorem Queues.notifyAll_recheck (hq : Queues s) {c : Cond} (h : Rechecks s c) :
    Rechecks (ns.foldl State.notify s) c := by
  obtain ⟨t, op, notified, timed, hpc, hcond⟩ := h
  exact ⟨t, op, notified, timed, hq.notifyAll_woken hpc, hcond⟩

theorem Queues.notify_wakes (hq : Queues s) (n : Notify) :
    s.queue n.cond = [] ∨ Rechecks (s.notify n) n.cond := by
  cases hqueue : s.queue n.cond with
  | nil => exact .inl rfl
  | cons t q =>
    right
    have hw : t ∈ n.wakes (s.queue n.cond) := by
      rw [hqueue]
      cases n with
      | one c => exact List.mem_cons_self
      | all c => exact List.mem_cons_self
    rcases hq.notify_pc n t with ⟨-, op, timed, hold, hnew⟩ | ⟨hnot, -⟩
    · exact ⟨t, op, true, timed, hnew, (hq.asleep hold).1⟩
    · exact absurd hw hnot

theorem Queues.notify_all (hq : Queues s) (c : Cond) {t : τ} {op : Op} {timed : Bool} :
    (s.notify (.all c)).pc t ≠ .asleep op c timed := by
  intro h
  have hold := hq.notify_asleep h
  have hw : t ∈ Notify.wakes (.all c) (s.queue c) := (hq.queued c t).mpr ⟨op, timed, hold⟩
  rcases hq.notify_pc (.all c) t with ⟨-, op', timed', -, hnew⟩ | ⟨hnot, -⟩
  · rw [hnew] at h
    cases h
  · exact hnot hw

theorem Queues.notifyAll_one (hq : Queues s) {n : Notify} (hn : n ∈ ns) :
    (ns.foldl State.notify s).queue n.cond = [] ∨ Rechecks (ns.foldl State.notify s) n.cond := by
  induction ns generalizing s with
  | nil => cases hn
  | cons n' ns ih =>
    rcases List.mem_cons.mp hn with rfl | hn
    · rcases hq.notify_wakes n with hnil | hrecheck
      · left
        -- an empty queue stays empty
        have hempty : ∀ t op timed, (ns.foldl State.notify (s.notify n)).pc t ≠
          .asleep op n.cond timed := by
          intro t op timed h
          have hmem := (hq.queued n.cond t).mpr
            ⟨op, timed, hq.notify_asleep ((hq.notify n).notifyAll_asleep h)⟩
          rw [hnil] at hmem
          cases hmem
        apply List.eq_nil_iff_forall_not_mem.mpr
        intro t ht
        obtain ⟨op, timed, hpc⟩ := (((hq.notify n).notifyAll ns).queued n.cond t).mp ht
        exact hempty t op timed hpc
      · exact .inr ((hq.notify n).notifyAll_recheck hrecheck)
    · exact ih (hq.notify n') hn

theorem notify_one_queue (s : State τ) (c : Cond) :
    (s.notify (.one c)).queue c = (s.queue c).drop 1 :=
  Function.update_self ..

theorem Queues.notifyAll_behind (hq : Queues s) {c : Cond} (hn : .one c ∈ ns) {t : τ} {op : Op}
    {timed : Bool}
    (h : (ns.foldl State.notify s).pc t = .asleep op c timed) : t ∈ (s.queue c).drop 1 := by
  induction ns generalizing s with
  | nil => cases hn
  | cons n ns ih =>
    rcases List.mem_cons.mp hn with rfl | hn
    · have hmem := ((hq.notify (.one c)).queued c t).mpr
        ⟨op, timed, (hq.notify (.one c)).notifyAll_asleep h⟩
      rwa [notify_one_queue] at hmem
    · have hmem := ih (hq.notify n) hn h
      by_cases hc : c = n.cond
      · subst hc
        rw [show (s.notify n).queue n.cond = n.leaves (s.queue n.cond) from Function.update_self ..]
          at hmem
        cases n with
        | one c => exact List.mem_of_mem_drop hmem
        | all c => cases hmem
      · rwa [show (s.notify n).queue c = s.queue c from Function.update_of_ne hc _ _] at hmem

theorem Queues.notifyAll_all (hq : Queues s) {c : Cond} (hn : .all c ∈ ns) {t : τ} {op : Op}
    {timed : Bool} :
    (ns.foldl State.notify s).pc t ≠ .asleep op c timed := by
  induction ns generalizing s with
  | nil => cases hn
  | cons n ns ih =>
    rcases List.mem_cons.mp hn with rfl | hn
    · exact fun h => hq.notify_all c ((hq.notify _).notifyAll_asleep h)
    · exact ih (hq.notify n) hn

end

section

variable [Fintype τ] {s s' : State τ} {t : τ} {op : Op} {r : Option CvStatus} {l : Leaves}

/-- A section of `t`, seen from the states before and after it. -/
structure Ran (s : State τ) (t : τ) (op : Op) (r : Option CvStatus) (l : Leaves)
    (s' : State τ) : Prop where
  enters : Enters s t op r
  does : Does op r s.data l
  data : s'.data = l.state
  hold : s'.hold = Function.update s.hold t (l.holds op (op.locks r (s.hold t)))
  pending : ∀ u, u ≠ t → (s'.pc u).pending = (s.pc u).pending
  after : ∀ n, n ∈ l.after → n ∈ (s'.pc t).pending
  waiter : ∀ u, u ≠ t → (s'.pc u).waiter? = (s.pc u).waiter?
  /-- nobody but `t` goes to sleep -/
  asleep : ∀ {u op' c timed}, s'.pc u = .asleep op' c timed →
    u ≠ t ∧ s.pc u = .asleep op' c timed ∨ u = t ∧ op' = op ∧ l.next = .wait c timed
  woken : ∀ {u op' notified timed}, u ≠ t → s.pc u = .woken op' notified timed →
    s'.pc u = .woken op' notified timed
  one : ∀ {n}, n ∈ l.notify → s'.queue n.cond = [] ∨ Rechecks s' n.cond
  behind : ∀ {b c u op' timed}, l.next = .ret b → .one c ∈ l.notify →
    s'.pc u = .asleep op' c timed →
    u ∈ (s.queue c).drop 1
  all : ∀ {c}, .all c ∈ l.notify → ∀ u op' timed, s'.pc u ≠ .asleep op' c timed
  waits : ∀ {c timed}, l.next = .wait c timed → (s'.pc t).waiter? = some op

omit [Fintype τ] in
/-- A thread that sleeps though its condition is true was asleep before the section. -/
theorem Ran.slept (h : Ran s t op r l s') {u : τ} {op' : Op} {c : Cond} {timed : Bool}
    (hpc : s'.pc u = .asleep op' c timed) (hready : op'.ready s'.data) :
    s.pc u = .asleep op' c timed := by
  rcases h.asleep hpc with ⟨-, hold⟩ | ⟨-, rfl, hnext⟩
  · exact hold
  · rw [h.data] at hready
    exact absurd hready (h.does.not_ready hnext)

theorem Inv.ran (hinv : Inv s) (he : Enters s t op r)
    (hroom : op.counts = true → s.held .shared + s.held .upgrade + 1 < UInt32.size) :
    ∃ l, Ran s t op r l (s.finish t op (op.locks r (s.hold t)) (op.run r s.data)) := by
  obtain ⟨rs, ru, rx, rk, hb, hrest⟩ := hinv.before he hroom
  obtain ⟨l, hrun, hk⟩ := hb.kept
  have hq := hinv.queues.leave (h := op.locks r (s.hold t)) (l := l) he fun c timed hnext =>
    ⟨(hk.wait c timed hnext).1, (hk.wait c timed hnext).2.1⟩
  refine ⟨l, ?_⟩
  rw [hrun]
  show Ran s t op r l (l.notify.foldl State.notify (s.leave t op (op.locks r (s.hold t)) l))
  have hself : (s.leave t op (op.locks r (s.hold t)) l).pc t = l.pc op := by
    rw [leave_pc, Function.update_self]
  refine ⟨he, run_does hrun, ?_, ?_, fun u hu => ?_, fun n hn => ?_, fun u hu => ?_, ?_, ?_,
    hq.notifyAll_one, ?_,
    fun hn u op' timed => hq.notifyAll_all hn, ?_⟩
  · rw [notifyAll_data, leave_data]
  · rw [notifyAll_hold, leave_hold]
  · rw [hq.notifyAll_pending, leave_pc_of_ne s op _ l hu]
  · rw [hq.notifyAll_pending, hself, Leaves.pc]
    split
    · rwa [notifyNext_pending]
    · rename_i c timed hnext
      rw [(hk.wait c timed hnext).2.2.2] at hn
      cases hn
  · rw [hq.notifyAll_waiter, leave_pc_of_ne s op _ l hu]
  · intro u op' c timed h
    have h := hq.notifyAll_asleep h
    by_cases hu : u = t
    · subst hu
      rw [hself, Leaves.pc] at h
      split at h
      · exact absurd h (notifyNext_asleep _ _ _ _)
      · rename_i c' timed' hnext
        cases h
        exact .inr ⟨rfl, rfl, hnext⟩
    · rw [leave_pc_of_ne s op _ l hu] at h
      exact .inl ⟨hu, h⟩
  · intro u op' notified timed hu h
    apply hq.notifyAll_woken
    rwa [leave_pc_of_ne s op _ l hu]
  · intro b c u op' timed hret hn h
    have hmem := hq.notifyAll_behind hn h
    rcases leave_queue s t op (op.locks r (s.hold t)) l c with hsame | ⟨timed', hnext, -⟩
    · rwa [hsame] at hmem
    · cases hret.symm.trans hnext
  · intro c timed hnext
    rw [hq.notifyAll_waiter, hself, Leaves.pc, hnext]
    rfl

omit [Fintype τ] in
/-- A section keeps every notification that is about to be given. -/
theorem Ran.aboutTo (h : Ran s t op r l s') {n : Notify} (hn : AboutTo s n) : AboutTo s' n := by
  obtain ⟨u, hu⟩ := hn
  refine ⟨u, ?_⟩
  rwa [h.pending]
  rintro rfl
  rcases h.enters with ⟨-, hpc, -⟩ | ⟨_, _, _, -, hpc⟩ <;> rw [hpc] at hu <;> cases hu

omit [Fintype τ] in
theorem Ran.sleeps (h : Ran s t op r l s') {op' : Op} (hs : Sleeps s' op') :
    Sleeps s op' ∨ op' = op ∧ ∃ c timed, l.next = .wait c timed := by
  obtain ⟨u, c, timed, hpc⟩ := hs
  rcases h.asleep hpc with ⟨-, hold⟩ | ⟨-, rfl, hnext⟩
  · exact .inl ⟨u, c, timed, hold⟩
  · exact .inr ⟨rfl, c, timed, hnext⟩

/-- A step that is no section: it ends waits, and gives one notification at most. -/
structure Passes (s s' : State τ) : Prop where
  data : s'.data = s.data
  hold : s'.hold = s.hold
  waiter : ∀ u, (s'.pc u).waiter? = (s.pc u).waiter?
  asleep : ∀ {u op c timed}, s'.pc u = .asleep op c timed → s.pc u = .asleep op c timed
  woken : ∀ {u op notified timed}, s.pc u = .woken op notified timed →
    s'.pc u = .woken op notified timed

omit [DecidableEq τ] [Fintype τ] in
theorem Passes.sleeps (h : Passes s s') {op' : Op} (hs : Sleeps s' op') : Sleeps s op' := by
  obtain ⟨u, c, timed, hpc⟩ := hs
  exact ⟨u, c, timed, h.asleep hpc⟩

omit [DecidableEq τ] [Fintype τ] in
theorem Passes.rechecks (h : Passes s s') {c : Cond} (hs : Rechecks s c) : Rechecks s' c := by
  obtain ⟨u, op, notified, timed, hpc, hcond⟩ := hs
  exact ⟨u, op, notified, timed, h.woken hpc, hcond⟩

section

omit [Fintype τ]

theorem passes_expire {c : Cond} (hpc : s.pc t = .asleep op c true) :
    Passes s ((s.setQueue c ((s.queue c).erase t)).setPc t (.woken op false true)) := by
  have hself : ((s.setQueue c ((s.queue c).erase t)).setPc t (.woken op false true)).pc t =
    .woken op false true :=
    setPc_pc_self ..
  have hother : ∀ {u}, u ≠ t →
    ((s.setQueue c ((s.queue c).erase t)).setPc t (.woken op false true)).pc u = s.pc u :=
    fun hu => setPc_pc_of_ne _ _ hu
  refine ⟨rfl, rfl, fun u => ?_, ?_, ?_⟩
  · by_cases hu : u = t
    · subst hu
      rw [hself, hpc]
      rfl
    · rw [hother hu]
  · intro u op' c' timed h
    by_cases hu : u = t
    · subst hu
      rw [hself] at h
      cases h
    · rwa [hother hu] at h
  · intro u op' notified timed h
    have hu : u ≠ t := by
      rintro rfl
      rw [hpc] at h
      cases h
    rwa [hother hu]

theorem expire_pending {c : Cond} (hpc : s.pc t = .asleep op c true) (u : τ) :
    (((s.setQueue c ((s.queue c).erase t)).setPc t (.woken op false true)).pc u).pending =
    (s.pc u).pending := by
  by_cases hu : u = t
  · subst hu
    rw [setPc_pc_self, hpc]
    rfl
  · rw [setPc_pc_of_ne _ _ hu]
    rfl

theorem Queues.passes_notify (hq : Queues s) {n : Notify} {ns : List Notify}
    (hpc : s.pc t = .notifying n ns) :
    Passes s ((s.setPc t (PC.notifyNext ns)).notify n) := by
  have hq₁ := hq.setPc hpc
  refine ⟨rfl, rfl, fun u => ?_, ?_, ?_⟩
  · rw [hq₁.notify_waiter]
    by_cases hu : u = t
    · subst hu
      rw [setPc_pc_self, notifyNext_waiter, hpc]
      rfl
    · rw [setPc_pc_of_ne _ _ hu]
  · intro u op' c' timed h
    have h := hq₁.notify_asleep h
    by_cases hu : u = t
    · subst hu
      rw [setPc_pc_self] at h
      exact absurd h (notifyNext_asleep _ _ _ _)
    · rwa [setPc_pc_of_ne _ _ hu] at h
  · intro u op' notified timed h
    have hu : u ≠ t := by
      rintro rfl
      rw [hpc] at h
      cases h
    apply hq₁.notify_woken
    rwa [setPc_pc_of_ne _ _ hu]

theorem Queues.aboutTo_notify (hq : Queues s) {n m : Notify} {ns : List Notify}
    (hpc : s.pc t = .notifying n ns)
    (hm : AboutTo s m) : AboutTo ((s.setPc t (PC.notifyNext ns)).notify n) m ∨ m = n := by
  obtain ⟨u, hu⟩ := hm
  by_cases hut : u = t
  · subst hut
    rw [hpc] at hu
    rcases List.mem_cons.mp hu with rfl | hu
    · exact .inr rfl
    · refine .inl ⟨u, ?_⟩
      rwa [(hq.setPc hpc).notify_pending, setPc_pc_self, notifyNext_pending]
  · refine .inl ⟨u, ?_⟩
    rwa [(hq.setPc hpc).notify_pending, setPc_pc_of_ne _ _ hut]

end

end

end SharedMutex

end GreenThread
