import GreenThread.SharedMutex.Threads

/-!
# What the sections keep

`Balanced` says what the fields of the `state_data` have to do with the locks that are held and with
the exclusive lock that is granted to a waiting upgrader. Each change of the fields has its lemma,
and each operation then passes its `assert_*` checks and keeps the balance.
-/

namespace GreenThread

namespace SharedMutex

/-! ### Balance -/

/-- The `state_data` says what is held, and `grants` counts the exclusive locks on their way to an
upgrader. -/
structure Balanced (d : StateData) (shared upgrade exclusive grants : Nat) : Prop where
  counted : d.sharedCount.toNat = shared + upgrade
  owned : exclusive + grants = d.exclusive.toNat
  upgraded : upgrade ≤ d.upgrade.toNat
  free : d.exclusive = true → shared + upgrade = 0
  used : d.upgrade = true → 0 < shared + upgrade

section

variable {d : StateData} {s u x k : Nat}

theorem pos_iff (c : UInt32) : 0 < c ↔ 0 < c.toNat := UInt32.lt_iff_toNat_lt

theorem eq_zero_iff (c : UInt32) : c = 0 ↔ c.toNat = 0 := by
  rw [← UInt32.toNat_inj, UInt32.toNat_zero]

theorem toNat_succ {c : UInt32} (h : c.toNat + 1 < UInt32.size) : (c + 1).toNat = c.toNat + 1 := by
  rw [UInt32.toNat_add, UInt32.toNat_one]
  exact Nat.mod_eq_of_lt h

theorem toNat_pred {c : UInt32} (h : 0 < c.toNat) : (c - 1).toNat = c.toNat - 1 := by
  rw [UInt32.toNat_sub_of_le, UInt32.toNat_one]
  rw [UInt32.le_iff_toNat_le, UInt32.toNat_one]
  exact h

namespace Balanced

theorem not_exclusive (hb : Balanced d s u x k) (h : 0 < s + u) : d.exclusive = false := by
  rw [← Bool.not_eq_true]
  intro he
  have hfree := hb.free he
  omega

theorem upgrade_true (hb : Balanced d s u x k) (h : 0 < u) : d.upgrade = true := by
  have hle := hb.upgraded
  cases hu : d.upgrade with
  | true => rfl
  | false =>
    rw [hu, Bool.toNat_false] at hle
    omega

theorem exclusive_true (hb : Balanced d s u x k) (h : 0 < x + k) : d.exclusive = true := by
  have heq := hb.owned
  cases he : d.exclusive with
  | true => rfl
  | false =>
    rw [he, Bool.toNat_false] at heq
    omega

/-- While the lock is held exclusively, or granted, nothing else is held. -/
theorem of_exclusive (hb : Balanced d s u x k) (h : 0 < x + k) :
    x + k = 1 ∧ s = 0 ∧ u = 0 ∧ d.exclusive = true ∧ d.upgrade = false ∧ d.sharedCount = 0 := by
  have he := hb.exclusive_true h
  have heq := hb.owned
  have hfree := hb.free he
  have hcount := hb.counted
  rw [he, Bool.toNat_true] at heq
  refine ⟨heq, by omega, by omega, he, ?_, (eq_zero_iff _).mpr (by omega)⟩
  rw [← Bool.not_eq_true]
  intro hu
  have hused := hb.used hu
  omega

theorem of_not_exclusive (hb : Balanced d s u x k) (he : d.exclusive = false) : x = 0 ∧ k = 0 := by
  have heq := hb.owned
  rw [he, Bool.toNat_false] at heq
  omega

theorem le_one (hb : Balanced d s u x k) : u ≤ 1 := hb.upgraded.trans (Bool.toNat_le _)

theorem block (hb : Balanced d s u x k) (b : Bool) :
    Balanced { d with exclusiveWaitingBlocked := b } s u x k :=
  ⟨hb.counted, hb.owned, hb.upgraded, hb.free, hb.used⟩

/-! Each change of the `state_data`, with the locks it takes and gives up. -/

theorem lockShared (hb : Balanced d s u x k) (he : d.exclusive = false)
    (hroom : s + u + 1 < UInt32.size) :
    Balanced d.lockShared (s + 1) u x k := by
  have hcount := toNat_succ (c := d.sharedCount) (by rw [hb.counted]; exact hroom)
  rw [hb.counted] at hcount
  refine ⟨?_, hb.owned, hb.upgraded, fun h => ?_, fun _ => by omega⟩
  · show (d.sharedCount + 1).toNat = s + 1 + u
    omega
  · cases he.symm.trans h

theorem lockUpgrade (hb : Balanced d s u x k) (he : d.exclusive = false) (hu : d.upgrade = false)
    (hroom : s + u + 1 < UInt32.size) :
    Balanced { d.lockShared with upgrade := true } s (u + 1) x k := by
  have hle := hb.upgraded
  rw [hu, Bool.toNat_false] at hle
  obtain rfl : u = 0 := by omega
  have hlock := hb.lockShared he hroom
  exact ⟨hlock.counted, hlock.owned, Nat.le_refl 1, hlock.free, fun _ => by omega⟩

theorem lock (hb : Balanced d s u x k) (hcan : d.canLock) :
    Balanced { d with exclusive := true } s u (x + 1) k := by
  have hzero := (eq_zero_iff _).mp hcan.1
  have hcount := hb.counted
  obtain ⟨rfl, rfl⟩ := hb.of_not_exclusive hcan.2
  exact ⟨hcount, rfl, hb.upgraded, fun _ => by omega, hb.used⟩

theorem unlock (hb : Balanced d s u (x + 1) k) :
    Balanced { d with exclusive := false, exclusiveWaitingBlocked := false } s u x k := by
  have hown := hb.of_exclusive (by omega)
  have hx : x + k = 0 := by omega
  exact ⟨hb.counted, hx, hb.upgraded, fun h => (by cases h), hb.used⟩

theorem toNat_unlock (hb : Balanced d s u x k) (hpos : 0 < s + u) :
    (d.sharedCount - 1).toNat = s + u - 1 := by
  rw [toNat_pred (by rw [hb.counted]; exact hpos), hb.counted]

theorem unlockShared (hb : Balanced d (s + 1) u x k) (hmore : 0 < s + u) :
    Balanced d.unlockShared s u x k := by
  have he := hb.not_exclusive (by omega)
  have hcount : (d.sharedCount - 1).toNat = s + u := by
    have h := hb.toNat_unlock (by omega)
    omega
  refine ⟨hcount, hb.owned, hb.upgraded, fun h => ?_, fun _ => hmore⟩
  cases he.symm.trans h

theorem unlockLast (hb : Balanced d (s + 1) u x k) (hlast : s + u = 0) (hu : d.upgrade = false) :
    Balanced d.unlockShared s u x k := by
  have hcount : (d.sharedCount - 1).toNat = s + u := by
    have h := hb.toNat_unlock (by omega)
    omega
  refine ⟨hcount, hb.owned, hb.upgraded, fun _ => hlast, fun h => ?_⟩
  cases hu.symm.trans h

theorem grant (hb : Balanced d (s + 1) u x k) (hlast : s + u = 0) :
    Balanced { d.unlockShared with upgrade := false, exclusive := true } s u x (k + 1) := by
  obtain ⟨rfl, rfl⟩ := hb.of_not_exclusive (hb.not_exclusive (by omega))
  have hcount : (d.sharedCount - 1).toNat = s + u := by
    have h := hb.toNat_unlock (by omega)
    omega
  obtain rfl : u = 0 := by omega
  exact ⟨hcount, rfl, Nat.le_refl 0, fun _ => hlast, fun h => by cases h⟩

theorem unlockUpgrade (hb : Balanced d s (u + 1) x k) : Balanced d.unlockUpgrade s u x k := by
  have hle := hb.le_one
  obtain rfl : u = 0 := by omega
  have he := hb.not_exclusive (by omega)
  have hcount : (d.sharedCount - 1).toNat = s + 0 := by
    have h := hb.toNat_unlock (by omega)
    omega
  refine ⟨hcount, hb.owned, Nat.le_refl 0, fun h => ?_, fun h => by cases h⟩
  cases he.symm.trans h

theorem giveUp (hb : Balanced d s (u + 1) x k) (hmore : 0 < s + u) :
    Balanced d.unlockShared s u x k := by
  have he := hb.not_exclusive (by omega)
  have hcount : (d.sharedCount - 1).toNat = s + u := by
    have h := hb.toNat_unlock (by omega)
    omega
  refine ⟨hcount, hb.owned, ?_, fun h => ?_, fun _ => hmore⟩
  · have hle := hb.upgraded
    show u ≤ d.upgrade.toNat
    omega
  · cases he.symm.trans h

theorem convert {s' u' : Nat} (hb : Balanced d s' u' x k) (hone : s' + u' = 1)
    (hzero : s + u = 0) (b : Bool) :
    Balanced ⟨0, true, false, b⟩ s u (x + 1) k := by
  obtain ⟨rfl, rfl⟩ := hb.of_not_exclusive (hb.not_exclusive (by omega))
  obtain rfl : u = 0 := by omega
  obtain rfl : s = 0 := by omega
  exact ⟨rfl, rfl, Nat.le_refl 0, fun _ => rfl, fun h => by cases h⟩

theorem take (hb : Balanced d s u x (k + 1)) :
    Balanced { d with upgrade := false, exclusive := true } s u (x + 1) k := by
  obtain ⟨hone, rfl, rfl, he, hu, hcount⟩ := hb.of_exclusive (by omega)
  refine ⟨hb.counted, ?_, Nat.zero_le _, fun _ => rfl, fun h => by cases h⟩
  show x + 1 + k = 1
  omega

theorem lockOne (hb : Balanced d s u (x + 1) k) : (d.sharedCount + 1).toNat = s + u + 1 := by
  obtain ⟨hone, rfl, rfl, he, hu, hcount⟩ := hb.of_exclusive (by omega)
  rw [hcount]
  rfl

theorem downgradeToUpgrade (hb : Balanced d s u (x + 1) k) :
    Balanced ⟨d.sharedCount + 1, false, true, false⟩ s (u + 1) x k := by
  have hcount := hb.lockOne
  obtain ⟨hone, rfl, rfl, he, hu, hzero⟩ := hb.of_exclusive (by omega)
  refine ⟨hcount, ?_, Nat.le_refl 1, fun h => (by cases h), fun _ => Nat.one_pos⟩
  show x + k = 0
  omega

theorem downgradeToShared (hb : Balanced d s u (x + 1) k) :
    Balanced ⟨d.sharedCount + 1, false, d.upgrade, false⟩ (s + 1) u x k := by
  have hcount := hb.lockOne
  obtain ⟨hone, rfl, rfl, he, hu, hzero⟩ := hb.of_exclusive (by omega)
  refine ⟨hcount, ?_, hb.upgraded, fun h => (by cases h), fun _ => Nat.one_pos⟩
  show x + k = 0
  omega

theorem upgradeToShared (hb : Balanced d s (u + 1) x k) :
    Balanced { d with upgrade := false, exclusiveWaitingBlocked := false } (s + 1) u x k := by
  have hle := hb.le_one
  have he := hb.not_exclusive (by omega)
  obtain rfl : u = 0 := by omega
  refine ⟨?_, hb.owned, Nat.le_refl 0, fun h => ?_, fun h => by cases h⟩
  · have hcount := hb.counted
    show d.sharedCount.toNat = s + 1 + 0
    omega
  · cases he.symm.trans h

theorem sharedToUpgrade (hb : Balanced d (s + 1) u x k) (hu : d.upgrade = false) :
    Balanced { d with upgrade := true } s (u + 1) x k := by
  have hle := hb.upgraded
  rw [hu, Bool.toNat_false] at hle
  obtain rfl : u = 0 := by omega
  have he := hb.not_exclusive (by omega)
  refine ⟨?_, hb.owned, Nat.le_refl 1, fun h => ?_, fun _ => by omega⟩
  · have hcount := hb.counted
    show d.sharedCount.toNat = s + (0 + 1)
    omega
  · cases he.symm.trans h

end Balanced

end

/-! ### What a section does -/

/-- The condition variable that the operation waits on. -/
def Op.cond : Op → Option Cond
  | .lockShared | .tryLockSharedUntil | .lockUpgrade | .tryLockUpgradeUntil
  | .tryUnlockUpgradeAndLockUntil
  | .tryUnlockSharedAndLockUntil => some .shared
  | .lock | .tryLockUntil | .tryUnlockSharedAndLockUpgradeUntil => some .exclusive
  | .unlockUpgradeAndLock => some .upgrade
  | _ => none

def Op.timed : Op → Bool
  | .tryLockSharedUntil | .tryLockUntil | .tryLockUpgradeUntil | .tryUnlockUpgradeAndLockUntil
  | .tryUnlockSharedAndLockUntil | .tryUnlockSharedAndLockUpgradeUntil => true
  | _ => false

/-- The exclusive locks on their way to a woken thread. -/
def Op.grants : Op → Nat
  | .unlockUpgradeAndLock => 1
  | _ => 0

/-- The locks of a thread in the section: those it had, less what the operation gives up when it
begins. -/
def Op.locks (op : Op) (r : Option CvStatus) (h : Holds) : Holds :=
  match r with
  | none => op.enter h
  | some _ => h

/-- The locks of a thread after the section. -/
def Leaves.holds (l : Leaves) (op : Op) (h : Holds) : Holds :=
  match l.next with
  | .ret b => op.exit b h
  | .wait _ _ => h

/-- The state before a section of a thread that holds `h`, while the others hold `s`, `u` and `x`
locks and `k` are granted to them. -/
structure Before (op : Op) (r : Option CvStatus) (d : StateData) (h : Holds)
    (s u x k : Nat) : Prop where
  balanced : Balanced d (s + h.shared) (u + h.upgrade) (x + h.exclusive)
    (k + if r = none then 0 else op.grants)
  source : r = none ∨ op.tries = true → ∀ m, op.source = some m → 0 < h.count m
  waited : r ≠ none → op.cond ≠ none
  room : op.counts = true → s + h.shared + (u + h.upgrade) + 1 < UInt32.size

/-- What a section of the thread leaves. -/
structure Keeps (op : Op) (r : Option CvStatus) (d : StateData) (h : Holds) (s u x k : Nat)
    (l : Leaves) : Prop where
  balanced : Balanced l.state (s + (l.holds op (op.locks r h)).shared)
    (u + (l.holds op (op.locks r h)).upgrade)
    (x + (l.holds op (op.locks r h)).exclusive) (k + l.after.count (.one .upgrade))
  notify : ∀ n ∈ l.notify, n.cond ≠ .upgrade
  after : ∀ n ∈ l.after, n = .one .upgrade ∨ n.cond ≠ .upgrade
  wait : ∀ c timed, l.next = .wait c timed →
    op.cond = some c ∧ op.timed = timed ∧ l.notify = [] ∧ l.after = []
  /-- the lock is granted only to an upgrader that waits -/
  granting : .one .upgrade ∈ l.after → d.upgrade = true ∧ u + h.upgrade = 0
  upgrading : l.state.upgrade = true → 0 < u + (l.holds op (op.locks r h)).upgrade ∨
    op.cond = some .upgrade ∧
    l.next = .wait .upgrade false ∨ d.upgrade = true ∧ u + h.upgrade = 0

section

variable {op : Op} {r : Option CvStatus} {d : StateData} {h : Holds} {s u x k : Nat}

theorem Keeps.returned {d' : StateData} {b : Bool} {ns : List Notify}
    (hbal : Balanced d' (s + (op.exit b (op.locks r h)).shared)
      (u + (op.exit b (op.locks r h)).upgrade)
      (x + (op.exit b (op.locks r h)).exclusive) k)
    (hnotify : ∀ n ∈ ns, n.cond ≠ .upgrade)
    (hup : d'.upgrade = true → 0 < u + (op.exit b (op.locks r h)).upgrade ∨
      d.upgrade = true ∧ u + h.upgrade = 0) :
    Keeps op r d h s u x k ⟨d', .ret b, ns, []⟩ where
  balanced := hbal
  notify := hnotify
  after := List.forall_mem_nil _
  wait := fun _ _ h => (by cases h)
  granting := fun h => (by cases h)
  upgrading := fun h => (hup h).imp id .inr

theorem ready_or (hu : 0 < u + h.upgrade ∨ u + h.upgrade = 0) (hflag : d.upgrade = true) :
    0 < u + h.upgrade ∨ d.upgrade = true ∧ u + h.upgrade = 0 :=
  hu.imp id fun h => ⟨hflag, h⟩

theorem Keeps.stays {next : Next} {ns : List Notify} {d' : StateData} (hb : Before op r d h s u x k)
    (hgrants : r = none ∨ op.grants = 0) (hlocks : op.locks r h = h)
    (hd : ∃ b, d' = { d with exclusiveWaitingBlocked := b }) (hnotify : ∀ n ∈ ns, n.cond ≠ .upgrade)
    (hnext : next = .ret false ∨ ∃ c timed, next = .wait c timed ∧ op.cond = some c ∧
      op.timed = timed ∧ ns = []) :
    Keeps op r d h s u x k ⟨d', next, ns, []⟩ := by
  obtain ⟨b, rfl⟩ := hd
  have hbal := hb.balanced
  have hzero : (if r = none then 0 else op.grants) = 0 := by
    rcases hgrants with hr | hg
    · rw [if_pos hr]
    · rw [hg, ite_self]
  rw [hzero] at hbal
  have hpos := Nat.eq_zero_or_pos (u + h.upgrade)
  rcases hnext with rfl | ⟨c, timed, rfl, hcond, htimed, rfl⟩
  · have hexit : op.exit false (op.locks r h) = h := hlocks
    apply Keeps.returned
    · rw [hexit]
      exact hbal.block b
    · exact hnotify
    · rw [hexit]
      exact ready_or hpos.symm
  · refine ⟨?_, hnotify, List.forall_mem_nil _, ?_, fun h => (by cases h), fun hflag => ?_⟩
    · simp only [Leaves.holds, hlocks]
      exact hbal.block b
    · rintro _ _ ⟨⟩
      exact ⟨hcond, htimed, rfl, rfl⟩
    · simp only [Leaves.holds, hlocks]
      exact (ready_or hpos.symm hflag).imp id .inr

/-- The section passes its checks and keeps the balance. -/
def Kept (op : Op) (r : Option CvStatus) (d : StateData) (h : Holds) (s u x k : Nat) : Prop :=
  ∃ l, op.run r d = some l ∧ Keeps op r d h s u x k l

theorem Before.plain (hb : Before op r d h s u x k) (hgrants : op.grants = 0) :
    Balanced d (s + h.shared) (u + h.upgrade) (x + h.exclusive) k := by
  have hbal := hb.balanced
  rwa [hgrants, ite_self, Nat.add_zero] at hbal

theorem Before.first (hb : Before op r d h s u x k) (hcond : op.cond = none) : r = none := by
  by_contra hr
  exact hb.waited hr hcond

theorem Keeps.same {next : Next} (hb : Before op r d h s u x k) (hgrants : op.grants = 0)
    (hlocks : op.locks r h = h)
    (hnext : next = .ret false ∨ ∃ c timed, next = .wait c timed ∧ op.cond = some c ∧
      op.timed = timed) :
    Keeps op r d h s u x k ⟨d, next, [], []⟩ := by
  apply Keeps.stays hb (.inr hgrants) hlocks ⟨d.exclusiveWaitingBlocked, rfl⟩
    (List.forall_mem_nil _)
  rcases hnext with rfl | ⟨c, timed, rfl, hcond, htimed⟩
  · exact .inl rfl
  · exact .inr ⟨c, timed, rfl, hcond, htimed, rfl⟩

theorem Op.locks_of_source (hsource : op.source = none) : op.locks r h = h := by
  cases r with
  | none => rw [Op.locks, Op.enter, hsource]
  | some _ => rfl

theorem Op.locks_of_tries (htries : op.tries = true) : op.locks r h = h := by
  cases r with
  | none =>
    rw [Op.locks, Op.enter]
    split
    · rw [if_pos htries]
    · rfl
  | some _ => rfl

theorem Op.exit_of_source (hsource : op.source = none) {m : Mode} (htarget : op.target = some m) :
    op.exit true h = h.add m := by
  rw [Op.exit, htarget]
  cases htries : op.tries with
  | false => rfl
  | true =>
    rw [hsource]
    rfl

theorem Keeps.takesShared (hb : Before op r d h s u x k) (hop : op.target = some .shared)
    (hsource : op.source = none)
    (hcounts : op.counts = true) (hgrants : op.grants = 0) (hcan : d.canLockShared) :
    Keeps op r d h s u x k ⟨d.lockShared, .ret true, [], []⟩ := by
  apply Keeps.returned
  · rw [Op.locks_of_source hsource, Op.exit_of_source hsource hop]
    exact (hb.plain hgrants).lockShared hcan.1 (hb.room hcounts)
  · exact List.forall_mem_nil _
  · rw [Op.locks_of_source hsource, Op.exit_of_source hsource hop]
    exact ready_or (Nat.eq_zero_or_pos _).symm

theorem Keeps.takesUpgrade (hb : Before op r d h s u x k) (hop : op.target = some .upgrade)
    (hsource : op.source = none)
    (hcounts : op.counts = true) (hgrants : op.grants = 0) (hcan : d.canLockUpgrade) :
    Keeps op r d h s u x k ⟨{ d.lockShared with upgrade := true }, .ret true, [], []⟩ := by
  apply Keeps.returned
  · rw [Op.locks_of_source hsource, Op.exit_of_source hsource hop]
    exact (hb.plain hgrants).lockUpgrade hcan.1 hcan.2.2 (hb.room hcounts)
  · exact List.forall_mem_nil _
  · rw [Op.locks_of_source hsource, Op.exit_of_source hsource hop]
    exact fun _ => .inl (Nat.succ_pos _)

theorem Keeps.takesExclusive (hb : Before op r d h s u x k) (hop : op.target = some .exclusive)
    (hsource : op.source = none) (hgrants : op.grants = 0) (hcan : d.canLock) :
    Keeps op r d h s u x k ⟨{ d with exclusive := true }, .ret true, [], []⟩ := by
  apply Keeps.returned
  · rw [Op.locks_of_source hsource, Op.exit_of_source hsource hop]
    exact (hb.plain hgrants).lock hcan
  · exact List.forall_mem_nil _
  · rw [Op.locks_of_source hsource, Op.exit_of_source hsource hop]
    exact ready_or (Nat.eq_zero_or_pos _).symm

theorem releaseWaiters_cond : ∀ n ∈ releaseWaiters, n.cond ≠ .upgrade := by
  decide

theorem grant_cond : ∀ n ∈ .one .upgrade :: releaseWaiters, n = .one .upgrade ∨
    n.cond ≠ .upgrade := by
  decide

theorem lockShared_kept (hb : Before .lockShared r d h s u x k) :
    Kept .lockShared r d h s u x k := by
  by_cases hcan : d.canLockShared
  · exact ⟨_, if_pos hcan, .takesShared hb rfl rfl rfl rfl hcan⟩
  · exact ⟨_, if_neg hcan, .same hb rfl (Op.locks_of_source rfl) (.inr ⟨_, _, rfl, rfl, rfl⟩)⟩

theorem tryLockShared_kept (hb : Before .tryLockShared r d h s u x k) :
    Kept .tryLockShared r d h s u x k := by
  by_cases hcan : d.canLockShared
  · exact ⟨_, if_pos hcan, .takesShared hb rfl rfl rfl rfl hcan⟩
  · exact ⟨_, if_neg hcan, .same hb rfl (Op.locks_of_source rfl) (.inl rfl)⟩

theorem tryLockSharedUntil_kept (hb : Before .tryLockSharedUntil r d h s u x k) :
    Kept .tryLockSharedUntil r d h s u x k := by
  by_cases hr : r = some .timeout
  · exact ⟨_, if_pos hr, .same hb rfl (Op.locks_of_source rfl) (.inl rfl)⟩
  · by_cases hcan : d.canLockShared
    · exact ⟨_, (if_neg hr).trans (if_pos hcan), .takesShared hb rfl rfl rfl rfl hcan⟩
    · exact ⟨_, (if_neg hr).trans (if_neg hcan),
        .same hb rfl (Op.locks_of_source rfl) (.inr ⟨_, _, rfl, rfl, rfl⟩)⟩

theorem lock_kept (hb : Before .lock r d h s u x k) : Kept .lock r d h s u x k := by
  by_cases hcan : d.canLock
  · exact ⟨_, if_pos hcan, .takesExclusive hb rfl rfl rfl hcan⟩
  · exact ⟨_, if_neg hcan, .stays hb (.inr rfl) (Op.locks_of_source rfl) ⟨true, rfl⟩
      (List.forall_mem_nil _)
      (.inr ⟨_, _, rfl, rfl, rfl, rfl⟩)⟩

theorem tryLock_kept (hb : Before .tryLock r d h s u x k) : Kept .tryLock r d h s u x k := by
  by_cases hcan : d.canLock
  · exact ⟨_, if_pos hcan, .takesExclusive hb rfl rfl rfl hcan⟩
  · exact ⟨_, if_neg hcan, .same hb rfl (Op.locks_of_source rfl) (.inl rfl)⟩

theorem tryLockUntil_kept (hb : Before .tryLockUntil r d h s u x k) :
    Kept .tryLockUntil r d h s u x k := by
  by_cases hcan : d.canLock
  · exact ⟨_, if_pos hcan, .takesExclusive hb rfl rfl rfl hcan⟩
  · by_cases hr : r = some .timeout
    · exact ⟨_, (if_neg hcan).trans (if_pos hr),
        .stays hb (.inr rfl) (Op.locks_of_source rfl) ⟨false, rfl⟩
        releaseWaiters_cond (.inl rfl)⟩
    · exact ⟨_, (if_neg hcan).trans (if_neg hr),
        .stays hb (.inr rfl) (Op.locks_of_source rfl) ⟨true, rfl⟩
        (List.forall_mem_nil _) (.inr ⟨_, _, rfl, rfl, rfl, rfl⟩)⟩

theorem lockUpgrade_kept (hb : Before .lockUpgrade r d h s u x k) :
    Kept .lockUpgrade r d h s u x k := by
  by_cases hcan : d.canLockUpgrade
  · exact ⟨_, if_pos hcan, .takesUpgrade hb rfl rfl rfl rfl hcan⟩
  · exact ⟨_, if_neg hcan, .same hb rfl (Op.locks_of_source rfl) (.inr ⟨_, _, rfl, rfl, rfl⟩)⟩

theorem tryLockUpgradeUntil_kept (hb : Before .tryLockUpgradeUntil r d h s u x k) :
    Kept .tryLockUpgradeUntil r d h s u x k := by
  by_cases hcan : d.canLockUpgrade
  · exact ⟨_, if_pos hcan, .takesUpgrade hb rfl rfl rfl rfl hcan⟩
  · by_cases hr : r = some .timeout
    · exact ⟨_, (if_neg hcan).trans (if_pos hr), .same hb rfl (Op.locks_of_source rfl) (.inl rfl)⟩
    · exact ⟨_, (if_neg hcan).trans (if_neg hr), .same hb rfl (Op.locks_of_source rfl)
        (.inr ⟨_, _, rfl, rfl, rfl⟩)⟩

theorem tryLockUpgrade_kept (hb : Before .tryLockUpgrade r d h s u x k) :
    Kept .tryLockUpgrade r d h s u x k := by
  by_cases hcan : d.canLockUpgrade
  · have hkeeps := Keeps.takesUpgrade hb rfl rfl rfl rfl hcan
    have hassert : StateData.assertLockUpgraded { d.lockShared with upgrade := true } =
      some () := by
      refine if_pos ⟨hcan.1, rfl, ?_⟩
      rw [pos_iff, hkeeps.balanced.counted]
      exact hkeeps.balanced.used rfl
    refine ⟨_, ?_, hkeeps⟩
    show tryLockUpgrade d = _
    rw [tryLockUpgrade, if_pos hcan]
    simp only [hassert]
    rfl
  · exact ⟨_, if_neg hcan, .same hb rfl (Op.locks_of_source rfl) (.inl rfl)⟩

/-! The operations that give a lock up begin with a holder of it. -/

theorem Before.hasShared (hb : Before op r d h s u x k) (hsource : op.source = some .shared)
    (hfirst : r = none ∨ op.tries = true) : ∃ n g e, h = ⟨n + 1, g, e⟩ := by
  obtain ⟨n, g, e⟩ := h
  have hpos : 0 < n := hb.source hfirst _ hsource
  obtain ⟨n, rfl⟩ := Nat.exists_eq_add_one_of_ne_zero (Nat.ne_of_gt hpos)
  exact ⟨n, g, e, rfl⟩

theorem Before.hasUpgrade (hb : Before op r d h s u x k) (hsource : op.source = some .upgrade)
    (hfirst : r = none ∨ op.tries = true) : ∃ n g e, h = ⟨n, g + 1, e⟩ := by
  obtain ⟨n, g, e⟩ := h
  have hpos : 0 < g := hb.source hfirst _ hsource
  obtain ⟨g, rfl⟩ := Nat.exists_eq_add_one_of_ne_zero (Nat.ne_of_gt hpos)
  exact ⟨n, g, e, rfl⟩

theorem Before.hasExclusive (hb : Before op r d h s u x k) (hsource : op.source = some .exclusive)
    (hfirst : r = none ∨ op.tries = true) : ∃ n g e, h = ⟨n, g, e + 1⟩ := by
  obtain ⟨n, g, e⟩ := h
  have hpos : 0 < e := hb.source hfirst _ hsource
  obtain ⟨e, rfl⟩ := Nat.exists_eq_add_one_of_ne_zero (Nat.ne_of_gt hpos)
  exact ⟨n, g, e, rfl⟩

theorem Balanced.assertLockShared (hb : Balanced d s u x k) (hpos : 0 < s + u) :
    d.assertLockShared = some () := by
  refine if_pos ⟨hb.not_exclusive hpos, ?_⟩
  rw [pos_iff, hb.counted]
  exact hpos

theorem Balanced.assertLockUpgraded (hb : Balanced d s u x k) (hpos : 0 < u) :
    d.assertLockUpgraded = some () := by
  refine if_pos ⟨hb.not_exclusive (by omega), hb.upgrade_true hpos, ?_⟩
  rw [pos_iff, hb.counted]
  omega

theorem Balanced.assertLocked (hb : Balanced d s u x k) (hpos : 0 < x) :
    d.assertLocked = some () := by
  obtain ⟨-, -, -, he, hu, hcount⟩ := hb.of_exclusive (by omega)
  exact if_pos ⟨he, hcount, hu⟩

theorem Balanced.moreShared_iff (hb : Balanced d s u x k) : d.moreShared ↔ 0 < s + u := by
  rw [StateData.moreShared, pos_iff, hb.counted]

theorem unlockShared_moreShared (hb : Balanced d (s + 1) u x k) :
    d.unlockShared.moreShared ↔ 0 < s + u := by
  have hcount := hb.toNat_unlock (by omega)
  rw [StateData.moreShared, pos_iff]
  show 0 < (d.sharedCount - 1).toNat ↔ 0 < s + u
  omega

theorem unlockShared_kept (hb : Before .unlockShared r d h s u x k) :
    Kept .unlockShared r d h s u x k := by
  obtain rfl := hb.first rfl
  obtain ⟨n, g, e, rfl⟩ := hb.hasShared rfl (.inl rfl)
  have hbal : Balanced d (s + n + 1) (u + g) (x + e) k := hb.balanced
  have hassert := hbal.assertLockShared (by omega)
  have hmore := unlockShared_moreShared hbal
  by_cases hlast : 0 < s + n + (u + g)
  · refine ⟨_, ?_, .returned (b := true) (hbal.unlockShared hlast) (List.forall_mem_nil _)
      (ready_or (h := ⟨n, g, e⟩) (Nat.eq_zero_or_pos _).symm)⟩
    show SharedMutex.unlockShared d = _
    simp only [SharedMutex.unlockShared, hassert]
    exact if_pos (hmore.mpr hlast)
  · have hzero : s + n + (u + g) = 0 := by omega
    have hnot : ¬ d.unlockShared.moreShared := fun h => hlast (hmore.mp h)
    cases hflag : d.upgrade with
    | true =>
      have hrun : Op.run .unlockShared none d =
        some ⟨{ d.unlockShared with upgrade := false, exclusive := true },
          .ret true, [], .one .upgrade :: releaseWaiters⟩ := by
        show SharedMutex.unlockShared d = _
        simp only [SharedMutex.unlockShared, hassert]
        exact (if_neg hnot).trans (if_pos hflag)
      refine ⟨_, hrun, hbal.grant hzero, List.forall_mem_nil _, grant_cond,
        fun _ _ h => (by cases h), fun _ => ⟨hflag, ?_⟩,
        fun h => (by cases h)⟩
      show u + g = 0
      omega
    | false =>
      have hrun : Op.run .unlockShared none d =
        some ⟨{ d.unlockShared with exclusiveWaitingBlocked := false },
          .ret true, [], releaseWaiters⟩ := by
        show SharedMutex.unlockShared d = _
        simp only [SharedMutex.unlockShared, hassert]
        exact (if_neg hnot).trans (if_neg (Bool.not_eq_true _ ▸ hflag))
      refine ⟨_, hrun, (hbal.unlockLast hzero hflag).block false, List.forall_mem_nil _,
        fun n hn => .inr (releaseWaiters_cond n hn), fun _ _ h => (by cases h), fun h =>
          absurd (show .one .upgrade ∈ releaseWaiters from h) (by decide), fun h => ?_⟩
      cases hflag.symm.trans h

theorem unlock_kept (hb : Before .unlock r d h s u x k) : Kept .unlock r d h s u x k := by
  obtain rfl := hb.first rfl
  obtain ⟨n, g, e, rfl⟩ := hb.hasExclusive rfl (.inl rfl)
  have hbal : Balanced d (s + n) (u + g) (x + e + 1) k := hb.balanced
  have hassert := hbal.assertLocked (by omega)
  obtain ⟨-, -, hzero, -, hu, hcount⟩ := hbal.of_exclusive (by omega)
  have hfree : StateData.assertFree { d with
    exclusive := false, exclusiveWaitingBlocked := false } = some () :=
    if_pos ⟨rfl, hu, hcount⟩
  refine ⟨_, ?_, .returned (b := true) hbal.unlock releaseWaiters_cond fun hflag => ?_⟩
  · show SharedMutex.unlock d = _
    simp only [SharedMutex.unlock, hassert, hfree]
    rfl
  · cases hu.symm.trans hflag

theorem unlockUpgrade_kept (hb : Before .unlockUpgrade r d h s u x k) :
    Kept .unlockUpgrade r d h s u x k := by
  obtain rfl := hb.first rfl
  obtain ⟨n, g, e, rfl⟩ := hb.hasUpgrade rfl (.inl rfl)
  have hbal : Balanced d (s + n) (u + g + 1) (x + e) k := hb.balanced
  by_cases hmore : d.unlockUpgrade.moreShared
  · refine ⟨_, if_pos hmore, .returned (b := true) hbal.unlockUpgrade (by decide) fun hflag => ?_⟩
    cases hflag
  · refine ⟨_, if_neg hmore, .returned (b := true)
      (hbal.unlockUpgrade.block false) releaseWaiters_cond
      fun hflag => ?_⟩
    cases hflag

theorem unlockAndLockUpgrade_kept (hb : Before .unlockAndLockUpgrade r d h s u x k) :
    Kept .unlockAndLockUpgrade r d h s u x k := by
  obtain rfl := hb.first rfl
  obtain ⟨n, g, e, rfl⟩ := hb.hasExclusive rfl (.inl rfl)
  have hbal : Balanced d (s + n) (u + g) (x + e + 1) k := hb.balanced
  have hassert := hbal.assertLocked (by omega)
  have hnew := hbal.downgradeToUpgrade
  have hupgraded := hnew.assertLockUpgraded (Nat.succ_pos _)
  refine ⟨_, ?_, .returned (b := true) hnew releaseWaiters_cond fun _ => .inl (Nat.succ_pos _)⟩
  show SharedMutex.unlockAndLockUpgrade d = _
  simp only [SharedMutex.unlockAndLockUpgrade, hassert, hupgraded]
  rfl

theorem unlockAndLockShared_kept (hb : Before .unlockAndLockShared r d h s u x k) :
    Kept .unlockAndLockShared r d h s u x k := by
  obtain rfl := hb.first rfl
  obtain ⟨n, g, e, rfl⟩ := hb.hasExclusive rfl (.inl rfl)
  have hbal : Balanced d (s + n) (u + g) (x + e + 1) k := hb.balanced
  have hassert := hbal.assertLocked (by omega)
  obtain ⟨-, -, -, -, hu, -⟩ := hbal.of_exclusive (by omega)
  refine ⟨_, ?_, .returned (b := true) hbal.downgradeToShared releaseWaiters_cond fun hflag => ?_⟩
  · show SharedMutex.unlockAndLockShared d = _
    simp only [SharedMutex.unlockAndLockShared, hassert]
    rfl
  · cases hu.symm.trans hflag

theorem unlockUpgradeAndLockShared_kept (hb : Before .unlockUpgradeAndLockShared r d h s u x k) :
    Kept .unlockUpgradeAndLockShared r d h s u x k := by
  obtain rfl := hb.first rfl
  obtain ⟨n, g, e, rfl⟩ := hb.hasUpgrade rfl (.inl rfl)
  have hbal : Balanced d (s + n) (u + g + 1) (x + e) k := hb.balanced
  have hassert := hbal.assertLockUpgraded (by omega)
  refine ⟨_, ?_, .returned (b := true) hbal.upgradeToShared releaseWaiters_cond fun hflag => ?_⟩
  · show SharedMutex.unlockUpgradeAndLockShared d = _
    simp only [SharedMutex.unlockUpgradeAndLockShared, hassert]
    rfl
  · cases hflag

/-- The upgrader gives its lock up, and takes the mutex when nobody else holds it; a woken one finds
the lock granted. -/
theorem unlockUpgradeAndLock_kept (hb : Before .unlockUpgradeAndLock r d h s u x k) :
    Kept .unlockUpgradeAndLock r d h s u x k := by
  cases r with
  | none =>
    obtain ⟨n, g, e, rfl⟩ := hb.hasUpgrade rfl (.inl rfl)
    have hbal : Balanced d (s + n) (u + g + 1) (x + e) k := hb.balanced
    have hassert := hbal.assertLockUpgraded (by omega)
    have hcount : d.unlockShared.sharedCount.toNat = s + n + (u + g) := by
      have h := hbal.toNat_unlock (by omega)
      have hsame : d.unlockShared.sharedCount = d.sharedCount - 1 := rfl
      rw [hsame]
      omega
    have hmore : d.unlockShared.moreShared ↔ 0 < s + n + (u + g) := by
      rw [StateData.moreShared, pos_iff, hcount]
    by_cases hlast : 0 < s + n + (u + g)
    · have hrun : Op.run .unlockUpgradeAndLock none d =
        some ⟨d.unlockShared, .wait .upgrade false, [], []⟩ := by
        show SharedMutex.unlockUpgradeAndLock none d = _
        simp only [SharedMutex.unlockUpgradeAndLock, hassert]
        exact if_pos (hmore.mpr hlast)
      refine ⟨_, hrun, hbal.giveUp hlast, List.forall_mem_nil _, List.forall_mem_nil _, ?_,
        fun h => (by cases h), fun _ => .inr (.inl ⟨rfl, rfl⟩)⟩
      rintro _ _ ⟨⟩
      exact ⟨rfl, rfl, rfl, rfl⟩
    · have hone : s + n + (u + g + 1) = 1 := by omega
      have hzero : d.unlockShared.sharedCount = 0 := by
        rw [eq_zero_iff, hcount]
        omega
      have hnew : Balanced { d.unlockShared with upgrade := false, exclusive := true } (s + n)
        (u + g) (x + e + 1) k := by
        have hconv := hbal.convert (s := s + n) (u := u + g) hone
          (by omega) d.exclusiveWaitingBlocked
        rwa [← hzero] at hconv
      refine ⟨_, ?_, .returned (b := true) hnew (List.forall_mem_nil _) fun hflag =>
        (by cases hflag)⟩
      show SharedMutex.unlockUpgradeAndLock none d = _
      simp only [SharedMutex.unlockUpgradeAndLock, hassert]
      refine (if_neg fun h => hlast (hmore.mp h)).trans ?_
      rw [hnew.assertLocked (Nat.succ_pos _)]
      rfl
  | some status =>
    have hbal : Balanced d (s + h.shared) (u + h.upgrade) (x + h.exclusive) (k + 1) := hb.balanced
    obtain ⟨-, hzero, hzero', -, -, -⟩ := hbal.of_exclusive (by omega)
    have hnew := hbal.take
    refine ⟨_, ?_, .returned (b := true) hnew (List.forall_mem_nil _) fun hflag => (by cases hflag)⟩
    show SharedMutex.unlockUpgradeAndLock (some status) d = _
    have hnot : ¬ d.moreShared := by
      rw [hbal.moreShared_iff]
      omega
    simp only [SharedMutex.unlockUpgradeAndLock, reduceCtorEq, if_false]
    refine (if_neg hnot).trans ?_
    rw [hnew.assertLocked (Nat.succ_pos _)]
    rfl

theorem Keeps.toExclusive {d' : StateData} (htries : op.tries = true) (hu : d'.upgrade = false)
    (hnew : Balanced d' (s + (op.exit true h).shared) (u + (op.exit true h).upgrade)
      (x + (op.exit true h).exclusive) k) :
    Keeps op r d h s u x k ⟨d', .ret true, [], []⟩ := by
  refine .returned ?_ (List.forall_mem_nil _) fun hflag => ?_
  · rw [Op.locks_of_tries htries]
    exact hnew
  · cases hu.symm.trans hflag

theorem tryUnlockUpgradeAndLock_kept (hb : Before .tryUnlockUpgradeAndLock r d h s u x k) :
    Kept .tryUnlockUpgradeAndLock r d h s u x k := by
  obtain ⟨n, g, e, rfl⟩ := hb.hasUpgrade rfl (.inr rfl)
  have hbal : Balanced d (s + n) (u + (g + 1)) (x + e) k := hb.plain rfl
  have hassert := hbal.assertLockUpgraded (by omega)
  by_cases hcan : d.exclusive = false ∧ d.exclusiveWaitingBlocked = false ∧ d.upgrade = true ∧
    d.sharedCount = 1
  · have hone := hbal.counted
    rw [hcan.2.2.2, UInt32.toNat_one] at hone
    have hnew := hbal.convert (s := s + n) (u := u + g) (by omega)
      (by omega) d.exclusiveWaitingBlocked
    refine ⟨_, ?_, .toExclusive rfl rfl hnew⟩
    show SharedMutex.tryUnlockUpgradeAndLock d = _
    simp only [SharedMutex.tryUnlockUpgradeAndLock, hassert]
    refine (if_pos hcan).trans ?_
    rw [hnew.assertLocked (Nat.succ_pos _)]
    rfl
  · refine ⟨_, ?_, .same hb rfl (Op.locks_of_tries rfl) (.inl rfl)⟩
    show SharedMutex.tryUnlockUpgradeAndLock d = _
    simp only [SharedMutex.tryUnlockUpgradeAndLock, hassert]
    exact if_neg hcan

theorem tryUnlockSharedAndLock_kept (hb : Before .tryUnlockSharedAndLock r d h s u x k) :
    Kept .tryUnlockSharedAndLock r d h s u x k := by
  obtain ⟨n, g, e, rfl⟩ := hb.hasShared rfl (.inr rfl)
  have hbal : Balanced d (s + (n + 1)) (u + g) (x + e) k := hb.plain rfl
  have hassert := hbal.assertLockShared (by omega)
  by_cases hcan : d.exclusive = false ∧ d.exclusiveWaitingBlocked = false ∧ d.upgrade = false ∧
    d.sharedCount = 1
  · have hone := hbal.counted
    rw [hcan.2.2.2, UInt32.toNat_one] at hone
    have hnew : Balanced ⟨0, true, d.upgrade, d.exclusiveWaitingBlocked⟩ (s + n) (u + g)
      (x + e + 1) k := by
      rw [hcan.2.2.1]
      exact hbal.convert (by omega) (by omega) d.exclusiveWaitingBlocked
    refine ⟨⟨⟨0, true, d.upgrade, d.exclusiveWaitingBlocked⟩, .ret true, [], []⟩, ?_,
      .toExclusive rfl hcan.2.2.1 hnew⟩
    show SharedMutex.tryUnlockSharedAndLock d = _
    simp only [SharedMutex.tryUnlockSharedAndLock, hassert]
    exact if_pos hcan
  · refine ⟨_, ?_, .same hb rfl (Op.locks_of_tries rfl) (.inl rfl)⟩
    show SharedMutex.tryUnlockSharedAndLock d = _
    simp only [SharedMutex.tryUnlockSharedAndLock, hassert]
    exact if_neg hcan

theorem untilOneLeft_keeps (hb : Before op r d h s u x k) (hgrants : op.grants = 0)
    (htries : op.tries = true) (hcond : op.cond = some .shared) (htimed : op.timed = true)
    (hnew : s + h.shared + (u + h.upgrade) = 1 →
      Balanced ⟨0, true, false, false⟩ (s + (op.exit true h).shared)
      (u + (op.exit true h).upgrade) (x + (op.exit true h).exclusive) k) :
    ∃ l, untilOneLeft r d = some l ∧ Keeps op r d h s u x k l := by
  have hlocks : op.locks r h = h := Op.locks_of_tries htries
  by_cases hcan : d.sharedCount = 1
  · have hone := (hb.plain hgrants).counted
    rw [hcan, UInt32.toNat_one] at hone
    exact ⟨_, if_pos hcan, .toExclusive htries rfl (hnew hone.symm)⟩
  · by_cases hr : r = some .timeout
    · exact ⟨_, (if_neg hcan).trans (if_pos hr), .same hb hgrants hlocks (.inl rfl)⟩
    · exact ⟨_, (if_neg hcan).trans (if_neg hr),
        .same hb hgrants hlocks (.inr ⟨_, _, rfl, hcond, htimed⟩)⟩

theorem tryUnlockUpgradeAndLockUntil_kept
    (hb : Before .tryUnlockUpgradeAndLockUntil r d h s u x k) :
    Kept .tryUnlockUpgradeAndLockUntil r d h s u x k := by
  obtain ⟨n, g, e, rfl⟩ := hb.hasUpgrade rfl (.inr rfl)
  have hbal : Balanced d (s + n) (u + (g + 1)) (x + e) k := hb.plain rfl
  have hassert := hbal.assertLockUpgraded (by omega)
  obtain ⟨l, hrun, hkeeps⟩ := untilOneLeft_keeps hb rfl rfl rfl rfl fun hone =>
    hbal.convert (s := s + n) (u := u + g) hone (by simp only at hone; omega) false
  refine ⟨l, ?_, hkeeps⟩
  show SharedMutex.tryUnlockUpgradeAndLockUntil r d = _
  cases r with
  | none =>
    simp only [SharedMutex.tryUnlockUpgradeAndLockUntil, hassert]
    exact hrun
  | some status => exact hrun

theorem tryUnlockSharedAndLockUntil_kept (hb : Before .tryUnlockSharedAndLockUntil r d h s u x k) :
    Kept .tryUnlockSharedAndLockUntil r d h s u x k := by
  obtain ⟨n, g, e, rfl⟩ := hb.hasShared rfl (.inr rfl)
  have hbal : Balanced d (s + (n + 1)) (u + g) (x + e) k := hb.plain rfl
  have hassert := hbal.assertLockShared (by omega)
  obtain ⟨l, hrun, hkeeps⟩ := untilOneLeft_keeps hb rfl rfl rfl rfl fun hone =>
    hbal.convert (s := s + n) (u := u + g) hone (by simp only at hone; omega) false
  refine ⟨l, ?_, hkeeps⟩
  show SharedMutex.tryUnlockSharedAndLockUntil r d = _
  cases r with
  | none =>
    simp only [SharedMutex.tryUnlockSharedAndLockUntil, hassert]
    exact hrun
  | some status => exact hrun

theorem Keeps.sharedToUpgrade {n g e : Nat} (hb : Before op r d ⟨n + 1, g, e⟩ s u x k)
    (hgrants : op.grants = 0) (hlocks : op.locks r ⟨n + 1, g, e⟩ = ⟨n + 1, g, e⟩)
    (hexit : op.exit true ⟨n + 1, g, e⟩ = ⟨n, g + 1, e⟩) (hcan : d.canLockUpgrade) :
    Keeps op r d ⟨n + 1, g, e⟩ s u x k ⟨{ d with upgrade := true }, .ret true, [], []⟩ := by
  have hbal : Balanced d (s + n + 1) (u + g) (x + e) k := hb.plain hgrants
  apply Keeps.returned
  · rw [hlocks, hexit]
    exact hbal.sharedToUpgrade hcan.2.2
  · exact List.forall_mem_nil _
  · rw [hlocks, hexit]
    exact fun _ => .inl (Nat.succ_pos _)

theorem tryUnlockSharedAndLockUpgrade_kept
    (hb : Before .tryUnlockSharedAndLockUpgrade r d h s u x k) :
    Kept .tryUnlockSharedAndLockUpgrade r d h s u x k := by
  obtain ⟨n, g, e, rfl⟩ := hb.hasShared rfl (.inr rfl)
  have hlocks : Op.locks .tryUnlockSharedAndLockUpgrade r ⟨n + 1, g, e⟩ = ⟨n + 1, g, e⟩ :=
    Op.locks_of_tries rfl
  have hassert := (hb.plain rfl).assertLockShared (by simp only; omega)
  by_cases hcan : d.canLockUpgrade
  · refine ⟨_, ?_, .sharedToUpgrade hb rfl hlocks rfl hcan⟩
    show SharedMutex.tryUnlockSharedAndLockUpgrade d = _
    simp only [SharedMutex.tryUnlockSharedAndLockUpgrade, hassert]
    exact if_pos hcan
  · refine ⟨_, ?_, .same hb rfl hlocks (.inl rfl)⟩
    show SharedMutex.tryUnlockSharedAndLockUpgrade d = _
    simp only [SharedMutex.tryUnlockSharedAndLockUpgrade, hassert]
    exact if_neg hcan

theorem tryUnlockSharedAndLockUpgradeUntil_kept
    (hb : Before .tryUnlockSharedAndLockUpgradeUntil r d h s u x k) :
    Kept .tryUnlockSharedAndLockUpgradeUntil r d h s u x k := by
  obtain ⟨n, g, e, rfl⟩ := hb.hasShared rfl (.inr rfl)
  have hlocks : Op.locks .tryUnlockSharedAndLockUpgradeUntil r ⟨n + 1, g, e⟩ = ⟨n + 1, g, e⟩ :=
    Op.locks_of_tries rfl
  have hassert := (hb.plain rfl).assertLockShared (by simp only; omega)
  have hrun : Op.run .tryUnlockSharedAndLockUpgradeUntil r d = if d.canLockUpgrade
    then returns { d with upgrade := true } true
      else if r = some .timeout then returns d false else waits d .exclusive true := by
    show SharedMutex.tryUnlockSharedAndLockUpgradeUntil r d = _
    cases r with
    | none =>
      simp only [SharedMutex.tryUnlockSharedAndLockUpgradeUntil, hassert]
      rfl
    | some status => rfl
  by_cases hcan : d.canLockUpgrade
  · exact ⟨_, hrun.trans (if_pos hcan), .sharedToUpgrade hb rfl hlocks rfl hcan⟩
  · by_cases hr : r = some .timeout
    · exact ⟨_, hrun.trans ((if_neg hcan).trans (if_pos hr)), .same hb rfl hlocks (.inl rfl)⟩
    · exact ⟨_, hrun.trans ((if_neg hcan).trans (if_neg hr)),
        .same hb rfl hlocks (.inr ⟨_, _, rfl, rfl, rfl⟩)⟩

theorem Before.kept (hb : Before op r d h s u x k) : Kept op r d h s u x k := by
  cases op with
  | lockShared => exact lockShared_kept hb
  | tryLockShared => exact tryLockShared_kept hb
  | tryLockSharedUntil => exact tryLockSharedUntil_kept hb
  | unlockShared => exact unlockShared_kept hb
  | lock => exact lock_kept hb
  | tryLock => exact tryLock_kept hb
  | tryLockUntil => exact tryLockUntil_kept hb
  | unlock => exact unlock_kept hb
  | lockUpgrade => exact lockUpgrade_kept hb
  | tryLockUpgradeUntil => exact tryLockUpgradeUntil_kept hb
  | tryLockUpgrade => exact tryLockUpgrade_kept hb
  | unlockUpgrade => exact unlockUpgrade_kept hb
  | unlockUpgradeAndLock => exact unlockUpgradeAndLock_kept hb
  | unlockAndLockUpgrade => exact unlockAndLockUpgrade_kept hb
  | tryUnlockUpgradeAndLock => exact tryUnlockUpgradeAndLock_kept hb
  | tryUnlockUpgradeAndLockUntil => exact tryUnlockUpgradeAndLockUntil_kept hb
  | unlockAndLockShared => exact unlockAndLockShared_kept hb
  | tryUnlockSharedAndLock => exact tryUnlockSharedAndLock_kept hb
  | tryUnlockSharedAndLockUntil => exact tryUnlockSharedAndLockUntil_kept hb
  | unlockUpgradeAndLockShared => exact unlockUpgradeAndLockShared_kept hb
  | tryUnlockSharedAndLockUpgrade => exact tryUnlockSharedAndLockUpgrade_kept hb
  | tryUnlockSharedAndLockUpgradeUntil => exact tryUnlockSharedAndLockUpgradeUntil_kept hb

end

end SharedMutex

end GreenThread
