import GreenThread.Mutex.Ledger
import Mathlib.Algebra.Group.Nat.Defs

/-!
# The width of `level_`

`level_` is a `size_t`, which counts the locks of the owner modulo a power of two. While no owner
has more acquisitions to undo than its largest number, the sections do with a level of `w` bits what
they do with a natural number, so the runs are those of the natural number. A `size_t` of 32 bits is
at zero again after `2 ^ 32` locks of one owner.
-/

namespace GreenThread

variable {τ : Type} {w : Nat}

/-- The mutex with a level of `w` bits. -/
def LockState.truncate (w : Nat) (m : LockState τ) : LockState τ (BitVec w) :=
  ⟨m.owner, BitVec.ofNat w m.level, m.suspended⟩

/-! ### The sections -/

theorem ofNat_pred {n : Nat} (hn : 1 ≤ n) : BitVec.ofNat w (n - 1) = BitVec.ofNat w n - 1#w := by
  obtain ⟨m, rfl⟩ := Nat.exists_eq_add_of_le' hn
  rw [Nat.add_sub_cancel, BitVec.ofNat_add, BitVec.add_sub_cancel]

theorem pos_pred {n : Nat} (hn : 1 ≤ n) (hfits : n < 2 ^ w) :
    0#w < BitVec.ofNat w n - 1#w ↔ 0 < n - 1 := by
  rw [← ofNat_pred hn, BitVec.lt_def, BitVec.toNat_ofNat, BitVec.toNat_ofNat, Nat.zero_mod,
    Nat.mod_eq_of_lt (Nat.lt_of_le_of_lt (Nat.sub_le ..) hfits)]

namespace MutexClass

variable [DecidableEq τ] (c : MutexClass) (m : LockState τ)

theorem lock_truncate (caller : Option τ) :
    c.lock (m.truncate w) caller = Prod.map id (LockState.truncate w) (c.lock m caller) := by
  cases caller with
  | none => rfl
  | some tf =>
    by_cases hown : m.owner = some tf
    · cases hclass : c.recursive
        <;> simp [lock, LockState.truncate, nextLevel, hown, hclass, BitVec.ofNat_add]
    · by_cases hfree : m.owner = none
      · cases hclass : c.recursive <;> simp [lock, LockState.truncate, firstLevel, hfree, hclass]
      · simp [lock, LockState.truncate, hown, hfree]

theorem tryLock_truncate (caller : Option τ) :
    c.tryLock (m.truncate w) caller = Prod.map id (LockState.truncate w) (c.tryLock m caller) := by
  cases caller with
  | none => rfl
  | some tf =>
    by_cases hown : m.owner = some tf
    · cases hclass : c.recursive
        <;> simp [tryLock, LockState.truncate, nextLevel, hown, hclass, BitVec.ofNat_add]
    · by_cases hfree : m.owner = none
      · cases hclass : c.recursive <;> simp [tryLock, LockState.truncate, firstLevel, hfree, hclass]
      · simp [tryLock, LockState.truncate, hown, hfree]

theorem tryLockRel_truncate (caller : Option τ) :
    c.tryLockRel (m.truncate w) caller = Prod.map id (LockState.truncate w)
    (c.tryLockRel m caller) := by
  cases caller with
  | none => rfl
  | some tf =>
    by_cases hown : m.owner = some tf
    · cases hclass : c.recursive
        <;> simp [tryLockRel, LockState.truncate, nextLevel, hown, hclass, BitVec.ofNat_add]
    · by_cases hfree : m.owner = none
      · cases hclass : c.recursive
          <;> simp [tryLockRel, LockState.truncate, firstLevel, hfree, hclass]
      · simp [tryLockRel, LockState.truncate, hown, hfree]

/-- The level of an owned mutex counts something, and has `w` bits. -/
def Fits (w : Nat) (c : MutexClass) (m : LockState τ) : Prop :=
  c.recursive = true → m.owner ≠ none → 1 ≤ m.level ∧ m.level < 2 ^ w

theorem unlock_truncate {c : MutexClass} {m : LockState τ} (hfits : Fits w c m)
    (caller : Option τ) :
    c.unlock (m.truncate w) caller = Prod.map id (LockState.truncate w) (c.unlock m caller) := by
  cases caller with
  | none => rfl
  | some tf =>
    by_cases hown : m.owner = some tf
    · cases hclass : c.recursive with
      | false =>
        cases hqueue : m.suspended
          <;> simp [unlock, LockState.truncate, firstLevel, hown, hclass, hqueue]
      | true =>
        obtain ⟨hpos, hlt⟩ := hfits hclass (by rw [hown]; exact Option.some_ne_none tf)
        have hmore := pos_pred hpos hlt
        by_cases hone : 0 < m.level - 1
        · simp [unlock, LockState.truncate, hown, hclass, hmore, hone, ofNat_pred hpos]
        · cases hqueue : m.suspended <;>
            simp [unlock, LockState.truncate, firstLevel, hown, hclass, hmore, hone, hqueue]
    · simp [unlock, LockState.truncate, hown]

theorem timeoutHandler_truncate (t : τ) :
    timeoutHandler (m.truncate w) t = (timeoutHandler m t).truncate w := by
  by_cases hown : m.owner = some t <;> simp [timeoutHandler, LockState.truncate, hown]

end MutexClass

namespace MutexThreads

/-! ### The threads -/

def State.truncate (w : Nat) (s : State τ) : State τ (BitVec w) where
  mutex := s.mutex.truncate w
  pos := s.pos
  posted := s.posted
  delivered := s.delivered
  timer := s.timer
  requested := s.requested
  disabled := s.disabled

@[simp]
theorem truncate_mutex (s : State τ) : (s.truncate w).mutex = s.mutex.truncate w := rfl

@[simp]
theorem truncate_pos (s : State τ) : (s.truncate w).pos = s.pos := rfl

@[simp]
theorem truncate_posted (s : State τ) : (s.truncate w).posted = s.posted := rfl

@[simp]
theorem truncate_delivered (s : State τ) : (s.truncate w).delivered = s.delivered := rfl

@[simp]
theorem truncate_timer (s : State τ) : (s.truncate w).timer = s.timer := rfl

variable [DecidableEq τ] {c : MutexClass} {green : τ → Bool} {s s' : State τ}
    {h : Ledger τ} {l : Label τ}

theorem wakeItem_truncate (s : State τ) (i : SuspendedItem τ) :
    (s.truncate w).wakeItem i = (s.wakeItem i).truncate w := by
  unfold State.wakeItem
  split <;> rfl

theorem unlockEnds_truncate (s : State τ) (t : τ) (switch : Bool) :
    (s.truncate w).unlockEnds t switch = (s.unlockEnds t switch).truncate w := by
  cases switch <;> rfl

theorem lockStep_truncate (s : State τ) (t : τ) :
    lockStep c green (s.truncate w) t = (lockStep c green s t).truncate w := by
  simp only [lockStep, State.truncate, MutexClass.lock_truncate]
  generalize c.lock s.mutex _ = r
  obtain ⟨e, m⟩ := r
  cases e <;> rfl

theorem tryLockStep_truncate (s : State τ) (t : τ) :
    tryLockStep c green (s.truncate w) t = (tryLockStep c green s t).truncate w := by
  simp only [tryLockStep, State.truncate, MutexClass.tryLock_truncate]
  rfl

theorem tryLockRelStep_truncate (s : State τ) (t : τ) :
    tryLockRelStep c green (s.truncate w) t = (tryLockRelStep c green s t).truncate w := by
  simp only [tryLockRelStep, State.truncate, MutexClass.tryLockRel_truncate]
  generalize c.tryLockRel s.mutex _ = r
  obtain ⟨e, m⟩ := r
  cases e <;> rfl

theorem unlockStep_truncate (hfits : c.Fits w s.mutex) (t : τ) (switch : Bool) :
    unlockStep c green (s.truncate w) t switch = (unlockStep c green s t switch).truncate w := by
  simp only [unlockStep, State.truncate, MutexClass.unlock_truncate hfits]
  generalize c.unlock s.mutex _ = r
  obtain ⟨e, m⟩ := r
  cases e with
  | handedOver next =>
    change (((s.setMutex m).truncate w).wakeItem next).unlockEnds t switch =
      (((s.setMutex m).wakeItem next).unlockEnds t switch).truncate w
    rw [wakeItem_truncate, unlockEnds_truncate]
  | _ => rfl

/-- A step with a level of `w` bits is the step with the number. -/
theorem step_truncate (hfits : c.Fits w s.mutex) (l : Label τ) :
    step c green (s.truncate w) l = (step c green s l).map (State.truncate w) := by
  cases l with
  | call t op switch =>
    rw [step, step, truncate_pos]
    cases s.pos t with
    | idle last =>
      cases op with
      | lock => exact congrArg some (lockStep_truncate s t)
      | tryLock => exact congrArg some (tryLockStep_truncate s t)
      | tryLockRel =>
        simp only [callStep, tryLockRelStep_truncate]
        split <;> rfl
      | unlock => exact congrArg some (unlockStep_truncate hfits t switch)
    | _ => rfl
  | deliver t =>
    rw [step, step, truncate_posted]
    split <;> rfl
  | wake t =>
    rw [step, step, wakeStep, wakeStep, truncate_delivered, truncate_pos]
    split
    · rfl
    · cases s.pos t <;> rfl
  | expire t =>
    rw [step, step, truncate_timer]
    cases s.timer t <;> rfl
  | handler t =>
    rw [step, step, truncate_timer, truncate_mutex, MutexClass.timeoutHandler_truncate]
    cases s.timer t <;> rfl
  | interrupt t => rfl
  | disable t level =>
    rw [step, step, truncate_pos]
    cases s.pos t <;> rfl

/-! ### The runs -/

/-- The owner does not acquire the mutex once more when `level_` is the largest number of `w`
bits. -/
def room (s : State τ (BitVec w)) : Label τ → Bool
  | .call t op _ => op = .unlock ∨ s.mutex.owner ≠ some t ∨ s.mutex.level.toNat + 1 < 2 ^ w
  | _ => true

theorem room_call {b : State τ (BitVec w)} {op : Op} (hl : ∃ switch, l = .call l.thread op switch)
    (hop : op ≠ .unlock) (hown : b.mutex.owner = some l.thread) (hroom : room b l = true) :
    b.mutex.level.toNat + 1 < 2 ^ w := by
  obtain ⟨switch, hl⟩ := hl
  rw [hl] at hroom
  rcases of_decide_eq_true hroom with heq | hnot | hlt
  · exact absurd heq hop
  · exact absurd hown hnot
  · exact hlt

theorem Change.fits (hchange : Change c s l s') (hclass : c.recursive = true) (hw : 0 < w)
    (hfits : s.mutex.owner ≠ none → s.mutex.level < 2 ^ w) (hroom : room (s.truncate w) l = true)
    (hown : s'.mutex.owner ≠ none) :
    s'.mutex.level < 2 ^ w := by
  have hone : 1 < 2 ^ w := Nat.one_lt_two_pow (Nat.ne_of_gt hw)
  have howned : ∀ {t}, s.mutex.owner = some t → s.mutex.level < 2 ^ w :=
    fun h => hfits (by rw [h]; exact Option.some_ne_none _)
  cases hchange with
  | same howner hlevel =>
    rw [hlevel]
    exact hfits (howner ▸ hown)
  | takes _ _ _ _ _ hlevel | hands _ _ _ _ _ hlevel =>
    rwa [hlevel, MutexClass.firstLevel, if_pos hclass]
  | again hl hop _ hself _ hlevel =>
    have hmore := room_call ⟨_, hl⟩ hop hself hroom
    rw [hlevel, MutexClass.nextLevel, if_pos hclass]
    simpa [State.truncate, LockState.truncate, Nat.mod_eq_of_lt (howned hself)] using hmore
  | undoes _ hself _ _ hlevel =>
    rw [hlevel]
    exact Nat.lt_of_le_of_lt (Nat.sub_le ..) (howned hself)
  | frees _ _ _ howner => exact absurd howner hown

/-- A run in which there is room for every lock is a run with a natural number for the level. -/
theorem reach_truncate (hclass : c.recursive = true) (hw : 0 < w)
    {sh : State τ (BitVec w) × Ledger τ} (hr : (audited true c green).Reach
      (fun sh l => notInterrupt l = true ∧ room sh.1 l = true) sh) :
    ∃ s : State τ, sh.1 = s.truncate w ∧
    (audited true c green).Reach (fun _ l => notInterrupt l = true) (s, sh.2) ∧
      (s.mutex.owner ≠ none → s.mutex.level < 2 ^ w) := by
  induction hr with
  | @init sh hs =>
    obtain ⟨⟨level, hs, hlevel⟩, hh⟩ := hs
    refine ⟨initial level.toNat, ?_, .init ⟨⟨level.toNat, rfl, fun hc => ?_⟩, hh⟩,
      fun hown => absurd rfl hown⟩
    · rw [hs, State.truncate, initial, initial, LockState.truncate, BitVec.ofNat_toNat,
        BitVec.setWidth_eq]
    · rw [hlevel hc]
      rfl
  | @step sh sh' l _ hok hstep ih =>
    obtain ⟨s, hs, hr, hfits⟩ := ih
    obtain ⟨hinv, -, hsettled⟩ := reach_settled hclass.symm hr
    obtain ⟨b, h⟩ := sh
    obtain rfl : b = s.truncate w := hs
    have hrange : c.Fits w s.mutex := fun _ hown => by
      obtain ⟨t, ht⟩ := Option.ne_none_iff_exists'.mp hown
      exact ⟨hsettled.owned t ht hclass, hfits hown⟩
    obtain ⟨b', hb', rfl⟩ := TransitionSystem.withHistory_step.mp hstep
    change step c green (s.truncate w) l = some b' at hb'
    rw [step_truncate hrange] at hb'
    obtain ⟨s', hs', rfl⟩ := Option.map_eq_some_iff.mp hb'
    refine ⟨s', rfl, hr.step hok.1 (TransitionSystem.withHistory_step.mpr ⟨s', hs', rfl⟩), ?_⟩
    exact (step_move hs').change.fits hclass hw hfits hok.2

theorem RecursiveBalance.truncate (hbalance : RecursiveBalance id c green s h)
    (hfits : s.mutex.owner ≠ none → s.mutex.level < 2 ^ w) :
    RecursiveBalance BitVec.toNat c green (s.truncate w) h := by
  have hlevel : ∀ t, s.mutex.owner = some t →
    (BitVec.ofNat w s.mutex.level).toNat = s.mutex.level := fun t ht => by
    rw [BitVec.toNat_ofNat, Nat.mod_eq_of_lt (hfits (by rw [ht]; exact Option.some_ne_none t))]
  have hrange : c.Fits w s.mutex := fun _ hown => by
    obtain ⟨t, ht⟩ := Option.ne_none_iff_exists'.mp hown
    exact ⟨(hbalance.level t ht).1, hfits hown⟩
  have hsteps : ∀ {l b}, step c green (s.truncate w) l = some b →
    ∃ s', step c green s l = some s' ∧ s'.truncate w = b := by
    intro l b hb
    rw [step_truncate hrange] at hb
    exact Option.map_eq_some_iff.mp hb
  refine ⟨fun t ht => ?_, fun hfree => ?_, fun l b t hb hown => ?_, fun l b t hb hnot hown => ?_,
    fun l b hb hl hsuccess => ?_⟩
  · change 1 ≤ (BitVec.ofNat w s.mutex.level).toNat ∧ _ = _ + (BitVec.ofNat w s.mutex.level).toNat
    rw [hlevel t ht]
    exact hbalance.level t ht
  · obtain ⟨hempty, hzero⟩ := hbalance.free hfree
    exact ⟨hempty, fun hc => congrArg (BitVec.ofNat w) (hzero hc)⟩
  · obtain ⟨s', hs', rfl⟩ := hsteps hb
    exact hbalance.released l s' t hs' hown
  · obtain ⟨s', hs', rfl⟩ := hsteps hb
    obtain ⟨hone, hledger⟩ := hbalance.fresh l s' t hs' hnot hown
    exact ⟨congrArg (BitVec.ofNat w) hone, hledger⟩
  · obtain ⟨s', hs', rfl⟩ := hsteps hb
    exact congrArg (BitVec.ofNat w) (hbalance.kept l s' hs' hl hsuccess)

/-- A recursive mutex is released by the `unlock` that balances the first acquisition, and not
before, while `level_` has room for the acquisitions of its owner. -/
theorem recursive_balance (hclass : c.recursive = true) (hw : 0 < w)
    {sh : State τ (BitVec w) × Ledger τ} (hr : (audited true c green).Reach
      (fun sh l => notInterrupt l = true ∧ room sh.1 l = true) sh) :
    RecursiveBalance BitVec.toNat c green sh.1 sh.2 := by
  obtain ⟨s, hs, hr, hfits⟩ := reach_truncate hclass hw hr
  rw [hs]
  exact (reach_balanced hclass hr).truncate hfits

/-- Thread 0 locks twice and unlocks once, while thread 1 waits with a timer. -/
theorem recursive_balance_twice : ∃ sh : State (Fin 2) (BitVec 32) × Ledger (Fin 2),
    RecursiveBalance BitVec.toNat .recursiveTimedMutex (fun _ => true) sh.1 sh.2 ∧
    sh.1.mutex.owner = some 0 ∧
      sh.1.mutex.level = 1 ∧ sh.2.acquired 0 = 2 ∧ sh.2.unlocked 0 = 1 := by
  let labels : List (Label (Fin 2)) :=
    [.call 0 .lock false, .call 0 .tryLock false, .call 1 .tryLockRel false, .call 0 .unlock false]
  have hreach := (audited true .recursiveTimedMutex (fun _ => true)).reach_of_run
    (fun sh l => notInterrupt l && room sh.1 l) (initial (0 : BitVec 32), ⟨fun _ => 0, fun _ => 0⟩)
      ⟨⟨0, rfl, nofun⟩, rfl⟩
    labels rfl
  exact ⟨_, recursive_balance rfl (by decide) (hreach.mono fun _ _ => Bool.and_eq_true_iff.mp), rfl,
    rfl, rfl, rfl⟩

/-- The only thread has locked a `recursive_mutex` so often. -/
def locked (w n : Nat) : State Unit (BitVec w) × Ledger Unit :=
  ({ initial (0 : BitVec w) with
    mutex := ⟨some (), BitVec.ofNat w n, []⟩, pos := fun _ => .idle (some (.lock, .done)) },
    ⟨fun _ => n, fun _ => 0⟩)

theorem locked_reach (w n : Nat) :
    (audited true .recursiveMutex (fun _ => true)).Reach (fun _ l => notInterrupt l = true)
    (locked w (n + 1)) := by
  induction n with
  | zero =>
    have hinit : (audited true .recursiveMutex (fun _ : Unit => true)).init
        (initial (0 : BitVec w), ⟨fun _ => 0, fun _ => 0⟩) :=
      ⟨⟨0, rfl, fun _ => rfl⟩, rfl⟩
    exact .step (l := .call () .lock false) (.init hinit) rfl rfl
  | succ n ih =>
    refine .step (l := .call () .lock false) ih rfl ?_
    have hlevel : BitVec.ofNat w (n + 1 + 1) = BitVec.ofNat w (n + 1) + 1 := BitVec.ofNat_add ..
    rw [locked, locked, hlevel]
    rfl

theorem unbalanced (w : Nat) : ∃ sh : State Unit (BitVec w) × Ledger Unit,
    (audited true .recursiveMutex (fun _ => true)).Reach (fun _ l => notInterrupt l = true) sh ∧
      ¬ RecursiveBalance BitVec.toNat .recursiveMutex (fun _ => true) sh.1 sh.2 := by
  have hpos : 2 ^ w - 1 + 1 = 2 ^ w := Nat.sub_add_cancel Nat.one_le_two_pow
  refine ⟨_, locked_reach w (2 ^ w - 1), fun hbalance => ?_⟩
  have hlevel : 1 ≤ (BitVec.ofNat w (2 ^ w - 1 + 1)).toNat := (hbalance.level () rfl).1
  rw [hpos, BitVec.toNat_ofNat, Nat.mod_self] at hlevel
  exact Nat.not_succ_le_zero 0 hlevel

/-- The level of a mutex that its owner has locked `2 ^ w` times is 0, for a `size_t` of 32 or of 64
bits. -/
theorem level_wraps :
    (¬ ∀ sh : State Unit (BitVec 32) × Ledger Unit,
      (audited true .recursiveMutex (fun _ => true)).Reach (fun _ l => notInterrupt l = true) sh →
        RecursiveBalance BitVec.toNat .recursiveMutex (fun _ => true) sh.1 sh.2) ∧
      ¬ ∀ sh : State Unit (BitVec 64) × Ledger Unit,
        (audited true .recursiveMutex (fun _ => true)).Reach (fun _ l => notInterrupt l = true) sh →
          RecursiveBalance BitVec.toNat .recursiveMutex (fun _ => true) sh.1 sh.2 := by
  obtain ⟨sh, hr, hnot⟩ := unbalanced 32
  obtain ⟨sh', hr', hnot'⟩ := unbalanced 64
  exact ⟨fun hall => hnot (hall sh hr), fun hall => hnot' (hall sh' hr')⟩

end MutexThreads

end GreenThread
