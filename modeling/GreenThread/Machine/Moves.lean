import GreenThread.Machine.Invariant

/-!
# What one step can do

The steps from a state that satisfies the invariant, one constructor for each branch that can be
taken, with the state it leads to. The branches the invariant excludes are gone: the `m.unlock()`
and the `m.lock()` inside a wait do not throw. Everything about a client's runs is derived from this
list.
-/

namespace GreenThread

namespace Machine

variable {τ μ κ α σ ω : Type} [DecidableEq τ] [DecidableEq μ] [DecidableEq κ]

/-- What a native thread gets from a call of a mutex operation. -/
inductive NativeRet : Call μ κ → Ret → Prop
  | lock (m : μ) : NativeRet (.lock m) .done
  | tryLock (m : μ) : NativeRet (.tryLock m) (.bool false)
  | unlock (m : μ) : NativeRet (.unlock m) .done

/-- The call that queues its thread on a condition variable. -/
def WaitCall.call (w : WaitCall μ κ) : Call μ κ := if w.timed then .waitRel w.cond w.mtx
    else .wait w.cond w.mtx

/-- The state after the first section of a wait. -/
def State.startWait (s : State τ μ κ α σ) (t : τ) (a : α) (w : WaitCall μ κ) : State τ μ κ α σ :=
  let queued := s.setCond w.cond (s.cond w.cond ++ [⟨t, w.timed⟩])
  let started := if w.timed then (queued.setTimer t (.armed w.cond)).setStatus t .noTimeout
    else queued
  started.setPc t (.unlocking w a)

inductive Move (C : Client τ μ κ α σ ω) (green : τ → Bool) (s : State τ μ κ α σ) :
    Label τ ω → State τ μ κ α σ → Prop
  | act {t a b o x} : s.pc t = .user a → C.act t a s.shared o = some (b, x) →
      Move C green s (.act t o) { s.setPc t (.user b) with shared := x }
  | native {t a call r switch} : s.pc t = .user a → C.call a = some call → green t = false →
      NativeRet call r → Move C green s (.call t switch) (s.setPc t (.user (C.ret a r)))
  | lockThrew {t a m switch} : s.pc t = .user a → C.call a = some (.lock m) → green t = true →
      (s.mutex m).owner = some t →
      Move C green s (.call t switch)
      (s.setPc t (.user (C.ret a (.threw .resourceDeadlockWouldOccur))))
  | lockFree {t a m switch} : s.pc t = .user a → C.call a = some (.lock m) → green t = true →
      (s.mutex m).owner = none →
      Move C green s (.call t switch)
        ((s.setMutex m { s.mutex m with owner := some t }).setPc t (.user (C.ret a .done)))
  | lockQueued {t a m u switch} : s.pc t = .user a → C.call a = some (.lock m) → green t = true →
      (s.mutex m).owner = some u → u ≠ t →
      Move C green s (.call t switch)
        ((s.setMutex m { s.mutex m with suspended := (s.mutex m).suspended ++ [t] }).setPc t
          (.locking m a))
  | tryOwned {t a m switch} : s.pc t = .user a → C.call a = some (.tryLock m) → green t = true →
      (s.mutex m).owner = some t →
      Move C green s (.call t switch) (s.setPc t (.user (C.ret a (.bool true))))
  | tryFree {t a m switch} : s.pc t = .user a → C.call a = some (.tryLock m) → green t = true →
      (s.mutex m).owner = none →
      Move C green s (.call t switch)
        ((s.setMutex m { s.mutex m with owner := some t }).setPc t (.user (C.ret a (.bool true))))
  | tryBusy {t a m u switch} : s.pc t = .user a → C.call a = some (.tryLock m) → green t = true →
      (s.mutex m).owner = some u → u ≠ t →
      Move C green s (.call t switch) (s.setPc t (.user (C.ret a (.bool false))))
  | unlockThrew {t a m switch} : s.pc t = .user a → C.call a = some (.unlock m) → green t = true →
      (s.mutex m).owner ≠ some t →
      Move C green s (.call t switch) (s.setPc t (.user (C.ret a (.threw .operationNotPermitted))))
  | unlockFree {t a m switch} : s.pc t = .user a → C.call a = some (.unlock m) → green t = true →
      (s.mutex m).owner = some t → (s.mutex m).suspended = [] →
      Move C green s (.call t switch) ((s.setMutex m ⟨none, []⟩).setPc t (.user (C.ret a .done)))
  | unlockHanded {t a m next rest} : s.pc t = .user a → C.call a = some (.unlock m) →
      green t = true →
      (s.mutex m).owner = some t → (s.mutex m).suspended = next :: rest →
      Move C green s (.call t false)
        (((s.setMutex m ⟨some next, rest⟩).resume next).setPc t (.user (C.ret a .done)))
  | unlockYield {t a m next rest} : s.pc t = .user a → C.call a = some (.unlock m) →
      green t = true →
      (s.mutex m).owner = some t → (s.mutex m).suspended = next :: rest →
      Move C green s (.call t true)
        (((s.setMutex m ⟨some next, rest⟩).resume next).yieldTo t (.yielding a))
  | waitThrew {t a w switch} : s.pc t = .user a → C.call a = some (WaitCall.call w) →
      green t = true →
      (s.mutex w.mtx).owner ≠ some t →
      Move C green s (.call t switch) (s.setPc t (.user (C.ret a (.threw .operationNotPermitted))))
  | waitQueued {t a w switch} : s.pc t = .user a → C.call a = some (WaitCall.call w) →
      green t = true →
      (s.mutex w.mtx).owner = some t → Move C green s (.call t switch) (s.startWait t a w)
  | notifyNobody {t a c switch} : s.pc t = .user a → C.call a = some (.notifyOne c) →
      s.cond c = [] →
      Move C green s (.call t switch) (s.setPc t (.user (C.ret a .done)))
  | notifyOne {t a c i rest switch} : s.pc t = .user a → C.call a = some (.notifyOne c) →
      s.cond c = i :: rest →
      Move C green s (.call t switch) (notifyEnd C green ((s.setCond c rest).wakeItem i) t a)
  | notifyAll {t a c switch} : s.pc t = .user a → C.call a = some (.notifyAll c) →
      Move C green s (.call t switch) (notifyEnd C green (notifyLoop c (s.cond c) s) t a)
  | releaseFree {t a w switch} : s.pc t = .unlocking w a → (s.mutex w.mtx).owner = some t →
      (s.mutex w.mtx).suspended = [] →
      Move C green s (.proceed t switch) ((s.setMutex w.mtx ⟨none, []⟩).setPc t (.pausing w a))
  | releaseHanded {t a w next rest} : s.pc t = .unlocking w a → (s.mutex w.mtx).owner = some t →
      (s.mutex w.mtx).suspended = next :: rest →
      Move C green s (.proceed t false)
        (((s.setMutex w.mtx ⟨some next, rest⟩).resume next).setPc t (.pausing w a))
  | releaseYield {t a w next rest} : s.pc t = .unlocking w a → (s.mutex w.mtx).owner = some t →
      (s.mutex w.mtx).suspended = next :: rest →
      Move C green s (.proceed t true)
        (((s.setMutex w.mtx ⟨some next, rest⟩).resume next).yieldTo t (.unlockYield w a))
  | relockFree {t a w switch} : s.pc t = .relocking w a → (s.mutex w.mtx).owner = none →
      Move C green s (.proceed t switch)
        ((s.setMutex w.mtx { s.mutex w.mtx with owner := some t }).setPc t
          (.user (C.ret a (s.waitRet t w))))
  | relockQueued {t a w u switch} : s.pc t = .relocking w a →
      (s.mutex w.mtx).owner = some u → u ≠ t →
      Move C green s (.proceed t switch)
        ((s.setMutex w.mtx { s.mutex w.mtx with
          suspended := (s.mutex w.mtx).suspended ++ [t] }).setPc t
          (.relockPause w a))
  | deliver {t} : s.posted t ≠ 0 → Move C green s (.deliver t) (s.deliver t)
  | wake {t p} : s.delivered t ≠ 0 → switchReturn C s t = some p →
      Move C green s (.wake t) ((s.consume t).setPc t p)
  | expire {t c} : s.timer t = .armed c →
      Move C green s (.expire t) (s.setTimer t (.queued c false))
  | aborted {t c} : s.timer t = .queued c true →
      Move C green s (.handler t) ((s.setTimer t .idle).resume t)
  | timeout {t c} : s.timer t = .queued c false →
      Move C green s (.handler t)
        ((((s.setTimer t .idle).setStatus t .timeout).setCond c
          ((s.cond c).eraseP fun i => i.f = t)).resume t)

variable {C : Client τ μ κ α σ ω} {green : τ → Bool} {s s' : State τ μ κ α σ}

private theorem lock_move {t : τ} {a : α} {m : μ} {switch : Bool} (hpc : s.pc t = .user a)
    (hcall : C.call a = some (.lock m)) :
    Move C green s (.call t switch) (lockStep C green s t a m) := by
  cases hg : green t with
  | false =>
    have heq : lockStep C green s t a m = s.setPc t (.user (C.ret a .done)) := by
      simp [lockStep, curThread, hg, Mutex.lock, setMutex_eq]
    rw [heq]
    exact .native hpc hcall hg (.lock m)
  | true =>
    simp only [lockStep, curThread, hg, if_true]
    rcases (s.mutex m).lock_cases t with ⟨hown, heq⟩ | ⟨hfree, heq⟩ | ⟨u, hown, hne, heq⟩ <;>
      simp only [heq]
    · rw [setMutex_eq]
      exact .lockThrew hpc hcall hg hown
    · exact .lockFree hpc hcall hg hfree
    · exact .lockQueued hpc hcall hg hown hne

private theorem tryLock_move {t : τ} {a : α} {m : μ} {switch : Bool} (hpc : s.pc t = .user a)
    (hcall : C.call a = some (.tryLock m)) :
    Move C green s (.call t switch) (tryLockStep C green s t a m) := by
  cases hg : green t with
  | false =>
    have heq : tryLockStep C green s t a m = s.setPc t (.user (C.ret a (.bool false))) := by
      simp [tryLockStep, curThread, hg, Mutex.tryLock, setMutex_eq]
    rw [heq]
    exact .native hpc hcall hg (.tryLock m)
  | true =>
    simp only [tryLockStep, curThread, hg, if_true]
    rcases (s.mutex m).tryLock_cases t with ⟨hown, heq⟩ | ⟨hfree, heq⟩ | ⟨u, hown, hne, heq⟩ <;>
      simp only [heq]
    · rw [setMutex_eq]
      exact .tryOwned hpc hcall hg hown
    · exact .tryFree hpc hcall hg hfree
    · rw [setMutex_eq]
      exact .tryBusy hpc hcall hg hown hne

private theorem unlock_move {t : τ} {a : α} {m : μ} {switch : Bool} (hpc : s.pc t = .user a)
    (hcall : C.call a = some (.unlock m)) :
    Move C green s (.call t switch) (unlockStep C green s t a m switch) := by
  cases hg : green t with
  | false =>
    have heq : unlockStep C green s t a m switch = s.setPc t (.user (C.ret a .done)) := by
      simp [unlockStep, curThread, hg, Mutex.unlock, setMutex_eq]
    rw [heq]
    exact .native hpc hcall hg (.unlock m)
  | true =>
    simp only [unlockStep, curThread, hg, if_true]
    rcases (s.mutex m).unlock_cases t with ⟨hown, heq⟩ | ⟨hown, hqueue, heq⟩ |
        ⟨hown, next, rest, hqueue, heq⟩ <;> simp only [heq]
    · rw [setMutex_eq]
      exact .unlockThrew hpc hcall hg hown
    · exact .unlockFree hpc hcall hg hown hqueue
    · cases switch with
      | false => exact .unlockHanded hpc hcall hg hown hqueue
      | true => exact .unlockYield hpc hcall hg hown hqueue

private theorem wait_move {t : τ} {a : α} {w : WaitCall μ κ} {switch : Bool}
    (hpc : s.pc t = .user a) (hcall : C.call a = some (WaitCall.call w)) (hg : green t = true) :
    Move C green s (.call t switch) (waitStep C s t a w) := by
  unfold waitStep
  split
  case isTrue hown => exact .waitThrew hpc hcall hg hown
  case isFalse hown => exact .waitQueued hpc hcall hg (not_not.mp hown)

private theorem call_move {t : τ} {a : α} {switch : Bool} {call : Call μ κ} (hpc : s.pc t = .user a)
    (hcall : C.call a = some call) (hstep : callStep C green s t a switch call = some s') :
    Move C green s (.call t switch) s' := by
  cases call with
  | lock m =>
    cases hstep
    exact lock_move hpc hcall
  | tryLock m =>
    cases hstep
    exact tryLock_move hpc hcall
  | unlock m =>
    cases hstep
    exact unlock_move hpc hcall
  | wait c m =>
    simp only [callStep, Option.ite_none_right_eq_some, Option.some.injEq] at hstep
    obtain ⟨hg, rfl⟩ := hstep
    exact wait_move (w := ⟨c, m, false⟩) hpc hcall hg
  | waitRel c m =>
    simp only [callStep, Option.ite_none_right_eq_some, Option.some.injEq] at hstep
    obtain ⟨hg, rfl⟩ := hstep
    exact wait_move (w := ⟨c, m, true⟩) hpc hcall hg
  | notifyOne c =>
    cases hstep
    unfold notifyOneStep
    split
    case h_1 hqueue => exact .notifyNobody hpc hcall hqueue
    case h_2 i rest hqueue => exact .notifyOne hpc hcall hqueue
  | notifyAll c =>
    cases hstep
    exact .notifyAll hpc hcall

private theorem proceed_move (h : Inv green s) {t : τ} {switch : Bool}
    (hstep : proceedStep C s t switch = some s') : Move C green s (.proceed t switch) s' := by
  have hthread := h.thread t
  unfold proceedStep at hstep
  split at hstep
  · rename_i w a hpc
    simp only [View.Ok, State.view, hpc] at hthread
    rcases (s.mutex w.mtx).unlock_cases t with ⟨hnot, -⟩ | ⟨hown, hqueue, heq⟩ |
        ⟨hown, next, rest, hqueue, heq⟩
    · exact absurd hthread.2.1 hnot
    · rw [heq] at hstep
      cases hstep
      exact .releaseFree hpc hown hqueue
    · rw [heq] at hstep
      cases switch with
      | false =>
        cases hstep
        exact .releaseHanded hpc hown hqueue
      | true =>
        cases hstep
        exact .releaseYield hpc hown hqueue
  · rename_i w a hpc
    simp only [View.Ok, State.view, hpc] at hthread
    rcases (s.mutex w.mtx).lock_cases t with ⟨hown, -⟩ | ⟨hfree, heq⟩ | ⟨u, hown, hne, heq⟩
    · exact absurd hown hthread.2.1
    · rw [heq] at hstep
      cases hstep
      exact .relockFree hpc hfree
    · rw [heq] at hstep
      cases hstep
      exact .relockQueued hpc hown hne
  · cases hstep

theorem step_move (h : Inv green s) {l : Label τ ω} (hstep : step C green s l = some s') :
    Move C green s l s' := by
  cases l with
  | act t o =>
    simp only [step] at hstep
    split at hstep
    case h_1 a hpc =>
      obtain ⟨⟨b, x⟩, hact, rfl⟩ := Option.map_eq_some_iff.mp hstep
      exact .act hpc hact
    case h_2 => cases hstep
  | call t switch =>
    simp only [step] at hstep
    split at hstep
    case h_1 a hpc =>
      obtain ⟨call, hcall, hstep⟩ := Option.bind_eq_some_iff.mp hstep
      exact call_move hpc hcall hstep
    case h_2 => cases hstep
  | proceed t switch => exact proceed_move h hstep
  | deliver t =>
    simp only [step, Option.ite_none_left_eq_some, Option.some.injEq] at hstep
    obtain ⟨hposted, rfl⟩ := hstep
    exact .deliver hposted
  | wake t =>
    simp only [step, wakeStep, Option.ite_none_left_eq_some] at hstep
    obtain ⟨hdelivered, hstep⟩ := hstep
    obtain ⟨p, hp, rfl⟩ := Option.map_eq_some_iff.mp hstep
    exact .wake hdelivered hp
  | expire t =>
    simp only [step] at hstep
    split at hstep
    case h_1 c htimer =>
      cases hstep
      exact .expire htimer
    case h_2 => cases hstep
  | handler t =>
    simp only [step] at hstep
    split at hstep
    case h_1 c aborted htimer =>
      cases hstep
      cases aborted with
      | true => exact .aborted htimer
      | false => exact .timeout htimer
    case h_2 => cases hstep

end Machine

end GreenThread
