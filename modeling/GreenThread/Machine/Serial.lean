import GreenThread.Library.Serial
import GreenThread.Machine.Discipline

/-!
# One critical section after the other

The threads of a client with one mutex take turns with the data that the client changes only under
the mutex. A section begins where a `lock` or a wait returns and ends where the thread unlocks or
waits again; in between, the thread's steps and its notifications, which may switch to other
threads, are its sequential code.
-/

namespace GreenThread

variable {τ κ α σ ω : Type}

/-- A client with one mutex that changes its data only while it has the mutex, and never tries to
lock. -/
structure Sectioned (C : Client τ Unit κ α σ ω) (holds : α → Bool) :
    Prop extends Scoped C holds where
  outside : ∀ {t a x o b y}, C.act t a x o = some (b, y) → holds a = false → y = x
  noTry : ∀ {a}, C.call a ≠ some (.tryLock ())

/-- The position whose section the thread is in, if it is in one. -/
def PC.working (C : Client τ Unit κ α σ ω) (holds : α → Bool) : PC Unit κ α → Option α
  | .user a => if holds a then some a else none
  | .yielding a => match C.call a with
    | some (.unlock _) => none
    | _ => some a
  | _ => none

/-- A statement of the sequential code: a step of the client, or a notification. -/
inductive Client.Statement (C : Client τ Unit κ α σ ω) (t : τ) : α × σ → α × σ → Prop
  | act {a b x y o} (h : C.act t a x o = some (b, y)) : C.Statement t (a, x) (b, y)
  | notify {a x} (h : ∃ c, C.call a = some (.notifyOne c) ∨ C.call a = some (.notifyAll c)) :
      C.Statement t (a, x) (C.ret a .done, x)

/-- The call gives the mutex back to the thread when it returns. -/
def Call.Opens : Call Unit κ → Prop
  | .lock _ | .wait _ _ | .waitRel _ _ => True
  | _ => False

/-- The call gives the mutex away. -/
def Call.Closes : Call Unit κ → Prop
  | .unlock _ | .wait _ _ | .waitRel _ _ => True
  | _ => False

/-- Where a `lock` or a wait has returned. -/
def Client.Entry (C : Client τ Unit κ α σ ω) (b : α) : Prop :=
  ∃ a call r, C.call a = some call ∧ call.Opens ∧ call.Gives r ∧ (∀ e, r ≠ .threw e) ∧ b = C.ret a r

/-- Where the thread is about to unlock or to wait. -/
def Client.Exit (C : Client τ Unit κ α σ ω) (a : α) :
    Prop := ∃ call, C.call a = some call ∧ call.Closes

namespace Machine

variable {C : Client τ Unit κ α σ ω} {holds : α → Bool} {start : τ → α} {data : σ}

/-- A machine of one mutex seen through the sections of its client. -/
def sections (C : Client τ Unit κ α σ ω) (holds : α → Bool) :
    Serial.View (State τ Unit κ α σ) (Label τ ω) τ α σ where
  inside := fun s t => (s.pc t).working C holds
  data := State.shared
  thread := Label.thread
  code := C.Statement
  entry := C.Entry
  exit := C.Exit

/-! ### Where a thread is in its section -/

theorem working_user {a : α} (hholds : holds a = true) : (PC.user a).working C holds = some a :=
  if_pos hholds

theorem not_working_user {a : α} (hholds : holds a = false) : (PC.user a).working C holds = none :=
  if_neg (by rw [hholds]; exact Bool.false_ne_true)

theorem expects_of_working (hC : Sectioned C holds) {p : PC Unit κ α} {a : α} (hcalled : p.Called C)
    (hwork : p.working C holds = some a) : p.Expects C (fun a _ => holds a = true) () := by
  cases p with
  | user b => exact (Option.ite_none_right_eq_some.mp hwork).1
  | yielding b =>
    obtain ⟨call, hcall, hyields⟩ := hcalled
    refine hC.ret hcall (fun e he => by cases he) ?_
    rintro rfl
    rw [PC.working, hcall] at hwork
    cases hwork
  | _ => cases hwork

theorem at_of_working {p : PC Unit κ α} {a : α} (hwork : p.working C holds = some a) :
    p.at = some a := by
  cases p with
  | user b =>
    obtain ⟨-, hb⟩ := Option.ite_none_right_eq_some.mp hwork
    exact hb
  | yielding b =>
    rw [PC.working] at hwork
    split at hwork
    · cases hwork
    · exact hwork
  | _ => cases hwork

/-- A thread that has switched out works only in a notification. -/
theorem not_working_inside {p : PC Unit κ α} {a : α} {call : Call Unit κ} (hcalled : p.Called C)
    (hinside : p.Inside a)
    (hcall : C.call a = some call) (hnot : ∀ c, call ≠ .notifyOne c ∧ call ≠ .notifyAll c) :
    p.working C holds = none := by
  obtain ⟨hat, hne⟩ := hinside
  cases p with
  | user b =>
    obtain rfl := Option.some.inj hat
    exact absurd rfl hne
  | yielding b =>
    obtain rfl := Option.some.inj hat
    obtain ⟨call', hcall', hyields⟩ := hcalled
    obtain rfl := Option.some.inj (hcall.symm.trans hcall')
    cases call with
    | unlock m => rw [PC.working, hcall]
    | notifyOne c => exact absurd rfl (hnot c).1
    | notifyAll c => exact absurd rfl (hnot c).2
    | _ => exact hyields.elim
  | _ => rfl

theorem working_cases {p : PC Unit κ α} {a : α} (hat : p.at = some a) :
    p.working C holds = some a ∨ p.working C holds = none := by
  cases hwork : p.working C holds with
  | none => exact .inr rfl
  | some b => exact .inl ((at_of_working hwork).symm.trans hat)

/-- The thread is in its section when it calls, or in the `yield` of its call. -/
theorem working_split {p : PC Unit κ α} {a : α} (hcalled : p.Called C)
    (hwork : p.working C holds = some a) :
    (p = .user a ∧ holds a = true) ∨
    (p = .yielding a ∧ ∃ c, C.call a = some (.notifyOne c) ∨ C.call a = some (.notifyAll c)) := by
  cases p with
  | user b =>
    obtain ⟨hholds, hb⟩ := Option.ite_none_right_eq_some.mp hwork
    obtain rfl := Option.some.inj hb
    exact .inl ⟨rfl, hholds⟩
  | yielding b =>
    obtain rfl := Option.some.inj (at_of_working hwork)
    obtain ⟨call, hcall, hyields⟩ := hcalled
    cases call with
    | notifyOne c => exact .inr ⟨rfl, c, .inl hcall⟩
    | notifyAll c => exact .inr ⟨rfl, c, .inr hcall⟩
    | unlock m =>
      rw [PC.working, hcall] at hwork
      cases hwork
    | _ => exact hyields.elim
  | _ => cases hwork

theorem working_notify (hC : Sectioned C holds) {p : PC Unit κ α} {a : α} (hcalled : p.Called C)
    (hat : p.at = some a)
    (hnotify : ∃ c, C.call a = some (.notifyOne c) ∨ C.call a = some (.notifyAll c)) :
    p.working C holds = some a := by
  obtain ⟨c, hnotify⟩ := hnotify
  cases p with
  | user b =>
    obtain rfl := Option.some.inj hat
    refine working_user ?_
    rcases hnotify with hcall | hcall
    · exact hC.inside hcall fun heq => by cases heq
    · exact hC.inside hcall fun heq => by cases heq
  | yielding b =>
    obtain rfl := Option.some.inj hat
    rcases hnotify with hcall | hcall <;> rw [PC.working, hcall]
  | locking m b =>
    obtain rfl := Option.some.inj hat
    rcases hnotify with hcall | hcall <;> cases hcall.symm.trans hcalled
  | terminated => cases hat
  | unlocking w b | unlockYield w b | pausing w b | relocking w b | relockPause w b =>
    obtain rfl := Option.some.inj hat
    obtain ⟨c', m, timed⟩ := w
    rcases hnotify with hcall | hcall <;> cases timed <;> cases hcall.symm.trans hcalled

/-! ### What a step does to a section -/

variable [DecidableEq τ] [DecidableEq κ] {s s' : State τ Unit κ α σ} {l : Label τ ω}

theorem waits_inside {a : α} {w : WaitCall Unit κ} (hstep : step C (fun _ => true) s l = some s')
    (hpc : s.pc l.thread = .user a) (hcall : C.call a = some (WaitCall.call w))
    (hacts : ∀ t o, l ≠ .act t o) (howner : (s.mutex w.mtx).owner = some l.thread) :
    s'.pc l.thread = .user a ∨ (s'.pc l.thread).Inside a := by
  cases l with
  | act t o => exact absurd rfl (hacts t o)
  | call t switch =>
    have hpc : s.pc t = .user a := hpc
    have hwait : waitStep C s t a w = s' := by
      simp only [step, hpc, hcall, Option.bind_some] at hstep
      obtain ⟨c, m, timed⟩ := w
      cases timed <;> exact Option.some.inj hstep
    obtain ⟨-, -, hunlocking⟩ := startWait_effect s t a w
    have hstart : s' = s.startWait t a w := by
      rw [← hwait]
      exact if_neg (not_not.mpr howner)
    right
    rw [hstart, hunlocking]
    simp [Label.thread, PC.Inside, PC.at]
  | proceed t switch =>
    have hpc : s.pc t = .user a := hpc
    simp only [step, proceedStep, hpc] at hstep
    cases hstep
  | deliver t =>
    simp only [step, Option.ite_none_left_eq_some, Option.some.injEq] at hstep
    obtain ⟨-, rfl⟩ := hstep
    exact .inl hpc
  | wake t =>
    have hpc : s.pc t = .user a := hpc
    simp only [step, wakeStep, switchReturn, hpc, Option.map_none, ite_self] at hstep
    cases hstep
  | expire t =>
    simp only [step] at hstep
    split at hstep <;> cases hstep
    exact .inl hpc
  | handler t =>
    simp only [step] at hstep
    split at hstep <;> cases hstep
    unfold timeoutHandler
    split <;> exact .inl hpc

section Calls

variable {t : τ} {a : α} {call : Call Unit κ}

section

omit [DecidableEq τ] [DecidableEq κ]

theorem notify_turn (hC : Sectioned C holds) (hdata : s'.shared = s.shared)
    (hcalled : (s.pc t).Called C) (hcalled' : (s'.pc t).Called C) (hat : (s.pc t).at = some a)
    (hnotify : ∃ c, C.call a = some (.notifyOne c) ∨ C.call a = some (.notifyAll c))
    (hnext : (s'.pc t).Inside a ∨ s'.pc t = .user (C.ret a .done)) :
    (sections C holds).Turn t s s' := by
  have hin := working_notify hC hcalled hat hnotify
  have hsame : (sections C holds).data s' = (sections C holds).data s := hdata
  rcases hnext with ⟨hat', -⟩ | hpc'
  · refine .works hin (working_notify hC hcalled' hat' hnotify) ?_
    rw [hsame]
    exact .refl
  · have hheld : holds (C.ret a .done) = true := by
      obtain ⟨c, hcall | hcall⟩ := hnotify
      · exact hC.ret hcall (fun e he => by cases he) fun heq => by cases heq
      · exact hC.ret hcall (fun e he => by cases he) fun heq => by cases heq
    refine .works hin ((congrArg _ hpc').trans (working_user hheld)) ?_
    rw [hsame]
    exact .single (.notify hnotify)

theorem lock_turn (hC : Sectioned C holds) (hdata : s'.shared = s.shared)
    (hcalled : (s.pc t).Called C) (hcalled' : (s'.pc t).Called C) (hat : (s.pc t).at = some a)
    (hcall : C.call a = some (.lock ()))
    (hnext : (s'.pc t).Inside a ∨ s'.pc t = .user (C.ret a .done)) :
    (sections C holds).Turn t s s' := by
  have hout : (s.pc t).working C holds = none := by
    refine (working_cases hat).resolve_left fun hwork => ?_
    rcases working_split hcalled hwork with ⟨-, hholds⟩ | ⟨-, c, hcall' | hcall'⟩
    · cases (hC.lock hcall).symm.trans hholds
    · cases hcall.symm.trans hcall'
    · cases hcall.symm.trans hcall'
  rcases hnext with hinside | hpc'
  · exact .outside hout
      (not_working_inside hcalled' hinside hcall fun c =>
        ⟨fun heq => (by cases heq), fun heq => (by cases heq)⟩) hdata
  · have hheld := hC.ret hcall (r := .done) (fun e he => by cases he) fun heq => by cases heq
    exact .enters hout ((congrArg _ hpc').trans (working_user hheld))
      ⟨a, _, .done, hcall, trivial, trivial, fun e he => (by cases he), rfl⟩ hdata

theorem unlock_turn (hC : Sectioned C holds) (hdata : s'.shared = s.shared)
    (hcalled' : (s'.pc t).Called C)
    (hat : (s.pc t).at = some a) (hcall : C.call a = some (.unlock ()))
    (hnext : (s'.pc t).Inside a ∨ s'.pc t = .user (C.ret a .done)) :
    (sections C holds).Turn t s s' := by
  have hout : (s'.pc t).working C holds = none := by
    rcases hnext with hinside | hpc'
    · exact not_working_inside hcalled' hinside hcall fun c =>
        ⟨fun heq => (by cases heq), fun heq => (by cases heq)⟩
    · rw [hpc']
      exact not_working_user (hC.unlock hcall)
  rcases working_cases hat with hin | hbefore
  · exact .leaves hin hout ⟨_, hcall, trivial⟩ hdata
  · exact .outside hbefore hout hdata

theorem wait_turn (hC : Sectioned C holds) (hdata : s'.shared = s.shared)
    (hcalled : (s.pc t).Called C)
    (hcalled' : (s'.pc t).Called C) (hat : (s.pc t).at = some a) {w : WaitCall Unit κ}
    (hcall : C.call a = some (WaitCall.call w))
    (hwaits : s.pc t = .user a → s'.pc t = .user a ∨ (s'.pc t).Inside a)
    (hnext : (s'.pc t).Inside a ∨ ∃ r, (WaitCall.call w).Gives r ∧ (∀ e, r ≠ .threw e) ∧
      s'.pc t = .user (C.ret a r)) :
    (sections C holds).Turn t s s' := by
  obtain ⟨hopens, hcloses, hunlock, hquiet⟩ : (WaitCall.call w).Opens ∧ (WaitCall.call w).Closes ∧
      WaitCall.call w ≠ .unlock () ∧ ∀ c, WaitCall.call w ≠ .notifyOne c ∧
      WaitCall.call w ≠ .notifyAll c := by
    obtain ⟨c, m, timed⟩ := w
    cases timed <;> simp [WaitCall.call, Call.Opens, Call.Closes]
  rcases hnext with hinside | ⟨r, hgives, hthrew, hpc'⟩
  · have hout :=
      (not_working_inside hcalled' hinside hcall hquiet : (s'.pc t).working C holds = none)
    rcases working_cases hat with hin | hbefore
    · exact .leaves hin hout ⟨_, hcall, hcloses⟩ hdata
    · exact .outside hbefore hout hdata
  · have hafter : (s'.pc t).working C holds = some (C.ret a r) := by
      rw [hpc']
      exact working_user (hC.ret hcall hthrew hunlock)
    rcases working_cases hat with hin | hbefore
    · rcases working_split hcalled hin with ⟨hpc, -⟩ | ⟨-, c, hnotify | hnotify⟩
      · rcases hwaits hpc with hsame | hinside
        · have hdata : (sections C holds).data s' = (sections C holds).data s := hdata
          refine .works hin ((congrArg _ (hsame.trans hpc.symm)).trans hin) ?_
          rw [hdata]
          exact .refl
        · rw [hpc'] at hinside
          exact absurd (congrArg PC.user (Option.some.inj hinside.1)) hinside.2
      · exact absurd (Option.some.inj (hcall.symm.trans hnotify)) (hquiet c).1
      · exact absurd (Option.some.inj (hcall.symm.trans hnotify)) (hquiet c).2
    · exact .enters hbefore hafter ⟨a, _, r, hcall, hopens, hgives, hthrew, rfl⟩ hdata

end

end Calls

/-- What a step of a thread does to its section. -/
theorem reach_turn (hC : Sectioned C holds) (hstart : ∀ t, holds (start t) = false)
    {ok : State τ Unit κ α σ → Label τ ω → Prop}
    (hr : (system C (fun _ => true) start data).Reach ok s)
    (hstep : (system C (fun _ => true) start data).step s l = some s') :
    (sections C holds).Turn l.thread s s' := by
  have hnot : ∀ t (m : Unit), ¬ holds (start t) = true :=
    fun t _ => by rw [hstart t]; exact Bool.false_ne_true
  have hcalled := reach_called hr l.thread
  have hcalled' := (step_move (reach_inv hr) hstep).called (reach_called hr) l.thread
  rcases reach_cases hr hstep with ⟨t, o, a, b, rfl, hpc, hact, hpc', -⟩ |
    ⟨hacts, hshared, -, hprogress⟩
  · have hpc' : s'.pc t = .user b := by rw [hpc', Function.update_self]
    have hsame := hC.act hact
    cases hholds : holds a with
    | false =>
      refine .outside ?_ ?_ (hC.outside hact hholds)
      · exact (congrArg _ hpc).trans (not_working_user hholds)
      · exact (congrArg _ hpc').trans (not_working_user (hsame.trans hholds))
    | true =>
      refine .works (p := a) (q := b) ?_ ?_ (.single (.act hact))
      · exact (congrArg _ hpc).trans (working_user hholds)
      · exact (congrArg _ hpc').trans (working_user (hsame.trans hholds))
  · rcases reach_returns hC.safe hnot hr hprogress with hsame | ⟨a, call, hat, hcall, hnext⟩
    · cases hwork : (s.pc l.thread).working C holds with
      | none => exact .outside hwork ((congrArg _ hsame).trans hwork) hshared
      | some a =>
        have hdata : (sections C holds).data s' = (sections C holds).data s := hshared
        exact .works hwork ((congrArg _ hsame).trans hwork) (hdata ▸ .refl)
    · -- the calls other than the waits return only `done`
      have hdone : call.Yields ∨ call = .lock () →
        (s'.pc l.thread).Inside a ∨ s'.pc l.thread = .user (C.ret a .done) := by
        refine fun hkind => hnext.imp_right fun ⟨r, hgives, hthrew, hpc'⟩ => ?_
        have hr : r = .done := by
          rcases hkind with hyields | rfl
          · cases call <;> cases r
              <;> first | rfl | exact hyields.elim | exact hgives.elim | exact absurd rfl (hthrew _)
          · cases r <;> first | rfl | exact hgives.elim | exact absurd rfl (hthrew _)
        rw [hpc', hr]
      have hwait : ∀ w : WaitCall Unit κ, call = WaitCall.call w →
        (sections C holds).Turn l.thread s s' := by
        rintro w rfl
        refine wait_turn hC hshared hcalled hcalled' hat hcall (fun hpc => ?_) hnext
        refine waits_inside hstep hpc hcall hacts
          (reach_expects hC.safe.toDisciplined hnot hr rfl ?_)
        rw [hpc]
        exact hC.safe.wait_ok hcall
      cases call with
      | lock m => exact lock_turn hC hshared hcalled hcalled' hat hcall (hdone (.inr rfl))
      | tryLock m => exact absurd hcall hC.noTry
      | unlock m => exact unlock_turn hC hshared hcalled' hat hcall (hdone (.inl trivial))
      | wait c m => exact hwait ⟨c, m, false⟩ rfl
      | waitRel c m => exact hwait ⟨c, m, true⟩ rfl
      | notifyOne c =>
        exact notify_turn hC hshared hcalled hcalled' hat ⟨c, .inl hcall⟩ (hdone (.inl trivial))
      | notifyAll c =>
        exact notify_turn hC hshared hcalled hcalled' hat ⟨c, .inr hcall⟩ (hdone (.inl trivial))

/-- The threads of a client with one mutex take turns. -/
theorem takesTurns (hC : Sectioned C holds) (hstart : ∀ t, holds (start t) = false) :
    (sections C holds).TakesTurns (system C (fun _ => true) start data) data where
  init := by
    rintro s rfl
    exact ⟨rfl, fun t => not_working_user (C := C) (hstart t)⟩
  alone := by
    intro s t u p q hr hp hq
    have hnot : ∀ t (m : Unit), ¬ holds (start t) = true :=
      fun t _ => by rw [hstart t]; exact Bool.false_ne_true
    have howns : ∀ {t p}, (s.pc t).working C holds = some p → (s.mutex ()).owner = some t :=
      fun {t p} hp =>
      reach_expects hC.safe.toDisciplined hnot hr rfl (expects_of_working hC (reach_called hr t) hp)
    exact Option.some.inj ((howns hp).symm.trans (howns hq))
  others := by
    intro s l s' hr hstep u hu
    exact congrArg (PC.working C holds)
      ((step_move (reach_inv hr) hstep).pc_ne (reach_called hr) hu)
  turn := fun hr hstep => reach_turn hC hstart hr hstep

end Machine

end GreenThread
