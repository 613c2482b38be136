import GreenThread.Future.WaitForAll

/-!
# The frame of `wait_for_all`

The mutex, the condition variable and the counter live in the frame of `wait_for_all`, and the
callbacks refer to them. The last thing that a callback does there is to leave the section of
`notify_all`: the loop resumes the waiting thread while `cv.mtx_` is locked, then tests the queue
once more, and `cv.mtx_` is unlocked. The resumed thread may run on another worker meanwhile, and it
does not lock `cv.mtx_` on its way out of `wait_for_all`.

So the section of `notify_all` is two steps here: the one that empties the queue, and the one that
leaves it.
-/

namespace GreenThread

namespace WaitForAll

open Callbacks

variable {τ : Type} [DecidableEq τ]

/-- `wait_for_all`, with the thread that has emptied the queue of `cv` in `notify_all` and has still
to test it again and to unlock `cv.mtx_`. -/
structure Frame (τ : Type) where
  base : State τ
  notifying : Option τ

inductive FrameLabel (τ : Type)
  | step (l : Label τ)
  /-- the thread finds the queue of `cv` empty and unlocks `cv.mtx_` -/
  | leaves (t : τ)

/-- The thread whose code the step runs. -/
def runs : Label τ → Option τ
  | .act t _ | .call t _ | .proceed t _ | .wake t => some t
  | .deliver _ | .expire _ | .handler _ => none

/-- The thread that calls `cv.notify_all()`. -/
def notifies (s : State τ) : Label τ → Option τ
  | .call t _ =>
    match s.pc t with
    | .user (.callback _ _ .notify) => some t
    | _ => none
  | _ => none

/-- The step locks `cv.mtx_`. -/
def locksCv (s : State τ) : Label τ → Bool
  | .call t _ =>
    match s.pc t with
    | .user (.callback _ _ .notify) | .user (.after .wait) => true
    | _ => false
  | .handler _ => true
  | _ => false

namespace Frame

variable (f : Frame τ)

/-- While a thread is in the section of `notify_all`, it does nothing else, and nobody locks
`cv.mtx_`. -/
def permits (l : Label τ) : Bool := f.notifying.all fun t =>
    runs l ≠ some t ∧ locksCv f.base l = false

def next (form : Form) (count : Nat) (green : τ → Bool) (w : τ) : FrameLabel τ → Option (Frame τ)
  | .step l =>
    if f.permits l then
      ((system form count green w).step f.base l).map fun s' =>
        ⟨s', (notifies f.base l).or f.notifying⟩
    else none
  | .leaves t => if f.notifying = some t then some { f with notifying := none } else none

/-- A callback has still to be called or to take a step on `cv` or `acquired`, and be it to unlock
`cv.mtx_`. -/
def Unfinished : Prop := WaitForAll.Unfinished f.base ∨ f.notifying ≠ none

end Frame

/-- The thread `w` is in `wait_for_all` on a list of `count` futures, and `notify_all` takes two
steps. -/
def frame (form : Form) (count : Nat) (green : τ → Bool) (w : τ) :
    TransitionSystem (Frame τ) (FrameLabel τ) where
  init f := (system form count green w).init f.base ∧ f.notifying = none
  step f := f.next form count green w

/-- `wait_for_all` has returned or thrown. -/
def Waiter.ended : Waiter → Bool
  | .returned | .failed => true
  | _ => false

/-- When `wait_for_all` has ended, no callback has still to be called or to take a step. -/
def Outlives (w : τ) (f : Frame τ) : Prop :=
  ∀ c : Waiter, f.base.pc w = .user (.after c) → c.ended = true → ¬ f.Unfinished

/-- The waiting thread does not find `acquired==count` while a callback that has incremented
`acquired` has still to notify, or is in the section of `notify_all`. -/
def unhurried (count : Nat) (w : τ) (f : Frame τ) (l : FrameLabel τ) : Prop :=
  ∀ o, l = .step (.act w o) → f.base.pc w = .user (.after .check) → f.base.shared.data = count →
    f.notifying = none ∧ ∀ t i inlined, f.base.pc t ≠ .user (.callback i inlined .notify)

variable {form : Form} {count : Nat} {green : τ → Bool} {w : τ} {s s' : State τ} {l : Label τ}
    {f f' : Frame τ}

/-! ### The mutex -/

/-- The waiting thread holds `mtx` from its lock to its unlock. -/
def held : Pos Callback Waiter → Unit → Prop
  | .after .check, _ | .after .wait, _ | .after .unlock, _ => True
  | _, _ => False

theorem held_finish {i : Nat} {inlined : Bool} {b : Option Callback} {m : Unit} :
    ¬ held (Pos.finish (γ := Waiter) i inlined b) m := by
  cases b with
  | some b => exact id
  | none => cases inlined <;> exact id

theorem Steps.held {x y : Data Nat} {p q : Pos Callback Waiter}
    (h : Steps (form.task count) x p q y) (m : Unit) :
    held q m ↔ held p m := by
  cases h with
  | readies | stores | registered | completes => rfl
  | goes => exact iff_of_false held_finish id
  | @goesAfter c c' d hgo =>
    cases c <;> simp only [Form.task, Waiter.go, Option.some.injEq, Prod.mk.injEq,
      reduceCtorEq] at hgo
    obtain ⟨hite, -⟩ := hgo
    rw [← hite]
    split <;> rfl

theorem ret_held {p : Pos Callback Waiter} {call : Call Unit Unit} {r : Ret} {m : Unit}
    (hcall : p.call (form.task count) = some call) (hgives : call.Gives r)
    (hheld : held (p.ret (form.task count) r) m) :
    held p m ∧ call ≠ .unlock m ∨ call.Acquires r m := by
  cases p with
  | idle | register => cases hcall
  | callback i inlined b =>
    have hheld : held (Pos.finish i inlined (none : Option Callback)) m := hheld
    exact absurd hheld held_finish
  | after c =>
    cases c <;> cases hcall <;> cases r <;> first
      | exact hheld.elim
      | exact hgives.elim
      | exact .inl ⟨trivial, nofun⟩
      | exact .inr rfl

theorem held_ret {p : Pos Callback Waiter} {call : Call Unit Unit} {r : Ret} {m : Unit}
    (hcall : p.call (form.task count) = some call) (hgives : call.Gives r)
    (hret : ∀ e, r ≠ .threw e) (hheld : held p m ∨ call.Acquires r m) :
    held (p.ret (form.task count) r) m ∨ call = .unlock m := by
  cases p with
  | idle | register => cases hcall
  | callback i inlined b =>
    cases b <;> cases hcall
    exact hheld.elim (fun h => h.elim) fun h => h.elim
  | after c =>
    cases c <;> cases hcall <;> cases r <;> first
      | exact hgives.elim
      | exact absurd rfl (hret _)
      | exact .inl trivial
      | exact .inr rfl

omit [DecidableEq τ] in
theorem safe : Safe (client (τ := τ) (form.task count)) held where
  act := fun hact hheld => (Steps.held (act_steps hact) _).mp hheld
  ret := fun hcall hgives hheld => (ret_held hcall hgives hheld).imp_left And.left
  released := by
    intro a m hcall hheld
    rcases ret_held (r := .done) hcall trivial hheld with ⟨-, hne⟩ | hacquires
    · exact hne rfl
    · exact hacquires
  keeps := fun hact hheld => (Steps.held (act_steps hact) _).mpr hheld
  keepsRet := fun hcall hgives hret hheld => held_ret hcall hgives hret (.inl hheld)
  takes := by
    intro a call r m hcall hacquires
    refine (held_ret hcall ?_ ?_ (.inr hacquires)).resolve_right ?_
    · cases call <;> cases r <;> trivial
    · rintro e rfl
      cases call <;> exact hacquires
    · rintro rfl
      exact hacquires
  lock_ok := by
    intro a m hcall
    cases a with
    | after c =>
      cases c <;> cases hcall
      exact id
    | callback i inlined b => cases b <;> cases hcall
    | _ => cases hcall
  unlock_ok := by
    intro a m hcall
    cases a with
    | after c =>
      cases c <;> cases hcall
      trivial
    | callback i inlined b => cases b <;> cases hcall
    | _ => cases hcall
  wait_ok := by
    intro a w hcall
    rw [(wait_of_call hcall).1]
    trivial

/-! ### The last check -/

/-- `wait_for_all` is past its last check. -/
def Past (w : τ) (s : State τ) : Prop :=
  ∃ c : Waiter, (s.pc w).at = some (.after c) ∧ (c = .unlock ∨ c.ended = true)

theorem check_of_past {x y : Data Nat} {p q : Pos Callback Waiter} {c : Waiter}
    (h : Steps (form.task count) x p q y) (hq : q = .after c) (hc : c = .unlock ∨ c.ended = true) :
    p = .after .check ∧ x.data = count ∧ y = x := by
  cases h with
  | readies | stores | completes => cases hq
  | registered =>
    cases hq
    rcases hc with hc | hc <;> cases hc
  | @goes i inlined b b' d hgo => cases b' <;> cases inlined <;> cases hq
  | @goesAfter c' c'' d hgo =>
    cases hq
    cases c' <;> simp only [Form.task, Waiter.go, Option.some.injEq, Prod.mk.injEq,
      reduceCtorEq] at hgo
    obtain ⟨hite, rfl⟩ := hgo
    split at hite
    · rename_i hfull
      exact ⟨rfl, hfull, rfl⟩
    · subst hite
      rcases hc with hc | hc <;> cases hc

/-- A check that finds the final count while no callback has still to notify leaves no callback
unfinished. -/
theorem finished_of_check {ok : State τ → Label τ → Prop}
    (hr : (system form count green w).Reach ok s)
    (hcheck : s.pc w = .user (.after .check)) (hfull : s.shared.data = count)
    (hnotified : ∀ t i inlined, s.pc t ≠ .user (.callback i inlined .notify)) : ¬ Unfinished s := by
  obtain ⟨hstored, hincrement⟩ := counted_of_eq hr (by rw [hcheck]; rfl) hfull
  rintro (⟨i, hi⟩ | ⟨t, i, inlined, b, hpc⟩)
  · cases (hstored i).symm.trans hi
  · cases b with
    | increment => exact hincrement t i inlined hpc
    | notify => exact hnotified t i inlined hpc

theorem past_act {t : τ} {p q : Pos Callback Waiter} (hpc : s.pc t = .user p)
    (hsteps : Steps (form.task count) s.shared p q s'.shared)
    (hpc' : s'.pc = Function.update s.pc t (.user q)) (hpast : Past w s') :
    t ≠ w ∧ Past w s ∨ t = w ∧ s.pc w = .user (.after .check) ∧ s.shared.data = count ∧
    s'.shared = s.shared := by
  by_cases ht : t = w
  · subst ht
    obtain ⟨c, hat, hc⟩ := hpast
    rw [hpc', Function.update_self] at hat
    obtain ⟨rfl, hfull, hshared⟩ := check_of_past hsteps (Option.some.inj hat) hc
    exact .inr ⟨rfl, hpc, hfull, hshared⟩
  · refine .inl ⟨ht, ?_⟩
    unfold Past at hpast ⊢
    rwa [hpc', Function.update_of_ne (Ne.symm ht)] at hpast

theorem finished_act {ok : State τ → Label τ → Prop}
    (hr : (system form count green w).Reach ok s) {t : τ}
    {p q : Pos Callback Waiter} (hpc : s.pc t = .user p)
    (hsteps : Steps (form.task count) s.shared p q s'.shared)
    (ht : t ≠ w) (hfinished : ¬ Unfinished s) : ¬ Unfinished s' := by
  have hregisters : p.registers = false :=
    (reach_registers hr (by rw [hpc]; rfl)).trans (decide_eq_false ht)
  generalize s'.shared = y at hsteps
  cases hsteps with
  | readies | stores | registered | goesAfter => cases hregisters
  | completes hstored => exact absurd (.inl ⟨_, hstored⟩) hfinished
  | goes hgo => exact absurd (.inr ⟨t, _, _, _, hpc⟩) hfinished

theorem finished_checked {q : Pos Callback Waiter} (hpc' : s'.pc = Function.update s.pc w (.user q))
    (hshared : s'.shared = s.shared) (hpast : Past w s') (hfinished : ¬ Unfinished s) :
    ¬ Unfinished s' := by
  rintro (⟨i, hi⟩ | ⟨u, i, inlined, b, hu⟩)
  · rw [hshared] at hi
    exact hfinished (.inl ⟨i, hi⟩)
  · by_cases hw : u = w
    · subst hw
      obtain ⟨c, hat, -⟩ := hpast
      cases hat.symm.trans (congrArg PC.at hu)
    · rw [hpc', Function.update_of_ne hw] at hu
      exact hfinished (.inr ⟨u, i, inlined, b, hu⟩)

/-- No call of `wait_for_all` throws, so a thread is past its last check after a call only if it was
before. -/
theorem past_before {ok : State τ → Label τ → Prop} (hr : (system form count green w).Reach ok s)
    (hother : ∀ u, u ≠ l.thread → s'.pc u = s.pc u)
    (hprogress : (s.pc l.thread).Progress (client (form.task count)) green s.mutex l.thread
      (s'.pc l.thread))
    (hpast : Past w s') : Past w s := by
  obtain ⟨c, hat', hc⟩ := hpast
  by_cases hw : w = l.thread
  · subst hw
    rcases hprogress with hsame | ⟨a, call, hat, hcall, ⟨hin, -⟩ | ⟨r, -, hthrew, hret⟩⟩
    · exact ⟨c, hsame ▸ hat', hc⟩
    · exact ⟨c, by rw [hat, ← hin, hat'], hc⟩
    · rw [hret] at hat'
      cases a with
      | idle | register => cases hcall
      | callback i inlined b => cases inlined <;> cases hat'
      | after c' =>
        have hnot : ∀ e, r ≠ .threw e := by
          intro e hr'
          obtain ⟨hpc, hgreen, hthrows⟩ := hthrew e hr'
          refine Machine.reach_not_throws safe (fun t m => ?_) hr hgreen hpc hcall hthrows
          split <;> exact id
        refine ⟨c', hat, ?_⟩
        cases hat'
        cases c' <;> cases hcall <;> cases r <;> first
          | exact .inl rfl
          | exact absurd rfl (hnot _)
          | (rcases hc with hc | hc <;> cases hc)
  · exact ⟨c, by rw [← hother w hw, hat'], hc⟩

theorem unfinished_before (hshared : s'.shared = s.shared)
    (hother : ∀ u, u ≠ l.thread → s'.pc u = s.pc u)
    (hprogress : (s.pc l.thread).Progress (client (form.task count)) green s.mutex l.thread
      (s'.pc l.thread))
    (hunfinished : Unfinished s') : Unfinished s := by
  rcases hunfinished with ⟨i, hi⟩ | ⟨t, i, inlined, b, hpc⟩
  · exact .inl ⟨i, by rwa [hshared] at hi⟩
  · by_cases ht : t = l.thread
    · subst ht
      rcases hprogress with hsame | ⟨a, call, hat, hcall, ⟨hin, hne⟩ | ⟨r, -, -, hret⟩⟩
      · exact .inr ⟨_, i, inlined, b, hsame ▸ hpc⟩
      · rw [hpc] at hin hne
        exact absurd (congrArg PC.user (Option.some.inj hin)) hne
      · have hret : a.ret (form.task count) r = .callback i inlined b :=
          PC.user.inj (hret.symm.trans hpc)
        cases a with
        | callback j inlined' b' => cases inlined' <;> cases hret
        | idle | register => cases hcall
        | after c => cases hret
    · exact .inr ⟨t, i, inlined, b, (hother t ht).symm.trans hpc⟩

/-! ### The section of `notify_all` -/

omit [DecidableEq τ] in
theorem notifies_none (hfinished : ¬ Unfinished s) : notifies s l = none := by
  unfold notifies
  split
  · rename_i t switch
    split
    · next i inlined hpc => exact absurd (.inr ⟨t, i, inlined, .notify, hpc⟩) hfinished
    · rfl
  · rfl

theorem frame_cases {l : FrameLabel τ} (hstep : (frame form count green w).step f l = some f') :
    (∃ l₀, l = .step l₀ ∧ (system form count green w).step f.base l₀ = some f'.base ∧
      f'.notifying = (notifies f.base l₀).or f.notifying) ∨
    f'.base = f.base ∧ f'.notifying = none := by
  cases l with
  | step l₀ =>
    obtain ⟨-, hstep⟩ := Option.ite_none_right_eq_some.mp hstep
    obtain ⟨s', hs', rfl⟩ := Option.map_eq_some_iff.mp hstep
    exact .inl ⟨l₀, rfl, hs', rfl⟩
  | leaves t =>
    obtain ⟨-, hstep⟩ := Option.ite_none_right_eq_some.mp hstep
    cases hstep
    exact .inr ⟨rfl, rfl⟩

/-- A run with two steps for `notify_all` is a run of `system`. -/
theorem frame_base {ok : Frame τ → FrameLabel τ → Prop}
    (hr : (frame form count green w).Reach ok f) :
    (system form count green w).Reachable f.base := by
  refine hr.project Frame.base (fun _ => And.left) fun f l f' _ _ hstep => ?_
  rcases frame_cases hstep with ⟨l₀, -, hs, -⟩ | ⟨hbase, -⟩
  · exact .inr ⟨l₀, trivial, hs⟩
  · exact .inl hbase

/-- The waiting thread is past its last check only when the callbacks are finished. -/
def PastFinished (w : τ) (f : Frame τ) : Prop := Past w f.base → ¬ f.Unfinished

theorem PastFinished.step {ok : Frame τ → FrameLabel τ → Prop} (h : PastFinished w f)
    (hr : (frame form count green w).Reach ok f) {l : FrameLabel τ} (hok : unhurried count w f l)
    (hstep : (frame form count green w).step f l = some f') : PastFinished w f' := by
  intro hpast
  have hbase := frame_base hr
  rcases frame_cases hstep with ⟨l₀, rfl, hs, hnotifying⟩ | ⟨hsame, hnone⟩
  · -- the callbacks are finished before the step, and the step begins nothing
    have hfinished : ¬ f.Unfinished ∧ ¬ WaitForAll.Unfinished f'.base := by
      rcases reach_cases hbase hs with ⟨t, o, p, q, rfl, hpc, hsteps, hpc', -⟩ |
        ⟨-, hshared, hother, hprogress⟩
      · rcases past_act hpc hsteps hpc' hpast with ⟨ht, hpast'⟩ | ⟨rfl, hcheck, hfull, hshared⟩
        · have hfinished := h hpast'
          exact ⟨hfinished, finished_act hbase hpc hsteps ht fun hu => hfinished (.inl hu)⟩
        · obtain ⟨hleft, hnotified⟩ := hok o rfl hcheck hfull
          have hfinished := finished_of_check hbase hcheck hfull hnotified
          exact ⟨fun hu => hu.elim hfinished fun hne => hne hleft,
            finished_checked hpc' hshared hpast hfinished⟩
      · have hfinished := h (past_before hbase hother hprogress hpast)
        exact ⟨hfinished, fun hu => hfinished
          (.inl (unfinished_before hshared hother hprogress hu))⟩
    rintro (hu | hne)
    · exact hfinished.2 hu
    · rw [hnotifying, notifies_none fun hu => hfinished.1 (.inl hu)] at hne
      exact hfinished.1 (.inr hne)
  · rw [hsame] at hpast
    rintro (hu | hne)
    · exact h hpast (.inl (hsame ▸ hu))
    · exact hne hnone

/-- In a run in which the last check finds no callback that has still to notify or is in the section
of `notify_all`, `wait_for_all` outlives its callbacks. -/
theorem outlives (form : Form) (count : Nat) (green : τ → Bool) (w : τ) {f : Frame τ}
    (hr : (frame form count green w).Reach (unhurried count w) f) : Outlives w f := by
  have hfinished : PastFinished w f := by
    refine hr.invariant (I := PastFinished w) (fun f hf hpast => ?_) fun f l f' hr h hok hstep =>
      h.step hr hok hstep
    obtain ⟨c, hat, -⟩ := hpast
    rw [show f.base = _ from hf.1] at hat
    simp [Machine.initial, PC.at] at hat
  exact fun c hpc hended => hfinished ⟨c, by rw [hpc]; rfl, .inr hended⟩

def atNotify : PC Unit Unit (Pos Callback Waiter) → Bool
  | .user (.callback _ _ .notify) => true
  | _ => false

/-- A check of one step that is enough for `unhurried`: the waiting thread takes no step while a
callback has still to notify or is in the section of `notify_all`. -/
def nobodyNotifies [Fintype τ] (w : τ) (f : Frame τ) : FrameLabel τ → Bool
  | .step (.act t _) => if t = w then f.notifying = none ∧ ∀ u, atNotify (f.base.pc u) = false
      else true
  | _ => true

theorem unhurried_of_nobodyNotifies [Fintype τ] {l : FrameLabel τ}
    (h : nobodyNotifies w f l = true) :
    unhurried count w f l := by
  rintro o rfl - -
  simp only [nobodyNotifies, if_true, decide_eq_true_eq] at h
  refine ⟨h.1, fun t i inlined hpc => ?_⟩
  have hnot := h.2 t
  rw [hpc] at hnot
  cases hnot

def Frame.begin : Frame (Fin 2) := ⟨WaitForAll.begin, none⟩

theorem begin_init (form : Form) : (frame form 1 (fun _ => true) 0).init .begin := ⟨rfl, rfl⟩

/-- Thread 1 completes the only future and notifies before thread 0 checks, and thread 0 returns. -/
theorem outlives_returned : ∃ f : Frame (Fin 2),
    Outlives 0 f ∧ f.base.pc 0 = .user (.after .returned) ∧
    f.base.pc 1 = .user .idle := by
  let labels : List (FrameLabel (Fin 2)) :=
    [.step (.act 0 .pending), .step (.act 0 .go), .step (.act 1 (.complete 0)), .step (.act 1 .go),
      .step (.call 1 false), .leaves 1, .step (.deliver 1), .step (.wake 1), .step (.call 0 false),
      .step (.act 0 .go), .step (.call 0 false)]
  have hreach := (frame .iterator 1 (fun _ => true) 0).reach_of_run (nobodyNotifies 0) .begin
    (begin_init _) labels rfl
  exact ⟨_, outlives .iterator 1 (fun _ => true) 0
    (hreach.mono fun _ _ => unhurried_of_nobodyNotifies), rfl, rfl⟩

attribute [local instance] Machine.neZero_two

/-- Thread 0 finds the final count and returns before thread 1, which has incremented `acquired`,
notifies. -/
def lateNotification : List (FrameLabel (Fin 2)) :=
  [.step (.act 0 .pending), .step (.act 0 .go), .step (.act 1 (.complete 0)), .step (.act 1 .go),
    .step (.call 0 false), .step (.act 0 .go), .step (.call 0 false)]

/-- Thread 0 waits. Thread 1 resumes it in `notify_all`, and it returns before thread 1 unlocks
`cv.mtx_`. -/
def lateUnlock : List (FrameLabel (Fin 2)) :=
  [.step (.act 0 .pending), .step (.act 0 .go), .step (.call 0 false), .step (.act 0 .go),
    .step (.call 0 false), .step (.proceed 0 false), .step (.act 1 (.complete 0)),
    .step (.act 1 .go), .step (.call 1 false), .step (.deliver 0), .step (.wake 0),
    .step (.proceed 0 false), .step (.act 0 .go), .step (.call 0 false)]

theorem late (form : Form) : ∃ f : Frame (Fin 2),
    (frame form 1 (fun _ => true) 0).Reachable f ∧ ¬ Outlives 0 f := by
  obtain ⟨f, hrun, hzero, hone⟩ : ∃ f : Frame (Fin 2),
      (frame form 1 (fun _ => true) 0).run .begin lateNotification = some f ∧
      f.base.pc 0 = .user (.after .returned) ∧
        f.base.pc 1 = .user (.callback 0 false .notify) := by
    cases form <;> exact ⟨_, rfl, rfl, rfl⟩
  exact ⟨f, TransitionSystem.Reachable.run (.init (begin_init form)) hrun,
    fun hall => hall .returned hzero rfl (.inl (.inr ⟨1, 0, false, .notify, hone⟩))⟩

/-- `wait_for_all` can return while a callback has still to notify, in both forms, and also while
the callback that has resumed it has still to unlock `cv.mtx_`. -/
theorem callback_outlives :
    (¬ ∀ f : Frame (Fin 2), (frame .iterator 1 (fun _ => true) 0).Reachable f → Outlives 0 f) ∧
      (¬ ∀ f : Frame (Fin 2), (frame .variadic 1 (fun _ => true) 0).Reachable f → Outlives 0 f) ∧
      ∃ f : Frame (Fin 2), (frame .iterator 1 (fun _ => true) 0).run .begin lateUnlock = some f ∧
      f.notifying = some 1 ∧
        ¬ Outlives 0 f := by
  obtain ⟨f, hf, hlate⟩ := late .iterator
  obtain ⟨f', hf', hlate'⟩ := late .variadic
  refine ⟨fun hall => hlate (hall f hf), fun hall => hlate' (hall f' hf'), _, rfl, rfl,
    fun hall => ?_⟩
  exact hall .returned rfl rfl (.inr (Option.some_ne_none 1))

end WaitForAll

end GreenThread
