import GreenThread.Future.AsyncAny
import GreenThread.Future.OneByOne

/-!
# `wait_for_any`

The callbacks of `wait_for_any` share an `any_state`: a flag, the position `ret` and a mutex and a
condition variable. A callback sets the flag and writes its position under the mutex and notifies;
the waiting thread waits for the flag and returns what it then reads. Unlike a callback of
`async_wait_for_any`, a callback that finds the flag set writes `ret` all the same, so the waiting
thread returns the position of the last callback that has run when it reads `ret`.
-/

namespace GreenThread

namespace WaitAny

open Callbacks

/-- Where a callback is in `any_state::set_value`. -/
inductive Callback
  /-- before the lock of `mtx` -/
  | lock
  /-- before `flag=true` -/
  | setFlag
  /-- before `ret=v` -/
  | setRet
  /-- before `cv.notify_all()` -/
  | notify
  /-- before the unlock of `mtx` -/
  | unlock
  /-- an exception has left the callback -/
  | threw
  deriving DecidableEq, Repr

/-- Where the waiting thread is in `any_state::wait`. -/
inductive Waiter
  /-- before the lock of `mtx` -/
  | lock
  /-- before the test of `flag` -/
  | check
  /-- before `cv.wait(lk)` -/
  | wait
  /-- before the read of `ret` -/
  | read
  /-- before the unlock of `mtx` -/
  | unlock (v : Option Nat)
  | returned (v : Option Nat)
  | failed
  deriving DecidableEq, Repr

structure AnyState where
  flag : Bool
  /-- `none` is `Ret{}` -/
  ret : Option Nat
  /-- history: the positions `ret` was written with -/
  written : List Nat
  /-- history: what `written` was when the waiting thread read `ret` -/
  seen : List Nat
  deriving DecidableEq, Repr

def AnyState.start : AnyState := ⟨false, none, [], []⟩

def Callback.go : Nat → Callback → AnyState → Option (Option Callback × AnyState)
  | _, .setFlag, x => some (some .setRet, { x with flag := true })
  | i, .setRet, x => some (some .notify, { x with ret := some i, written := x.written ++ [i] })
  | _, _, _ => none

def Callback.call : Callback → Option (Call Unit Unit)
  | .lock => some (.lock ())
  | .notify => some (.notifyAll ())
  | .unlock => some (.unlock ())
  | _ => none

def Callback.ret : Callback → Ret → Option Callback
  | _, .threw _ => some .threw
  | .lock, _ => some .setFlag
  | .notify, _ => some .unlock
  | .unlock, _ => none
  | b, _ => some b

def Waiter.go : Waiter → AnyState → Option (Waiter × AnyState)
  | .check, x => some (if x.flag then .read else .wait, x)
  | .read, x => some (.unlock x.ret, { x with seen := x.written })
  | _, _ => none

def Waiter.call : Waiter → Option (Call Unit Unit)
  | .lock => some (.lock ())
  | .wait => some (.wait () ())
  | .unlock _ => some (.unlock ())
  | _ => none

def Waiter.ret : Waiter → Ret → Waiter
  | _, .threw _ => .failed
  | .lock, _ | .wait, _ => .check
  | .unlock v, _ => .returned v
  | c, _ => c

def task (count : Nat) : Task Callback Waiter AnyState Unit Unit where
  count := count
  first := .lock
  go := Callback.go
  call := Callback.call
  ret := Callback.ret
  after := .lock
  goAfter := Waiter.go
  callAfter := Waiter.call
  retAfter := Waiter.ret

abbrev State (τ : Type) := Callbacks.State τ Unit Unit Callback Waiter AnyState

variable {τ : Type} [DecidableEq τ]

/-- The thread `w` is in `wait_for_any` on a list of `count` futures. -/
abbrev system (count : Nat) (green : τ → Bool) (w : τ) : TransitionSystem (State τ) (Label τ) :=
  Callbacks.system (task count) green w .start

/-- The same with the list of the callbacks that have been called. -/
abbrev logged (count : Nat) (green : τ → Bool) (w : τ) :
    TransitionSystem (State τ × List Nat) (Label τ) :=
  Callbacks.logged (task count) green w .start

variable {count : Nat} {green : τ → Bool} {w : τ} {s s' : State τ} {called : List Nat} {l : Label τ}

/-! ### The calls -/

def holds : Pos Callback Waiter → Bool
  | .callback _ _ .setFlag | .callback _ _ .setRet | .callback _ _ .notify
  | .callback _ _ .unlock => true
  | .after .check | .after .wait | .after .read | .after (.unlock _) => true
  | _ => false

theorem holds_finish {i : Nat} {inlined : Bool} : holds (Pos.finish i inlined none) = false := by
  cases inlined <;> rfl

omit [DecidableEq τ] in
theorem keeps_scope : Scoped (client (τ := τ) (task count)) holds where
  act := by
    intro t a x o b y hact
    cases act_steps hact with
    | @goes i inlined b b' d hgo => cases b <;> cases hgo <;> rfl
    | @goesAfter c c' d hgo =>
      cases c <;> cases hgo
      · split <;> rfl
      · rfl
    | _ => rfl
  lock := by
    intro a hcall
    cases a with
    | callback i inlined b =>
      cases b <;> cases hcall
      rfl
    | after c =>
      cases c <;> cases hcall
      rfl
    | _ => cases hcall
  inside := by
    intro a call hcall hlock
    cases a with
    | callback i inlined b => cases b <;> cases hcall <;> first | rfl | exact absurd rfl hlock
    | after c => cases c <;> cases hcall <;> first | rfl | exact absurd rfl hlock
    | _ => cases hcall
  ret := by
    intro a call r hcall hret hunlock
    cases a with
    | callback i inlined b =>
      cases b <;> cases hcall <;> cases r <;> first
        | rfl
        | exact absurd rfl (hret _)
        | exact absurd rfl hunlock
    | after c =>
      cases c <;> cases hcall <;> cases r <;> first
        | rfl
        | exact absurd rfl (hret _)
        | exact absurd rfl hunlock
    | _ => cases hcall
  unlock := by
    intro a hcall
    cases a with
    | callback i inlined b =>
      cases b <;> cases hcall
      exact holds_finish
    | after c =>
      cases c <;> cases hcall
      rfl
    | _ => cases hcall
  threw := by
    intro a e
    cases a with
    | callback i inlined b => cases b <;> rfl
    | after c => cases c <;> rfl
    | _ => rfl

omit [DecidableEq τ] in
theorem safe : Safe (client (τ := τ) (task count)) fun p _ => holds p = true := keeps_scope.safe

theorem waitsAt : WaitsAt (task count) Waiter.wait () where
  wait := by
    rintro p ⟨c, m, timed⟩ hcall
    cases p with
    | callback i inlined b => cases b <;> cases timed <;> cases hcall
    | after c =>
      cases c <;> cases timed <;> cases hcall
      exact ⟨rfl, rfl, rfl⟩
    | _ => cases timed <;> cases hcall
  ret := by
    intro p call r hcall
    cases p with
    | callback i inlined b =>
      intro hq
      cases b <;> cases inlined <;> cases r <;> cases hq
    | after c => cases c <;> cases hcall <;> cases r <;> exact nofun
    | _ => cases hcall

/-! ### What has been written -/

/-- The callback has still to write `ret`. -/
def unwritten : Pos Callback Waiter → Option Nat
  | .callback i _ .lock | .callback i _ .setFlag | .callback i _ .setRet => some i
  | _ => none

/-- What the place of a thread tells about the state. -/
def knows (x : AnyState) (called : List Nat) : Pos Callback Waiter → Prop
  | .callback _ _ .setRet | .callback _ _ .notify | .callback _ _ .unlock => x.flag = true
  | .after .read => called ≠ []
  | .after (.unlock v) | .after (.returned v) => v = x.seen.getLast? ∧ called ≠ []
  | _ => True

/-- The callbacks have written `ret` in the order of their calls, but for one that is under way. -/
structure Inv (places : τ → Option (Pos Callback Waiter)) (x : AnyState)
    (called : List Nat) : Prop where
  before : ∀ t p i, places t = some p → unwritten p = some i → called = x.written ++ [i]
  after : (∀ t p, places t = some p → unwritten p = none) → called = x.written
  ret : x.ret = x.written.getLast?
  begun : x.flag = true → called ≠ []
  flag : x.written ≠ [] → x.flag = true
  seen : x.seen <+: x.written
  knows : ∀ t p, places t = some p → knows x called p

namespace Inv

variable {places : τ → Option (Pos Callback Waiter)} {x y : AnyState} {called' : List Nat} {t : τ}
    {p q : Pos Callback Waiter}

theorem callback_of_unwritten {i : Nat} (h : unwritten p = some i) :
    ∃ inlined b, p = .callback i inlined b := by
  cases p with
  | callback j inlined b => cases b <;> cases h <;> exact ⟨_, _, rfl⟩
  | _ => cases h

theorem unwritten_finish {i : Nat} {inlined : Bool} :
    unwritten (Pos.finish i inlined none) = none := by
  cases inlined <;> rfl

theorem knows_mono (hflag : x.flag = true → y.flag = true)
    (hseen : ∀ c, p = .after c → y.seen = x.seen)
    (hp : WaitAny.knows x called p) : WaitAny.knows y called p := by
  cases p with
  | callback i inlined b =>
    cases b with
    | setRet | notify | unlock => exact hflag hp
    | _ => trivial
  | after c =>
    cases c with
    | read => exact hp
    | unlock v | returned v => exact ⟨by rw [hseen _ rfl]; exact hp.1, hp.2⟩
    | _ => trivial
  | _ => trivial

theorem moves (h : Inv places x called) (ht : places t = some p)
    (hunwritten : unwritten q = unwritten p)
    (hwritten : y.written = x.written) (hret : y.ret = x.ret)
    (hflag : x.flag = true → y.flag = true)
    (hcalled : y.flag = true → called ≠ []) (hseen : y.seen <+: y.written)
    (hq : WaitAny.knows y called q)
    (hothers : ∀ u p', u ≠ t → places u = some p' → WaitAny.knows x called p' →
      WaitAny.knows y called p') :
    Inv (Function.update places t (some q)) y called := by
  refine ⟨fun u p' i hu hi => ?_, fun hall => ?_, by rw [hret, hwritten]; exact h.ret, hcalled,
    fun hne => hflag (h.flag (hwritten ▸ hne)), hseen, fun u p' hu => ?_⟩
  · rw [hwritten]
    rcases Machine.place_of_update hu with ⟨-, rfl⟩ | ⟨-, hu⟩
    · exact h.before t p i ht (hunwritten.symm.trans hi)
    · exact h.before u p' i hu hi
  · rw [hwritten]
    refine h.after fun u p' hu => ?_
    by_cases hut : u = t
    · subst hut
      obtain rfl := Option.some.inj (hu.symm.trans ht)
      rw [← hunwritten]
      exact hall u q (Function.update_self ..)
    · exact hall u p' (by rw [Function.update_of_ne hut]; exact hu)
  · rcases Machine.place_of_update hu with ⟨-, rfl⟩ | ⟨hne, hu⟩
    · exact hq
    · exact hothers u p' hne hu (h.knows u p' hu)

theorem keeps (h : Inv places x called) (ht : places t = some p)
    (hunwritten : unwritten q = unwritten p)
    (hq : WaitAny.knows x called q) : Inv (Function.update places t (some q)) x called :=
  h.moves ht hunwritten rfl rfl id h.begun h.seen hq fun _ _ _ _ => id

theorem calls (h : Inv places x called)
    (hcalm : ∀ u i inlined b, places u ≠ some (.callback i inlined b)) {i : Nat}
    {inlined : Bool} : Inv (Function.update places t (some (.callback i inlined .lock))) x
    (called ++ [i]) := by
  have hnone : ∀ u p', places u = some p' → unwritten p' = none := by
    intro u p' hu
    cases hp' : unwritten p' with
    | none => rfl
    | some j =>
      obtain ⟨inlined', b, rfl⟩ := callback_of_unwritten hp'
      exact absurd hu (hcalm u j inlined' b)
  have hwritten := h.after hnone
  refine ⟨fun u p' j hu hj => ?_, fun hall => ?_, h.ret,
    fun _ => List.append_ne_nil_of_right_ne_nil _ (List.cons_ne_nil i []),
    h.flag, h.seen, fun u p' hu => ?_⟩
  · rcases Machine.place_of_update hu with ⟨-, rfl⟩ | ⟨-, hu⟩
    · cases hj
      rw [hwritten]
    · cases (hnone u p' hu).symm.trans hj
  · cases hall t _ (Function.update_self ..)
  · rcases Machine.place_of_update hu with ⟨-, rfl⟩ | ⟨-, hu⟩
    · trivial
    · have hp' := h.knows u p' hu
      have hcalled : called ++ [i] ≠ [] :=
        List.append_ne_nil_of_right_ne_nil _ (List.cons_ne_nil i [])
      cases p' with
      | callback j inlined' b => exact absurd hu (hcalm u j inlined' b)
      | after c =>
        cases c with
        | read => exact hcalled
        | unlock v | returned v => exact ⟨hp'.1, hcalled⟩
        | _ => trivial
      | _ => trivial

theorem writes (h : Inv places x called) {i : Nat} {inlined : Bool}
    (ht : places t = some (.callback i inlined .setRet))
    (hsingle : ∀ u j inlined' b, places u = some (.callback j inlined' b) → u = t) :
    Inv (Function.update places t (some (.callback i inlined .notify))) { x with
      ret := some i, written := x.written ++ [i] } called := by
  have hcalled := h.before t _ i ht rfl
  have hflag : x.flag = true := h.knows t _ ht
  refine ⟨fun u p' j hu hj => ?_, fun _ => hcalled, ?_, h.begun, fun _ => hflag, ?_,
    fun u p' hu => ?_⟩
  · obtain ⟨inlined', b, rfl⟩ := callback_of_unwritten hj
    rcases Machine.place_of_update hu with ⟨-, hfrom⟩ | ⟨hut, hu⟩
    · cases hfrom
      cases hj
    · exact absurd (hsingle u j inlined' b hu) hut
  · rw [List.getLast?_append, List.getLast?_singleton, Option.some_or]
  · exact h.seen.trans (List.prefix_append ..)
  · rcases Machine.place_of_update hu with ⟨-, rfl⟩ | ⟨-, hu⟩
    · exact hflag
    · exact h.knows u p' hu

theorem returns (h : Inv places x called) {call : Call Unit Unit} {r : Ret} (ht : places t = some p)
    (hcall : p.call (task count) = some call) (hret : ∀ e, r ≠ .threw e) :
    Inv (Function.update places t (some (p.ret (task count) r))) x called := by
  have hp := h.knows t p ht
  cases p with
  | callback i inlined b =>
    cases b with
    | lock =>
      have hq : (Pos.callback i inlined .lock).ret (task count) r =
        .callback i inlined .setFlag := by
        cases r <;> first | rfl | exact absurd rfl (hret _)
      rw [hq]
      exact h.keeps ht rfl trivial
    | notify =>
      have hq : (Pos.callback i inlined .notify).ret (task count) r =
        .callback i inlined .unlock := by
        cases r <;> first | rfl | exact absurd rfl (hret _)
      rw [hq]
      exact h.keeps ht rfl hp
    | unlock =>
      have hq : (Pos.callback i inlined .unlock).ret (task count) r =
        Pos.finish i inlined none := by
        cases r <;> first | rfl | exact absurd rfl (hret _)
      rw [hq]
      refine h.keeps ht unwritten_finish ?_
      cases inlined <;> trivial
    | _ => cases hcall
  | after c =>
    cases c with
    | lock | wait => cases r <;> exact h.keeps ht rfl trivial
    | unlock v =>
      cases r <;> first
        | exact h.keeps ht rfl hp
        | exact absurd rfl (hret _)
    | _ => cases hcall
  | _ => cases hcall

end Inv

/-- In a run whose callbacks run one after the other, they write `ret` in the order of their
calls. -/
theorem logged_inv {sh : State τ × List Nat} (hr : (logged count green w).Reach oneByOne sh) :
    Sequence sh.1 sh.2 ∧ Inv (place sh.1) sh.1.shared.data sh.2 := by
  refine logged_invariant (I := fun s called => Inv (place s) s.shared.data called) safe
    (fun _ => ⟨Bool.false_ne_true, Bool.false_ne_true⟩) (fun s hs => ?_)
      (fun s called s' called' hr hsequence h hmoved => ?_) hr
  · have hoff : ∀ t p, place s t = some p → unwritten p = none ∧ knows s.shared.data [] p := by
      intro t p hp
      rcases initial_place hs hp with ⟨-, rfl⟩ | ⟨-, rfl⟩ <;> exact ⟨rfl, trivial⟩
    refine ⟨fun t p i hp hi => ?_, fun _ => ?_, ?_, ?_, ?_, ?_, fun t p hp => (hoff t p hp).2⟩
    · cases (hoff t p hp).1.symm.trans hi
    all_goals cases hs
    · rfl
    · rfl
    · exact nofun
    · exact fun hne => absurd rfl hne
    · exact List.prefix_rfl
  · cases hmoved with
    | calls hcalm hp hunready hplace hready hdata hcalled =>
      rw [hplace, hdata, hcalled]
      exact h.calls hcalm
    | @registers t p q hp hfrom hto hplace hready hdata hcalled =>
      rw [hplace, hdata, hcalled]
      have hnone : unwritten q = none ∧ knows s.shared.data called q := by
        rcases hto with ⟨i, rfl⟩ | rfl <;> exact ⟨rfl, trivial⟩
      refine h.keeps hp (hnone.1.trans ?_) hnone.2
      cases p with
      | callback i inlined b => exact absurd rfl (hfrom i inlined b)
      | _ => rfl
    | @goes t i inlined b b' y hgo hp hplace hready hdata hcalled =>
      rw [hplace, hdata, hcalled]
      cases b with
      | setFlag =>
        cases hgo
        have hbegun : called ≠ [] := by
          rw [h.before t _ i hp rfl]
          exact List.append_ne_nil_of_right_ne_nil _ (List.cons_ne_nil i [])
        exact h.moves hp rfl rfl rfl (fun _ => rfl) (fun _ => hbegun) h.seen rfl fun _ _ _ _ =>
          Inv.knows_mono (fun _ => rfl) fun _ _ => rfl
      | setRet =>
        cases hgo
        exact h.writes hp fun u j inlined' b hu => hsequence.single u t _ _ _ _ _ _ hu hp
      | _ => cases hgo
    | @goesAfter t c c' y hgo hp hplace hready hdata hcalled =>
      rw [hplace, hdata, hcalled]
      cases c with
      | check =>
        cases hgo
        refine h.keeps hp (by split <;> rfl) ?_
        split
        · rename_i hflag
          exact h.begun hflag
        · trivial
      | read =>
        cases hgo
        refine h.moves hp rfl rfl rfl id h.begun List.prefix_rfl
          ⟨h.ret, h.knows t _ hp⟩ fun u p' hne hu =>
          Inv.knows_mono id fun c hc => ?_
        -- only the waiting thread is past the registration
        subst hc
        have htw : t = w := of_decide_eq_true (reach_registers hr hp).symm
        have huw : u = w := of_decide_eq_true (reach_registers hr hu).symm
        exact absurd (huw.trans htw.symm) hne
      | _ => cases hgo
    | returns hp hcall hgives hret hplace hshared hcalled =>
      rw [hplace, hshared, hcalled]
      exact h.returns hp hcall hret
    | none hplace hshared hcalled =>
      rw [hplace, hshared, hcalled]
      exact h

/-- `wait_for_any` has returned a position. -/
def Returned (w : τ) (s : State τ) (v : Option Nat) :
    Prop := place s w = some (.after (.returned v))

/-- The position returned is that of the first callback exactly when one callback had written
`ret`. -/
theorem returned_iff {sh : State τ × List Nat} (hr : (logged count green w).Reach oneByOne sh)
    {v : Option Nat}
    (hv : Returned w sh.1 v) : v = sh.2.head? ↔ sh.1.shared.data.seen.length = 1 := by
  obtain ⟨hsequence, h⟩ := logged_inv hr
  obtain ⟨hread, hbegun⟩ := h.knows w _ hv
  have hwritten : sh.1.shared.data.written <+: sh.2 := by
    by_cases hall : ∀ t p, place sh.1 t = some p → unwritten p = none
    · rw [h.after hall]
    · push Not at hall
      obtain ⟨t, p, hp, hne⟩ := hall
      obtain ⟨i, hi⟩ := Option.ne_none_iff_exists'.mp hne
      rw [h.before t p i hp hi]
      exact List.prefix_append ..
  obtain ⟨rest, hrest⟩ := h.seen.trans hwritten
  have hnodup := hsequence.nodup
  rw [← hrest] at hnodup ⊢
  cases hseen : sh.1.shared.data.seen with
  | nil =>
    rw [hseen] at hread hrest
    refine iff_of_false (fun heq => ?_) nofun
    rw [hread] at heq
    exact hbegun (hrest.symm.trans (List.head?_eq_none_iff.mp heq.symm))
  | cons a seen =>
    rw [hseen] at hread hnodup
    cases seen with
    | nil => exact iff_of_true hread rfl
    | cons b seen =>
      refine iff_of_false (fun heq => ?_) (by simp)
      rw [hread] at heq
      have hmem : a ∈ b :: seen := by
        rw [List.getLast?_cons_cons] at heq
        exact List.mem_of_getLast? heq
      rw [List.cons_append, List.nodup_cons, List.mem_append] at hnodup
      exact hnodup.1 (.inl hmem)

/-! ### The notification -/

/-- The flag is not set, or a callback that has set it has still to notify. -/
def StillToNotify (s : State τ) : Prop :=
  s.shared.data.flag = false ∨ ∃ t i inlined b, s.pc t = .user (.callback i inlined b) ∧
  (b = .setRet ∨ b = .notify)

theorem stillToNotify_act {ok : State τ → Label τ → Prop} (hr : (system count green w).Reach ok s)
    {t : τ} {p q : Pos Callback Waiter}
    (hpc : s.pc t = .user p) (hsteps : Steps (task count) s.shared p q s'.shared)
    (hpc' : s'.pc = Function.update s.pc t (.user q))
    (hcond : s'.cond = s.cond) (hkept : Asleep .wait () w s → StillToNotify s)
    (hasleep : Asleep .wait () w s') : StillToNotify s' := by
  have hat : s'.pc t = .user q := by rw [hpc', Function.update_self]
  generalize hy : s'.shared = y at hsteps
  unfold StillToNotify
  rw [hy]
  by_cases ht : t = w
  · subst ht
    have hq : q = .after .wait := by
      rcases hasleep with hwait | ⟨b, hqueued⟩
      · exact PC.user.inj (hat.symm.trans hwait)
      · rw [hcond] at hqueued
        exact absurd hpc ((waitsAt.queued hr hqueued).2 p)
    cases hsteps with
    | @goesAfter c c' d hgo =>
      cases c with
      | check =>
        cases hgo
        cases hflag : s.shared.data.flag with
        | false => exact .inl rfl
        | true =>
          rw [hflag] at hq
          cases hq
      | read =>
        cases hgo
        cases hq
      | _ => cases hgo
    | @goes i inlined b b' => cases b' <;> cases inlined <;> cases hq
    | _ => cases hq
  · have hne : w ≠ t := Ne.symm ht
    have hbefore : Asleep .wait () w s := by
      unfold Asleep at hasleep ⊢
      rwa [hpc', Function.update_of_ne hne, hcond] at hasleep
    cases hsteps with
    | @goes i inlined b b' d hgo =>
      cases b with
      | setFlag =>
        cases hgo
        exact .inr ⟨t, i, inlined, .setRet, hat, .inl rfl⟩
      | setRet =>
        cases hgo
        exact .inr ⟨t, i, inlined, .notify, hat, .inr rfl⟩
      | _ => cases hgo
    | @goesAfter c c' d hgo =>
      have hregisters := reach_registers hr (t := t) (p := .after c) (by rw [hpc]; rfl)
      exact absurd (of_decide_eq_true hregisters.symm) ht
    | _ =>
      refine (hkept hbefore).imp id ?_
      rintro ⟨u, i, inlined, b, hu, hb⟩
      refine ⟨u, i, inlined, b, ?_, hb⟩
      rw [hpc', Function.update_of_ne, hu]
      rintro rfl
      cases hpc.symm.trans hu

/-- Among green threads, the waiting thread is asleep only while the flag is not set or a callback
has still to notify. -/
theorem reach_stillToNotify (hgreen : ∀ t, green t = true) {ok : State τ → Label τ → Prop}
    (hr : (system count green w).Reach ok s) (hasleep : Asleep .wait () w s) : StillToNotify s := by
  refine hr.invariant (I := fun s => Asleep .wait () w s → StillToNotify s) (fun s hs _ => ?_)
    (fun s l s' hr hkept hok hstep hasleep => ?_) hasleep
  · cases hs
    exact .inl rfl
  · have hmove := Machine.step_move (Machine.reach_inv hr) hstep
    rcases reach_cases hr hstep with ⟨t, o, p, q, rfl, hpc, hsteps, hpc', hcond⟩ |
      ⟨hl, hshared, hother, hprogress⟩
    · exact stillToNotify_act hr hpc hsteps hpc' hcond hkept hasleep
    · have hbefore := waitsAt.asleep_before hmove hl hother hprogress hasleep
      rcases hkept hbefore with hunset | ⟨t, i, inlined, b, hpc, hb⟩
      · exact .inl (by rwa [hshared])
      · by_cases hsame : s'.pc t = s.pc t
        · exact .inr ⟨t, i, inlined, b, hsame.trans hpc, hb⟩
        · obtain ⟨ht, switch, rfl⟩ := ConditionProtocol.leaves_by_call hmove hl hother hpc hsame
          rcases hb with rfl | rfl
          · rw [← ht, hpc] at hprogress
            exact absurd ((progress_user hprogress rfl).trans hpc.symm) hsame
          · -- the notification leaves nobody in the queue, and nobody else is under the mutex
            exfalso
            rcases hasleep with hwait | ⟨b, hqueued⟩
            · have hne : w ≠ t := by
                rintro rfl
                have hat := waitsAt.at_of_asleep hr hbefore
                rw [hpc] at hat
                cases hat
              refine hne (Machine.reach_exclusive safe.toDisciplined (fun t m => ?_) hr (m := ())
                (hgreen w) (hgreen t)
                ((hother w hne).symm.trans hwait) hpc rfl rfl)
              split <;> exact Bool.false_ne_true
            · rw [(ConditionProtocol.cond_notify hmove hpc ()).2 rfl] at hqueued
              cases hqueued

/-! ### The sibling -/

/-- `async_wait_for_any` with the list of the callbacks that have been called. -/
abbrev asyncLogged (count : Nat) (green : τ → Bool) (w : τ) :
    TransitionSystem (AsyncAny.State τ × List Nat) (Label τ) :=
  Callbacks.logged (AsyncAny.task count) green w .start

/-- What the place of a callback tells about the callbacks that have been called. -/
def firstAt (x : AsyncAny.Result) (called : List Nat) : Pos AsyncAny.Callback Unit → Prop
  | .callback i _ .test => x.isSet = false → called = [i]
  | .callback i _ .write | .callback i _ .lock | .callback i _ .checkReady
  | .callback i _ .store => called = [i]
  | _ => True

/-- Only the first callback finds the flag not set. -/
structure First (places : τ → Option (Pos AsyncAny.Callback Unit)) (x : AsyncAny.Result)
    (called : List Nat) : Prop where
  value : ∀ i, x.value = some i → called.head? = some i
  knows : ∀ t p, places t = some p → firstAt x called p
  unset : x.isSet = false → called = [] ∨ ∃ t i inlined b, places t = some (.callback i inlined b) ∧
    (b = .test ∨ b = .write)

namespace First

variable {places : τ → Option (Pos AsyncAny.Callback Unit)} {x y : AsyncAny.Result} {t : τ}
    {p q : Pos AsyncAny.Callback Unit}

theorem firstAt_other (hp : ∀ i inlined b, p ≠ .callback i inlined b) : firstAt y called p := by
  cases p with
  | callback i inlined b => exact absurd rfl (hp i inlined b)
  | _ => trivial

theorem firstAt_finish {i : Nat} {inlined : Bool} :
    firstAt y called (Pos.finish i inlined none) := by
  cases inlined <;> trivial

theorem moves (h : First places x called)
    (hsingle : ∀ u j inlined b, places u = some (.callback j inlined b) → u = t)
    (hvalue : ∀ i, y.value = some i → x.value = some i ∨ called.head? = some i)
    (hq : firstAt y called q) (hunset : y.isSet = false → ∃ i inlined b, q = .callback i inlined b ∧
      (b = .test ∨ b = .write)) :
    First (Function.update places t (some q)) y called where
  value := fun i hi => (hvalue i hi).elim (h.value i) id
  knows := by
    intro u p' hu
    rcases Machine.place_of_update hu with ⟨-, rfl⟩ | ⟨hut, hu⟩
    · exact hq
    · refine firstAt_other fun j inlined b hp' => ?_
      subst hp'
      exact hut (hsingle u j inlined b hu)
  unset := by
    intro hy
    obtain ⟨i, inlined, b, rfl, hb⟩ := hunset hy
    exact .inr ⟨t, i, inlined, b, Function.update_self .., hb⟩

theorem outside (h : First places x called) (ht : places t = some p) (hq : firstAt x called q)
    (hp : ∀ i inlined b, p = .callback i inlined b → b ≠ .test ∧ b ≠ .write) :
    First (Function.update places t (some q)) x called where
  value := h.value
  knows := by
    intro u p' hu
    rcases Machine.place_of_update hu with ⟨-, rfl⟩ | ⟨-, hu⟩
    · exact hq
    · exact h.knows u p' hu
  unset := by
    intro hx
    refine (h.unset hx).imp id ?_
    rintro ⟨u, i, inlined, b, hu, hb⟩
    refine ⟨u, i, inlined, b, ?_, hb⟩
    rw [Function.update_of_ne, hu]
    rintro rfl
    obtain rfl := Option.some.inj (ht.symm.trans hu)
    obtain ⟨htest, hwrite⟩ := hp i inlined b rfl
    exact hb.elim htest hwrite

theorem calls (h : First places x called)
    (hcalm : ∀ u i inlined b, places u ≠ some (.callback i inlined b)) {i : Nat}
    {inlined : Bool} : First (Function.update places t (some (.callback i inlined .test))) x
    (called ++ [i]) where
  value := by
    intro j hj
    rw [List.head?_append, h.value j hj, Option.some_or]
  knows := by
    intro u p' hu
    rcases Machine.place_of_update hu with ⟨-, rfl⟩ | ⟨-, hu⟩
    · intro hx
      rcases h.unset hx with hnone | ⟨v, j, inlined', b, hv, -⟩
      · rw [hnone]
        rfl
      · exact absurd hv (hcalm v j inlined' b)
    · refine firstAt_other fun j inlined' b hp' => ?_
      subst hp'
      exact hcalm u j inlined' b hu
  unset := fun _ => .inr ⟨t, i, inlined, .test, Function.update_self .., .inl rfl⟩

theorem goes (h : First places x called) {i : Nat} {inlined : Bool} {b : AsyncAny.Callback}
    {b' : Option AsyncAny.Callback}
    (ht : places t = some (.callback i inlined b))
    (hsingle : ∀ u j inlined b, places u = some (.callback j inlined b) → u = t)
    (hgo : b.go i x = some (b', y)) :
    First (Function.update places t (some (Pos.finish i inlined b'))) y called := by
  have hknows := h.knows t _ ht
  cases b with
  | test =>
    cases hgo
    cases hset : x.isSet with
    | true =>
      exact h.moves hsingle (fun _ => .inl) firstAt_finish fun hx =>
        absurd (hset.symm.trans hx) Bool.false_ne_true.symm
    | false => exact h.moves hsingle (fun _ => .inl) (hknows hset) fun _ =>
      ⟨i, inlined, .write, rfl, .inr rfl⟩
  | write =>
    cases hgo
    exact h.moves hsingle (fun _ => .inl) hknows nofun
  | checkReady =>
    cases hgo
    refine h.outside ht ?_ ?_
    · split
      · trivial
      · exact hknows
    · intro _ _ _ hb
      cases hb
      exact ⟨nofun, nofun⟩
  | store =>
    cases hgo
    have hcalled : called = [i] := hknows
    have hstored : First places { x with
      value := some i, ready := true, sets := x.sets ++ [i] } called := by
      refine ⟨fun j hj => ?_, fun u p' hu => ?_, h.unset⟩
      · cases hj
        rw [hcalled]
        rfl
      · have hp' := h.knows u p' hu
        cases p' with
        | callback j inlined' b => cases b <;> exact hp'
        | _ => trivial
    refine hstored.outside ht trivial ?_
    intro _ _ _ hb
    cases hb
    exact ⟨nofun, nofun⟩
  | _ => cases hgo

theorem returns (h : First places x called) {call : Call Unit Unit} {r : Ret}
    (ht : places t = some p)
    (hcall : p.call (AsyncAny.task count) = some call) (hret : ∀ e, r ≠ .threw e) :
    First (Function.update places t (some (p.ret (AsyncAny.task count) r))) x called := by
  have hknows := h.knows t p ht
  cases p with
  | callback i inlined b =>
    have hoff : ∀ j inlined' c, Pos.callback (γ := Unit) i inlined b = .callback j inlined' c →
      c ≠ .test ∧ c ≠ .write := by
      intro j inlined' c heq
      cases heq
      cases b <;> cases hcall <;> exact ⟨nofun, nofun⟩
    refine h.outside ht ?_ hoff
    cases b <;> cases hcall <;> cases r <;> first
      | exact hknows
      | exact firstAt_finish
      | exact absurd rfl (hret _)
  | _ => cases hcall

end First

theorem async_logged_first {sh : AsyncAny.State τ × List Nat}
    (hr : (asyncLogged count green w).Reach oneByOne sh) :
    Sequence sh.1 sh.2 ∧ First (place sh.1) sh.1.shared.data sh.2 := by
  refine logged_invariant (I := fun s called => First (place s) s.shared.data called) AsyncAny.safe
    (fun _ => ⟨id, id⟩)
    (fun s hs => ?_) (fun s called s' called' hr hsequence h hmoved => ?_) hr
  · refine ⟨?_, fun t p hp => ?_, fun _ => .inl rfl⟩
    · cases hs
      exact nofun
    · rcases initial_place hs hp with ⟨-, rfl⟩ | ⟨-, rfl⟩ <;> trivial
  · cases hmoved with
    | calls hcalm hp hunready hplace hready hdata hcalled =>
      rw [hplace, hdata, hcalled]
      exact h.calls hcalm
    | registers hp hfrom hto hplace hready hdata hcalled =>
      rw [hplace, hdata, hcalled]
      refine h.outside hp ?_ fun i inlined b heq => absurd heq (hfrom i inlined b)
      rcases hto with ⟨i, rfl⟩ | rfl <;> trivial
    | goes hgo hp hplace hready hdata hcalled =>
      rw [hplace, hdata, hcalled]
      exact h.goes hp (fun u j inlined' b hu => hsequence.single u _ _ _ _ _ _ _ hu hp) hgo
    | goesAfter hgo => cases hgo
    | returns hp hcall hgives hret hplace hshared hcalled =>
      rw [hplace, hshared, hcalled]
      exact h.returns hp hcall hret
    | none hplace hshared hcalled =>
      rw [hplace, hshared, hcalled]
      exact h

/-- Callbacks that run one after the other read the flag one after the other. -/
theorem async_guarded {sh : AsyncAny.State τ × List Nat}
    (hr : (asyncLogged count green w).Reach oneByOne sh) :
    (AsyncAny.system count green w).Reach AsyncAny.guarded sh.1 := by
  refine hr.forgetTo fun sh l hr _ t o i inlined hl hpc u j inlined' hu => ?_
  obtain rfl := (async_logged_first hr).1.single t u _ _ _ _ _ _ (place_of_user hpc)
    (place_of_user hu)
  cases hpc.symm.trans hu

/-! ### The winner -/

/-- The future of `async_wait_for_any` holds the position of the first callback that has been
called, if it holds one, and it does when one has run. -/
structure AsyncReportsFirst (s : AsyncAny.State τ) (called : List Nat) : Prop where
  value : ∀ i, s.shared.data.value = some i → called.head? = some i
  delivered : called ≠ [] → Calm s → s.shared.data.value = called.head?

/-- `wait_for_any` returns the position of the first callback that has been called. -/
def ReportsFirst (w : τ) (s : State τ) (called : List Nat) :
    Prop := ∀ v, Returned w s v → v = called.head?

/-- One callback had written `ret` when the waiting thread read it. -/
def OneSeen (w : τ) (s : State τ) : Prop := ∀ v, Returned w s v → s.shared.data.seen.length = 1

/-- The waiting thread is not blocked with nothing in flight when a callback has run. -/
def Awake (w : τ) (s : State τ) (called : List Nat) : Prop :=
  called ≠ [] → Calm s → ∀ wc a, s.pc w = .pausing wc a → s.pending w ≠ 0

theorem async_reports_first {sh : AsyncAny.State τ × List Nat}
    (hr : (asyncLogged count green w).Reach oneByOne sh) :
    AsyncReportsFirst sh.1 sh.2 := by
  obtain ⟨hsequence, hfirst⟩ := async_logged_first hr
  have honce := AsyncAny.delivers_once count green w (async_guarded hr)
  refine ⟨hfirst.value, fun hcalled hcalm => ?_⟩
  obtain ⟨i, hi⟩ := List.exists_mem_of_ne_nil _ hcalled
  have hlength := honce.delivered ⟨i, (hsequence.mem_iff i).mp hi⟩ hcalm
  obtain ⟨j, hsets⟩ := List.length_eq_one_iff.mp hlength
  have hvalue : sh.1.shared.data.value = some j := by
    rw [honce.holds, hsets]
    rfl
  rw [hvalue, hfirst.value j hvalue]

theorem awake (hgreen : ∀ t, green t = true) {sh : State τ × List Nat}
    (hr : (logged count green w).Reach oneByOne sh) :
    Awake w sh.1 sh.2 := by
  intro hcalled hcalm wc a hpc hpending
  obtain ⟨-, h⟩ := logged_inv hr
  have hasleep := waitsAt.asleep_of_blocked hr.forget hpc hpending
  rcases reach_stillToNotify hgreen hr.forget hasleep with hunset | ⟨t, i, inlined, b, hb, -⟩
  · have hwritten := h.after fun t p hp => by
      cases hp' : unwritten p with
      | none => rfl
      | some i =>
        obtain ⟨inlined, b, rfl⟩ := Inv.callback_of_unwritten hp'
        exact absurd hp (hcalm t i inlined b)
    rw [hwritten] at hcalled
    cases hunset.symm.trans (h.flag hcalled)
  · exact hcalm t i inlined b (place_of_user hb)

/-- Of callbacks that run one after the other, `async_wait_for_any` reports the first, and
`wait_for_any` reports it exactly when no other has written `ret` before the waiting thread reads
it. -/
theorem reports_first_iff (count : Nat) (green : τ → Bool) (w : τ) :
    (∀ sh, (asyncLogged count green w).Reach oneByOne sh → AsyncReportsFirst sh.1 sh.2) ∧
      ∀ sh, (logged count green w).Reach oneByOne sh →
        (ReportsFirst w sh.1 sh.2 ↔ OneSeen w sh.1) ∧
        ((∀ t, green t = true) → Awake w sh.1 sh.2) := by
  refine ⟨fun sh hr => async_reports_first hr, fun sh hr => ⟨?_, fun hgreen => awake hgreen hr⟩⟩
  exact forall₂_congr fun v hv => returned_iff hr hv

attribute [local instance] Machine.neZero_two

def begin : State (Fin 2) := Machine.initial (fun t => if t = 0 then .register 0 else .idle)
    (.start .start)

/-- The steps of a callback that the registering thread calls. -/
def calledInline : List (Label (Fin 2)) :=
  [.act 0 .ready, .call 0 false, .act 0 .go, .act 0 .go, .call 0 false, .deliver 0, .wake 0,
    .call 0 false]

/-- The steps of the waiting thread, when it finds the flag set. -/
def readsAtOnce : List (Label (Fin 2)) :=
  [.act 0 .go, .call 0 false, .act 0 .go, .act 0 .go, .call 0 false]

/-- The first future is ready beforehand, and the second is never completed. -/
theorem reports_first_iff_one :
    ∃ sh : State (Fin 2) × List Nat, ReportsFirst 0 sh.1 sh.2 ∧ Returned 0 sh.1 (some 0) ∧
    sh.2 = [0] := by
  have hreach := (logged 2 (fun _ => true) 0).reach_of_run checkOneByOne (begin, []) ⟨rfl, rfl⟩
    (calledInline ++ .act 0 .pending :: readsAtOnce) rfl
  have hiff := (reports_first_iff 2 (fun _ => true) (0 : Fin 2)).2 _ (hreach.mono oneByOne_of_check)
  refine ⟨_, hiff.1.mpr fun _ _ => rfl, rfl, rfl⟩

/-- Of two futures that are ready beforehand, `wait_for_any` reports the second. -/
theorem second_reported : ¬ ∀ sh : State (Fin 2) × List Nat,
    (logged 2 (fun _ => true) 0).Reach oneByOne sh → ReportsFirst 0 sh.1 sh.2 := by
  intro hall
  have hreach := (logged 2 (fun _ => true) 0).reach_of_run checkOneByOne (begin, []) ⟨rfl, rfl⟩
    (calledInline ++ calledInline ++ readsAtOnce) rfl
  have hfirst := hall _ (hreach.mono oneByOne_of_check) (some 1) rfl
  cases hfirst

end WaitAny

end GreenThread
