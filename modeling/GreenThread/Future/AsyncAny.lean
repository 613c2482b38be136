import GreenThread.Future.Callbacks
import Mathlib.Data.Fintype.Basic

/-!
# `async_wait_for_any`

The callbacks of `async_wait_for_any` share an `async_any_state`: a flag `is_set_` and the promise
of the result. A callback returns when it reads `is_set_` as true, else it writes the flag and sets
the promise with the position of its future. The read and the write are separate steps, and the
callbacks of two futures run under no common mutex, so two of them can both read the flag as false;
the second then sets a promise that is already satisfied, and the exception leaves the `set_value`
of its own future.
-/

namespace GreenThread

namespace AsyncAny

open Callbacks

/-- Where a callback is in `async_any_state::set_value`, and in the `set_value` of the promise. -/
inductive Callback
  /-- before the read of `is_set_` -/
  | test
  /-- before `is_set_=true` -/
  | write
  /-- before the lock of the result's `mtx_` -/
  | lock
  /-- before the test of the result's `ready_` -/
  | checkReady
  /-- before the value and `ready_` are written -/
  | store
  /-- before `waiters_.notify_all()` -/
  | notify
  /-- before the unlock of `mtx_` -/
  | unlock
  /-- `promise_already_satisfied` was thrown: before the unlock of `mtx_` -/
  | unlockThrow
  /-- an exception has left the callback -/
  | threw
  deriving DecidableEq, Repr

/-- The flag, and the shared state of the result. -/
structure Result where
  isSet : Bool
  ready : Bool
  value : Option Nat
  /-- history: the positions the result was set with -/
  sets : List Nat
  deriving DecidableEq, Repr

def Result.start : Result := ⟨false, false, none, []⟩

def Callback.go : Nat → Callback → Result → Option (Option Callback × Result)
  | _, .test, r => some (if r.isSet then none else some .write, r)
  | _, .write, r => some (some .lock, { r with isSet := true })
  | _, .checkReady, r => some (some (if r.ready then .unlockThrow else .store), r)
  | i, .store, r =>
    some (some .notify, { r with value := some i, ready := true, sets := r.sets ++ [i] })
  | _, _, _ => none

def Callback.call : Callback → Option (Call Unit Unit)
  | .lock => some (.lock ())
  | .notify => some (.notifyAll ())
  | .unlock | .unlockThrow => some (.unlock ())
  | _ => none

def Callback.ret : Callback → Ret → Option Callback
  | _, .threw _ => some .threw
  | .lock, _ => some .checkReady
  | .notify, _ => some .unlock
  | .unlock, _ => none
  | .unlockThrow, _ => some .threw
  | b, _ => some b

/-- The future is returned once all callbacks are registered. -/
def task (count : Nat) : Task Callback Unit Result Unit Unit where
  count := count
  first := .test
  go := Callback.go
  call := Callback.call
  ret := Callback.ret
  after := ()
  goAfter := fun _ _ => none
  callAfter := fun _ => none
  retAfter := fun c _ => c

abbrev State (τ : Type) := Callbacks.State τ Unit Unit Callback Unit Result

variable {τ : Type} [DecidableEq τ]

/-- The thread `w` calls `async_wait_for_any` on a list of `count` futures. -/
abbrev system (count : Nat) (green : τ → Bool) (w : τ) : TransitionSystem (State τ) (Label τ) :=
  Callbacks.system (task count) green w .start

variable {count : Nat} {green : τ → Bool} {w : τ} {s s' : State τ} {l : Label τ}

/-- The result is set at most once, with the position of a future that is ready, and no callback
throws; when a future is ready and no callback is under way, the result has been set. -/
structure DeliversOnce (s : State τ) : Prop where
  once : s.shared.data.sets.length ≤ 1
  position : ∀ i, s.shared.data.value = some i → s.shared.ready i = true
  holds : s.shared.data.value = s.shared.data.sets.head?
  quiet : ∀ t i inlined, place s t ≠ some (.callback i inlined .threw)
  delivered : (∃ i, s.shared.ready i = true) →
    (∀ t i inlined b, place s t ≠ some (.callback i inlined b)) →
    s.shared.data.sets.length = 1

/-- A callback does not read `is_set_` while another has read it as false and has still to write
it. -/
def guarded (s : State τ) (l : Label τ) : Prop :=
  ∀ t o i inlined, l = .act t o → s.pc t = .user (.callback i inlined .test) →
    ∀ u j inlined', s.pc u ≠ .user (.callback j inlined' .write)

/-! ### The calls -/

/-- A callback holds the result's `mtx_` from its lock to its unlock. -/
def held : Pos Callback Unit → Unit → Prop
  | .callback _ _ .checkReady, _ | .callback _ _ .store, _ | .callback _ _ .notify, _
  | .callback _ _ .unlock, _
  | .callback _ _ .unlockThrow, _ => True
  | _, _ => False

theorem not_held_finish {i : Nat} {inlined : Bool} {m : Unit} :
    ¬ held (Pos.finish i inlined none) m := by
  cases inlined <;> exact id

theorem held_steps {x y : Data Result} {p q : Pos Callback Unit}
    (h : Steps (task count) x p q y) (m : Unit) :
    held q m ↔ held p m := by
  cases h with
  | readies | stores | registered | completes => rfl
  | goes hgo =>
    rename_i i inlined b b' d
    cases b <;> cases hgo
    · split
      · exact iff_of_false not_held_finish id
      · rfl
    · rfl
    · split <;> rfl
    · rfl
  | goesAfter hgo => cases hgo

omit [DecidableEq τ] in
theorem safe : Safe (client (τ := τ) (task count)) held where
  act := fun hact hheld => (held_steps (act_steps hact) _).mp hheld
  ret := by
    intro a call r m hcall hgives hheld
    cases a with
    | callback i inlined b =>
      cases b <;> cases hcall <;> cases r <;> first
        | exact hgives.elim
        | exact .inl trivial
        | exact .inr rfl
        | exact hheld.elim
    | _ => cases hcall
  released := by
    intro a m hcall hheld
    cases a with
    | callback i inlined b =>
      cases b <;> cases hcall
      · exact not_held_finish hheld
      · exact hheld
    | _ => cases hcall
  keeps := fun hact hheld => (held_steps (act_steps hact) _).mpr hheld
  keepsRet := by
    intro a call r m hcall hgives hret hheld
    cases a with
    | callback i inlined b =>
      cases b <;> cases hcall <;> cases r <;> first
        | exact hgives.elim
        | exact hheld.elim
        | exact absurd rfl (hret _)
        | exact .inl trivial
        | exact .inr rfl
    | _ => cases hcall
  takes := by
    intro a call r m hcall hacquires
    cases a with
    | callback i inlined b =>
      cases b <;> cases hcall <;> cases r <;> first
        | exact hacquires.elim
        | trivial
    | _ => cases hcall
  lock_ok := by
    intro a m hcall
    cases a with
    | callback i inlined b =>
      cases b <;> cases hcall
      exact id
    | _ => cases hcall
  unlock_ok := by
    intro a m hcall
    cases a with
    | callback i inlined b => cases b <;> cases hcall <;> trivial
    | _ => cases hcall
  wait_ok := by
    rintro a ⟨c, m, timed⟩ hcall
    cases a with
    | callback i inlined b => cases b <;> cases timed <;> cases hcall
    | _ => cases timed <;> cases hcall

/-! ### One callback in the guard -/

/-- The callback has read `is_set_` as false and has not yet set the promise. -/
def Callback.entered : Callback → Bool
  | .write | .lock | .checkReady | .store => true
  | _ => false

/-- The position is that of a callback in the guard. -/
def Pos.entered : Pos Callback Unit → Bool
  | .callback _ _ b => b.entered
  | _ => false

/-- What the place of a callback tells about the flag and the result. -/
def Callback.knows (r : Result) : Callback → Prop
  | .test => True
  | .write => r.isSet = false
  | .lock | .checkReady | .store => r.isSet = true ∧ r.sets = []
  | .notify | .unlock => r.sets ≠ []
  | .unlockThrow | .threw => False

/-- The future of a callback is ready, and the callback knows what its place tells. -/
def Pos.knows (x : Data Result) : Pos Callback Unit → Prop
  | .callback i _ b => x.ready i = true ∧ b.knows x.data
  | _ => True

/-- The result is as it was at the start, or was set once, after the flag. -/
def Data.sound (x : Data Result) : Prop :=
  (x.data.ready = false ∧ x.data.value = none ∧ x.data.sets = []) ∨
    ∃ i, x.data.isSet = true ∧ x.data.ready = true ∧ x.data.value = some i ∧ x.data.sets = [i] ∧
    x.ready i = true

structure Inv (places : τ → Option (Pos Callback Unit)) (x : Data Result) : Prop where
  knows : ∀ t p, places t = some p → Pos.knows x p
  unique : ∀ t u p q, places t = some p → places u = some q → Pos.entered p = true →
    Pos.entered q = true → t = u
  sound : Data.sound x
  called : ∀ i, x.ready i = true → x.data.isSet = true ∨
    ∃ t inlined b, places t = some (.callback i inlined b) ∧ (b = .test ∨ b = .write)
  delivers : x.data.isSet = true → x.data.sets ≠ [] ∨
    ∃ t p, places t = some p ∧ Pos.entered p = true

variable {places : τ → Option (Pos Callback Unit)} {x y : Data Result} {t : τ}
    {p q : Pos Callback Unit}

/-- A thread that moves keeps the invariant when its new place knows enough, the others know what
they knew, and it enters the guard only when nobody is in it. -/
theorem Inv.moves (h : Inv places x) (ht : places t = some p) (hq : Pos.knows y q)
    (hothers : ∀ u p', u ≠ t → places u = some p' → Pos.knows x p' → Pos.knows y p')
    (henters : Pos.entered q = true → ∀ u p', u ≠ t → places u = some p' → Pos.entered p' = false)
    (hsound : Data.sound y)
    (hcalled : ∀ i, y.ready i = true → y.data.isSet = true ∨
      (x.ready i = true ∧ x.data.isSet = false ∧
        ∀ inlined b, p = .callback i inlined b → (b = .test ∨ b = .write) →
        q = .callback i inlined .write) ∨
      ∃ inlined, q = .callback i inlined .test)
    (hdelivers : y.data.isSet = true → y.data.sets ≠ [] ∨ Pos.entered q = true ∨
      (x.data.isSet = true ∧ x.data.sets = [] ∧ Pos.entered p = false)) :
      Inv (Function.update places t (some q)) y where
  knows := by
    intro u p' hu
    rcases Machine.place_of_update hu with ⟨-, rfl⟩ | ⟨hut, hu⟩
    · exact hq
    · exact hothers u p' hut hu (h.knows u p' hu)
  unique := by
    intro u v p' q' hu hv hp' hq'
    rcases Machine.place_of_update hu with ⟨rfl, rfl⟩ | ⟨hut, hu'⟩
    · rcases Machine.place_of_update hv with ⟨rfl, -⟩ | ⟨hvt, hv'⟩
      · rfl
      · cases (henters hp' v q' hvt hv').symm.trans hq'
    · rcases Machine.place_of_update hv with ⟨rfl, rfl⟩ | ⟨-, hv'⟩
      · cases (henters hq' u p' hut hu').symm.trans hp'
      · exact h.unique u v p' q' hu' hv' hp' hq'
  sound := hsound
  called := by
    intro i hi
    rcases hcalled i hi with hset | ⟨hready, hunset, hsame⟩ | ⟨inlined, rfl⟩
    · exact .inl hset
    · rcases h.called i hready with hset | ⟨u, inlined, b, hu, hb⟩
      · cases hunset.symm.trans hset
      · by_cases hut : u = t
        · subst hut
          obtain rfl := Option.some.inj (ht.symm.trans hu)
          obtain rfl := hsame inlined b rfl hb
          exact .inr ⟨u, inlined, .write, Function.update_self .., .inr rfl⟩
        · exact .inr ⟨u, inlined, b, by rw [Function.update_of_ne hut, hu], hb⟩
    · exact .inr ⟨t, inlined, .test, Function.update_self .., .inl rfl⟩
  delivers := by
    intro hset
    rcases hdelivers hset with hsets | hentered | ⟨hset', hempty, hnot⟩
    · exact .inl hsets
    · exact .inr ⟨t, q, Function.update_self .., hentered⟩
    · rcases h.delivers hset' with hsets | ⟨u, p', hu, hp'⟩
      · exact absurd hempty hsets
      · have hut : u ≠ t := by
          rintro rfl
          obtain rfl := Option.some.inj (ht.symm.trans hu)
          cases hnot.symm.trans hp'
        exact .inr ⟨u, p', by rw [Function.update_of_ne hut, hu], hp'⟩

theorem Inv.sameData (h : Inv places x) (ht : places t = some p) (hdata : y.data = x.data)
    (hgrows : ∀ i, x.ready i = true → y.ready i = true)
    (hready : ∀ i, y.ready i = true → x.ready i = true ∨ ∃ inlined, q = .callback i inlined .test)
    (hq : Pos.knows y q) (hkeeps : Pos.entered p = true → Pos.entered q = true)
    (hcalls : ∀ i inlined b, p = .callback i inlined b → (b = .test ∨ b = .write) →
      q = .callback i inlined .write ∨ x.data.isSet = true)
    (henters : Pos.entered q = true → ∀ u p', u ≠ t → places u = some p' → Pos.entered p' = false) :
    Inv (Function.update places t (some q)) y := by
  refine h.moves ht hq (fun u p' _ _ hp' => ?_) henters ?_ (fun i hi => ?_) fun hset => ?_
  · cases p' with
    | callback i inlined b => exact ⟨hgrows i hp'.1, by rw [hdata]; exact hp'.2⟩
    | _ => trivial
  · rcases h.sound with hnone | ⟨i, hset, hready', hvalue, hsets, hi⟩
    · exact .inl (by rw [hdata]; exact hnone)
    · exact .inr ⟨i, by rw [hdata]; exact hset, by rw [hdata]; exact hready',
        by rw [hdata]; exact hvalue,
        by rw [hdata]; exact hsets, hgrows i hi⟩
  · rw [hdata]
    cases hset : x.data.isSet with
    | true => exact .inl rfl
    | false =>
      rcases hready i hi with hold | hnew
      · refine .inr (.inl ⟨hold, rfl, fun inlined b hp hb => ?_⟩)
        exact (hcalls i inlined b hp hb).resolve_right (by rw [hset]; exact Bool.false_ne_true)
      · exact .inr (.inr hnew)
  · rw [hdata] at hset ⊢
    by_cases hsets : x.data.sets = []
    · cases hp : Pos.entered p with
      | true => exact .inr (.inl (hkeeps hp))
      | false => exact .inr (.inr ⟨hset, hsets, rfl⟩)
    · exact .inl hsets

omit [DecidableEq τ] in
theorem Inv.alone (h : Inv places x) (ht : places t = some p) (hp : Pos.entered p = true) {u : τ}
    {p' : Pos Callback Unit} (hu : u ≠ t) (hu' : places u = some p') : Pos.entered p' = false := by
  cases hp' : Pos.entered p' with
  | false => rfl
  | true => exact absurd (h.unique u t p' p hu' ht hp' hp) hu

omit [DecidableEq τ] in
/-- While the flag is false, the guard holds those that have still to write it. -/
theorem Inv.write_of_unset (h : Inv places x) (hunset : x.data.isSet = false)
    (ht : places t = some p)
    (hp : Pos.entered p = true) : ∃ i inlined, p = .callback i inlined .write := by
  have hknows := h.knows t p ht
  cases p with
  | callback i inlined b =>
    cases b with
    | write => exact ⟨i, inlined, rfl⟩
    | lock | checkReady | store => cases hunset.symm.trans hknows.2.1
    | _ => cases hp
  | _ => cases hp

theorem not_entered_finish {i : Nat} {inlined : Bool} :
    Pos.entered (Pos.finish i inlined none) = false := by
  cases inlined <;> rfl

theorem knows_finish {i : Nat} {inlined : Bool} : Pos.knows x (Pos.finish i inlined none) := by
  cases inlined <;> trivial

theorem Inv.advances (h : Inv places x) {i : Nat} {inlined : Bool} {b : Callback}
    (ht : places t = some (.callback i inlined b)) (htest : b ≠ .test) (hwrite : b ≠ .write)
    (hq : Pos.knows x q) (hentered : Pos.entered q = Pos.entered (.callback i inlined b)) :
    Inv (Function.update places t (some q)) x := by
  refine h.sameData ht rfl (fun _ => id) (fun _ => .inl) hq hentered.trans ?_
    fun hent u p' hu hu' =>
    h.alone ht (hentered.symm.trans hent) hu hu'
  intro j inlined' b' hp hb
  cases hp
  exact absurd hb (not_or.mpr ⟨htest, hwrite⟩)

/-- A step of a callback in `async_any_state::set_value` keeps the invariant, if no other has still
to write the flag when it reads it. -/
theorem Inv.goes (h : Inv places x) {i : Nat} {inlined : Bool} {b : Callback}
    {b' : Option Callback} {r : Result}
    (ht : places t = some (.callback i inlined b)) (hgo : Callback.go i b x.data = some (b', r))
    (hguard : b = .test → ∀ u j inlined', places u ≠ some (.callback j inlined' .write)) :
    Inv (Function.update places t (some (Pos.finish i inlined b'))) { x with data := r } := by
  obtain ⟨hready, hknows⟩ := h.knows t _ ht
  cases b with
  | test =>
    cases hgo
    cases hset : x.data.isSet with
    | true =>
      refine h.sameData ht rfl (fun _ => id) (fun _ => .inl) knows_finish
        (fun hp => (by cases hp)) ?_ ?_
      · exact fun _ _ _ _ _ => .inr hset
      · exact fun hq => absurd (not_entered_finish.symm.trans hq) Bool.false_ne_true
    | false =>
      refine h.sameData ht rfl (fun _ => id) (fun _ => .inl) ⟨hready, hset⟩ (fun _ => rfl) ?_ ?_
      · rintro j inlined' b hp -
        cases hp
        exact .inl rfl
      · intro _ u p' _ hu
        cases hp' : Pos.entered p' with
        | false => rfl
        | true =>
          obtain ⟨j, inlined', rfl⟩ := h.write_of_unset hset hu hp'
          exact absurd hu (hguard rfl u j inlined')
  | write =>
    cases hgo
    have hsets : x.data.ready = false ∧ x.data.value = none ∧ x.data.sets = [] := by
      rcases h.sound with hnone | ⟨j, hset, -⟩
      · exact hnone
      · cases hknows.symm.trans hset
    refine h.moves ht ⟨hready, rfl, hsets.2.2⟩ (fun u p' hu hu' hp' => ?_)
      (fun _ u p' hu hu' => h.alone ht rfl hu hu')
      (.inl hsets) (fun _ _ => .inl rfl) fun _ => .inr (.inl rfl)
    have halone := h.alone ht rfl hu hu'
    cases p' with
    | callback j inlined' c =>
      cases c with
      | write | lock | checkReady | store => cases halone
      | _ => exact hp'
    | _ => trivial
  | checkReady =>
    cases hgo
    have hunready : x.data.ready = false := by
      rcases h.sound with hnone | ⟨j, -, -, -, hsets, -⟩
      · exact hnone.1
      · cases hknows.2.symm.trans hsets
    rw [hunready]
    exact h.advances ht nofun nofun ⟨hready, hknows⟩ rfl
  | store =>
    cases hgo
    refine h.moves ht ⟨hready, by simp [Callback.knows]⟩ (fun u p' hu hu' hp' => ?_)
      (fun hq => (by cases hq)) ?_
      (fun _ _ => .inl hknows.1) fun _ => .inl (by simp)
    · have halone := h.alone ht rfl hu hu'
      cases p' with
      | callback j inlined' c =>
        cases c with
        | write | lock | checkReady | store => cases halone
        | notify | unlock => exact ⟨hp'.1, by simp [Callback.knows]⟩
        | _ => exact hp'
      | _ => trivial
    · exact .inr ⟨i, hknows.1, rfl, rfl, by rw [hknows.2]; rfl, hready⟩
  | _ => cases hgo

theorem Inv.returns (h : Inv places x) {call : Call Unit Unit} {r : Ret} (ht : places t = some p)
    (hcall : p.call (task count) = some call) (hret : ∀ e, r ≠ .threw e) :
    Inv (Function.update places t (some (p.ret (task count) r))) x := by
  have hknows := h.knows t p ht
  cases p with
  | callback i inlined b =>
    obtain ⟨hready, hknows⟩ := hknows
    cases b with
    | lock =>
      have hq : (Pos.callback i inlined .lock).ret (task count) r =
        .callback i inlined .checkReady := by
        cases r <;> first | rfl | exact absurd rfl (hret _)
      rw [hq]
      exact h.advances ht nofun nofun ⟨hready, hknows⟩ rfl
    | notify =>
      have hq : (Pos.callback i inlined .notify).ret (task count) r =
        .callback i inlined .unlock := by
        cases r <;> first | rfl | exact absurd rfl (hret _)
      rw [hq]
      exact h.advances ht nofun nofun ⟨hready, hknows⟩ rfl
    | unlock =>
      have hq : (Pos.callback i inlined .unlock).ret (task count) r =
        Pos.finish i inlined none := by
        cases r <;> first | rfl | exact absurd rfl (hret _)
      rw [hq]
      exact h.advances ht nofun nofun knows_finish not_entered_finish
    | unlockThrow => exact hknows.elim
    | _ => cases hcall
  | _ => cases hcall

theorem Inv.calls (h : Inv places x) {i : Nat} {inlined : Bool} (ht : places t = some p)
    (hp : ∀ i inlined b, p ≠ .callback i inlined b)
    (hdata : y.data = x.data) (hready : y.ready = Function.update x.ready i true) :
    Inv (Function.update places t (some (.callback i inlined .test))) y := by
  refine h.sameData ht hdata (fun j hj => ?_) (fun j hj => ?_) ⟨by simp [hready], trivial⟩
    (fun hent => ?_) ?_
    fun hq => (by cases hq)
  · rw [hready]
    by_cases hji : j = i
    · rw [hji, Function.update_self]
    · rwa [Function.update_of_ne hji]
  · rw [hready] at hj
    by_cases hji : j = i
    · exact .inr ⟨inlined, by rw [hji]⟩
    · exact .inl (by rwa [Function.update_of_ne hji] at hj)
  · cases p with
    | callback j inlined' b => exact absurd rfl (hp j inlined' b)
    | _ => cases hent
  · exact fun j inlined' b hp' => absurd hp' (hp j inlined' b)

theorem Inv.outside (h : Inv places x) (ht : places t = some p)
    (hp : ∀ i inlined b, p ≠ .callback i inlined b)
    (hq : ∀ i inlined b, q ≠ .callback i inlined b) (hdata : y.data = x.data)
    (hready : y.ready = x.ready) :
    Inv (Function.update places t (some q)) y := by
  have hnot : ∀ {p : Pos Callback Unit}, (∀ i inlined b, p ≠ .callback i inlined b) →
    Pos.entered p = false := by
    intro p hp
    cases p with
    | callback i inlined b => exact absurd rfl (hp i inlined b)
    | _ => rfl
  refine h.sameData ht hdata (fun i hi => by rwa [hready])
    (fun i hi => .inl (by rwa [hready] at hi)) ?_
    (fun hent => absurd ((hnot hp).symm.trans hent) Bool.false_ne_true)
    (fun i inlined b hp' => absurd hp' (hp i inlined b))
    fun hent => absurd ((hnot hq).symm.trans hent) Bool.false_ne_true
  cases q with
  | callback i inlined b => exact absurd rfl (hq i inlined b)
  | _ => trivial

/-- In a run whose callbacks read `is_set_` one after the other, one callback at a time is in the
guard. -/
theorem reach_inv (hr : (system count green w).Reach guarded s) : Inv (place s) s.shared := by
  refine hr.invariant (I := fun s => Inv (place s) s.shared) (fun s hs => ?_)
    (fun s l s' hr h hok hstep => ?_)
  · have hoff : ∀ t p, place s t = some p → Pos.knows s.shared p ∧ Pos.entered p = false := by
      intro t p hp
      rcases initial_place hs hp with ⟨-, rfl⟩ | ⟨-, rfl⟩ <;> exact ⟨trivial, rfl⟩
    cases hs
    exact ⟨fun t p hp => (hoff t p hp).1,
      fun t u p q hp _ hent _ => absurd ((hoff t p hp).2.symm.trans hent) Bool.false_ne_true,
        .inl ⟨rfl, rfl, rfl⟩, nofun, nofun⟩
  · rcases reach_place safe (fun _ => ⟨id, id⟩) hr hstep with
      ⟨t, o, p, q, rfl, hpc, hsteps, hplace⟩ | ⟨t, p, call, r, hp, hcall, -, hret, hshared,
        hplace⟩ | ⟨hshared, hplace⟩
    · have hp := place_of_user hpc
      rw [hplace]
      generalize s'.shared = y at hsteps
      cases hsteps with
      | readies => exact h.calls hp (fun _ _ _ => nofun) rfl rfl
      | completes => exact h.calls hp (fun _ _ _ => nofun) rfl rfl
      | stores => exact h.outside hp (fun _ _ _ => nofun) (fun _ _ _ => nofun) rfl rfl
      | registered => exact h.outside hp (fun _ _ _ => nofun) (fun _ _ _ => nofun) rfl rfl
      | @goes i inlined b b' r hgo =>
        refine h.goes hp hgo fun hb u j inlined' hu => ?_
        subst hb
        exact hok t o i inlined rfl hpc u j inlined'
          (Machine.user_of_place (Machine.reach_called hr u) hu rfl)
      | goesAfter hgo => cases hgo
    · rw [hplace, hshared]
      exact h.returns hp hcall hret
    · rw [hplace, hshared]
      exact h

/-- In a run in which no callback reads `is_set_` while another has still to write it, the result is
delivered once. -/
theorem delivers_once (count : Nat) (green : τ → Bool) (w : τ) {s : State τ}
    (hr : (system count green w).Reach guarded s) :
    DeliversOnce s := by
  have h := reach_inv hr
  constructor
  · rcases h.sound with ⟨-, -, hsets⟩ | ⟨i, -, -, -, hsets, -⟩
    · rw [hsets]
      exact Nat.zero_le 1
    · rw [hsets]
      exact Nat.le_refl 1
  · intro i hi
    rcases h.sound with ⟨-, hvalue, -⟩ | ⟨j, -, -, hvalue, -, hready⟩
    · cases hvalue.symm.trans hi
    · obtain rfl := Option.some.inj (hvalue.symm.trans hi)
      exact hready
  · rcases h.sound with ⟨-, hvalue, hsets⟩ | ⟨j, -, -, hvalue, hsets, -⟩
      <;> rw [hvalue, hsets] <;> rfl
  · exact fun t i inlined hplace => (h.knows t _ hplace).2
  · rintro ⟨i, hi⟩ hquiet
    have hset : s.shared.data.isSet = true := by
      rcases h.called i hi with hset | ⟨t, inlined, b, hplace, -⟩
      · exact hset
      · exact absurd hplace (hquiet t i inlined b)
    have hsets : s.shared.data.sets ≠ [] := by
      rcases h.delivers hset with hsets | ⟨t, p, hplace, hent⟩
      · exact hsets
      · cases p with
        | callback j inlined b => exact absurd hplace (hquiet t j inlined b)
        | _ => cases hent
    rcases h.sound with ⟨-, -, hnone⟩ | ⟨j, -, -, -, hone, -⟩
    · exact absurd hnone hsets
    · rw [hone]
      rfl

def atWrite : PC Unit Unit (Pos Callback Unit) → Bool
  | .user (.callback _ _ .write) => true
  | _ => false

/-- A check of one step that is enough for `guarded`: only a thread that writes `is_set_` steps
while one has still to. -/
def nobodyWrites [Fintype τ] (s : State τ) : Label τ → Bool
  | .act t _ => atWrite (s.pc t) || decide (∀ u, atWrite (s.pc u) = false)
  | _ => true

omit [DecidableEq τ] in
theorem guarded_of_nobodyWrites [Fintype τ] (h : nobodyWrites s l = true) : guarded s l := by
  rintro t o i inlined rfl hpc u j inlined' hu
  have hhere : atWrite (s.pc t) = false := by
    rw [hpc]
    rfl
  have hall : ∀ u, atWrite (s.pc u) = false := by simpa [nobodyWrites, hhere] using h
  have hnot := hall u
  rw [hu] at hnot
  cases hnot

def begin : State (Fin 3) := Machine.initial (fun t => if t = 0 then .register 0 else .idle)
    (.start .start)

/-- Thread 1 completes the first of two futures and sets the result, then thread 2 completes the
second. -/
theorem delivers_once_first :
    ∃ s : State (Fin 3), DeliversOnce s ∧ s.shared.data.sets = [0] ∧ s.shared.ready 0 = true ∧
    s.shared.ready 1 = true := by
  let labels : List (Label (Fin 3)) :=
    [.act 0 .pending, .act 0 .pending, .act 0 .go, .act 1 (.complete 0), .act 2 (.complete 1),
      .act 1 .go, .act 1 .go, .call 1 false, .act 1 .go, .act 2 .go, .act 1 .go, .call 1 false,
      .deliver 1, .wake 1, .call 1 false]
  have hreach := (system 2 (fun _ => true) 0).reach_of_run nobodyWrites begin rfl labels rfl
  exact ⟨_, delivers_once 2 (fun _ => true) 0 (hreach.mono fun _ _ => guarded_of_nobodyWrites),
    rfl, rfl, rfl⟩

/-- Threads 1 and 2 complete the two futures and both read `is_set_` as false. -/
def bothRead : List (Label (Fin 3)) :=
  [.act 0 .pending, .act 0 .pending, .act 0 .go, .act 1 (.complete 0), .act 2 (.complete 1),
    .act 1 .go, .act 2 .go, .act 1 .go, .call 1 false, .act 1 .go, .act 1 .go, .call 1 false,
    .deliver 1, .wake 1, .call 1 false, .act 2 .go, .call 2 false, .act 2 .go, .call 2 false]

/-- The second of two callbacks can throw into the `set_value` of its own future. -/
theorem callback_threw : ¬ ∀ s : State (Fin 3), (system 2 (fun _ => true) 0).Reachable s →
    DeliversOnce s := by
  intro hall
  have hreach :=
    ((system 2 (fun _ => true) 0).reach_of_run (fun _ _ => true) begin rfl bothRead rfl).reachable
  exact (hall _ hreach).quiet 2 1 false rfl

end AsyncAny

end GreenThread
