import GreenThread.Future.Wakes
import GreenThread.Library.Ownership
import Mathlib.Logic.Equiv.Basic

/-!
# Single assignment

Programs that reach a shared state through promises and futures. A state is held by a promise, or by
the thread that destroys its promise until `owner_destroyed` has made it ready; the operations on
promises only pass states from one holder to another. The check of `ready_` and the two writes that
follow it are one section of `mtx_`, so that one of the racing setters wins and the others throw.
-/

namespace GreenThread

namespace Future

open Ownership

variable {V E π τ : Type} [DecidableEq π] [DecidableEq τ]

/-- The programs that use promises: a state is set through its promise only. -/
def promisesOnly : τ → Op V E π → Bool
  | _, .set _ _ | _, .ownerDestroyed _ => false
  | _, _ => true

/-- What has been done to each shared state. -/
structure Deeds (V E : Type) where
  /-- how often `ready_` went from false to true -/
  turns : Nat → Nat
  /-- the arguments of the `set_value` and `set_exception` that did not throw -/
  sets : Nat → List (Content V E)
  /-- the futures `get_future` has returned -/
  futures : Nat → Nat

/-- The program's own completion of a state: `broken_promise` is stored by `owner_destroyed`
only. -/
def setBy (p p' : Pos V E) : Option (Nat × Content V E) :=
  match p, p' with
  | .op (.setReady _ (.except .brokenPromise)) _, _ => none
  | .op (.setReady k x) _, .op (.setNotify _) _ => some (k, x)
  | _, _ => none

/-- The state whose future a step hands out. -/
def givenBy (s : Store V E π) (l : Label V E π τ) (s' : Store V E π) : Option Nat :=
  match l with
  | .act _ (.getFuture p) =>
    match s.promise p, s'.promise p with
    | some ⟨false, some k⟩, some ⟨true, _⟩ => some k
    | _, _ => none
  | _ => none

def Deeds.record (h : Deeds V E) (p p' : Pos V E) (s : Store V E π) (l : Label V E π τ)
    (s' : Store V E π) :
    Deeds V E where
  turns := fun k => if (s.state k).ready = false ∧ (s'.state k).ready = true then h.turns k + 1
    else h.turns k
  sets := fun k =>
    match setBy p p' with
    | some (k', x) => if k' = k then h.sets k ++ [x] else h.sets k
    | none => h.sets k
  futures := fun k => if givenBy s l s' = some k then h.futures k + 1 else h.futures k

def noDeeds : Deeds V E := ⟨fun _ => 0, fun _ => [], fun _ => 0⟩

/-- The runs of programs that use promises, watched. -/
def promises (green : τ → Bool) : TransitionSystem (State V E π τ × Deeds V E) (Label V E π τ) :=
  (system promisesOnly green).withHistory noDeeds
    fun h s l s' => h.record (pos s l.thread) (pos s' l.thread) s.shared l s'.shared

/-! ### The content of a state -/

/-- `value_` and `except_`. -/
def SharedState.fields (x : SharedState V E) : Option V × Option (Exn E) := (x.value, x.except)

def Content.fields : Content V E → Option V × Option (Exn E)
  | .value v => (some v, none)
  | .except e => (none, some e)

theorem Arg.content_ne (x : Arg V E) : x.content ≠ .except .brokenPromise := by
  cases x <;> simp [Arg.content]

theorem SharedState.content_of_fields {x : SharedState V E} {r : Content V E}
    (h : x.fields = r.fields) :
    x.content = some r := by
  cases r <;> simp_all [SharedState.fields, Content.fields, SharedState.content]

theorem SharedState.fields_store {x : SharedState V E} (h : x.fields = (none, none))
    (r : Content V E) : (x.store r).fields = r.fields := by
  cases r <;> simp_all [SharedState.fields, Content.fields, SharedState.store]

/-- What a thread at the frame knows of the content. -/
def Frame.Sees (s : Store V E π) : Frame V E → Prop
  | .setLock _ x => x ≠ .except .brokenPromise
  | .setStore k _ => (s.state k).ready = false ∧ (s.state k).fields = (none, none)
  | .setReady k x => (s.state k).ready = false ∧ (s.state k).fields = x.fields
  | .getRead k | .getEnd k none => (s.state k).ready = true
  | .getEnd k (some r) => (s.state k).ready = true ∧ (s.state k).content = some r
  | _ => True

def Pos.Sees (s : Store V E π) : Pos V E → Prop
  | .op f _ => f.Sees s
  | _ => True

/-- The state a thread is about to complete with what it has stored. -/
def Pos.completing : Pos V E → Option Nat
  | .op (.setReady k _) _ => some k
  | _ => none

/-- The state whose promise the thread destroys, until it is ready. -/
def Pos.dropping : Pos V E → Option Nat
  | .op (.dropLock k) _ | .op (.dropCheck k) _ | .op (.setCheck k (.except .brokenPromise)) _
  | .op (.setStore k (.except .brokenPromise)) _
  | .op (.setReady k (.except .brokenPromise)) _ => some k
  | _ => none

/-- The holders of the shared states: promises, and threads that destroy one. -/
def holder (pos : τ → Pos V E) (s : Store V E π) : π ⊕ τ → Option Nat
  | .inl p => (s.promise p).bind Promise.future
  | .inr t => (pos t).dropping

theorem holder_setPromise (pos : τ → Pos V E) (s : Store V E π) (q : π) (x : Option Promise) :
    holder pos (s.setPromise q x) = Function.update (holder pos s) (.inl q)
    (x.bind Promise.future) := by
  funext y
  cases y with
  | inl q' =>
    by_cases hq : q' = q
    · subst hq
      simp [holder, Store.setPromise]
    · simp [holder, Store.setPromise, hq]
  | inr u => simp [holder]

theorem holder_update (pos : τ → Pos V E) (s : Store V E π) (t : τ) (p : Pos V E) :
    holder (Function.update pos t p) s = Function.update (holder pos s) (.inr t) p.dropping := by
  funext y
  cases y with
  | inl q => simp [holder]
  | inr u =>
    by_cases hu : u = t
    · subst hu
      simp [holder]
    · simp [holder, hu]

/-! ### The operations on promises -/

variable {s s' : Store V E π} {p p' : Pos V E}

/-- What a thread that begins an operation does to the promises. -/
inductive Begins (pos : τ → Pos V E) (s : Store V E π) (t : τ) (o : Op V E π) :
    Pos V E → Store V E π → Prop
  /-- the states change holders -/
  | passes (p' : Pos V E) (s' : Store V E π) (σ : Equiv.Perm (π ⊕ τ)) :
      (∀ x, holder (Function.update pos t p') s' x = holder pos s (σ x)) →
      s'.nextState = s.nextState →
      s'.state = s.state →
      (∀ q x, s'.promise q = some x → x = .null ∨ ∃ q', s.promise q' = some x) →
      givenBy s (.act t o) s' = none → p'.Sees s' → Begins pos s t o p' s'
  | constructs (q : π) (c : Code) : pos t = .code c → s.promise q = none → o = .construct q →
      Begins pos s t o
      (.code c) { s.setPromise q (some ⟨false, some s.nextState⟩) with
        nextState := s.nextState + 1 }
  | gives (q : π) (k : Nat) (c : Code) : pos t = .code c → s.promise q = some ⟨false, some k⟩ →
      o = .getFuture q →
      Begins pos s t o (.code c) (s.setPromise q (some ⟨true, some k⟩))

section

variable {pos : τ → Pos V E} {t : τ} {c : Code}

private theorem Begins.untouched {o : Op V E π} (hpos : pos t = .code c)
    (hdrop : p'.dropping = none) (hsees : p'.Sees s') (hpromise : s'.promise = s.promise)
    (hnext : s'.nextState = s.nextState) (hstate : s'.state = s.state)
    (hgiven : givenBy s (.act t o) s' = none) :
    Begins pos s t o p' s' := by
  refine .passes _ _ (Equiv.refl _) (fun x => ?_) hnext hstate
    (fun q x hx => .inr ⟨q, by rwa [← hpromise]⟩) hgiven hsees
  cases x with
  | inl q => simp [holder, hpromise]
  | inr u =>
    by_cases hu : u = t
    · subst hu
      simp only [holder, Function.update_self, Equiv.refl_apply, hpos]
      exact hdrop
    · simp [holder, hu]

private theorem abandon_dropping (c : Code) (future : Option Nat) :
    (abandon c future : Pos V E).dropping = future := by
  cases future <;> rfl

omit [DecidableEq π] in
private theorem abandon_sees (c : Code) (future : Option Nat) (s : Store V E π) :
    (abandon c future : Pos V E).Sees s := by
  cases future <;> trivial

/-- A promise that was there before, or an empty one. -/
private def Comes (s : Store V E π) (y : Option Promise) : Prop :=
  ∀ x, y = some x → x = .null ∨ ∃ q, s.promise q = some x

omit [DecidableEq π] in
private theorem comes_promise (s : Store V E π) (q : π) :
    Comes s (s.promise q) := fun _ hx => .inr ⟨q, hx⟩

omit [DecidableEq π] in
private theorem comes_null (s : Store V E π) :
    Comes s (some .null) := fun _ hx => .inl (Option.some.inj hx).symm

private theorem comes_setPromise {q : π} {y : Option Promise} (h : ∀ q', Comes s (s'.promise q'))
    (hy : Comes s y) (q' : π) : Comes s ((s'.setPromise q y).promise q') := by
  by_cases hq : q' = q
  · subst hq
    simpa [Store.setPromise] using hy
  · simpa [Store.setPromise, hq] using h q'

omit [DecidableEq π] in
private theorem holder_stays (hpos : pos t = .code c) :
    holder (Function.update pos t (.code c)) s' = holder pos s' := by
  rw [← hpos, Function.update_eq_self]

theorem start_begins {o : Op V E π} (hpos : pos t = .code c) (hmay : promisesOnly t o = true)
    (hstart : start s c o = some (p', s')) : Begins pos s t o p' s' := by
  cases o with
  | go => cases hstart
  | set | ownerDestroyed => cases hmay
  | finish =>
    obtain ⟨p, hfinish, heq⟩ := Option.map_eq_some_iff.mp hstart
    cases heq
    cases c with
    | main => cases hfinish
    | continuation w caller below =>
      cases caller <;> cases hfinish <;> exact .untouched hpos rfl trivial rfl rfl rfl rfl
  | addWaiter k | get k read =>
    simp only [start, Option.ite_none_right_eq_some, Option.some.injEq, Prod.mk.injEq] at hstart
    obtain ⟨-, rfl, rfl⟩ := hstart
    exact .untouched hpos rfl trivial rfl rfl rfl rfl
  | setPromise q x =>
    simp only [start] at hstart
    split at hstart <;> cases hstart
    · exact .untouched hpos rfl trivial rfl rfl rfl rfl
    · exact .untouched hpos rfl (Arg.content_ne x) rfl rfl rfl rfl
  | construct q =>
    simp only [start] at hstart
    split at hstart
    · cases hstart
    · rename_i hq
      cases hstart
      exact .constructs q c hpos hq rfl
  | getFuture q =>
    simp only [start] at hstart
    split at hstart
    · cases hstart
    · rename_i x hq
      obtain ⟨obtained, future⟩ := x
      split at hstart <;> cases hstart
      · refine .untouched hpos rfl trivial rfl rfl rfl ?_
        cases obtained <;> simp [givenBy, hq]
      · rename_i hgiven
        obtain ⟨hobtained, hfuture⟩ := not_or.mp hgiven
        obtain ⟨k, rfl⟩ := Option.ne_none_iff_exists'.mp hfuture
        obtain rfl := (Bool.not_eq_true _).mp hobtained
        exact .gives q k c hpos hq rfl
  | moveConstruct q other =>
    simp only [start] at hstart
    split at hstart <;> cases hstart
    rename_i x hq hother
    refine .passes _ _ _ (congrFun (g := holder pos s ∘ Equiv.swap (.inl other) (.inl q)) ?_) rfl
      rfl
      (comes_setPromise (comes_setPromise (comes_promise s) (hother ▸ comes_promise s other))
        (comes_null s)) rfl trivial
    rw [holder_stays hpos, holder_setPromise, holder_setPromise, Equiv.comp_swap_eq_update]
    simp [holder, hq, hother, Promise.null]
  | swap q other =>
    simp only [start] at hstart
    split at hstart <;> cases hstart
    rename_i x y hq hother
    refine .passes _ _ _ (congrFun (g := holder pos s ∘ Equiv.swap (.inl other) (.inl q)) ?_) rfl
      rfl
      (comes_setPromise (comes_setPromise (comes_promise s) (hother ▸ comes_promise s other))
        (hq ▸ comes_promise s q))
      rfl trivial
    rw [holder_stays hpos, holder_setPromise, holder_setPromise, Equiv.comp_swap_eq_update]
    simp [holder, hq, hother]
  | moveAssign q other =>
    simp only [start] at hstart
    split at hstart
    · split at hstart <;> cases hstart
      rename_i x tmp hq hother _ old hold
      by_cases hqo : q = other
      · subst hqo
        obtain rfl : x = tmp := Option.some.inj (hq.symm.trans hother)
        obtain rfl : Promise.null = old := by simpa [Store.setPromise] using hold
        refine .untouched hpos rfl trivial ?_ rfl rfl rfl
        simp [Store.setPromise, ← hq]
      · obtain rfl : x = old := by simpa [Store.setPromise, hqo, hq] using hold
        -- the two promises are swapped, and the thread takes what `other` has then
        refine .passes _ _
          ((Equiv.swap (.inr t) (.inl other)).trans (Equiv.swap (.inl other) (.inl q)))
          (congrFun (g := (holder pos s ∘ Equiv.swap (.inl other) (.inl q)) ∘ Equiv.swap (.inr t)
            (.inl other)) ?_)
          rfl rfl
          (comes_setPromise (comes_setPromise (comes_promise s) (comes_null s))
            (hother ▸ comes_promise s other)) rfl
          (abandon_sees _ _ _)
        have hne : (Sum.inl other : π ⊕ τ) ≠ .inl q := fun heq => hqo (Sum.inl.inj heq).symm
        rw [holder_update, holder_setPromise, holder_setPromise, abandon_dropping,
          Function.update_comm hne,
          Equiv.comp_swap_eq_update, Equiv.comp_swap_eq_update]
        simp [holder, hq, hother, hpos, Pos.dropping, Promise.null]
    · cases hstart
  | destroy q =>
    simp only [start] at hstart
    split at hstart <;> cases hstart
    rename_i x hq
    refine .passes _ _ _ (congrFun (g := holder pos s ∘ Equiv.swap (.inr t) (.inl q)) ?_) rfl rfl
      (comes_setPromise (comes_promise s) (fun _ hx => by cases hx)) rfl (abandon_sees _ _ _)
    rw [holder_update, holder_setPromise, abandon_dropping, Equiv.comp_swap_eq_update]
    simp [holder, hq, hpos, Pos.dropping]

theorem Begins.state {o : Op V E π} (h : Begins pos s t o p' s') : s'.state = s.state := by
  cases h with
  | passes _ _ _ _ _ hstate => exact hstate
  | constructs | gives => rfl

end

/-! ### The steps inside an operation -/

/-- The steps of an operation that is under way, told by what they do to the content. -/
inductive Inner (s : Store V E π) : Pos V E → Pos V E → Store V E π → Prop
  | passes (k x c) : (s.state k).ready = false →
      Inner s (.op (.setCheck k x) c) (.op (.setStore k x) c) s
  | stores (k x c) : Inner s (.op (.setStore k x) c) (.op (.setReady k x) c)
      (s.setState k ((s.state k).store x))
  | turns (k x c) : Inner s (.op (.setReady k x) c) (.op (.setNotify k) c)
      (s.setState k { s.state k with ready := true })
  /-- the destructor of a promise finds its state ready -/
  | dropped (p p' : Pos V E) (k : Nat) : p.dropping = some k → (s.state k).ready = true →
      p'.dropping = none → p.completing = none →
      p'.completing = none → p'.Sees s → setBy p p' = none → Inner s p p' s
  | quiet (p p' : Pos V E) (s' : Store V E π) :
      (∀ k, (s'.state k).ready = (s.state k).ready ∧ (s'.state k).fields = (s.state k).fields) →
      s'.promise = s.promise → s'.nextState = s.nextState → p'.dropping = p.dropping →
      p.completing = none →
      p'.completing = none → (p.Sees s → p'.Sees s') → setBy p p' = none → Inner s p p' s'

omit [DecidableEq π] in
private theorem go_inner {f : Frame V E} {c : Code} (hgo : f.go s c = some (p', s')) :
    Inner s (.op f c) p' s' := by
  cases f with
  | setCheck k x =>
    cases hgo
    cases hready : (s.state k).ready with
    | false => exact .passes k x c hready
    | true =>
      have hquiet : x ≠ .except .brokenPromise →
        Inner s (.op (.setCheck k x) c) (.op (.setEnd k true) c) s := by
        intro hx
        refine .quiet _ _ _ (fun k => ⟨rfl, rfl⟩) rfl rfl ?_ rfl rfl (fun _ => trivial) rfl
        rcases x with v | e | _
        · rfl
        · rfl
        · exact absurd rfl hx
      rcases x with v | e | _
      · exact hquiet (by simp)
      · exact hquiet (by simp)
      · exact .dropped _ _ k rfl hready rfl rfl rfl trivial rfl
  | setStore k x =>
    cases hgo
    exact .stores k x c
  | setReady k x =>
    cases hgo
    exact .turns k x c
  | setBounds k =>
    cases hgo
    exact .quiet _ _ _ (fun k => ⟨rfl, rfl⟩) rfl rfl rfl rfl rfl (fun _ => trivial) rfl
  | setLoop k i n =>
    cases hgo
    split <;> exact .quiet _ _ _ (fun k => ⟨rfl, rfl⟩) rfl rfl rfl rfl rfl (fun _ => trivial) rfl
  | setRun k i n =>
    obtain ⟨w, -, heq⟩ := Option.map_eq_some_iff.mp hgo
    cases heq
    exact .quiet _ _ _ (fun k => ⟨rfl, rfl⟩) rfl rfl rfl rfl rfl (fun _ => trivial) rfl
  | dropCheck k =>
    cases hgo
    cases hready : (s.state k).ready with
    | false => exact .quiet _ _ _ (fun k => ⟨rfl, rfl⟩) rfl rfl rfl rfl rfl (fun _ => trivial) rfl
    | true => exact .dropped _ _ k rfl hready rfl rfl rfl trivial rfl
  | addCheck w =>
    cases hgo
    split <;> exact .quiet _ _ _ (fun k => ⟨rfl, rfl⟩) rfl rfl rfl rfl rfl (fun _ => trivial) rfl
  | addPush w =>
    cases hgo
    refine .quiet _ _ _ (fun k => ?_) rfl rfl rfl rfl rfl (fun _ => trivial) rfl
    by_cases hk : k = w.state
    · subst hk
      simp [Store.setState, SharedState.fields]
    · simp [Store.setState, hk]
  | addRun w =>
    cases hgo
    exact .quiet _ _ _ (fun k => ⟨rfl, rfl⟩) rfl rfl rfl rfl rfl (fun _ => trivial) rfl
  | getCheck k read =>
    cases hgo
    cases hready : (s.state k).ready <;> cases read <;>
      exact .quiet _ _ _ (fun k => ⟨rfl, rfl⟩) rfl rfl rfl rfl rfl (fun _ => by trivial) rfl
  | getRead k =>
    obtain ⟨x, hx, heq⟩ := Option.map_eq_some_iff.mp hgo
    cases heq
    exact .quiet _ _ _ (fun k => ⟨rfl, rfl⟩) rfl rfl rfl rfl rfl (fun h => ⟨h, hx⟩) rfl
  | _ => cases hgo

omit [DecidableEq π] in
private theorem ret_inner {f : Frame V E} {c : Code} {call : Call Nat Nat}
    (hcall : f.call = some call) (hsees : f.Sees s) : Inner s (.op f c) (f.ret c) s := by
  cases f with
  | setLock k x =>
    refine .quiet _ _ _ (fun k => ⟨rfl, rfl⟩) rfl rfl ?_ rfl rfl (fun _ => trivial) rfl
    rcases x with v | e | _
    · rfl
    · rfl
    · exact absurd rfl hsees
  | dropLock | setNotify | setUnlock | setRelock | setEnd | addLock | addUnlock | addRelock
  | addEnd | getLock
  | getWait | getEnd =>
    exact .quiet _ _ _ (fun k => ⟨rfl, rfl⟩) rfl rfl rfl rfl rfl (fun _ => trivial) rfl
  | _ => cases hcall

theorem LibStep.inner {o : Op V E π} (h : LibStep s p o p' s') (hcode : ∀ c, p ≠ .code c)
    (hsees : p.Sees s) :
    Inner s p p' s' := by
  cases h with
  | start => exact absurd rfl (hcode _)
  | go hgo => exact go_inner hgo
  | ret hcall => exact ret_inner hcall hsees

section

omit [DecidableEq π]

/-- Only a thread that is firm on a state that is not ready changes its content. -/
theorem Inner.stable (h : Inner s p p' s') (hsees : p.Sees s) (k : Nat) :
    ((s'.state k).ready = (s.state k).ready ∧ (s'.state k).fields = (s.state k).fields) ∨
      (p.firm = some k ∧ (s.state k).ready = false) := by
  cases h with
  | passes | dropped => exact .inl ⟨rfl, rfl⟩
  | quiet _ _ _ hstate => exact .inl (hstate k)
  | stores k' x c | turns k' x c =>
    by_cases hk : k = k'
    · subst hk
      exact .inr ⟨rfl, hsees.1⟩
    · exact .inl (by simp [Store.setState, hk])

theorem Inner.dropping (h : Inner s p p' s') :
    p'.dropping = p.dropping ∨
    (p'.dropping = none ∧ ∃ k, p.dropping = some k ∧ (s'.state k).ready = true) := by
  cases h with
  | passes k x c | stores k x c => exact .inl (by rcases x with v | e | _ <;> rfl)
  | dropped _ _ k hdrop hready hnone => exact .inr ⟨hnone, k, hdrop, hready⟩
  | quiet _ _ _ _ _ _ hdrop => exact .inl hdrop
  | turns k x c =>
    rcases x with v | e | _
    · exact .inl rfl
    · exact .inl rfl
    · exact .inr ⟨rfl, k, rfl, by simp [Store.setState]⟩

theorem Inner.promise (h : Inner s p p' s') :
    s'.promise = s.promise ∧ s'.nextState = s.nextState := by
  cases h with
  | quiet _ _ _ _ hpromise hnext => exact ⟨hpromise, hnext⟩
  | _ => exact ⟨rfl, rfl⟩

/-- What a thread sees stays when the states it is firm on and the ready ones do. -/
theorem Pos.Sees.stable (hsees : p.Sees s)
    (hstable : ∀ k, p.firm = some k ∨ (s.state k).ready = true →
      (s'.state k).ready = (s.state k).ready ∧ (s'.state k).fields = (s.state k).fields) :
      p.Sees s' := by
  have hcontent : ∀ {x y : SharedState V E}, x.fields = y.fields → x.content = y.content := by
    intro x y hxy
    rw [SharedState.fields, SharedState.fields, Prod.mk.injEq] at hxy
    rw [SharedState.content, SharedState.content, hxy.1, hxy.2]
  cases p with
  | code | failed => trivial
  | op f c =>
    cases f with
    | setLock => exact hsees
    | setStore k x | setReady k x =>
      obtain ⟨hready, hfields⟩ := hstable k (.inl rfl)
      exact ⟨hready.trans hsees.1, hfields.trans hsees.2⟩
    | getRead k => exact (hstable k (.inr hsees)).1.trans hsees
    | getEnd k result =>
      cases result with
      | none => exact (hstable k (.inr hsees)).1.trans hsees
      | some r =>
        obtain ⟨hready, hfields⟩ := hstable k (.inr hsees.1)
        exact ⟨hready.trans hsees.1, (hcontent hfields).trans hsees.2⟩
    | _ => trivial

end

/-! ### The invariant -/

/-- What has been recorded of a state fits what it holds. -/
structure Recorded (x : SharedState V E) (turns : Nat) (sets : List (Content V E)) : Prop where
  unset : x.ready = false → turns = 0 ∧ sets = []
  turned : x.ready = true → turns = 1 ∧ ((sets = [] ∧ x.fields = (none, some .brokenPromise)) ∨
    ∃ r, r ≠ .except .brokenPromise ∧ sets = [r] ∧ x.fields = r.fields)

theorem Recorded.congr {x y : SharedState V E} {turns : Nat} {sets : List (Content V E)}
    (h : Recorded x turns sets) (hready : y.ready = x.ready)
    (hfields : x.ready = true → y.fields = x.fields) :
    Recorded y turns sets where
  unset := fun hy => h.unset (hready ▸ hy)
  turned := fun hy => by
    rw [hfields (hready ▸ hy)]
    exact h.turned (hready ▸ hy)

structure Assigned (pos : τ → Pos V E) (s : Store V E π) (h : Deeds V E) : Prop where
  sees : ∀ t, (pos t).Sees s
  blank : ∀ {k}, (s.state k).ready = false → (∀ t, (pos t).completing ≠ some k) →
    (s.state k).fields = (none, none)
  exclusive : Exclusive (holder pos s)
  allocated : ∀ {k}, Owned (holder pos s) k → k < s.nextState
  orphan : ∀ {k}, k < s.nextState → ¬ Owned (holder pos s) k → (s.state k).ready = true
  recorded : ∀ k, Recorded (s.state k) (h.turns k) (h.sets k)
  futures : ∀ {q b k}, s.promise q = some ⟨b, some k⟩ → h.futures k = b.toNat
  futures_le : ∀ k, h.futures k ≤ 1
  fresh : ∀ {k}, s.nextState ≤ k → h.futures k = 0

section

variable {pos : τ → Pos V E} {h : Deeds V E} {t : τ} {l : Label V E π τ}

section

omit [DecidableEq π] [DecidableEq τ]

theorem Deeds.record_futures_ne (h : Deeds V E) (p p' : Pos V E) (hgiven : givenBy s l s' = none) :
    (h.record p p' s l s').futures = h.futures := by
  funext k
  simp [Deeds.record, hgiven]

theorem Deeds.record_sets_ne (h : Deeds V E) (hset : setBy p p' = none) :
    (h.record p p' s l s').sets = h.sets := by
  funext k
  simp [Deeds.record, hset]

theorem Deeds.record_turns_ne (h : Deeds V E) (p p' : Pos V E) {k : Nat}
    (hready : (s'.state k).ready = (s.state k).ready) :
    (h.record p p' s l s').turns k = h.turns k := by
  have hnot : ¬ ((s.state k).ready = false ∧ (s'.state k).ready = true) := by
    rintro ⟨hbefore, hafter⟩
    rw [hready, hbefore] at hafter
    cases hafter
  simp [Deeds.record, hnot]

theorem givenBy_of_promise (hpromise : s'.promise = s.promise) : givenBy s l s' = none := by
  unfold givenBy
  split
  · rw [hpromise]
    split
    · rename_i hbefore hafter
      rw [hbefore] at hafter
      cases hafter
    · rfl
  · rfl

end

namespace Assigned

variable (hassigned : Assigned pos s h)
  (hfirm : ∀ {t u k}, (pos t).firm = some k → (pos u).firm = some k → t = u)
include hassigned

omit [DecidableEq τ] [DecidableEq π] in
theorem sees_ne
    (hstable : ∀ k, ((s'.state k).ready = (s.state k).ready ∧
      (s'.state k).fields = (s.state k).fields) ∨
    ((pos t).firm = some k ∧ (s.state k).ready = false)) {u : τ} (hu : u ≠ t)
    (hfirm : ∀ {t u k}, (pos t).firm = some k → (pos u).firm = some k → t = u) :
    (pos u).Sees s' := by
  refine (hassigned.sees u).stable fun k hk => ?_
  rcases hstable k with hsame | ⟨htfirm, hready⟩
  · exact hsame
  · rcases hk with hufirm | hready'
    · exact absurd (hfirm hufirm htfirm) hu
    · exact Bool.noConfusion (hready'.symm.trans hready)

include hfirm in
omit [DecidableEq π] in
theorem inner_sees (hinner : Inner s (pos t) p' s') (u : τ) :
    (Function.update pos t p' u).Sees s' := by
  by_cases hu : u = t
  · subst hu
    rw [Function.update_self]
    have hsees := hassigned.sees u
    have hblank : ∀ {k}, (pos u).firm = some k → (pos u).completing = none →
      (s.state k).ready = false →
        (s.state k).fields = (none, none) := by
      intro k hmine hnone hready
      refine hassigned.blank hready fun v hv => ?_
      have hvfirm : (pos v).firm = some k := by
        unfold Pos.completing at hv
        split at hv
        · rename_i heq
          cases hv
          rw [heq]
          rfl
        · cases hv
      rw [hfirm hvfirm hmine, hnone] at hv
      cases hv
    generalize pos u = p at hinner hsees hblank
    cases hinner with
    | passes k x c hready => exact ⟨hready, hblank rfl rfl hready⟩
    | stores k x c =>
      refine ⟨?_, ?_⟩
      · cases x <;> simpa [Store.setState, SharedState.store] using hsees.1
      · simpa [Store.setState] using SharedState.fields_store hsees.2 x
    | turns k x c => trivial
    | dropped _ _ _ _ _ _ _ _ hafter => exact hafter
    | quiet _ _ _ _ _ _ _ _ _ hafter => exact hafter hsees
  · rw [Function.update_of_ne hu]
    exact hassigned.sees_ne (hinner.stable (hassigned.sees t)) hu hfirm

omit [DecidableEq π] in
theorem inner_blank (hinner : Inner s (pos t) p' s') {k : Nat} (hready : (s'.state k).ready = false)
    (hnone : ∀ u, (Function.update pos t p' u).completing ≠ some k) :
    (s'.state k).fields = (none, none) := by
  have hmine := hnone t
  rw [Function.update_self] at hmine
  have hblank : (s.state k).ready = false → (pos t).completing ≠ some k →
    (s.state k).fields = (none, none) := by
    intro hready ht
    refine hassigned.blank hready fun u => ?_
    by_cases hu : u = t
    · rwa [hu]
    · have := hnone u
      rwa [Function.update_of_ne hu] at this
  generalize pos t = p at hinner hblank
  cases hinner with
  | passes k' x c => exact hblank hready (by simp [Pos.completing])
  | dropped _ _ _ _ _ _ hcompleting => exact hblank hready (by simp [hcompleting])
  | quiet _ _ _ hstate _ _ _ hcompleting =>
    rw [(hstate k).2]
    exact hblank ((hstate k).1.symm.trans hready) (by simp [hcompleting])
  | stores k' x c =>
    have hk : k ≠ k' := fun heq => hmine (by rw [heq]; rfl)
    simp only [Store.setState, Function.update_of_ne hk] at hready ⊢
    exact hblank hready (by simp [Pos.completing])
  | turns k' x c =>
    by_cases hk : k = k'
    · subst hk
      simp [Store.setState] at hready
    · simp only [Store.setState, Function.update_of_ne hk] at hready ⊢
      exact hblank hready (by simp [Pos.completing, Ne.symm hk])

omit [DecidableEq π] [DecidableEq τ] in
theorem inner_recorded (hinner : Inner s (pos t) p' s') (k : Nat) :
    Recorded (s'.state k) ((h.record (pos t) p' s l s').turns k)
    ((h.record (pos t) p' s l s').sets k) := by
  have hsees := hassigned.sees t
  have hsame : ∀ {p : Pos V E}, (s'.state k).ready = (s.state k).ready →
      ((s.state k).ready = true → (s'.state k).fields = (s.state k).fields) →
      (h.record p p' s l s').sets k = h.sets k →
      Recorded (s'.state k) ((h.record p p' s l s').turns k) ((h.record p p' s l s').sets k) := by
    intro p hready hfields hsets
    rw [h.record_turns_ne _ _ hready, hsets]
    exact (hassigned.recorded k).congr hready hfields
  have hunset : ∀ {p : Pos V E}, setBy p p' = none → (h.record p p' s l s').sets k = h.sets k :=
    fun hset => by
    rw [h.record_sets_ne hset]
  generalize pos t = p at hinner hsees
  cases hinner with
  | passes k' x c => exact hsame rfl (fun _ => rfl) (hunset (by rcases x with v | e | _ <;> rfl))
  | dropped _ _ _ _ _ _ _ _ _ hset => exact hsame rfl (fun _ => rfl) (hunset hset)
  | quiet _ _ _ hstate _ _ _ _ _ _ hset =>
    exact hsame (hstate k).1 (fun _ => (hstate k).2) (hunset hset)
  | stores k' x c =>
    refine hsame ?_ (fun hk => ?_) (hunset (by rcases x with v | e | _ <;> rfl))
    · by_cases hk : k = k'
      · subst hk
        cases x <;> simp [Store.setState, SharedState.store]
      · simp [Store.setState, hk]
    · have hne : k ≠ k' := by
        rintro rfl
        exact Bool.noConfusion (hk.symm.trans hsees.1)
      simp [Store.setState, hne]
  | turns k' x c =>
    by_cases hk : k' = k
    · subst hk
      obtain ⟨hturns, hsets⟩ := (hassigned.recorded k').unset hsees.1
      have hfields : ((s.setState k' { s.state k' with ready := true }).state k').fields =
        x.fields := by
        simpa [Store.setState, SharedState.fields] using hsees.2
      refine ⟨fun hready => ?_, fun _ => ⟨?_, ?_⟩⟩
      · simp [Store.setState] at hready
      · have hbefore : (s.state k').ready = false := hsees.1
        simp [Deeds.record, Store.setState, hbefore, hturns]
      · rcases x with v | e | _
        · exact .inr ⟨_, by simp, by simp [Deeds.record, setBy, hsets], hfields⟩
        · exact .inr ⟨_, by simp, by simp [Deeds.record, setBy, hsets], hfields⟩
        · exact .inl ⟨by simp [Deeds.record, setBy, hsets], hfields⟩
    · refine hsame (by simp [Store.setState, Ne.symm hk])
        (fun _ => by simp [Store.setState, Ne.symm hk]) ?_
      rcases x with v | e | _ <;> simp [Deeds.record, setBy, hk]

include hfirm in
omit [DecidableEq π] in
theorem step_inner (hinner : Inner s (pos t) p' s') :
    Assigned (Function.update pos t p') s' (h.record (pos t) p' s l s') := by
  obtain ⟨hpromise, hnext⟩ := hinner.promise
  have hgiven : givenBy s l s' = none := givenBy_of_promise hpromise
  have hfutures := h.record_futures_ne (pos t) p' hgiven
  have hle : ∀ x k, holder (Function.update pos t p') s' x = some k → holder pos s x = some k := by
    intro x k hx
    cases x with
    | inl q => simpa [holder, hpromise] using hx
    | inr u =>
      by_cases hu : u = t
      · subst hu
        simp only [holder, Function.update_self] at hx ⊢
        rcases hinner.dropping with heq | ⟨hnone, -⟩
        · rwa [← heq]
        · rw [hnone] at hx
          cases hx
      · simpa [holder, hu] using hx
  refine ⟨hassigned.inner_sees hfirm hinner, hassigned.inner_blank hinner,
    hassigned.exclusive.of_le hle,
    fun ⟨x, hx⟩ => ?_, fun {k} hk hnone => ?_, hassigned.inner_recorded hinner, ?_, ?_, ?_⟩
  · rw [hnext]
    exact hassigned.allocated ⟨x, hle _ _ hx⟩
  · by_cases howned : Owned (holder pos s) k
    · obtain ⟨x, hx⟩ := howned
      by_contra hready
      refine hnone ⟨x, ?_⟩
      cases x with
      | inl q => simpa [holder, hpromise] using hx
      | inr u =>
        by_cases hu : u = t
        · subst hu
          simp only [holder, Function.update_self] at hx ⊢
          rcases hinner.dropping with heq | ⟨-, k', hk', hready'⟩
          · rwa [heq]
          · rw [hk', Option.some.injEq] at hx
            exact absurd (hx ▸ hready') hready
        · simpa [holder, hu] using hx
    · have hready := hassigned.orphan (hnext ▸ hk) howned
      rcases hinner.stable (hassigned.sees t) k with ⟨hsame, -⟩ | ⟨-, hnot⟩
      · rw [hsame, hready]
      · exact Bool.noConfusion (hready.symm.trans hnot)
  · intro q b k hq
    rw [hfutures]
    exact hassigned.futures (hpromise ▸ hq)
  · rw [hfutures]
    exact hassigned.futures_le
  · intro k hk
    rw [hfutures]
    exact hassigned.fresh (hnext ▸ hk)

omit [DecidableEq π] in
private theorem begins_states (p' : Pos V E) (s' : Store V E π) {c : Code} (hpos : pos t = .code c)
    (hstate : s'.state = s.state) (hsees : p'.Sees s') :
    (∀ u, (Function.update pos t p' u).Sees s') ∧
    (∀ {k}, (s'.state k).ready = false → (∀ u, (Function.update pos t p' u).completing ≠ some k) →
      (s'.state k).fields = (none, none)) ∧
    ∀ k, Recorded (s'.state k) ((h.record (pos t) p' s l s').turns k)
    ((h.record (pos t) p' s l s').sets k) := by
  have hset : setBy (pos t) p' = none := by rw [hpos]; rfl
  refine ⟨fun u => ?_, fun {k} hready hnone => ?_, fun k => ?_⟩
  · by_cases hu : u = t
    · rwa [hu, Function.update_self]
    · rw [Function.update_of_ne hu]
      exact (hassigned.sees u).stable fun k _ => by rw [hstate]; exact ⟨rfl, rfl⟩
  · rw [hstate] at hready ⊢
    refine hassigned.blank hready fun u => ?_
    by_cases hu : u = t
    · simp [hu, hpos, Pos.completing]
    · have hother := hnone u
      rwa [Function.update_of_ne hu] at hother
  · rw [h.record_turns_ne _ _ (by rw [hstate]), h.record_sets_ne hset, hstate]
    exact hassigned.recorded k

/-- The operations on promises keep the invariant. -/
theorem step_begins {c : Code} {o : Op V E π} (hpos : pos t = .code c)
    (hbegins : Begins pos s t o p' s') :
    Assigned (Function.update pos t p') s' (h.record (pos t) p' s (.act t o) s') := by
  cases hbegins with
  | passes _ _ σ hholder hnext hstate hpromise hgiven hsees =>
    obtain ⟨hsees', hblank', hrecorded'⟩ := hassigned.begins_states p' s' hpos hstate hsees
    have hfutures := h.record_futures_ne (pos t) p' hgiven
    refine ⟨hsees', hblank', hassigned.exclusive.perm σ hholder, fun howned => ?_,
      fun hk hnone => ?_,
      hrecorded', ?_, ?_, ?_⟩
    · rw [hnext]
      exact hassigned.allocated ((owned_perm σ hholder).mp howned)
    · rw [hstate]
      exact hassigned.orphan (hnext ▸ hk) fun howned => hnone ((owned_perm σ hholder).mpr howned)
    · intro q b k hq
      rw [hfutures]
      rcases hpromise q _ hq with heq | ⟨q', hq'⟩
      · cases heq
      · exact hassigned.futures hq'
    · rw [hfutures]
      exact hassigned.futures_le
    · intro k hk
      rw [hfutures]
      exact hassigned.fresh (hnext ▸ hk)
  | constructs q c' hcode hq ho =>
    subst ho
    obtain ⟨hsees', hblank', hrecorded'⟩ := hassigned.begins_states (.code c')
      { s.setPromise q (some ⟨false, some s.nextState⟩) with nextState := s.nextState + 1 }
        hpos rfl trivial
    have hholder : holder (Function.update pos t (.code c'))
        { s.setPromise q (some ⟨false, some s.nextState⟩) with nextState := s.nextState + 1 } =
        Function.update (holder pos s) (.inl q) (some s.nextState) := by
      rw [← hcode, Function.update_eq_self]
      exact holder_setPromise pos s q _
    have hnone : holder pos s (.inl q) = none := by simp [holder, hq]
    have hnew : ¬ Owned (holder pos s) s.nextState := fun howned =>
      Nat.lt_irrefl _ (hassigned.allocated howned)
    refine ⟨hsees', hblank', ?_, fun {k} howned => ?_, fun {k} hk hfree => ?_, hrecorded', ?_,
      hassigned.futures_le, ?_⟩
    · rw [hholder]
      exact hassigned.exclusive.gain hnew
    · rw [hholder, owned_gain hnone] at howned
      rcases howned with rfl | howned
      · exact Nat.lt_succ_self _
      · exact Nat.lt_succ_of_lt (hassigned.allocated howned)
    · rw [hholder, owned_gain hnone, not_or] at hfree
      exact hassigned.orphan (Nat.lt_of_le_of_ne (Nat.le_of_lt_succ hk) hfree.1) hfree.2
    · intro q' b k hq'
      by_cases heq : q' = q
      · subst heq
        simp only [Store.setPromise, Function.update_self, Option.some.injEq,
          Promise.mk.injEq] at hq'
        obtain ⟨rfl, rfl⟩ := hq'
        exact hassigned.fresh (Nat.le_refl _)
      · simp only [Store.setPromise, Function.update_of_ne heq] at hq'
        exact hassigned.futures hq'
    · exact fun hk => hassigned.fresh (Nat.le_of_succ_le hk)
  | gives q k c' hcode hq ho =>
    subst ho
    obtain ⟨hsees', hblank', hrecorded'⟩ := hassigned.begins_states (.code c')
      (s.setPromise q (some ⟨true, some k⟩)) hpos rfl trivial
    have hmine : holder pos s (.inl q) = some k := by simp [holder, hq]
    have hholder : holder (Function.update pos t (.code c'))
      (s.setPromise q (some ⟨true, some k⟩)) =
        holder pos s := by
      rw [← hcode, Function.update_eq_self, holder_setPromise, Option.bind_some, ← hmine,
        Function.update_eq_self]
    have hzero : h.futures k = 0 := hassigned.futures hq
    have hgiven : givenBy s (.act t (.getFuture q))
      (s.setPromise q (some ⟨true, some k⟩)) = some k := by
      simp [givenBy, hq, Store.setPromise]
    have hrecord : ∀ k', (h.record (pos t) (.code c') s (.act t (.getFuture q))
        (s.setPromise q (some ⟨true, some k⟩))).futures k' = if k = k' then 1
          else h.futures k' := by
      intro k'
      simp only [Deeds.record, hgiven, Option.some.injEq]
      split
      · rename_i heq
        rw [← heq, hzero]
      · rfl
    refine ⟨hsees', hblank', ?_, fun howned => ?_, fun hk hfree => ?_, hrecorded', ?_, ?_, ?_⟩
    · rw [hholder]
      exact hassigned.exclusive
    · rw [hholder] at howned
      exact hassigned.allocated howned
    · rw [hholder] at hfree
      exact hassigned.orphan hk hfree
    · intro q' b k' hq'
      rw [hrecord]
      by_cases heq : q' = q
      · subst heq
        simp only [Store.setPromise, Function.update_self, Option.some.injEq,
          Promise.mk.injEq] at hq'
        obtain ⟨rfl, rfl⟩ := hq'
        simp
      · simp only [Store.setPromise, Function.update_of_ne heq] at hq'
        have hne : k ≠ k' := by
          rintro rfl
          exact heq (Sum.inl.inj (hassigned.exclusive _ _ k (by simp [holder, hq']) hmine))
        rw [if_neg hne]
        exact hassigned.futures hq'
    · intro k'
      rw [hrecord]
      split
      · exact Nat.le_refl 1
      · exact hassigned.futures_le k'
    · intro k' hk'
      rw [hrecord, if_neg ?_]
      · exact hassigned.fresh hk'
      · rintro rfl
        exact absurd (hassigned.allocated ⟨_, hmine⟩) (Nat.not_lt.mpr hk')

end Assigned

end

/-! ### Runs -/

omit [DecidableEq π] [DecidableEq τ] in
theorem assigned_init :
    Assigned (fun _ => .code .main : τ → Pos V E) (Store.empty (π := π)) noDeeds where
  sees := fun _ => trivial
  blank := fun _ _ => rfl
  exclusive := fun x _ _ hx => by cases x <;> cases hx
  allocated := fun ⟨x, hx⟩ => by cases x <;> cases hx
  orphan := fun hk => absurd hk (Nat.not_lt_zero _)
  recorded := fun _ => ⟨fun _ => ⟨rfl, rfl⟩, fun hready => by cases hready⟩
  futures := fun hq => by cases hq
  futures_le := fun _ => Nat.zero_le 1
  fresh := fun _ => rfl

omit [DecidableEq π] [DecidableEq τ] in
theorem Deeds.record_same (h : Deeds V E) (p : Pos V E) (s : Store V E π) (l : Label V E π τ) :
    h.record p p s l s = h := by
  have hgiven : givenBy s l s = none := givenBy_of_promise rfl
  have hset : setBy p p = none := by
    cases p with
    | op f c =>
      cases f with
      | setReady k x => rcases x with v | e | _ <;> rfl
      | _ => rfl
    | _ => rfl
  have hturns : (h.record p p s l s).turns = h.turns := funext fun k => h.record_turns_ne p p rfl
  have hsets : (h.record p p s l s).sets = h.sets := h.record_sets_ne hset
  have hfutures : (h.record p p s l s).futures = h.futures := h.record_futures_ne p p hgiven
  cases h
  simp_all [Deeds.record]

/-- A promise owns a shared state. -/
def Owns (s : Store V E π) (q : π) (k : Nat) : Prop := ∃ b, s.promise q = some ⟨b, some k⟩

/-- A run of programs that use promises is steps of the library that keep the invariant. -/
theorem promises_step {sh sh' : State V E π τ × Deeds V E} {l : Label V E π τ}
    (hr : (promises fun _ => true).Reachable sh) (hassigned : Assigned (pos sh.1) sh.1.shared sh.2)
    (hstep : (promises fun _ => true).step sh l = some sh') :
    Assigned (pos sh'.1) sh'.1.shared sh'.2 ∧
      ∀ k, (sh.1.shared.state k).ready = true → (sh'.1.shared.state k).ready = true ∧
        (sh'.1.shared.state k).fields = (sh.1.shared.state k).fields := by
  obtain ⟨s, h⟩ := sh
  obtain ⟨s', hs', rfl⟩ := TransitionSystem.withHistory_step.mp hstep
  have hreach := hr.forget
  rcases reach_libStep hreach hs' with ⟨hpos, hshared⟩ | ⟨o, p', hlib, hpos, hlabel, hmay⟩
  · simp only [hpos, hshared, Deeds.record_same]
    exact ⟨hassigned, fun k hk => ⟨hk, trivial⟩⟩
  · simp only [hpos, Function.update_self]
    by_cases hcode : ∃ c, pos s l.thread = .code c
    · obtain ⟨c, hc⟩ := hcode
      have hl := hlabel (by rw [hc]; rfl)
      rw [hc] at hlib
      cases hlib with
      | start hstart =>
        have hbegins := start_begins hc (hmay c hc) hstart
        refine ⟨?_, fun k hk => ⟨hbegins.state ▸ hk, by rw [hbegins.state]⟩⟩
        have hstep := hassigned.step_begins hc hbegins
        rwa [← hl] at hstep
    · have hinner := hlib.inner (fun c hc => hcode ⟨c, hc⟩) (hassigned.sees _)
      refine ⟨hassigned.step_inner (fun ht hu => firm_unique hreach rfl rfl ht hu) hinner,
        fun k hk => ?_⟩
      rcases hinner.stable (hassigned.sees _) k with ⟨hready, hfields⟩ | ⟨-, hnot⟩
      · exact ⟨hready.trans hk, hfields⟩
      · exact Bool.noConfusion (hk.symm.trans hnot)

theorem reach_assigned {sh : State V E π τ × Deeds V E}
    (hr : (promises fun _ => true).Reachable sh) :
    Assigned (pos sh.1) sh.1.shared sh.2 := by
  refine hr.invariant (I := fun sh => Assigned (pos sh.1) sh.1.shared sh.2) (fun sh hinit => ?_)
    (fun sh l sh' hr hassigned _ hstep => (promises_step hr hassigned hstep).1)
  obtain ⟨s, h⟩ := sh
  obtain ⟨rfl, rfl⟩ := hinit
  exact assigned_init

theorem run_content {sh sh' : State V E π τ × Deeds V E}
    (hr : (promises fun _ => true).Reachable sh)
    {ls : List (Label V E π τ)} (hrun : (promises fun _ => true).run sh ls = some sh') {k : Nat}
    (hk : (sh.1.shared.state k).ready = true) :
    (sh'.1.shared.state k).ready = true ∧ (sh'.1.shared.state k).fields =
    (sh.1.shared.state k).fields := by
  induction ls generalizing sh with
  | nil =>
    cases hrun
    exact ⟨hk, rfl⟩
  | cons l ls ih =>
    obtain ⟨mid, hmid, hrest⟩ := Option.bind_eq_some_iff.mp hrun
    obtain ⟨hready, hfields⟩ := (promises_step hr (reach_assigned hr) hmid).2 k hk
    obtain ⟨hready', hfields'⟩ := ih (hr.step trivial hmid) hrest hready
    exact ⟨hready', hfields'.trans hfields⟩

/-- What single assignment says of a state of a run. -/
structure SingleAssignment (s : State V E π τ) (h : Deeds V E) : Prop where
  owner : ∀ q q' k, Owns s.shared q k → Owns s.shared q' k → q = q'
  futures : ∀ k, h.futures k ≤ 1
  turns : ∀ k, h.turns k ≤ 1
  sets : ∀ k x, x ∈ h.sets k → h.sets k = [x] ∧ (s.shared.state k).fields = x.fields
  /-- a state no promise owns, when no destructor is at work on it -/
  abandoned : ∀ k, k < s.shared.nextState → (∀ q, ¬ Owns s.shared q k) →
    (∀ t, (pos s t).dropping ≠ some k) →
    (s.shared.state k).ready = true ∧
      ((s.shared.state k).content = some (.except .brokenPromise) ↔ h.sets k = [])
  /-- `get` has something to read, and returns what is stored -/
  readable : ∀ t k c, pos s t = .op (.getRead k) c → ∃ x, (s.shared.state k).content = some x
  got : ∀ t k x c, pos s t = .op (.getEnd k (some x)) c → (s.shared.state k).content = some x

omit [DecidableEq π] [DecidableEq τ] in
theorem Assigned.singleAssignment {s : State V E π τ} {h : Deeds V E}
    (hassigned : Assigned (pos s) s.shared h) :
    SingleAssignment s h where
  owner := by
    rintro q q' k ⟨b, hq⟩ ⟨b', hq'⟩
    exact Sum.inl.inj (hassigned.exclusive _ _ k (by simp [holder, hq]) (by simp [holder, hq']))
  futures := hassigned.futures_le
  turns := fun k => by
    cases hready : (s.shared.state k).ready with
    | false => exact Nat.le_of_lt_succ (by rw [((hassigned.recorded k).unset hready).1]; decide)
    | true => exact Nat.le_of_eq ((hassigned.recorded k).turned hready).1
  sets := fun k x hx => by
    cases hready : (s.shared.state k).ready with
    | false =>
      rw [((hassigned.recorded k).unset hready).2] at hx
      cases hx
    | true =>
      rcases ((hassigned.recorded k).turned hready).2 with ⟨hnil, -⟩ | ⟨r, -, hsets, hfields⟩
      · rw [hnil] at hx
        cases hx
      · rw [hsets, List.mem_singleton] at hx
        subst hx
        exact ⟨hsets, hfields⟩
  abandoned := fun k hk hnone hdrop => by
    have hready : (s.shared.state k).ready = true := by
      refine hassigned.orphan hk ?_
      rintro ⟨q | t, hheld⟩
      · obtain ⟨⟨b, future⟩, hq, hfuture⟩ := Option.bind_eq_some_iff.mp hheld
        exact hnone q ⟨b, by rw [hq]; exact congrArg _ (congrArg _ hfuture)⟩
      · exact hdrop t hheld
    refine ⟨hready, ?_⟩
    rcases ((hassigned.recorded k).turned hready).2 with ⟨hnil, hfields⟩ | ⟨r, hr, hsets, hfields⟩
    · exact iff_of_true (SharedState.content_of_fields (r := .except .brokenPromise) hfields) hnil
    · rw [SharedState.content_of_fields hfields, hsets]
      exact iff_of_false (fun heq => hr (Option.some.inj heq)) (List.cons_ne_nil _ _)
  readable := fun t k c ht => by
    have hsees := hassigned.sees t
    rw [ht] at hsees
    rcases ((hassigned.recorded k).turned hsees).2 with ⟨-, hfields⟩ | ⟨r, -, -, hfields⟩
    · exact ⟨_, SharedState.content_of_fields (r := .except .brokenPromise) hfields⟩
    · exact ⟨r, SharedState.content_of_fields hfields⟩
  got := fun t k x c ht => by
    have hsees := hassigned.sees t
    rw [ht] at hsees
    exact hsees.2

theorem LibStep.of_setter {o : Op V E π} {k : Nat} {x : Content V E} {c : Code}
    (h : LibStep s p o p' s') (hready : (s.state k).ready = true)
    (hp : p = .op (.setLock k x) c ∨ p = .op (.setCheck k x) c) :
    p' = .op (.setCheck k x) c ∨ p' = .op (.setEnd k true) c := by
  cases h with
  | start => rcases hp with hp | hp <;> cases hp
  | go hgo =>
    rcases hp with hp | hp <;> cases hp <;> cases hgo
    exact .inr (by rw [if_pos hready])
  | ret hcall =>
    rcases hp with hp | hp <;> cases hp <;> cases hcall
    exact .inl rfl

theorem satisfied_step {ok : State V E π τ → Label V E π τ → Prop} {may : τ → Op V E π → Bool}
    {green : τ → Bool}
    {s s' : State V E π τ} {l : Label V E π τ} (hr : (system may green).Reach ok s)
    (hstep : (system may green).step s l = some s') {t : τ} {k : Nat} {x : Content V E} {c : Code}
    (hready : (s.shared.state k).ready = true)
    (hpos : pos s t = .op (.setLock k x) c ∨ pos s t = .op (.setCheck k x) c) :
    pos s' t = pos s t ∨ pos s' t = .op (.setCheck k x) c ∨ pos s' t = .op (.setEnd k true) c := by
  rcases reach_libStep hr hstep with ⟨hsame, -⟩ | ⟨o, p', hlib, hupdate, -⟩
  · exact .inl (by rw [hsame])
  · by_cases ht : t = l.thread
    · subst ht
      rw [hupdate, Function.update_self]
      exact .inr (hlib.of_setter hready hpos)
    · exact .inl (by rw [hupdate, Function.update_of_ne ht])

end Future

end GreenThread
