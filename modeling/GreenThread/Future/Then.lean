import GreenThread.Future.Code
import Mathlib.Data.List.Count
import Mathlib.Data.List.GetD
import Mathlib.Data.List.Induction

/-!
# Continuations attached with `then`

`future::then`, `detail::set_promise_value` and the loop of `mark_ready_and_notify_`, run by one
thread: a continuation is called by the loop of its source, or at once when the source is ready, and
the value it returns is set on the promise of the derived future, whose own continuations run inside
that. Nothing catches what a continuation throws. It leaves the loop, which skips the continuations
that follow, and then the `set_value`, the destructor or the `then` it was called from, and the
derived future gets nothing.

A shared state of a `void` future holds the value `none`.
-/

namespace GreenThread

namespace Then

open Future (Content Exn)

variable {V E : Type}

/-- What a future is completed with. -/
abbrev Outcome (V E : Type) := Content (Option V) E

/-- What a call throws. -/
inductive Thrown (E : Type)
  | exn (x : Exn E)
  | promiseAlreadySatisfied
  deriving DecidableEq, Repr

/-- A continuation, with the overload of `set_promise_value` its result selects. It is called with
the future it is attached to, which is ready. -/
inductive Fn (V E : Type)
  | void (body : Outcome V E → Except (Exn E) Unit)
  | value (body : Outcome V E → Except (Exn E) V)

def Fn.call : Fn V E → Outcome V E → Except (Exn E) (Option V)
  | .void body, x => (body x).map fun _ => none
  | .value body, x => (body x).map some

/-- The `waiter` of `then`: the source `src_`, the continuation `f_` and the shared state of the
promise `p_`. -/
structure Waiter (V E : Type) where
  src : Nat
  f : Fn V E
  p : Nat

structure SharedState (V E : Type) where
  /-- what `get_` finds, once `ready_` is true -/
  content : Option (Outcome V E)
  extWaiters : List (Waiter V E)

/-- Shared states are numbered as they are made; the source is 0. `calls` lists the derived futures
whose continuations have been called. -/
structure Heap (V E : Type) where
  state : Nat → SharedState V E
  next : Nat
  calls : List Nat

namespace Heap

variable (h : Heap V E)

def setState (k : Nat) (x : SharedState V E) :
    Heap V E := { h with state := Function.update h.state k x }

def setContent (k : Nat) (x : Outcome V E) :
    Heap V E := h.setState k { h.state k with content := some x }

def called (p : Nat) : Heap V E := { h with calls := h.calls ++ [p] }

def start : Heap V E := ⟨fun _ => ⟨none, []⟩, 1, []⟩

theorem setState_self (k : Nat) (x : SharedState V E) :
    (h.setState k x).state k = x := Function.update_self ..

theorem setState_of_ne {j k : Nat} (hj : j ≠ k) (x : SharedState V E) :
    (h.setState k x).state j = h.state j :=
  Function.update_of_ne hj ..

theorem setContent_self (k : Nat) (x : Outcome V E) :
    ((h.setContent k x).state k).content = some x := by
  rw [setContent, setState_self]

theorem setContent_of_ne {j k : Nat} (hj : j ≠ k) (x : Outcome V E) :
    (h.setContent k x).state j = h.state j :=
  h.setState_of_ne hj _

theorem setContent_extWaiters (j k : Nat) (x : Outcome V E) :
    ((h.setContent k x).state j).extWaiters = (h.state j).extWaiters := by
  by_cases hj : j = k
  · rw [hj, setContent, setState_self]
  · rw [setContent_of_ne h hj]

end Heap

/-- What a step leaves: `none` when it does not end, and the exception that left it. -/
abbrev Run (V E : Type) := Option (Heap V E × Option (Thrown E))

/-- `waiter::invoke` with `set_promise_value`, where `set` is the `set_value` of the promise. -/
def invoke (set : Heap V E → Nat → Outcome V E → Run V E) (h : Heap V E)
    (w : Waiter V E) : Run V E :=
  match (h.state w.src).content with
  | none => none
  | some x =>
    match w.f.call x with
    | .ok v => set (h.called w.p) w.p (.value v)
    | .error e => some (h.called w.p, some (.exn e))

/-- The loop over `ext_waiters_`: an exception leaves it. -/
def notifyLoop (set : Heap V E → Nat → Outcome V E → Run V E) :
    List (Waiter V E) → Heap V E → Run V E
  | [], h => some (h, none)
  | w :: ws, h =>
    match invoke set h w with
    | some (h', none) => notifyLoop set ws h'
    | r => r

/-- `set_value` and `set_exception`, for calls that nest at most `fuel` deep. -/
def set : Nat → Heap V E → Nat → Outcome V E → Run V E
  | 0, _, _, _ => none
  | fuel + 1, h, k, x =>
    if (h.state k).content.isSome then some (h, some .promiseAlreadySatisfied)
    else notifyLoop (set fuel) (h.state k).extWaiters (h.setContent k x)

/-- The destructor of a promise. -/
def ownerDestroyed (h : Heap V E) (k : Nat) : Run V E :=
  if (h.state k).content.isSome then some (h, none) else set h.next h k (.except .brokenPromise)

/-- `future::then`. When the continuation throws, the waiter and its promise are destroyed and no
future is returned. -/
def andThen (h : Heap V E) (k : Nat) (f : Fn V E) : Run V E :=
  let w : Waiter V E := ⟨k, f, h.next⟩
  let made := { h with next := h.next + 1 }
  match (h.state k).content with
  | none => some (made.setState k { h.state k with extWaiters := (h.state k).extWaiters ++ [w] },
      none)
  | some _ =>
    match invoke (set made.next) made w with
    | some (h', some e) => (ownerDestroyed h' w.p).map fun r => (r.1, some e)
    | r => r

/-- How the source is completed. -/
inductive Completion (V E : Type)
  | setValue (v : Option V)
  | setException (e : E)
  | destroy
  deriving DecidableEq, Repr

def Completion.outcome : Completion V E → Outcome V E
  | .setValue v => .value v
  | .setException e => .except (.own e)
  | .destroy => .except .brokenPromise

def complete (h : Heap V E) : Completion V E → Run V E
  | .destroy => ownerDestroyed h 0
  | c => set h.next h 0 c.outcome

inductive Op (V E : Type)
  /-- `then` on the future `k`: the source, or the one an earlier `then` returned -/
  | attach (k : Nat) (f : Fn V E)
  | complete (c : Completion V E)

inductive Result (V E : Type)
  | returned (h : Heap V E)
  | threw (h : Heap V E) (e : Thrown E)
  /-- an exception left a destructor -/
  | terminated
  | stuck

def Run.result : Run V E → Result V E
  | some (h, none) => .returned h
  | some (h, some e) => .threw h e
  | none => .stuck

def step (h : Heap V E) : Op V E → Result V E
  | .attach k f => Run.result (andThen h k f)
  | .complete .destroy =>
    match Run.result (complete h .destroy) with
    | .threw _ _ => .terminated
    | r => r
  | .complete c => Run.result (complete h c)

/-- The program runs its operations until one throws. -/
def run : List (Op V E) → Heap V E → Result V E
  | [], h => .returned h
  | op :: ops, h =>
    match step h op with
    | .returned h' => run ops h'
    | r => r

/-! ### What the futures should hold -/

def attached : List (Op V E) → List (Nat × Fn V E)
  | [] => []
  | .attach k f :: ops => (k, f) :: attached ops
  | .complete _ :: ops => attached ops

def completions : List (Op V E) → List (Completion V E)
  | [] => []
  | .attach _ _ :: ops => completions ops
  | .complete c :: ops => c :: completions ops

/-- The result of a continuation, or the exception it throws. -/
def Fn.routed (f : Fn V E) (x : Outcome V E) : Outcome V E :=
  match f.call x with
  | .ok v => .value v
  | .error e => .except e

/-- The outcomes of the source and of the futures `then` returned, in order. -/
def outcomes (x : Outcome V E) (as : List (Nat × Fn V E)) : List (Outcome V E) :=
  as.foldl (fun outs a => outs ++ [a.2.routed (outs.getD a.1 x)]) [x]

/-- Nothing throws, every continuation is called once, and every derived future holds the result of
its continuation or the exception it threw. -/
def Propagates (ops : List (Op V E)) (c : Completion V E) : Prop :=
  ∃ h, run ops .start = .returned h ∧ ∀ i < (attached ops).length,
    (h.state (i + 1)).content = (outcomes c.outcome (attached ops))[i + 1]? ∧
    h.calls.count (i + 1) = 1

/-- No continuation throws when it is called with the outcome of its source. -/
def NoneThrows (ops : List (Op V E)) (c : Completion V E) : Prop :=
  ∀ (i k : Nat) (f : Fn V E), (attached ops)[i]? = some (k, f) →
    ∃ v, f.call ((outcomes c.outcome (attached ops)).getD k c.outcome) = .ok v

/-- `then` is called on futures that exist. -/
def WellFormed (ops : List (Op V E)) : Prop :=
  ∀ (i k : Nat) (f : Fn V E), (attached ops)[i]? = some (k, f) → k ≤ i

/-! ### The outcomes -/

theorem outcomes_concat (x : Outcome V E) (as : List (Nat × Fn V E)) (a : Nat × Fn V E) :
    outcomes x (as ++ [a]) = outcomes x as ++ [a.2.routed ((outcomes x as).getD a.1 x)] := by
  rw [outcomes, List.foldl_append]
  rfl

theorem length_outcomes (x : Outcome V E) (as : List (Nat × Fn V E)) :
    (outcomes x as).length = as.length + 1 := by
  induction as using List.reverseRecOn with
  | nil => rfl
  | append_singleton as a ih =>
    rw [outcomes_concat, List.length_append, ih, List.length_append, List.length_singleton,
      List.length_singleton]

theorem getD_outcomes (x : Outcome V E) (as : List (Nat × Fn V E))
    (hwf : ∀ (i k : Nat) (f : Fn V E), as[i]? = some (k, f) → k ≤ i) {i k : Nat} {f : Fn V E}
    (hget : as[i]? = some (k, f)) :
    (outcomes x as).getD (i + 1) x = f.routed ((outcomes x as).getD k x) := by
  induction as using List.reverseRecOn with
  | nil => cases hget
  | append_singleton as a ih =>
    have hlen := length_outcomes x as
    have hwf' : ∀ (i k : Nat) (f : Fn V E), as[i]? = some (k, f) → k ≤ i := by
      intro i k f h
      apply hwf i k f
      rw [List.getElem?_append_left (List.getElem?_eq_some_iff.mp h).1, h]
    have hk := hwf i k f hget
    rw [outcomes_concat]
    have hi := (List.getElem?_eq_some_iff.mp hget).1
    rw [List.length_append, List.length_singleton] at hi
    by_cases hlast : i = as.length
    · subst hlast
      rw [List.getElem?_append_right (Nat.le_refl _), Nat.sub_self, List.getElem?_cons_zero,
        Option.some.injEq] at hget
      subst hget
      have hmine : (outcomes x as ++ [f.routed ((outcomes x as).getD k x)]).getD (as.length + 1) x =
          f.routed ((outcomes x as).getD k x) := by
        rw [List.getD_append_right _ _ _ _ (by omega), hlen, Nat.sub_self]
        rfl
      rw [hmine, List.getD_append _ _ _ _ (by omega)]
    · rw [List.getElem?_append_left (by omega)] at hget
      rw [List.getD_append _ _ _ _ (by omega), List.getD_append _ _ _ _ (by omega)]
      exact ih hwf' hget

/-! ### The tree of futures -/

/-- The `then` calls `as` of a program, and the outcomes `outs` of its futures when no continuation
throws. -/
structure Plan (as : List (Nat × Fn V E)) (outs : Nat → Outcome V E) : Prop where
  le : ∀ {i k : Nat} {f : Fn V E}, as[i]? = some (k, f) → k ≤ i
  returns : ∀ {i k : Nat} {f : Fn V E}, as[i]? = some (k, f) →
    ∃ v, f.call (outs k) = .ok v ∧ outs (i + 1) = .value v

/-- The future `j` was returned by a `then` on `k`. -/
def Child (as : List (Nat × Fn V E)) (k j : Nat) : Prop := ∃ i f, as[i]? = some (k, f) ∧ j = i + 1

theorem Child.unique {as : List (Nat × Fn V E)} {k k' j : Nat} (h : Child as k j)
    (h' : Child as k' j) : k = k' := by
  obtain ⟨i, f, hi, rfl⟩ := h
  obtain ⟨i', f', hi', heq⟩ := h'
  obtain rfl : i = i' := Nat.succ.inj heq
  rw [hi, Option.some.injEq, Prod.mk.injEq] at hi'
  exact hi'.1

theorem Plan.lt {as : List (Nat × Fn V E)} {outs : Nat → Outcome V E}
    (hplan : Plan as outs) {k j : Nat} (h : Child as k j) : k < j := by
  obtain ⟨i, f, hi, rfl⟩ := h
  have hle := hplan.le hi
  omega

/-- The waiters of the heap are those of the first `m` calls of `then`. -/
structure Wired (as : List (Nat × Fn V E)) (m : Nat) (h : Heap V E) : Prop where
  next : h.next = m + 1
  src : ∀ {k w}, w ∈ (h.state k).extWaiters →
    w.src = k ∧ ∃ i, i < m ∧ as[i]? = some (k, w.f) ∧ w.p = i + 1
  all : ∀ {i k : Nat} {f : Fn V E}, i < m → as[i]? = some (k, f) →
    ∃ w ∈ (h.state k).extWaiters, w.p = i + 1
  distinct : ∀ k, ((h.state k).extWaiters.map Waiter.p).Nodup

/-- The call has made `j` ready. -/
def Newly (h h' : Heap V E) (j : Nat) :
    Prop := (h.state j).content = none ∧ (h'.state j).content ≠ none

instance (h h' : Heap V E) : DecidablePred (Newly h h') :=
  fun _ => inferInstanceAs (Decidable (_ ∧ _))

section

variable {as : List (Nat × Fn V E)} {outs : Nat → Outcome V E} {m : Nat} {h h' : Heap V E}

theorem Wired.child (hwired : Wired as m h) {k : Nat} {w : Waiter V E}
    (hw : w ∈ (h.state k).extWaiters) :
    Child as k w.p := by
  obtain ⟨-, i, -, hi, hp⟩ := hwired.src hw
  exact ⟨i, w.f, hi, hp⟩

theorem Wired.congr (hwired : Wired as m h) (hnext : h'.next = h.next)
    (hext : ∀ k, (h'.state k).extWaiters = (h.state k).extWaiters) : Wired as m h' where
  next := hnext.trans hwired.next
  src := fun hw => hwired.src (hext _ ▸ hw)
  all := fun hi hget => by
    rw [hext]
    exact hwired.all hi hget
  distinct := fun k => by
    rw [hext]
    exact hwired.distinct k

/-- A derived future is ready only after its source. -/
def Upward (as : List (Nat × Fn V E)) (h : Heap V E) : Prop :=
  ∀ {k j}, Child as k j → (h.state j).content ≠ none → (h.state k).content ≠ none

/-- What every call does that completes futures: it makes the `roots` ready, and the others follow
from their sources. -/
structure Completes (outs : Nat → Outcome V E) (roots : List Nat) (h h' : Heap V E) : Prop where
  next : h'.next = h.next
  ext : ∀ k, (h'.state k).extWaiters = (h.state k).extWaiters
  kept : ∀ {j}, (h.state j).content ≠ none → (h'.state j).content = (h.state j).content
  ready : ∀ {j}, j ∈ roots → (h'.state j).content ≠ none
  right : ∀ {j}, Newly h h' j → (h'.state j).content = some (outs j)
  /-- a future that becomes ready has its continuations called -/
  closed : ∀ {j}, Newly h h' j → ∀ w ∈ (h.state j).extWaiters, (h'.state w.p).content ≠ none
  follows : ∀ {j}, Newly h h' j → j ∈ roots ∨
    ∃ k, (∃ w ∈ (h.state k).extWaiters, w.p = j) ∧ Newly h h' k

/-- The continuations called are those of the futures in `p`, each once. -/
def Logs (h h' : Heap V E) (p : Nat → Prop) [DecidablePred p] : Prop :=
  ∃ l, h'.calls = h.calls ++ l ∧ ∀ j, l.count j = if p j then 1 else 0

theorem Completes.refl (h : Heap V E) : Completes outs [] h h where
  next := rfl
  ext := fun _ => rfl
  kept := fun _ => rfl
  ready := fun hj => by cases hj
  right := fun hnew => absurd hnew.1 hnew.2
  closed := fun hnew => absurd hnew.1 hnew.2
  follows := fun hnew => absurd hnew.1 hnew.2

theorem Completes.of_called {r : List Nat} {p : Nat} (c : Completes outs r (h.called p) h') :
    Completes outs r h h' :=
  ⟨c.next, c.ext, c.kept, c.ready, c.right, c.closed, c.follows⟩

theorem Completes.newly_trans {r r' : List Nat} {h₁ h₂ : Heap V E} (c : Completes outs r h h₁)
    (c' : Completes outs r' h₁ h₂) (j : Nat) : Newly h h₂ j ↔ Newly h h₁ j ∨ Newly h₁ h₂ j := by
  constructor
  · rintro ⟨hbefore, hafter⟩
    by_cases hmid : (h₁.state j).content = none
    · exact .inr ⟨hmid, hafter⟩
    · exact .inl ⟨hbefore, hmid⟩
  · rintro (⟨hbefore, hmid⟩ | ⟨hmid, hafter⟩)
    · refine ⟨hbefore, ?_⟩
      rw [c'.kept hmid]
      exact hmid
    · refine ⟨?_, hafter⟩
      by_contra hbefore
      apply hbefore
      rw [← c.kept hbefore]
      exact hmid

theorem Completes.trans {r r' : List Nat} {h₁ h₂ : Heap V E} (c : Completes outs r h h₁)
    (c' : Completes outs r' h₁ h₂) : Completes outs (r ++ r') h h₂ where
  next := c'.next.trans c.next
  ext := fun k => (c'.ext k).trans (c.ext k)
  kept := by
    intro j hj
    have hmid := c.kept hj
    rw [c'.kept (hmid ▸ hj), hmid]
  ready := by
    intro j hj
    rcases List.mem_append.mp hj with hj | hj
    · rw [c'.kept (c.ready hj)]
      exact c.ready hj
    · exact c'.ready hj
  right := by
    intro j hnew
    rcases (c.newly_trans c' j).mp hnew with hnew | hnew
    · rw [c'.kept hnew.2]
      exact c.right hnew
    · exact c'.right hnew
  closed := by
    intro j hnew w hw
    rcases (c.newly_trans c' j).mp hnew with hnew | hnew
    · have hready := c.closed hnew w hw
      rw [c'.kept hready]
      exact hready
    · exact c'.closed hnew w ((c.ext j).symm ▸ hw)
  follows := by
    intro j hnew
    rcases (c.newly_trans c' j).mp hnew with hold | hold
    · rcases c.follows hold with hroot | ⟨k, hlinked, hk⟩
      · exact .inl (List.mem_append_left _ hroot)
      · exact .inr ⟨k, hlinked, (c.newly_trans c' k).mpr (.inl hk)⟩
    · rcases c'.follows hold with hroot | ⟨k, hlinked, hk⟩
      · exact .inl (List.mem_append_right _ hroot)
      · exact .inr ⟨k, c.ext k ▸ hlinked, (c.newly_trans c' k).mpr (.inr hk)⟩

theorem Completes.upward {r : List Nat} (c : Completes outs r h h') (hwired : Wired as m h)
    (hup : Upward as h)
    (hroots : ∀ j ∈ r, ∀ k, Child as k j → (h.state k).content ≠ none) : Upward as h' := by
  intro k j hchild hj
  have hkept : (h.state k).content ≠ none → (h'.state k).content ≠ none := by
    intro hk
    rw [c.kept hk]
    exact hk
  by_cases hbefore : (h.state j).content = none
  · rcases c.follows ⟨hbefore, hj⟩ with hroot | ⟨k', ⟨w, hw, rfl⟩, hk'⟩
    · exact hkept (hroots j hroot k hchild)
    · rw [hchild.unique (hwired.child hw)]
      exact hk'.2
  · exact hkept (hup hchild hbefore)

theorem Upward.setContent {k : Nat} {x : Outcome V E} (hup : Upward as h)
    (hparent : ∀ p, Child as p k → (h.state p).content ≠ none) : Upward as (h.setContent k x) := by
  intro p j hchild hj
  have hp : (h.state p).content ≠ none := by
    by_cases hjk : j = k
    · exact hparent p (hjk ▸ hchild)
    · exact hup hchild (h.setContent_of_ne hjk x ▸ hj)
  by_cases hpk : p = k
  · rw [hpk, h.setContent_self]
    exact Option.some_ne_none _
  · rwa [h.setContent_of_ne hpk]

theorem newly_setContent {k : Nat} {x : Outcome V E} (j : Nat) :
    Newly (h.setContent k x) h' j ↔ Newly h h' j ∧ j ≠ k := by
  by_cases hj : j = k
  · refine iff_of_false (fun hnew => ?_) fun hnew => hnew.2 hj
    rw [Newly, hj, h.setContent_self] at hnew
    cases hnew.1
  · simp [Newly, h.setContent_of_ne hj, hj]

theorem Completes.of_setContent {k : Nat} (hnone : (h.state k).content = none)
    (c : Completes outs ((h.state k).extWaiters.map Waiter.p) (h.setContent k (outs k)) h') :
    Completes outs [k] h h' := by
  have hext := fun j => h.setContent_extWaiters j k (outs k)
  have hk : (h'.state k).content = some (outs k) := by
    rw [c.kept (by rw [h.setContent_self]; exact Option.some_ne_none _), h.setContent_self]
  have hready : (h'.state k).content ≠ none := by
    rw [hk]
    exact Option.some_ne_none _
  refine ⟨c.next, fun j => (c.ext j).trans (hext j), ?_, ?_, ?_, ?_, ?_⟩
  · intro j hj
    have hjk : j ≠ k := fun heq => hj (heq ▸ hnone)
    rw [c.kept (by rwa [h.setContent_of_ne hjk]), h.setContent_of_ne hjk]
  · intro j hj
    rwa [List.mem_singleton.mp hj]
  · intro j hnew
    by_cases hj : j = k
    · rw [hj, hk]
    · exact c.right ((newly_setContent j).mpr ⟨hnew, hj⟩)
  · intro j hnew w hw
    by_cases hj : j = k
    · subst hj
      exact c.ready (List.mem_map_of_mem hw)
    · exact c.closed ((newly_setContent j).mpr ⟨hnew, hj⟩) w ((hext j).symm ▸ hw)
  · intro j hnew
    by_cases hj : j = k
    · exact .inl (List.mem_singleton.mpr hj)
    · right
      rcases c.follows ((newly_setContent j).mpr ⟨hnew, hj⟩) with hroot | ⟨p, ⟨w, hw, hwp⟩, hp⟩
      · obtain ⟨w, hw, rfl⟩ := List.mem_map.mp hroot
        exact ⟨k, ⟨w, hw, rfl⟩, hnone, hready⟩
      · exact ⟨p, ⟨w, hext p ▸ hw, hwp⟩, ((newly_setContent p).mp hp).1⟩

/-! ### The loop -/

/-- What a `set_value` on a future that is not ready does, when it is called with its outcome. -/
def SetsAll (as : List (Nat × Fn V E)) (outs : Nat → Outcome V E) (m : Nat)
    (set : Heap V E → Nat → Outcome V E → Run V E) (k : Nat) : Prop :=
  ∀ h : Heap V E, Wired as m h → Upward as h → (∀ p, Child as p k → (h.state p).content ≠ none) →
    (h.state k).content = none → ∃ h', set h k (outs k) = some (h', none) ∧
    Completes outs [k] h h' ∧
      Logs h h' fun j => Newly h h' j ∧ j ≠ k

theorem notifyLoop_completes (hplan : Plan as outs)
    {set : Heap V E → Nat → Outcome V E → Run V E} {k : Nat}
    (hset : ∀ j, Child as k j → j ≤ m → SetsAll as outs m set j) {ws : List (Waiter V E)}
    (hwired : Wired as m h) (hup : Upward as h) (hk : (h.state k).content = some (outs k))
    (hws : ∀ w ∈ ws, w.src = k ∧ ∃ i, i < m ∧ as[i]? = some (k, w.f) ∧ w.p = i + 1)
    (hnodup : (ws.map Waiter.p).Nodup) (hunready : ∀ w ∈ ws, (h.state w.p).content = none) :
    ∃ h', notifyLoop set ws h = some (h', none) ∧ Completes outs (ws.map Waiter.p) h h' ∧
      Logs h h' (Newly h h') := by
  induction ws generalizing h with
  | nil =>
    refine ⟨h, rfl, Completes.refl h, [], by simp, fun j => ?_⟩
    have hnot : ¬ Newly h h j := fun hnew => hnew.2 hnew.1
    rw [if_neg hnot, List.count_nil]
  | cons w ws ih =>
    obtain ⟨hsrc, i, him, hget, hp⟩ := hws w List.mem_cons_self
    rw [List.map_cons, List.nodup_cons] at hnodup
    have hchild : Child as k w.p := ⟨i, w.f, hget, hp⟩
    obtain ⟨v, hcall, hout⟩ := hplan.returns hget
    rw [← hp] at hout
    -- the call of `w`, which sets its own future and what hangs from it
    have hmine : ∀ p, Child as p w.p → ((h.called w.p).state p).content ≠ none := by
      intro p hparent
      rw [hparent.unique hchild]
      show (h.state k).content ≠ none
      rw [hk]
      exact Option.some_ne_none _
    obtain ⟨h₁, hrun, hcompletes, l, hl, hcount⟩ := hset w.p hchild (by omega) (h.called w.p)
      (hwired.congr rfl fun _ => rfl) hup hmine (hunready w List.mem_cons_self)
    have hinvoke : invoke set h w = some (h₁, none) := by
      rw [invoke, hsrc, hk]
      simp only [hcall]
      rw [← hout]
      exact hrun
    have hcompletes : Completes outs [w.p] h h₁ := hcompletes.of_called
    have hrest : ∀ w' ∈ ws, (h₁.state w'.p).content = none := by
      intro w' hw'
      by_contra hready
      have hnew : Newly h h₁ w'.p := ⟨hunready w' (List.mem_cons_of_mem _ hw'), hready⟩
      rcases hcompletes.follows hnew with hroot | ⟨k', ⟨w'', hw'', hp''⟩, hk'⟩
      · apply hnodup.1
        rw [← List.mem_singleton.mp hroot]
        exact List.mem_map_of_mem hw'
      · obtain ⟨-, i', -, hget', hp'⟩ := hws w' (List.mem_cons_of_mem _ hw')
        obtain rfl := (hp'' ▸ hwired.child hw'').unique ⟨i', w'.f, hget', hp'⟩
        rw [hk'.1] at hk
        cases hk
    have hk₁ : (h₁.state k).content = some (outs k) := by
      rw [hcompletes.kept (by rw [hk]; exact Option.some_ne_none _), hk]
    obtain ⟨h₂, hrun₂, hcompletes₂, l₂, hl₂, hcount₂⟩ :=
      ih (hwired.congr hcompletes.next hcompletes.ext)
      (hcompletes.upward hwired hup fun j hj => List.mem_singleton.mp hj ▸ hmine) hk₁
      (fun w' hw' => hws w' (List.mem_cons_of_mem _ hw')) hnodup.2 hrest
    refine ⟨h₂, ?_, hcompletes.trans hcompletes₂, w.p :: (l ++ l₂), ?_, fun j => ?_⟩
    · rw [notifyLoop, hinvoke]
      exact hrun₂
    · rw [hl₂, hl]
      simp [Heap.called]
    · have hnew : Newly h h₁ w.p :=
        ⟨hunready w List.mem_cons_self, hcompletes.ready List.mem_cons_self⟩
      have hdisjoint : Newly h h₁ j → ¬ Newly h₁ h₂ j := fun h₁₁ h₂₂ => h₁₁.2 h₂₂.1
      have hcount : l.count j = if Newly h h₁ j ∧ j ≠ w.p then 1 else 0 := hcount j
      rw [List.count_cons, List.count_append, hcount, hcount₂]
      simp only [hcompletes.newly_trans hcompletes₂ j, beq_iff_eq]
      by_cases hj : w.p = j
      · subst hj
        simp [hnew, hdisjoint hnew]
      · by_cases h₁₁ : Newly h h₁ j
        · simp [h₁₁, hdisjoint h₁₁, hj, Ne.symm hj]
        · simp [h₁₁, hj]

/-- `set_value` on a future that is not ready completes it and everything that follows from it, with
fuel enough. -/
theorem set_completes (hplan : Plan as outs) (fuel k : Nat) (hkm : k ≤ m) (hfuel : m < fuel + k) :
    SetsAll as outs m (set fuel) k := by
  induction fuel generalizing k with
  | zero => omega
  | succ fuel ih =>
    intro h hwired hup hparent hnone
    have hset : ∀ j, Child as k j → j ≤ m → SetsAll as outs m (set fuel) j := by
      intro j hchild hj
      have hlt := hplan.lt hchild
      exact ih j hj (by omega)
    have hunready : ∀ w ∈ (h.state k).extWaiters,
      ((h.setContent k (outs k)).state w.p).content = none := by
      intro w hw
      have hlt := hplan.lt (hwired.child hw)
      rw [h.setContent_of_ne (by omega)]
      by_contra hready
      exact hup (hwired.child hw) hready hnone
    obtain ⟨h', hrun, hcompletes, l, hl, hcount⟩ :=
      notifyLoop_completes (h := h.setContent k (outs k)) hplan hset
      (hwired.congr rfl fun j => h.setContent_extWaiters j k _) (hup.setContent hparent)
        (h.setContent_self k _)
      (fun w hw => hwired.src hw) (hwired.distinct k) hunready
    refine ⟨h', ?_, hcompletes.of_setContent hnone, l, hl, fun j => ?_⟩
    · rw [set, hnone]
      exact hrun
    · rw [hcount j]
      simp only [newly_setContent j]

/-! ### Programs -/

/-- Before the source is completed. -/
structure Waiting (as : List (Nat × Fn V E)) (m : Nat) (h : Heap V E) : Prop where
  wired : Wired as m h
  blank : ∀ j, (h.state j).content = none
  calls : h.calls = []
  fresh : ∀ j, m < j → (h.state j).extWaiters = []

/-- After the source is completed. -/
structure Done (outs : Nat → Outcome V E) (m : Nat) (h : Heap V E) : Prop where
  next : h.next = m + 1
  content : ∀ j, j ≤ m → (h.state j).content = some (outs j)
  once : ∀ i, i < m → h.calls.count (i + 1) = 1
  fresh : ∀ j, m < j → h.state j = ⟨none, []⟩ ∧ h.calls.count j = 0

/-- The completion of the source completes every future made so far. -/
theorem Waiting.complete (hplan : Plan as outs) (hm : m ≤ as.length) (hwaiting : Waiting as m h) :
    ∃ h', set h.next h 0 (outs 0) = some (h', none) ∧ Done outs m h' := by
  have hnoparent : ∀ p, Child as p 0 → (h.state p).content ≠ none := by
    rintro p ⟨i, f, -, hzero⟩
    omega
  have hup : Upward as h := fun _ hj => absurd (hwaiting.blank _) hj
  have hset := set_completes (m := m) hplan h.next 0 (Nat.zero_le m)
    (by have := hwaiting.wired.next; omega)
  obtain ⟨h', hrun, hcompletes, l, hl, hcount⟩ :=
    hset h hwaiting.wired hup hnoparent (hwaiting.blank 0)
  rw [hwaiting.calls, List.nil_append] at hl
  have hready : ∀ j, j ≤ m → (h'.state j).content ≠ none := by
    intro j
    induction j using Nat.strongRecOn with
    | ind j ih =>
      intro hj
      rcases Nat.eq_zero_or_pos j with rfl | hpos
      · exact hcompletes.ready List.mem_cons_self
      · obtain ⟨i, rfl⟩ := Nat.exists_eq_add_one_of_ne_zero (Nat.ne_of_gt hpos)
        obtain ⟨⟨k, f⟩, hget⟩ : ∃ a, as[i]? = some a := ⟨_, List.getElem?_eq_getElem (by omega)⟩
        have hk := hplan.le hget
        obtain ⟨w, hw, hp⟩ := hwaiting.wired.all (by omega) hget
        rw [← hp]
        exact hcompletes.closed ⟨hwaiting.blank k, ih k (by omega) (by omega)⟩ w hw
  have hnewly : ∀ j, Newly h h' j ↔ j ≤ m := by
    intro j
    refine ⟨fun hnew => ?_, fun hj => ⟨hwaiting.blank j, hready j hj⟩⟩
    rcases hcompletes.follows hnew with hroot | ⟨k, ⟨w, hw, rfl⟩, -⟩
    · rw [List.mem_singleton.mp hroot]
      exact Nat.zero_le m
    · obtain ⟨-, i, hi, -, hp⟩ := hwaiting.wired.src hw
      omega
  refine ⟨h', hrun, ?_, fun j hj => hcompletes.right ((hnewly j).mpr hj), fun i hi => ?_,
    fun j hj => ⟨?_, ?_⟩⟩
  · rw [hcompletes.next, hwaiting.wired.next]
  · rw [hl, hcount]
    exact if_pos ⟨(hnewly _).mpr hi, by omega⟩
  · have hcontent : (h'.state j).content = none := by
      by_contra hnot
      have hle := (hnewly j).mp ⟨hwaiting.blank j, hnot⟩
      omega
    have hext := (hcompletes.ext j).trans (hwaiting.fresh j hj)
    revert hcontent hext
    cases h'.state j
    rintro rfl rfl
    rfl
  · rw [hl, hcount, if_neg]
    intro hnew
    have hle := (hnewly j).mp hnew.1
    omega

theorem Wired.attach {k : Nat} {f : Fn V E} (hwired : Wired as m h) (hget : as[m]? = some (k, f))
    (hnext' : h'.next = h.next + 1)
    (hext : ∀ j, (h'.state j).extWaiters =
      if j = k then (h.state j).extWaiters ++ [⟨k, f, h.next⟩] else (h.state j).extWaiters) : Wired
        as (m + 1) h' := by
  have hnext := hwired.next
  constructor
  · omega
  · intro j w hw
    rw [hext] at hw
    have hold : w ∈ (h.state j).extWaiters →
        w.src = j ∧ ∃ i, i < m + 1 ∧ as[i]? = some (j, w.f) ∧ w.p = i + 1 := by
      intro hw
      obtain ⟨hsrc, i, hi, hgeti, hp⟩ := hwired.src hw
      exact ⟨hsrc, i, by omega, hgeti, hp⟩
    split at hw
    · rename_i hj
      rcases List.mem_append.mp hw with hw | hw
      · exact hold hw
      · rw [List.mem_singleton.mp hw, hj]
        exact ⟨rfl, m, Nat.lt_succ_self m, hget, hnext⟩
    · exact hold hw
  · intro i j g hi hgeti
    rw [hext]
    by_cases him : i = m
    · subst him
      rw [hget, Option.some.injEq, Prod.mk.injEq] at hgeti
      obtain ⟨rfl, rfl⟩ := hgeti
      rw [if_pos rfl]
      exact ⟨_, List.mem_append_right _ (List.mem_singleton.mpr rfl), hnext⟩
    · obtain ⟨w, hw, hp⟩ := hwired.all (by omega) hgeti
      refine ⟨w, ?_, hp⟩
      split
      · exact List.mem_append_left _ hw
      · exact hw
  · intro j
    rw [hext]
    split
    · rw [List.map_append, List.map_cons, List.map_nil, ← List.concat_eq_append]
      apply (hwired.distinct j).concat
      intro hmem
      obtain ⟨w, hw, hp⟩ := List.mem_map.mp hmem
      obtain ⟨-, i, hi, -, hwp⟩ := hwired.src hw
      have hp : w.p = h.next := hp
      omega
    · exact hwired.distinct j

theorem Waiting.attach {k : Nat} {f : Fn V E} (hplan : Plan as outs) (hwaiting : Waiting as m h)
    (hget : as[m]? = some (k, f)) :
    ∃ h', andThen h k f = some (h', none) ∧ Waiting as (m + 1) h' := by
  have hkm := hplan.le hget
  have hrun : andThen h k f = some (({ h with next := h.next + 1 } : Heap V E).setState k
      { h.state k with extWaiters := (h.state k).extWaiters ++ [⟨k, f, h.next⟩] }, none) := by
    rw [andThen, hwaiting.blank k]
  have hext : ∀ j, ((({ h with next := h.next + 1 } : Heap V E).setState k
      { h.state k with extWaiters := (h.state k).extWaiters ++ [⟨k, f, h.next⟩] }).state
        j).extWaiters =
      if j = k then (h.state j).extWaiters ++ [⟨k, f, h.next⟩] else (h.state j).extWaiters := by
    intro j
    by_cases hj : j = k
    · rw [hj, Heap.setState_self, if_pos rfl]
    · rw [Heap.setState_of_ne _ hj, if_neg hj]
  refine ⟨_, hrun, hwaiting.wired.attach hget rfl hext, fun j => ?_, hwaiting.calls, fun j hj => ?_⟩
  · by_cases hj : j = k
    · rw [hj, Heap.setState_self]
      exact hwaiting.blank k
    · rw [Heap.setState_of_ne _ hj]
      exact hwaiting.blank j
  · rw [hext, if_neg (by omega)]
    exact hwaiting.fresh j (by omega)

theorem Done.attach {k : Nat} {f : Fn V E} (hplan : Plan as outs) (hdone : Done outs m h)
    (hget : as[m]? = some (k, f)) :
    ∃ h', andThen h k f = some (h', none) ∧ Done outs (m + 1) h' := by
  obtain ⟨v, hcall, hout⟩ := hplan.returns hget
  have hk : (h.state k).content = some (outs k) := hdone.content k (hplan.le hget)
  have hnext := hdone.next
  obtain ⟨hblank, hzero⟩ := hdone.fresh (m + 1) (Nat.lt_succ_self m)
  have hrun : andThen h k f =
    some (((({ h with next := h.next + 1 } : Heap V E).called (m + 1)).setContent (m + 1)
      (.value v)), none) := by
    simp [andThen, hk, invoke, hcall, set, hnext, Heap.called, hblank, notifyLoop]
  refine ⟨_, hrun, ?_⟩
  constructor
  · show h.next + 1 = m + 1 + 1
    omega
  · intro j hj
    by_cases hjm : j = m + 1
    · rw [hjm, hout, Heap.setContent_self]
    · rw [Heap.setContent_of_ne _ hjm]
      exact hdone.content j (by omega)
  · intro i hi
    show (h.calls ++ [m + 1]).count (i + 1) = 1
    rw [List.count_append, List.count_singleton]
    by_cases him : i = m
    · subst him
      simp [hzero]
    · rw [hdone.once i (by omega), if_neg (by simpa using Ne.symm him)]
  · intro j hj
    have hjm : j ≠ m + 1 := by omega
    obtain ⟨hstate, hcount⟩ := hdone.fresh j (by omega)
    rw [Heap.setContent_of_ne _ hjm]
    refine ⟨hstate, ?_⟩
    show (h.calls ++ [m + 1]).count j = 0
    rw [List.count_append, hcount, List.count_singleton, if_neg (by simpa using Ne.symm hjm)]

theorem Waiting.start : Waiting as 0 (Heap.start : Heap V E) where
  wired := ⟨rfl, fun hw => (by cases hw), fun hi => absurd hi (Nat.not_lt_zero _),
    fun _ => List.nodup_nil⟩
  blank := fun _ => rfl
  calls := rfl
  fresh := fun _ _ => rfl

theorem Waiting.step_complete (hplan : Plan as outs) (hm : m ≤ as.length)
    (hwaiting : Waiting as m h) {c : Completion V E} (hc : outs 0 = c.outcome) :
    ∃ h', step h (.complete c) = .returned h' ∧ Done outs m h' := by
  obtain ⟨h', hset, hdone⟩ := hwaiting.complete hplan hm
  rw [hc] at hset
  refine ⟨h', ?_, hdone⟩
  cases c with
  | setValue v => simp only [step, Then.complete, hset, Run.result]
  | setException e => simp only [step, Then.complete, hset, Run.result]
  | destroy =>
    have hdestroy : ownerDestroyed h 0 = some (h', none) := by
      rw [ownerDestroyed, hwaiting.blank 0]
      exact hset
    simp only [step, Then.complete, hdestroy, Run.result]

theorem drop_attached {as : List (Nat × Fn V E)} {m k : Nat} {f : Fn V E} {ops : List (Op V E)}
    (hrest : as.drop m = attached (.attach k f :: ops)) :
    as[m]? = some (k, f) ∧ as.drop (m + 1) = attached ops := by
  constructor
  · rw [← Nat.add_zero m, ← List.getElem?_drop, hrest]
    rfl
  · rw [← List.drop_drop, hrest]
    rfl

theorem Done.run (hplan : Plan as outs) (hdone : Done outs m h) {ops : List (Op V E)}
    (hnone : completions ops = []) (hrest : as.drop m = attached ops) :
    ∃ h', run ops h = .returned h' ∧ Done outs (m + (attached ops).length) h' := by
  induction ops generalizing m h with
  | nil => exact ⟨h, rfl, hdone⟩
  | cons op ops ih =>
    cases op with
    | complete c => cases hnone
    | attach k f =>
      obtain ⟨hget, hrest₁⟩ := drop_attached hrest
      obtain ⟨h₁, hrun, hdone₁⟩ := hdone.attach hplan hget
      obtain ⟨h₂, hrun₂, hdone₂⟩ := ih hdone₁ hnone hrest₁
      refine ⟨h₂, ?_, ?_⟩
      · rw [run, step, hrun]
        exact hrun₂
      · rw [attached, List.length_cons, Nat.add_comm _ 1, ← Nat.add_assoc]
        exact hdone₂

/-- A program that completes the source once. -/
theorem Waiting.run (hplan : Plan as outs) (hwaiting : Waiting as m h) (hm : m ≤ as.length)
    {ops : List (Op V E)}
    {c : Completion V E} (hone : completions ops = [c]) (hc : outs 0 = c.outcome)
    (hrest : as.drop m = attached ops) :
    ∃ h', run ops h = .returned h' ∧ Done outs (m + (attached ops).length) h' := by
  induction ops generalizing m h with
  | nil => cases hone
  | cons op ops ih =>
    cases op with
    | complete c' =>
      rw [completions, List.cons.injEq] at hone
      obtain ⟨rfl, hnone⟩ := hone
      obtain ⟨h₁, hstep, hdone⟩ := hwaiting.step_complete hplan hm hc
      obtain ⟨h₂, hrun₂, hdone₂⟩ := hdone.run hplan hnone hrest
      refine ⟨h₂, ?_, hdone₂⟩
      rw [Then.run, hstep]
      exact hrun₂
    | attach k f =>
      obtain ⟨hget, hrest₁⟩ := drop_attached hrest
      obtain ⟨h₁, hrun, hwaiting₁⟩ := hwaiting.attach hplan hget
      have hlt := (List.getElem?_eq_some_iff.mp hget).1
      obtain ⟨h₂, hrun₂, hdone₂⟩ := ih hwaiting₁ hlt hone hrest₁
      refine ⟨h₂, ?_, ?_⟩
      · rw [Then.run, step, hrun]
        exact hrun₂
      · rw [attached, List.length_cons, Nat.add_comm _ 1, ← Nat.add_assoc]
        exact hdone₂

end

/-! ### Derived futures hold values only -/

/-- No derived future holds an exception. -/
def Valued (h : Heap V E) : Prop := ∀ j, j ≠ 0 → ∀ x, (h.state j).content = some x →
    ∃ v, x = .value v

section

variable {h h' : Heap V E} {e : Option (Thrown E)}

theorem Valued.setContent (hvalued : Valued h) {k : Nat} {x : Outcome V E}
    (hx : k = 0 ∨ ∃ v, x = .value v) :
    Valued (h.setContent k x) := by
  intro j hj y hy
  by_cases hjk : j = k
  · subst hjk
    rw [Heap.setContent_self, Option.some.injEq] at hy
    rw [← hy]
    exact hx.resolve_left hj
  · rw [Heap.setContent_of_ne _ hjk] at hy
    exact hvalued j hj y hy

theorem Valued.invoke {set : Heap V E → Nat → Outcome V E → Run V E}
    (hset : ∀ {h h' : Heap V E} {k e v}, Valued h → set h k (.value v) = some (h', e) → Valued h')
    (hvalued : Valued h) {w : Waiter V E} (hrun : invoke set h w = some (h', e)) : Valued h' := by
  rw [Then.invoke] at hrun
  split at hrun
  · cases hrun
  · split at hrun
    · exact hset (h := h.called w.p) hvalued hrun
    · cases hrun
      exact hvalued

theorem Valued.notifyLoop {set : Heap V E → Nat → Outcome V E → Run V E}
    (hset : ∀ {h h' : Heap V E} {k e v}, Valued h → set h k (.value v) = some (h', e) → Valued h')
    {ws : List (Waiter V E)} (hvalued : Valued h) (hrun : notifyLoop set ws h = some (h', e)) :
    Valued h' := by
  induction ws generalizing h with
  | nil =>
    cases hrun
    exact hvalued
  | cons w ws ih =>
    rw [Then.notifyLoop] at hrun
    split at hrun
    · rename_i h₁ hinvoke
      exact ih (hvalued.invoke hset hinvoke) hrun
    · exact hvalued.invoke hset hrun

theorem Valued.set (fuel : Nat) {k : Nat} {x : Outcome V E} (hvalued : Valued h)
    (hx : k = 0 ∨ ∃ v, x = .value v) (hrun : set fuel h k x = some (h', e)) : Valued h' := by
  induction fuel generalizing h h' k x e with
  | zero => cases hrun
  | succ fuel ih =>
    rw [Then.set] at hrun
    split at hrun
    · cases hrun
      exact hvalued
    · exact (hvalued.setContent hx).notifyLoop (fun hv hr => ih hv (.inr ⟨_, rfl⟩) hr) hrun

theorem Valued.step (hvalued : Valued h) {op : Op V E} (hstep : step h op = .returned h') :
    Valued h' := by
  have hreturned : ∀ {r : Run V E}, Run.result r = .returned h' → r = some (h', none) := by
    intro r hr
    unfold Run.result at hr
    split at hr <;> cases hr
    rfl
  have hdestroyed : ownerDestroyed h 0 = some (h', none) → Valued h' := by
    intro hrun
    rw [ownerDestroyed] at hrun
    split at hrun
    · cases hrun
      exact hvalued
    · exact hvalued.set _ (.inl rfl) hrun
  cases op with
  | attach k f =>
    have hrun := hreturned hstep
    rw [andThen] at hrun
    split at hrun
    · cases hrun
      intro j hj x hx
      by_cases hjk : j = k
      · subst hjk
        rw [Heap.setState_self] at hx
        exact hvalued j hj x hx
      · rw [Heap.setState_of_ne _ hjk] at hx
        exact hvalued j hj x hx
    · split at hrun
      · rw [Option.map_eq_some_iff] at hrun
        obtain ⟨r, -, hr⟩ := hrun
        cases hr
      · exact Valued.invoke (fun hv hr => hv.set _ (.inr ⟨_, rfl⟩) hr)
          (h := { h with next := h.next + 1 }) hvalued hrun
  | complete c =>
    cases c with
    | setValue v => exact hvalued.set _ (.inl rfl) (hreturned hstep)
    | setException x => exact hvalued.set _ (.inl rfl) (hreturned hstep)
    | destroy =>
      rw [Then.step] at hstep
      split at hstep
      · cases hstep
      · exact hdestroyed (hreturned hstep)

theorem Valued.run (hvalued : Valued h) {ops : List (Op V E)} (hrun : run ops h = .returned h') :
    Valued h' := by
  induction ops generalizing h with
  | nil =>
    cases hrun
    exact hvalued
  | cons op ops ih =>
    rw [Then.run] at hrun
    split at hrun
    · rename_i h₁ hstep
      exact ih (hvalued.step hstep) hrun
    · exact hvalued.step hrun

end

/-! ### The result -/

theorem outcomes_zero (x : Outcome V E) (as : List (Nat × Fn V E)) :
    (outcomes x as).getD 0 x = x := by
  induction as using List.reverseRecOn with
  | nil => rfl
  | append_singleton as a ih =>
    have hlen := length_outcomes x as
    rw [outcomes_concat, List.getD_append _ _ _ _ (by omega)]
    exact ih

theorem NoneThrows.plan {ops : List (Op V E)} {c : Completion V E} (hwf : WellFormed ops)
    (hnone : NoneThrows ops c) :
    Plan (attached ops) fun j => (outcomes c.outcome (attached ops)).getD j c.outcome where
  le := hwf _ _ _
  returns := by
    intro i k f hget
    obtain ⟨v, hcall⟩ := hnone i k f hget
    refine ⟨v, hcall, ?_⟩
    rw [getD_outcomes _ _ hwf hget, Fn.routed, hcall]

/-- The claimed behaviour of `then` is what the code does exactly when no continuation throws. -/
theorem then_propagates_iff (ops : List (Op V E)) (c : Completion V E)
    (hone : completions ops = [c])
    (hwf : WellFormed ops) : Propagates ops c ↔ NoneThrows ops c := by
  constructor
  · rintro ⟨h, hrun, hall⟩ i k f hget
    have hi := (List.getElem?_eq_some_iff.mp hget).1
    have hcontent := (hall i hi).1
    have hlen := length_outcomes c.outcome (attached ops)
    rw [List.getElem?_eq_getElem (by omega), ← List.getD_eq_getElem _ c.outcome,
      getD_outcomes _ _ hwf hget] at hcontent
    have hvalued : Valued h := Valued.run (fun _ _ _ hx => (by cases hx)) hrun
    obtain ⟨v, hv⟩ := hvalued _ (Nat.succ_ne_zero i) _ hcontent
    rw [Fn.routed] at hv
    split at hv
    · exact ⟨_, ‹_›⟩
    · cases hv
  · intro hnone
    have hplan := hnone.plan hwf
    obtain ⟨h, hrun, hdone⟩ := Waiting.start.run hplan (Nat.zero_le _) hone (outcomes_zero _ _) rfl
    rw [Nat.zero_add] at hdone
    refine ⟨h, hrun, fun i hi => ⟨?_, hdone.once i hi⟩⟩
    have hlen := length_outcomes c.outcome (attached ops)
    rw [hdone.content _ (by omega), List.getD_eq_getElem _ _ (by omega),
      List.getElem?_eq_getElem (by omega)]

/-- The source is set after two calls of `then`. -/
def quiet : List (Op Nat Nat) :=
  [.attach 0 (.value fun _ => .ok 3), .attach 1 (.void fun _ => .ok ()),
    .complete (.setValue (some 1))]

theorem then_propagates_quiet : Propagates quiet (.setValue (some 1)) := by
  refine (then_propagates_iff quiet (.setValue (some 1)) rfl ?_).mpr ?_
  · intro i k f hget
    match i, hget with
    | 0, hget =>
      cases hget
      exact Nat.le_refl 0
    | 1, hget =>
      cases hget
      exact Nat.le_refl 1
  · intro i k f hget
    match i, hget with
    | 0, hget =>
      cases hget
      exact ⟨some 3, rfl⟩
    | 1, hget =>
      cases hget
      exact ⟨none, rfl⟩

/-- Two continuations of the source, of which the first throws. -/
def throwing : List (Op Nat Nat) :=
  [.attach 0 (.value fun _ => .error (.own 7)), .attach 0 (.value fun _ => .ok 3),
    .complete (.setValue (some 1))]

/-- What the first continuation throws leaves `set_value`. The second continuation is not called,
and no derived future becomes ready. -/
theorem then_throws : (∃ h, run throwing .start = .threw h (.exn (.own 7)) ∧ h.calls = [1] ∧
      (h.state 1).content = none ∧ (h.state 2).content = none) ∧
    completions throwing = [.setValue (some 1)] ∧ WellFormed throwing ∧
    ¬ Propagates throwing (.setValue (some 1)) := by
  refine ⟨⟨_, rfl, rfl, rfl, rfl⟩, rfl, ?_, ?_⟩
  · intro i k f hget
    match i, hget with
    | 0, hget =>
      cases hget
      exact Nat.le_refl 0
    | 1, hget =>
      cases hget
      exact Nat.zero_le 1
  · rintro ⟨h, hrun, -⟩
    cases hrun

end Then

end GreenThread
