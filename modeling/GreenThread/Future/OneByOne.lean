import GreenThread.Future.Callbacks
import Mathlib.Data.Fintype.Basic
import Mathlib.Data.List.Nodup

/-!
# Callbacks that run one after the other

The history of a run lists the futures whose callbacks were called, in order. When no callback is
called while another is under way, there is one callback under way at most, and it is the last of
the list.
-/

namespace GreenThread

namespace Callbacks

variable {β γ σ μ κ τ : Type} [DecidableEq τ] [DecidableEq μ] [DecidableEq κ]

/-- The callbacks that have been called. -/
def recordCall (called : List Nat) (s : State τ μ κ β γ σ) (l : Label τ)
    (_ : State τ μ κ β γ σ) : List Nat :=
  match l with
  | .act t .ready =>
    match s.pc t with
    | .user (.register i) => called ++ [i]
    | _ => called
  | .act _ (.complete i) => called ++ [i]
  | _ => called

/-- The threads and the list of the callbacks that have been called. -/
def logged (T : Task β γ σ μ κ) (green : τ → Bool) (w : τ) (d : σ) :
    TransitionSystem (State τ μ κ β γ σ × List Nat) (Label τ) :=
  (system T green w d).withHistory [] recordCall

/-- A callback is called only when none is under way. -/
def oneByOne (sh : State τ μ κ β γ σ × List Nat) : Label τ → Prop
  | .act _ .ready | .act _ (.complete _) => Calm sh.1
  | _ => True

variable {T : Task β γ σ μ κ} {green : τ → Bool} {w : τ} {d : σ} {s s' : State τ μ κ β γ σ}
    {called : List Nat} {l : Label τ}

/-- What a step does to the places of the threads, the data and the list. -/
inductive Moved (T : Task β γ σ μ κ) (s : State τ μ κ β γ σ) (called : List Nat)
    (s' : State τ μ κ β γ σ) (called' : List Nat) : Prop
  | calls {t p i inlined} (hcalm : Calm s) (hp : place s t = some p)
      (hunready : s.shared.ready i = false)
      (hplace : place s' = Function.update (place s) t (some (.callback i inlined T.first)))
      (hready : s'.shared.ready = Function.update s.shared.ready i true)
      (hdata : s'.shared.data = s.shared.data)
      (hcalled : called' = called ++ [i])
  | registers {t p q} (hp : place s t = some p) (hfrom : ∀ i inlined b, p ≠ .callback i inlined b)
      (hto : (∃ i, q = .register i) ∨ q = .after T.after)
      (hplace : place s' = Function.update (place s) t (some q))
      (hready : s'.shared.ready = s.shared.ready) (hdata : s'.shared.data = s.shared.data)
      (hcalled : called' = called)
  | goes {t i inlined b b' y} (hgo : T.go i b s.shared.data = some (b', y))
      (hp : place s t = some (.callback i inlined b))
      (hplace : place s' = Function.update (place s) t (some (.finish i inlined b')))
      (hready : s'.shared.ready = s.shared.ready) (hdata : s'.shared.data = y)
      (hcalled : called' = called)
  | goesAfter {t c c' y} (hgo : T.goAfter c s.shared.data = some (c', y))
      (hp : place s t = some (.after c))
      (hplace : place s' = Function.update (place s) t (some (.after c')))
      (hready : s'.shared.ready = s.shared.ready) (hdata : s'.shared.data = y)
      (hcalled : called' = called)
  | returns {t p call r} (hp : place s t = some p) (hcall : p.call T = some call)
      (hgives : call.Gives r)
      (hret : ∀ e, r ≠ .threw e)
      (hplace : place s' = Function.update (place s) t (some (p.ret T r)))
      (hshared : s'.shared = s.shared) (hcalled : called' = called)
  | none (hplace : place s' = place s) (hshared : s'.shared = s.shared) (hcalled : called' = called)

omit [DecidableEq τ] [DecidableEq μ] [DecidableEq κ] in
theorem recordCall_of_ne (hl : ∀ t o, l ≠ .act t o) : recordCall called s l s' = called := by
  cases l with
  | act t o => exact absurd rfl (hl t o)
  | _ => rfl

theorem step_moved {held : Pos β γ → μ → Prop} (hsafe : Safe (client (τ := τ) T) held)
    (hstart : ∀ m, ¬ held (.register 0) m ∧ ¬ held .idle m)
    {ok : State τ μ κ β γ σ → Label τ → Prop}
    (hr : (system T green w d).Reach ok s) (hok : oneByOne (s, called) l)
    (hstep : (system T green w d).step s l = some s') :
    Moved T s called s' (recordCall called s l s') := by
  have hkept := reach_kept hr
  rcases Machine.reach_place hsafe (initial_not_held hstart) hr hstep with
    ⟨t, o, p, q, rfl, hpc, hact, hplace⟩ |
      ⟨hl, hshared, p, call, r, hat, hcall, hgives, hret, -, hplace⟩ | ⟨hl, hshared, hplace, -⟩
  · have hp := place_of_user hpc
    have hregisters : p.registers = decide (t = w) := reach_registers hr hp
    -- a future that is completed or ready when it is registered with has not called its callback
    have hunready : ∀ {i}, p = .register i → i < T.count → s.shared.ready i = false := by
      rintro i rfl hi
      obtain rfl : t = w := of_decide_eq_true hregisters.symm
      have hnot := (not_congr (hkept.lt_iff i)).mp
        (by rw [registered_user hpc]; exact Nat.lt_irrefl i)
      simpa using (not_or.mp hnot).2
    cases p with
    | idle =>
      cases o with
      | complete i =>
        simp only [client, Pos.act, Option.ite_none_right_eq_some, Option.some.injEq,
          Prod.mk.injEq] at hact
        obtain ⟨hstored, rfl, hshared⟩ := hact
        exact .calls hok hp (hkept.pending i hstored) hplace (by rw [← hshared])
          (by rw [← hshared]) rfl
      | _ => cases hact
    | register i =>
      cases o with
      | ready =>
        simp only [client, Pos.act, Option.ite_none_right_eq_some, Option.some.injEq,
          Prod.mk.injEq] at hact
        obtain ⟨hi, rfl, hshared⟩ := hact
        refine .calls hok hp (hunready rfl hi) hplace (by rw [← hshared]) (by rw [← hshared]) ?_
        simp only [recordCall, hpc]
      | pending =>
        simp only [client, Pos.act, Option.ite_none_right_eq_some, Option.some.injEq,
          Prod.mk.injEq] at hact
        obtain ⟨hi, rfl, hshared⟩ := hact
        exact .registers hp (fun _ _ _ hq => by cases hq) (.inl ⟨_, rfl⟩) hplace (by rw [← hshared])
          (by rw [← hshared]) rfl
      | go =>
        simp only [client, Pos.act, Option.ite_none_left_eq_some, Option.some.injEq,
          Prod.mk.injEq] at hact
        obtain ⟨hi, rfl, hshared⟩ := hact
        exact .registers hp (fun _ _ _ hq => by cases hq) (.inr rfl) hplace (by rw [hshared])
          (by rw [hshared]) rfl
      | complete => cases hact
    | callback i inlined b =>
      cases o with
      | go =>
        obtain ⟨⟨b', y⟩, hgo, heq⟩ := Option.map_eq_some_iff.mp hact
        simp only [Prod.mk.injEq] at heq
        obtain ⟨rfl, hshared⟩ := heq
        exact .goes hgo hp hplace (by rw [← hshared]) (by rw [← hshared]) rfl
      | _ => cases hact
    | after c =>
      cases o with
      | go =>
        obtain ⟨⟨c', y⟩, hgo, heq⟩ := Option.map_eq_some_iff.mp hact
        simp only [Prod.mk.injEq] at heq
        obtain ⟨rfl, hshared⟩ := heq
        exact .goesAfter hgo hp hplace (by rw [← hshared]) (by rw [← hshared]) rfl
      | _ => cases hact
  · exact .returns hat hcall hgives hret hplace hshared (recordCall_of_ne hl)
  · exact .none hplace hshared (recordCall_of_ne hl)

theorem callback_of_finish {i j : Nat} {inlined inlined' : Bool} {b' : Option β} {b : β}
    (h : (Pos.finish i inlined b' : Pos β γ) = .callback j inlined' b) :
    j = i ∧ inlined' = inlined := by
  cases b' with
  | some b' =>
    cases h
    exact ⟨rfl, rfl⟩
  | none => cases inlined <;> cases h

/-- The callbacks that have been called are those of the futures that are ready, and at most the
last is under way. -/
structure Sequence (s : State τ μ κ β γ σ) (called : List Nat) : Prop where
  mem_iff : ∀ i, i ∈ called ↔ s.shared.ready i = true
  nodup : called.Nodup
  last : ∀ t i inlined b, place s t = some (.callback i inlined b) → called.getLast? = some i
  single : ∀ t u i j inlined inlined' b b', place s t = some (.callback i inlined b) →
    place s u = some (.callback j inlined' b') → t = u

namespace Sequence

variable {t : τ} {p q : Pos β γ}

omit [DecidableEq μ] [DecidableEq κ] in
theorem calls (h : Sequence s called) (hcalm : Calm s) {i : Nat} {inlined : Bool} {b : β}
    (hplace : place s' = Function.update (place s) t (some (.callback i inlined b)))
    (hready : s'.shared.ready = Function.update s.shared.ready i true)
    (hunready : s.shared.ready i = false) :
    Sequence s' (called ++ [i]) where
  mem_iff := by
    intro j
    rw [List.mem_append, List.mem_singleton, hready]
    by_cases hj : j = i
    · rw [hj, Function.update_self]
      exact iff_of_true (.inr rfl) rfl
    · rw [Function.update_of_ne hj, or_iff_left hj]
      exact h.mem_iff j
  nodup := by
    have hnot : i ∉ called := by
      rw [h.mem_iff, hunready]
      exact Bool.false_ne_true
    exact List.nodup_append.mpr ⟨h.nodup, List.nodup_singleton i, fun a ha b hb heq => by
      rw [List.mem_singleton.mp hb] at heq
      exact hnot (heq ▸ ha)⟩
  last := by
    intro u j inlined' b' hu
    rw [hplace] at hu
    rw [List.getLast?_append, List.getLast?_singleton, Option.some_or]
    by_cases hut : u = t
    · rw [hut, Function.update_self] at hu
      cases hu
      rfl
    · rw [Function.update_of_ne hut] at hu
      exact absurd hu (hcalm u j inlined' b')
  single := by
    have hat : ∀ u j inlined' b', place s' u = some (.callback j inlined' b') → u = t := by
      intro u j inlined' b' hu
      by_contra hut
      rw [hplace, Function.update_of_ne hut] at hu
      exact hcalm u j inlined' b' hu
    exact fun u v i j _ _ b b' hu hv => (hat u _ _ _ hu).trans (hat v _ _ _ hv).symm

omit [DecidableEq μ] [DecidableEq κ] in
theorem moves (h : Sequence s called) (ht : place s t = some p)
    (hplace : place s' = Function.update (place s) t (some q))
    (hready : s'.shared.ready = s.shared.ready)
    (hq : ∀ i inlined b, q = .callback i inlined b → ∃ b', p = .callback i inlined b') :
    Sequence s' called := by
  have hat : ∀ {u i inlined b}, place s' u = some (.callback i inlined b) →
    ∃ b', place s u = some (.callback i inlined b') := by
    intro u i inlined b hu
    rw [hplace] at hu
    by_cases hut : u = t
    · rw [hut, Function.update_self] at hu
      obtain ⟨b', rfl⟩ := hq i inlined b (Option.some.inj hu)
      exact ⟨b', hut ▸ ht⟩
    · rw [Function.update_of_ne hut] at hu
      exact ⟨b, hu⟩
  refine ⟨fun i => ?_, h.nodup, fun u i inlined b hu => ?_, fun u v i j _ _ b b' hu hv => ?_⟩
  · rw [hready]
    exact h.mem_iff i
  · obtain ⟨b', hu⟩ := hat hu
    exact h.last u i inlined b' hu
  · obtain ⟨c, hu⟩ := hat hu
    obtain ⟨c', hv⟩ := hat hv
    exact h.single u v _ _ _ _ c c' hu hv

omit [DecidableEq μ] [DecidableEq κ] in
/-- Every step keeps the list, if no callback is called while another is under way. -/
theorem step {called' : List Nat} (h : Sequence s called) (hmoved : Moved T s called s' called') :
    Sequence s' called' := by
  cases hmoved with
  | calls hcalm hp hunready hplace hready hdata hcalled =>
    rw [hcalled]
    exact h.calls hcalm hplace hready hunready
  | registers hp hfrom hto hplace hready hdata hcalled =>
    rw [hcalled]
    refine h.moves hp hplace hready fun i inlined b hq => ?_
    rcases hto with ⟨j, hto⟩ | hto <;> cases hto.symm.trans hq
  | goes hgo hp hplace hready hdata hcalled =>
    rw [hcalled]
    refine h.moves hp hplace hready fun i inlined b hq => ?_
    obtain ⟨rfl, rfl⟩ := callback_of_finish hq
    exact ⟨_, rfl⟩
  | goesAfter hgo hp hplace hready hdata hcalled =>
    rw [hcalled]
    exact h.moves hp hplace hready nofun
  | @returns t p call r hp hcall hgives hret hplace hshared hcalled =>
    rw [hcalled]
    refine h.moves hp hplace (by rw [hshared]) fun i inlined b hq => ?_
    cases p with
    | callback j inlined' c =>
      obtain ⟨rfl, rfl⟩ := callback_of_finish hq
      exact ⟨_, rfl⟩
    | _ => cases hq
  | none hplace hshared hcalled =>
    refine ⟨fun i => ?_, ?_, ?_, ?_⟩
    · rw [hcalled, hshared]
      exact h.mem_iff i
    · rw [hcalled]
      exact h.nodup
    · rw [hcalled, hplace]
      exact h.last
    · rw [hplace]
      exact h.single

end Sequence

/-- An invariant of the runs whose callbacks run one after the other: it holds before the first
step, and every step keeps it. -/
theorem logged_invariant {held : Pos β γ → μ → Prop} (hsafe : Safe (client (τ := τ) T) held)
    (hstart : ∀ m, ¬ held (.register 0) m ∧ ¬ held .idle m)
    {I : State τ μ κ β γ σ → List Nat → Prop} (hinit : ∀ s, (system T green w d).init s → I s [])
    (hmoves : ∀ s called s' called', (system T green w d).Reachable s →
      Sequence s called → I s called →
      Moved T s called s' called' → I s' called')
    {sh : State τ μ κ β γ σ × List Nat} (hr : (logged T green w d).Reach oneByOne sh) :
    Sequence sh.1 sh.2 ∧ I sh.1 sh.2 := by
  refine hr.invariant (I := fun sh => Sequence sh.1 sh.2 ∧ I sh.1 sh.2) (fun sh hs => ?_)
    (fun sh l sh' hr h hok hstep => ?_)
  · obtain ⟨s, called⟩ := sh
    obtain ⟨hs, rfl⟩ := hs
    have hnone := initial_calm hs
    refine ⟨⟨fun i => ?_, List.nodup_nil, fun t i inlined b hp => absurd hp (hnone t i inlined b),
      fun t u i j inlined inlined' b b' hp => absurd hp (hnone t i inlined b)⟩, hinit s hs⟩
    cases hs
    exact iff_of_false List.not_mem_nil Bool.false_ne_true
  · obtain ⟨s', hs', rfl⟩ := TransitionSystem.withHistory_step.mp hstep
    have hmoved := step_moved hsafe hstart hr.forget hok hs'
    exact ⟨h.1.step hmoved, hmoves _ _ _ _ hr.forget h.1 h.2 hmoved⟩

/-- The thread is in a callback. -/
def inCallback (p : PC μ κ (Pos β γ)) : Bool :=
  match p.at with
  | some (.callback _ _ _) => true
  | _ => false

/-- A check of one step for `oneByOne`. -/
def checkOneByOne [Fintype τ] (sh : State τ μ κ β γ σ × List Nat) : Label τ → Bool
  | .act _ .ready | .act _ (.complete _) => decide (∀ t, inCallback (sh.1.pc t) = false)
  | _ => true

omit [DecidableEq τ] [DecidableEq μ] [DecidableEq κ] in
theorem oneByOne_of_check [Fintype τ] (sh : State τ μ κ β γ σ × List Nat) (l : Label τ)
    (h : checkOneByOne sh l = true) :
    oneByOne sh l := by
  have hcalm : (∀ t, inCallback (sh.1.pc t) = false) → Calm sh.1 := by
    intro hnone t i inlined b hp
    have hnot := hnone t
    unfold place at hp
    unfold inCallback at hnot
    rw [hp] at hnot
    cases hnot
  cases l with
  | act t o =>
    cases o with
    | ready | complete => exact hcalm (of_decide_eq_true h)
    | _ => trivial
  | _ => trivial

end Callbacks

end GreenThread
