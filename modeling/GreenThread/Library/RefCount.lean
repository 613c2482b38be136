import GreenThread.Library.System
import Mathlib.Logic.Equiv.Basic
import Mathlib.Logic.Function.Basic

/-!
# Reference counting

Objects that are owned by the slots that refer to them. Any number of agents run programs of
statements on slots, and a statement is as many steps as it has accesses to the object: a copy reads
the pointer before it adds to the count, a drop subtracts before it destroys, and a use begins and
ends. A destructor goes on with the statements the object has taken over.

The agents share slots. What they promise is what a language with data races asks for: no statement
begins that writes a slot another agent is in the middle of using, or reads one it is writing. Under
this promise no object is touched after its destruction, none is destroyed twice, and one that
nothing refers to has been destroyed or is about to be.
-/

namespace RefCount

/-- A statement on slots. -/
inductive Stmt (R O : Type)
  /-- the slot refers to a new object -/
  | make (r : R) (o : O)
  | copy (r src : R)
  | swap (r r' : R)
  /-- a call of a member of the object, if there is one -/
  | use (r : R)
  | drop (r : R)
  deriving DecidableEq, Repr

/-- What an agent is doing, with the program it still has to run. -/
inductive Phase (R O : Type)
  | run (prog : List (Stmt R O))
  /-- the pointer is set, the count not yet; `src` is where it was read -/
  | adding (r : R) (src : Option R) (prog : List (Stmt R O))
  | inUse (r : R) (prog : List (Stmt R O))
  /-- the count became zero -/
  | freeing (o : O) (prog : List (Stmt R O))
  deriving DecidableEq, Repr

structure State (R O A : Type) where
  held : R → Option O
  count : O → Nat
  made : O → Bool
  frees : O → Nat
  /-- what the destructor of the object runs -/
  inside : O → List (Stmt R O)
  phase : A → Phase R O
  /-- an object was touched after its destruction -/
  fault : Bool

inductive Label (R O A : Type)
  | begin (a : A) (prog : List (Stmt R O))
  | go (a : A)
  /-- the object that is in use takes over statements -/
  | adopt (a : A) (prog : List (Stmt R O))

namespace Stmt

variable {R O : Type}

def reads : Stmt R O → List R
  | copy _ src => [src]
  | use r => [r]
  | _ => []

def writes : Stmt R O → List R
  | make r _ | copy r _ | drop r => [r]
  | swap r r' => [r, r']
  | use _ => []

end Stmt

namespace Phase

variable {R O : Type}

/-- The program that is left. -/
def rest : Phase R O → List (Stmt R O)
  | run prog | adding _ _ prog | inUse _ prog | freeing _ prog => prog

def reads : Phase R O → List R
  | adding _ src _ => src.toList
  | inUse r _ => [r]
  | _ => []

def writes : Phase R O → List R
  | adding r _ _ => [r]
  | _ => []

/-- Neither is a copy still to be counted nor an object still to be destroyed. -/
def settled : Phase R O → Bool
  | run _ | inUse _ _ => true
  | _ => false

variable {p : Phase R O} {r : R} {src : Option R} {o : O} {prog : List (Stmt R O)}

theorem ne_adding (h : p.settled = true) : p ≠ .adding r src prog := by
  rintro rfl
  cases h

theorem ne_freeing (h : p.settled = true) : p ≠ .freeing o prog := by
  rintro rfl
  cases h

end Phase

variable {R O A : Type} [DecidableEq R] [DecidableEq O] [DecidableEq A]

namespace State

variable (s : State R O A)

def touch (o : O) : Bool := s.fault || decide (0 < s.frees o)

def setPhase (a : A) (p : Phase R O) : State R O A :=
  { s with phase := Function.update s.phase a p }

/-- One statement begins. -/
def start (a : A) (prog : List (Stmt R O)) : Stmt R O → Option (State R O A)
  | .make r o =>
    if s.held r = none ∧ s.made o = false then
      some { s.setPhase a (.adding r none prog) with
        held := Function.update s.held r (some o), made := Function.update s.made o true }
    else none
  | .copy r src =>
    if s.held r = none then
      match s.held src with
      | some o =>
        some { s.setPhase a (.adding r (some src) prog) with
          held := Function.update s.held r (some o) }
      | none => some (s.setPhase a (.run prog))
    else none
  | .swap r r' => some { s.setPhase a (.run prog) with held := s.held ∘ Equiv.swap r r' }
  | .use r =>
    match s.held r with
    | some o => some { s.setPhase a (.inUse r prog) with fault := s.touch o }
    | none => some (s.setPhase a (.run prog))
  | .drop r =>
    match s.held r with
    | some o =>
      some { s.setPhase a (if s.count o = 1 then .freeing o prog else .run prog) with
        held := Function.update s.held r none
        count := Function.update s.count o (s.count o - 1)
        fault := s.touch o }
    | none => some (s.setPhase a (.run prog))

/-- The next step of an agent. -/
def go (a : A) : Option (State R O A) :=
  match s.phase a with
  | .run [] => none
  | .run (st :: prog) => s.start a prog st
  | .adding r _ prog =>
    (s.held r).map fun o => { s.setPhase a (.run prog) with
      count := Function.update s.count o (s.count o + 1), fault := s.touch o }
  | .inUse r prog => (s.held r).map fun o => { s.setPhase a (.run prog) with fault := s.touch o }
  | .freeing o prog =>
    some { s.setPhase a (.run (s.inside o ++ prog)) with
      frees := Function.update s.frees o (s.frees o + 1), fault := s.touch o }

def adopt (a : A) (prog : List (Stmt R O)) : Option (State R O A) :=
  match s.phase a with
  | .inUse r _ => (s.held r).map fun o =>
    { s with inside := Function.update s.inside o (s.inside o ++ prog) }
  | _ => none

def step : Label R O A → Option (State R O A)
  | .begin a prog => if s.phase a = .run [] then some (s.setPhase a (.run prog)) else none
  | .go a => s.go a
  | .adopt a prog => s.adopt a prog

/-- The statement does not meet one of another agent. -/
def Apart (a : A) (st : Stmt R O) : Prop :=
  ∀ b, b ≠ a → (∀ x ∈ st.writes, x ∉ (s.phase b).reads ∧ x ∉ (s.phase b).writes) ∧
  ∀ x ∈ st.reads, x ∉ (s.phase b).writes

/-- No data race begins with the step. -/
def RaceFree : Label R O A → Prop
  | .go a => ∀ st prog, s.phase a = .run (st :: prog) → s.Apart a st
  | _ => True

/-- Nothing exists yet. -/
def empty : State R O A :=
  ⟨fun _ => none, fun _ => 0, fun _ => false, fun _ => 0, fun _ => [], fun _ => .run [], false⟩

end State

def system : TransitionSystem (State R O A) (Label R O A) where
  init := fun s => s = State.empty
  step := State.step

/-! ### What a step does -/

/-- The steps of an agent, told by its phase. -/
inductive Moves (s : State R O A) (a : A) : State R O A → Prop
  | skips {prog prog'} (hphase : s.phase a = .run prog) : Moves s a (s.setPhase a (.run prog'))
  | makes {r o prog} (hphase : s.phase a = .run (.make r o :: prog)) (hempty : s.held r = none)
      (hnew : s.made o = false) :
      Moves s a { s.setPhase a (.adding r none prog) with
        held := Function.update s.held r (some o), made := Function.update s.made o true }
  | copies {r src o prog} (hphase : s.phase a = .run (.copy r src :: prog))
      (hempty : s.held r = none) (hsrc : s.held src = some o) :
      Moves s
      a { s.setPhase a (.adding r (some src) prog) with held := Function.update s.held r (some o) }
  | swaps {r r' prog} (hphase : s.phase a = .run (.swap r r' :: prog)) :
      Moves s a { s.setPhase a (.run prog) with held := s.held ∘ Equiv.swap r r' }
  | uses {r o prog} (hphase : s.phase a = .run (.use r :: prog)) (hheld : s.held r = some o) :
      Moves s a { s.setPhase a (.inUse r prog) with fault := s.touch o }
  | drops {r o prog} (hphase : s.phase a = .run (.drop r :: prog)) (hheld : s.held r = some o) :
      Moves s a { s.setPhase a (if s.count o = 1 then .freeing o prog else .run prog) with
        held := Function.update s.held r none
        count := Function.update s.count o (s.count o - 1)
        fault := s.touch o }
  | counts {r src o prog} (hphase : s.phase a = .adding r src prog) (hheld : s.held r = some o) :
      Moves s a { s.setPhase a (.run prog) with
        count := Function.update s.count o (s.count o + 1), fault := s.touch o }
  | returns {r o prog} (hphase : s.phase a = .inUse r prog) (hheld : s.held r = some o) :
      Moves s a { s.setPhase a (.run prog) with fault := s.touch o }
  | destroys {o prog} (hphase : s.phase a = .freeing o prog) :
      Moves s a { s.setPhase a (.run (s.inside o ++ prog)) with
        frees := Function.update s.frees o (s.frees o + 1), fault := s.touch o }
  | adopts {r o prog prog'} (hphase : s.phase a = .inUse r prog) (hheld : s.held r = some o) :
      Moves s a { s with inside := Function.update s.inside o (s.inside o ++ prog') }

variable {s s' : State R O A} {a b : A} {l : Label R O A} {r r' : R} {o : O}

omit [DecidableEq R] [DecidableEq O] in
theorem setPhase_others (p : Phase R O) (hne : b ≠ a) :
    (s.setPhase a p).phase b = s.phase b := Function.update_of_ne hne _ _

omit [DecidableEq R] [DecidableEq O] in
theorem setPhase_self (p : Phase R O) : (s.setPhase a p).phase a = p := Function.update_self ..

theorem start_moves {st : Stmt R O} {prog : List (Stmt R O)}
    (hphase : s.phase a = .run (st :: prog))
    (h : s.start a prog st = some s') : Moves s a s' := by
  cases st with
  | make r o =>
    simp only [State.start, Option.ite_none_right_eq_some, Option.some.injEq] at h
    obtain ⟨⟨hempty, hnew⟩, rfl⟩ := h
    exact .makes hphase hempty hnew
  | copy r src =>
    simp only [State.start, Option.ite_none_right_eq_some] at h
    obtain ⟨hempty, h⟩ := h
    cases hsrc : s.held src with
    | none =>
      rw [hsrc] at h
      cases h
      exact .skips hphase
    | some o =>
      rw [hsrc] at h
      cases h
      exact .copies hphase hempty hsrc
  | swap r r' =>
    cases h
    exact .swaps hphase
  | use r =>
    simp only [State.start] at h
    cases hheld : s.held r with
    | none =>
      rw [hheld] at h
      cases h
      exact .skips hphase
    | some o =>
      rw [hheld] at h
      cases h
      exact .uses hphase hheld
  | drop r =>
    simp only [State.start] at h
    cases hheld : s.held r with
    | none =>
      rw [hheld] at h
      cases h
      exact .skips hphase
    | some o =>
      rw [hheld] at h
      cases h
      exact .drops hphase hheld

theorem go_moves (h : s.go a = some s') : Moves s a s' := by
  unfold State.go at h
  cases hphase : s.phase a with
  | run prog =>
    rw [hphase] at h
    cases prog with
    | nil => cases h
    | cons st prog => exact start_moves hphase h
  | adding r src prog =>
    rw [hphase] at h
    obtain ⟨o, hheld, rfl⟩ := Option.map_eq_some_iff.mp h
    exact .counts hphase hheld
  | inUse r prog =>
    rw [hphase] at h
    obtain ⟨o, hheld, rfl⟩ := Option.map_eq_some_iff.mp h
    exact .returns hphase hheld
  | freeing o prog =>
    rw [hphase] at h
    cases h
    exact .destroys hphase

theorem step_moves (h : s.step l = some s') (hrace : s.RaceFree l) :
    ∃ a, Moves s a s' ∧ ∀ st prog, s.phase a = .run (st :: prog) → s.Apart a st := by
  cases l with
  | begin a prog =>
    simp only [State.step, Option.ite_none_right_eq_some, Option.some.injEq] at h
    obtain ⟨hphase, rfl⟩ := h
    exact ⟨a, .skips hphase, fun st prog' heq => by cases hphase.symm.trans heq⟩
  | go a => exact ⟨a, go_moves h, hrace⟩
  | adopt a prog =>
    simp only [State.step, State.adopt] at h
    split at h
    · rename_i hphase
      obtain ⟨o, hheld, rfl⟩ := Option.map_eq_some_iff.mp h
      exact ⟨a, .adopts hphase hheld, fun st prog' heq => by cases hphase.symm.trans heq⟩
    · cases h

/-! ### Where an agent is in its program -/

/-- The phase of an agent that runs the program. -/
def Phase.Within (code : List (Stmt R O)) : Phase R O → Prop
  | run rest | freeing _ rest => ∃ done, code = done ++ rest
  | adding r src rest => ∃ done st, code = done ++ st :: rest ∧ r ∈ st.writes ∧
      ∀ x ∈ src, x ∈ st.reads
  | inUse r rest => ∃ done, code = done ++ .use r :: rest

section Within

variable {code : List (Stmt R O)} {p : Phase R O} {st : Stmt R O} {prog : List (Stmt R O)} {x : R}

omit [DecidableEq R] [DecidableEq O] in
theorem Phase.Within.mem (h : p.Within code) (hst : st ∈ p.rest) : st ∈ code := by
  cases p with
  | run rest | freeing _ rest =>
    obtain ⟨done, rfl⟩ := h
    exact List.mem_append_right _ hst
  | adding r src rest =>
    obtain ⟨done, st', rfl, -⟩ := h
    exact List.mem_append_right _ (List.mem_cons_of_mem _ hst)
  | inUse r rest =>
    obtain ⟨done, rfl⟩ := h
    exact List.mem_append_right _ (List.mem_cons_of_mem _ hst)

omit [DecidableEq R] [DecidableEq O] in
theorem Phase.Within.reads (h : p.Within code) (hx : x ∈ p.reads) :
    x ∈ code.flatMap Stmt.reads := by
  cases p with
  | run rest | freeing o rest => cases hx
  | adding r src rest =>
    obtain ⟨done, st', rfl, -, hsrc⟩ := h
    exact List.mem_flatMap.mpr ⟨st', List.mem_append_right _ List.mem_cons_self,
      hsrc x (Option.mem_toList.mp hx)⟩
  | inUse r rest =>
    obtain ⟨done, rfl⟩ := h
    exact List.mem_flatMap.mpr ⟨_, List.mem_append_right _ List.mem_cons_self, hx⟩

omit [DecidableEq R] [DecidableEq O] in
theorem Phase.Within.writes (h : p.Within code) (hx : x ∈ p.writes) :
    x ∈ code.flatMap Stmt.writes := by
  cases p with
  | run rest | freeing o rest | inUse r rest => cases hx
  | adding r src rest =>
    obtain ⟨done, st', rfl, hr, -⟩ := h
    obtain rfl := List.mem_singleton.mp hx
    exact List.mem_flatMap.mpr ⟨st', List.mem_append_right _ List.mem_cons_self, hr⟩

theorem start_phase (h : s.start a prog st = some s') :
    s'.phase a = .run prog ∨
    (∃ r src, s'.phase a = .adding r src prog ∧ r ∈ st.writes ∧ ∀ x ∈ src, x ∈ st.reads) ∨
      (∃ r, st = .use r ∧ s'.phase a = .inUse r prog) ∨ ∃ o, s'.phase a = .freeing o prog := by
  have hself : ∀ {q : Phase R O}, (Function.update s.phase a q) a = q := Function.update_self ..
  cases st with
  | make r o =>
    simp only [State.start, Option.ite_none_right_eq_some, Option.some.injEq] at h
    obtain ⟨-, rfl⟩ := h
    exact .inr (.inl ⟨r, none, hself, List.mem_singleton_self r, fun _ hx => by cases hx⟩)
  | copy r src =>
    simp only [State.start, Option.ite_none_right_eq_some] at h
    obtain ⟨-, h⟩ := h
    split at h <;> cases h
    · refine .inr (.inl ⟨r, some src, hself, List.mem_singleton_self r, fun x hx => ?_⟩)
      rw [Option.mem_some_iff] at hx
      rw [hx]
      exact List.mem_singleton_self x
    · exact .inl hself
  | swap r r' =>
    cases h
    exact .inl hself
  | use r =>
    simp only [State.start] at h
    split at h <;> cases h
    · exact .inr (.inr (.inl ⟨r, rfl, hself⟩))
    · exact .inl hself
  | drop r =>
    simp only [State.start] at h
    split at h <;> cases h
    · rename_i o _
      by_cases hlast : s.count o = 1
      · refine .inr (.inr (.inr ⟨o, hself.trans (if_pos hlast)⟩))
      · exact .inl (hself.trans (if_neg hlast))
    · exact .inl hself

theorem go_within (h : (s.phase a).Within code)
    (hinside : ∀ o prog, s.phase a = .freeing o prog → s.inside o = [])
    (hgo : s.go a = some s') : (s'.phase a).Within code := by
  have hself : ∀ {q : Phase R O}, (Function.update s.phase a q) a = q := Function.update_self ..
  unfold State.go at hgo
  cases hphase : s.phase a with
  | run prog =>
    rw [hphase] at h hgo
    cases prog with
    | nil => cases hgo
    | cons st prog =>
      obtain ⟨done, rfl⟩ := h
      rcases start_phase hgo with hp | ⟨r, src, hp, hr, hsrc⟩ | ⟨r, rfl, hp⟩ | ⟨o, hp⟩ <;> rw [hp]
      · exact ⟨done ++ [st], by simp⟩
      · exact ⟨done, st, rfl, hr, hsrc⟩
      · exact ⟨done, rfl⟩
      · exact ⟨done ++ [st], by simp⟩
  | adding r src prog =>
    rw [hphase] at h hgo
    obtain ⟨done, st, rfl, -⟩ := h
    obtain ⟨o, -, rfl⟩ := Option.map_eq_some_iff.mp hgo
    show (Function.update s.phase a (.run prog) a).Within _
    rw [hself]
    exact ⟨done ++ [st], by simp⟩
  | inUse r prog =>
    rw [hphase] at h hgo
    obtain ⟨done, rfl⟩ := h
    obtain ⟨o, -, rfl⟩ := Option.map_eq_some_iff.mp hgo
    show (Function.update s.phase a (.run prog) a).Within _
    rw [hself]
    exact ⟨done ++ [.use r], by simp⟩
  | freeing o prog =>
    rw [hphase] at h hgo
    cases hgo
    show (Function.update s.phase a (.run (s.inside o ++ prog)) a).Within _
    rw [hself, hinside o prog hphase, List.nil_append]
    exact h

theorem go_rest (hinside : ∀ o prog, s.phase a = .freeing o prog → s.inside o = [])
    (hgo : s.go a = some s') :
    (∃ st, s.phase a = .run (st :: (s'.phase a).rest)) ∨
      (∀ prog, s.phase a ≠ .run prog) ∧ s'.phase a = .run (s.phase a).rest := by
  have hself : ∀ {q : Phase R O}, (Function.update s.phase a q) a = q := Function.update_self ..
  unfold State.go at hgo
  cases hphase : s.phase a with
  | run prog =>
    rw [hphase] at hgo
    cases prog with
    | nil => cases hgo
    | cons st prog =>
      refine .inl ⟨st, ?_⟩
      rcases start_phase hgo with hp | ⟨r, src, hp, -⟩ | ⟨r, -, hp⟩ | ⟨o, hp⟩ <;> rw [hp] <;> rfl
  | adding r src prog =>
    rw [hphase] at hgo
    obtain ⟨o, -, rfl⟩ := Option.map_eq_some_iff.mp hgo
    exact .inr ⟨fun prog' heq => (by cases heq), hself⟩
  | inUse r prog =>
    rw [hphase] at hgo
    obtain ⟨o, -, rfl⟩ := Option.map_eq_some_iff.mp hgo
    exact .inr ⟨fun prog' heq => (by cases heq), hself⟩
  | freeing o prog =>
    rw [hphase] at hgo
    cases hgo
    refine .inr ⟨fun prog' heq => (by cases heq), ?_⟩
    show Function.update s.phase a (.run (s.inside o ++ prog)) a = _
    rw [hself, hinside o prog hphase]
    rfl

end Within

section Held

variable {x : R} {st : Stmt R O} {prog : List (Stmt R O)}

theorem Moves.others (h : Moves s a s') (hne : b ≠ a) : s'.phase b = s.phase b := by
  cases h with
  | adopts => rfl
  | _ => exact setPhase_others _ hne

/-- What the slots refer to when the statement has begun. -/
def Stmt.apply (held : R → Option O) : Stmt R O → R → Option O
  | make r o => Function.update held r (some o)
  | copy r src => Function.update held r (held src)
  | swap r r' => held ∘ Equiv.swap r r'
  | use _ => held
  | drop r => Function.update held r none

omit [DecidableEq O] in
theorem Stmt.apply_of_notMem (held : R → Option O) (hx : x ∉ st.writes) :
    st.apply held x = held x := by
  cases st with
  | make | copy | drop => exact Function.update_of_ne (List.ne_of_not_mem_cons hx) _ _
  | swap r r' =>
    refine congrArg held (Equiv.swap_apply_of_ne_of_ne ?_ ?_)
    · rintro rfl
      exact hx List.mem_cons_self
    · rintro rfl
      exact hx (List.mem_cons_of_mem _ List.mem_cons_self)
  | use => rfl

omit [DecidableEq O] in
theorem Stmt.of_drop {held : R → Option O} {y : R} (h : (drop x : Stmt R O).apply held y = some o) :
    held y = some o := by
  by_cases hyx : y = x
  · rw [hyx, apply, Function.update_self] at h
    cases h
  · rwa [apply, Function.update_of_ne hyx] at h

theorem start_held (h : s.start a prog st = some s') :
    s'.held = st.apply s.held ∧ s'.inside = s.inside := by
  cases st with
  | make r o =>
    simp only [State.start, Option.ite_none_right_eq_some, Option.some.injEq] at h
    obtain ⟨-, rfl⟩ := h
    exact ⟨rfl, rfl⟩
  | copy r src =>
    simp only [State.start, Option.ite_none_right_eq_some] at h
    obtain ⟨hempty, h⟩ := h
    split at h <;> cases h <;> rename_i hsrc <;> refine ⟨?_, rfl⟩
    · rw [Stmt.apply, hsrc]
    · rw [Stmt.apply, hsrc, ← hempty, Function.update_eq_self]
      rfl
  | swap r r' =>
    cases h
    exact ⟨rfl, rfl⟩
  | use r =>
    simp only [State.start] at h
    split at h <;> cases h <;> exact ⟨rfl, rfl⟩
  | drop r =>
    simp only [State.start] at h
    split at h <;> cases h <;> rename_i hheld <;> refine ⟨?_, rfl⟩
    · rfl
    · rw [Stmt.apply, ← hheld, Function.update_eq_self]
      rfl

theorem start_fresh (h : s.start a prog (.make r o) = some s') : s.made o = false := by
  simp only [State.start, Option.ite_none_right_eq_some] at h
  exact h.1.2

theorem go_cases (h : s.go a = some s') :
    (∃ st prog, s.phase a = .run (st :: prog) ∧ s.start a prog st = some s') ∨
      (∀ prog, s.phase a ≠ .run prog) ∧ s'.held = s.held ∧ s'.inside = s.inside := by
  unfold State.go at h
  cases hphase : s.phase a with
  | run prog =>
    rw [hphase] at h
    cases prog with
    | nil => cases h
    | cons st prog => exact .inl ⟨st, prog, rfl, h⟩
  | adding r src prog | inUse r prog =>
    rw [hphase] at h
    obtain ⟨o, -, rfl⟩ := Option.map_eq_some_iff.mp h
    exact .inr ⟨fun prog' heq => (by cases heq), rfl, rfl⟩
  | freeing o prog =>
    rw [hphase] at h
    cases h
    exact .inr ⟨fun prog' heq => (by cases heq), rfl, rfl⟩

theorem go_next (hinside : ∀ o prog, s.phase a = .freeing o prog → s.inside o = [])
    (hgo : s.go a = some s') :
    (∃ st, s.phase a = .run (st :: (s'.phase a).rest) ∧ s.start a (s'.phase a).rest st = some s') ∨
      (∀ prog, s.phase a ≠ .run prog) ∧ s'.held = s.held ∧
      (s'.phase a).rest = (s.phase a).rest := by
  rcases go_cases hgo with ⟨st, prog, hphase, hstart⟩ | ⟨hrun, hheld, -⟩
  · rcases go_rest hinside hgo with ⟨st', hphase'⟩ | ⟨hrun, -⟩
    · cases hphase.symm.trans hphase'
      exact .inl ⟨st, hphase', hstart⟩
    · exact absurd hphase (hrun _)
  · rcases go_rest hinside hgo with ⟨st', hphase'⟩ | ⟨-, hphase'⟩
    · exact absurd hphase' (hrun _)
    · exact .inr ⟨hrun, hheld, by rw [hphase']; rfl⟩

theorem go_held (h : s.go a = some s')
    (hx : ∀ st prog, s.phase a = .run (st :: prog) → x ∉ st.writes) : s'.held x = s.held x := by
  rcases go_cases h with ⟨st, prog, hphase, hstart⟩ | ⟨-, hheld, -⟩
  · rw [(start_held hstart).1]
    exact Stmt.apply_of_notMem _ (hx st prog hphase)
  · rw [hheld]

theorem go_inside (h : s.go a = some s') : s'.inside = s.inside := by
  rcases go_cases h with ⟨st, prog, -, hstart⟩ | ⟨-, -, hinside⟩
  · exact (start_held hstart).2
  · exact hinside

theorem go_busy (h : s.go a = some s') : s.phase a ≠ .run [] := by
  intro hphase
  rw [State.go, hphase] at h
  cases h

end Held

/-! ### Slots that a program leaves empty -/

/-- The slot is empty and stays so, or the program ends with giving it up. -/
def Tidy (held : R → Option O) (x : R) (prog : List (Stmt R O)) : Prop :=
  (held x = none ∧ ∀ st ∈ prog, x ∉ st.writes) ∨ ∃ done rest, prog = done ++ .drop x :: rest ∧
  ∀ st ∈ rest, x ∉ st.writes

section Tidy

variable {held held' : R → Option O} {x : R} {st : Stmt R O} {prog : List (Stmt R O)}

omit [DecidableEq R] [DecidableEq O] in
theorem Tidy.next (h : Tidy held x (st :: prog)) (hkeep : x ∉ st.writes → held' x = held x)
    (hdrop : st = .drop x → held' x = none) :
    Tidy held' x prog := by
  rcases h with ⟨hnone, hnot⟩ | ⟨done, rest, heq, hnot⟩
  · exact .inl ⟨(hkeep (hnot st List.mem_cons_self)).trans hnone,
      fun st' hst' => hnot st' (List.mem_cons_of_mem _ hst')⟩
  · cases done with
    | nil =>
      obtain ⟨rfl, rfl⟩ := List.cons.inj heq
      exact .inl ⟨hdrop rfl, hnot⟩
    | cons st' done =>
      obtain ⟨rfl, rfl⟩ := List.cons.inj heq
      exact .inr ⟨done, rest, rfl, hnot⟩

omit [DecidableEq R] [DecidableEq O] in
theorem Tidy.congr (h : Tidy held x prog) (heq : held' x = held x) : Tidy held' x prog :=
  h.imp_left fun ⟨hnone, hnot⟩ => ⟨heq.trans hnone, hnot⟩

omit [DecidableEq R] [DecidableEq O] in
theorem Tidy.none (h : Tidy held x []) : held x = none := by
  rcases h with ⟨hnone, -⟩ | ⟨done, rest, heq, -⟩
  · exact hnone
  · cases done <;> cases heq

theorem Tidy.go (h : Tidy s.held x (s.phase a).rest)
    (hinside : ∀ o prog, s.phase a = .freeing o prog → s.inside o = [])
    (hgo : s.go a = some s') : Tidy s'.held x (s'.phase a).rest := by
  rcases go_next hinside hgo with ⟨st, hphase, hstart⟩ | ⟨-, hheld, hrest⟩
  · rw [hphase] at h
    refine h.next (fun hnot => ?_) fun heq => ?_
    · rw [(start_held hstart).1]
      exact Stmt.apply_of_notMem _ hnot
    · rw [(start_held hstart).1, heq]
      exact Function.update_self ..
  · rw [hrest]
    exact h.congr (congrFun hheld x)

end Tidy

end RefCount
