import GreenThread.Barrier.Code

/-!
# A completion function that throws

`barrier::wait` whose completion function may also throw. The exception leaves from `m_count =
fct_()`, so the count stays at 0 and `notify_all` is skipped, while `m_generation` has been advanced
already. All it passes on its way out is the destructor of `lock`, which releases `m_mutex`.
-/

namespace GreenThread

namespace Barrier

namespace Throwing

inductive Pos
  | code (p : Barrier.Pos)
  /-- the completion function has thrown, before the destructor of `lock` -/
  | unwind (gen : Nat)
  deriving DecidableEq, Repr

inductive Act
  | code (o : Barrier.Act)
  | throws
  deriving DecidableEq, Repr

variable {τ : Type} {d d' : Data} {p q : Pos}

def Pos.act (d : Data) : Pos → Act → Option (Pos × Data)
  | .code p, .code o => (p.act d o).map fun r => (.code r.1, r.2)
  | .code (.complete gen), .throws => some (.unwind gen, d)
  | _, _ => none

def Pos.call : Pos → Option (Call Unit Unit)
  | .code p => p.call
  | .unwind _ => some (.unlock ())

/-- From `unwind` the call of `wait` is left by the exception. -/
def Pos.ret : Pos → Ret → Pos
  | .code p, r => .code (p.ret r)
  | .unwind _, .threw _ => .code .failed
  | .unwind _, _ => .code .idle

def client : Client τ Unit Unit Pos Data Act where
  call := Pos.call
  ret := Pos.ret
  act := fun _ p d o => p.act d o

abbrev State (τ : Type) := Machine.State τ Unit Unit Pos Data

abbrev Label (τ : Type) := Machine.Label τ Act

abbrev start : τ → Pos := fun _ => .code .idle

section

variable [DecidableEq τ]

abbrev system (count : Count) : TransitionSystem (State τ) (Label τ) :=
  Machine.system client (fun _ => true) start ⟨count, 0⟩

/-- The thread sleeps in `m_cond` in a generation that is over, and nobody has taken it out of the
queue. -/
def Stranded (s : State τ) (t : τ) : Prop :=
  ∃ gen, gen ≠ s.shared.generation ∧ Machine.place s t = some (.code (.wait gen)) ∧
  (⟨t, false⟩ : SuspendedItem τ) ∈ s.cond ()

/-- What the barrier is between two critical sections: a count that an arrival can decrement, and no
sleeper of a generation that is over without a wake-up in flight. -/
structure Restored (s : State τ) : Prop where
  count : s.shared.count ≠ 0
  asleep : ∀ t, ¬ Stranded s t
  awake : ∀ t w gen, s.pc t = .pausing w (.code (.wait gen)) → gen ≠ s.shared.generation →
    0 < s.pending t

end

/-! ### What a statement can do -/

inductive Goes (d : Data) : Act → Pos → Pos → Data → Prop
  | code {o p q d'} (h : p.act d o = some (q, d')) : Goes d (.code o) (.code p) (.code q) d'
  | throws {gen} : Goes d .throws (.code (.complete gen)) (.unwind gen) d

theorem act_goes {o : Act} (h : p.act d o = some (q, d')) : Goes d o p q d' := by
  unfold Pos.act at h
  split at h
  · obtain ⟨⟨q', d''⟩, hact, heq⟩ := Option.map_eq_some_iff.mp h
    cases heq
    exact .code hact
  · cases h
    exact .throws
  · cases h

/-! ### The mutex -/

/-- The thread owns `m_mutex`. -/
def Pos.holds : Pos → Bool
  | .code p => p.holds
  | .unwind _ => true

def held (p : Pos) (_ : Unit) : Prop := p.holds = true

theorem not_held_start (t : τ) (m : Unit) : ¬ held (start t) m := Bool.false_ne_true

theorem keeps_scope : Scoped (client (τ := τ)) Pos.holds where
  act := by
    intro t a x o b y hact
    cases act_goes hact with
    | code h => exact Barrier.keeps_scope.act (t := t) h
    | throws => rfl
  lock := by
    intro a hcall
    cases a with
    | code p => exact Barrier.keeps_scope.lock (τ := τ) hcall
    | unwind gen => cases hcall
  inside := by
    intro a call hcall hlock
    cases a with
    | code p => exact Barrier.keeps_scope.inside (τ := τ) hcall hlock
    | unwind gen => rfl
  ret := by
    intro a call r hcall hret hunlock
    cases a with
    | code p => exact Barrier.keeps_scope.ret (τ := τ) hcall hret hunlock
    | unwind gen => exact absurd (Option.some.inj hcall).symm hunlock
  unlock := by
    intro a hcall
    cases a with
    | code p => exact Barrier.keeps_scope.unlock (τ := τ) hcall
    | unwind gen => rfl
  threw := by
    intro a e
    cases a with
    | code p => exact Barrier.keeps_scope.threw (τ := τ) (a := p) (e := e)
    | unwind gen => rfl

/-- Between the last arrival and its completion nothing is left of `m_count`. -/
def Pos.knows : Pos → UInt32 → Prop
  | .code (.advance _), count | .code (.complete _), count | .unwind _, count => count = 0
  | _, _ => True

theorem knows_ret (p : Pos) (r : Ret) (count : UInt32) : (p.ret r).knows count := by
  cases p with
  | code p => cases p <;> cases r <;> trivial
  | unwind gen => cases r <;> trivial

theorem Goes.knows {o : Act} (h : Goes d o p q d') (hknows : p.knows d.count) :
    q.knows d'.count := by
  cases h with
  | throws => exact hknows
  | code h =>
    rcases Barrier.act_goes h with ⟨rfl, rfl, rfl, rfl⟩ | hgoes
    · trivial
    · cases hgoes with
      | last hzero => exact hzero
      | advances => exact hknows
      | _ => trivial

theorem guarded : Guarded (client (τ := τ)) held () Data.count Pos.knows where
  toSafe := keeps_scope.safe
  known := fun hact _ hknows => (act_goes hact).knows hknows
  frame := by
    intro t a x o b y hact ha
    cases act_goes hact with
    | code h =>
      rcases Barrier.act_goes h with ⟨-, -, -, rfl⟩ | hgoes
      · rfl
      · exact absurd hgoes.holds.1 ha
    | throws => rfl
  kept := fun {a _ r v} _ _ _ _ _ => knows_ret a r v
  fresh := fun {a _ r v} _ _ _ _ => knows_ret a r v

/-! ### After the exception -/

variable [DecidableEq τ]

/-- While the exception is on its way out of the critical section, the count is 0. -/
theorem count_of_unwind {count : Count} {s : State τ} (hreach : (system count).Reachable s)
    {t : τ} {gen : Nat} (hpc : s.pc t = .user (.unwind gen)) : s.shared.count = 0 := by
  have hinformed := Machine.reach_informed guarded not_held_start hreach
  refine hinformed t (.unwind gen) ?_
  rw [hpc]
  exact ⟨rfl, rfl, .inl rfl⟩

/-- The destructor of `lock` leaves the data and the queue of `m_cond` as they are, and moves no
other thread. -/
theorem unlock_keeps {s s' : State τ} {t : τ} {gen : Nat} {switch : Bool} (count : Count)
    (hpc : s.pc t = .user (.unwind gen))
    (hstep : (system count).step s (.call t switch) = some s') :
    s'.shared = s.shared ∧ s'.cond = s.cond ∧ ∀ u, u ≠ t → s'.pc u = s.pc u := by
  simp only [Machine.system, Machine.step, hpc, client, Pos.call, Option.bind_some,
    Machine.callStep, Option.some.injEq] at hstep
  subst hstep
  rw [Machine.unlockStep]
  split
  · exact ⟨rfl, rfl, fun u hu => Function.update_of_ne hu _ _⟩
  · cases switch <;> exact ⟨rfl, rfl, fun u hu => Function.update_of_ne hu _ _⟩
  · exact ⟨rfl, rfl, fun u hu => Function.update_of_ne hu _ _⟩

/-- Whenever a throwing completion's `wait` releases `m_mutex`, it leaves the count at 0 and every
sleeper of the generation asleep. -/
theorem throwing_completion {count : Count} {s s' : State τ} (hreach : (system count).Reachable s)
    {t : τ} {gen : Nat} (hpc : s.pc t = .user (.unwind gen)) (switch : Bool)
    (hstep : (system count).step s (.call t switch) = some s') :
    ¬ Restored s' ∧ ∀ u, Stranded s u → Stranded s' u := by
  obtain ⟨hshared, hcond, hother⟩ := unlock_keeps count hpc hstep
  refine ⟨fun hrestored => hrestored.count ?_, ?_⟩
  · rw [hshared]
    exact count_of_unwind hreach hpc
  · rintro u ⟨g, hgen, hplace, hmem⟩
    have hut : u ≠ t := by
      rintro rfl
      rw [Machine.place, hpc] at hplace
      cases hplace
    refine ⟨g, ?_, ?_, ?_⟩
    · rwa [hshared]
    · rwa [Machine.place, hother u hut]
    · rwa [hcond]

/-- A barrier for one thread, whose completion function throws. -/
theorem throwing_completion_one :
    ∃ s s' : State Unit, (system ⟨1, by decide⟩).Reachable s' ∧ s'.shared = ⟨0, 1⟩ ∧
    ¬ Restored s' ∧ ∀ u, Stranded s u → Stranded s' u := by
  let labels : List (Label Unit) :=
    [.act () (.code .begin), .call () false, .act () (.code .go), .act () (.code .go),
      .act () (.code .go), .act () .throws]
  have hreach := (system ⟨1, by decide⟩).reach_of_run (fun _ _ => true)
    (Machine.initial start ⟨1, 0⟩) rfl labels rfl
  have hleft := hreach.reachable.step trivial (l := .call () false) rfl
  exact ⟨_, _, hleft, rfl, throwing_completion hreach.reachable (t := ()) rfl false rfl⟩

/-- Thread 1 sleeps when the completion function of thread 0 throws, and thread 0 has left `wait`
with the count at 0 and no wake-up for thread 1. -/
theorem sleeper_abandoned : ∃ s : State (Fin 2),
    (system ⟨2, by decide⟩).Reachable s ∧ s.pc 0 = .user (.code .idle) ∧
    s.shared = ⟨0, 1⟩ ∧ Stranded s 1 ∧ s.pending 1 = 0 ∧ ¬ Restored s := by
  let labels : List (Label (Fin 2)) :=
    [.act 1 (.code .begin), .call 1 false, .act 1 (.code .go), .act 1 (.code .go),
      .act 1 (.code .go), .call 1 false, .proceed 1 false, .act 0 (.code .begin), .call 0 false,
      .act 0 (.code .go), .act 0 (.code .go), .act 0 (.code .go), .act 0 .throws, .call 0 false]
  have hreach := (system ⟨2, by decide⟩).reach_of_run (fun _ _ => true)
    (Machine.initial start ⟨2, 0⟩) rfl labels rfl
  exact ⟨_, hreach.reachable, rfl, rfl, ⟨0, by decide, rfl, List.mem_singleton.mpr rfl⟩, rfl,
    fun h => h.count rfl⟩

end Throwing

end Barrier

end GreenThread
