import GreenThread.Machine.Guarded

/-!
# The barrier

`barrier` of `barrier.hpp` as a client of `m_mutex` and `m_cond`. A position is a statement of
`wait`, and each statement that reads or writes `m_count` or `m_generation` is a step of its own.
The completion function gives any count. `m_generation` is unbounded here, while `m_count` is an
`unsigned int`.
-/

namespace GreenThread

namespace Barrier

/-- A count that has passed `check_counter`. -/
abbrev Count := { n : UInt32 // n ≠ 0 }

/-- The constructors throw `invalid_argument` for the count zero. -/
def checkCounter (count : UInt32) : Option Count := if h : count ≠ 0 then some ⟨count, h⟩ else none

/-- `m_count` and `m_generation`. -/
structure Data where
  count : UInt32
  generation : Nat
  deriving DecidableEq, Repr

/-- Where a thread is; from `enter` to `leave` it owns `m_mutex`. -/
inductive Pos
  | idle
  /-- before the constructor of `lock` -/
  | lock
  /-- before `gen = m_generation` -/
  | enter
  /-- before `--m_count == 0` -/
  | arrive (gen : Nat)
  /-- before `m_generation++` -/
  | advance (gen : Nat)
  /-- before `m_count = fct_()` -/
  | complete (gen : Nat)
  /-- before `m_cond.notify_all()` -/
  | notify (gen : Nat)
  /-- before the condition of the `while` -/
  | loop (gen : Nat)
  /-- before `m_cond.wait(lock)` -/
  | wait (gen : Nat)
  /-- before the destructor of `lock` -/
  | leave (gen : Nat) (result : Bool)
  /-- the assertion `m_count != 0` has failed -/
  | asserted
  /-- a primitive threw -/
  | failed
  deriving DecidableEq, Repr

/-- A step of a thread outside the primitives: it calls `wait`, takes the next statement, or returns
from the completion function. -/
inductive Act
  | begin
  | go
  | completes (n : UInt32)
  deriving DecidableEq, Repr

variable {τ : Type} {d d' : Data} {p q : Pos}

/-- A statement that calls no primitive and no completion function. -/
def Pos.go (d : Data) : Pos → Option (Pos × Data)
  | .enter => some (.arrive d.generation, d)
  | .arrive gen => some (if d.count - 1 = 0 then .advance gen
      else .loop gen, { d with count := d.count - 1 })
  | .advance gen => some (.complete gen, { d with generation := d.generation + 1 })
  | .loop gen => some (if gen = d.generation then .wait gen else .leave gen false, d)
  | _ => none

/-- `count_down_and_wait` calls `wait` and drops its result. -/
def Pos.act (d : Data) : Pos → Act → Option (Pos × Data)
  | .idle, .begin => some (.lock, d)
  | .complete gen, .completes n =>
    some (if n = 0 then .asserted else .notify gen, { d with count := n })
  | p, .go => p.go d
  | _, _ => none

def Pos.call : Pos → Option (Call Unit Unit)
  | .lock => some (.lock ())
  | .notify _ => some (.notifyAll ())
  | .wait _ => some (.wait () ())
  | .leave _ _ => some (.unlock ())
  | _ => none

def Pos.ret : Pos → Ret → Pos
  | _, .threw _ => .failed
  | .lock, _ => .enter
  | .notify gen, _ => .leave gen true
  | .wait gen, _ => .loop gen
  | _, _ => .idle

def client : Client τ Unit Unit Pos Data Act where
  call := Pos.call
  ret := Pos.ret
  act := fun _ p d o => p.act d o

abbrev State (τ : Type) := Machine.State τ Unit Unit Pos Data

abbrev Label (τ : Type) := Machine.Label τ Act

section

variable [DecidableEq τ]

/-- The threads of one barrier, all green. -/
abbrev system (count : Count) : TransitionSystem (State τ) (Label τ) :=
  Machine.system client (fun _ => true) (fun _ => .idle) ⟨count, 0⟩

end

/-! ### What a statement can do -/

inductive Goes (d : Data) : Act → Pos → Pos → Data → Prop
  | reads : Goes d .go .enter (.arrive d.generation) d
  | last {gen} (hzero : d.count - 1 = 0) :
      Goes d .go (.arrive gen) (.advance gen) { d with count := d.count - 1 }
  | early {gen} (hpos : d.count - 1 ≠ 0) :
      Goes d .go (.arrive gen) (.loop gen) { d with count := d.count - 1 }
  | advances {gen} : Goes d .go (.advance gen)
      (.complete gen) { d with generation := d.generation + 1 }
  | resets {gen n} (hpos : n ≠ 0) :
      Goes d (.completes n) (.complete gen) (.notify gen) { d with count := n }
  | asserts {gen} : Goes d (.completes 0) (.complete gen) .asserted { d with count := 0 }
  | blocks {gen} (hgen : gen = d.generation) : Goes d .go (.loop gen) (.wait gen) d
  | passes {gen} (hgen : gen ≠ d.generation) : Goes d .go (.loop gen) (.leave gen false) d

theorem act_goes {o : Act} (h : p.act d o = some (q, d')) :
    (o = .begin ∧ p = .idle ∧ q = .lock ∧ d' = d) ∨ Goes d o p q d' := by
  cases p with
  | idle =>
    cases o with
    | begin =>
      cases h
      exact .inl ⟨rfl, rfl, rfl, rfl⟩
    | _ => cases h
  | enter =>
    cases o with
    | go =>
      cases h
      exact .inr .reads
    | _ => cases h
  | arrive gen =>
    cases o with
    | go =>
      obtain ⟨rfl, rfl⟩ := Prod.mk.inj (Option.some.inj h)
      by_cases hzero : d.count - 1 = 0
      · rw [if_pos hzero]
        exact .inr (.last hzero)
      · rw [if_neg hzero]
        exact .inr (.early hzero)
    | _ => cases h
  | advance gen =>
    cases o with
    | go =>
      cases h
      exact .inr .advances
    | _ => cases h
  | complete gen =>
    cases o with
    | completes n =>
      obtain ⟨rfl, rfl⟩ := Prod.mk.inj (Option.some.inj h)
      by_cases hn : n = 0
      · subst hn
        exact .inr .asserts
      · rw [if_neg hn]
        exact .inr (.resets hn)
    | _ => cases h
  | loop gen =>
    cases o with
    | go =>
      obtain ⟨rfl, rfl⟩ := Prod.mk.inj (Option.some.inj h)
      by_cases hgen : gen = d.generation
      · rw [if_pos hgen]
        exact .inr (.blocks hgen)
      · rw [if_neg hgen]
        exact .inr (.passes hgen)
    | _ => cases h
  | _ => cases o <;> cases h

/-! ### The mutex -/

/-- The thread owns `m_mutex`. -/
def Pos.holds : Pos → Bool
  | .idle | .lock | .failed => false
  | _ => true

def held (p : Pos) (_ : Unit) : Prop := p.holds = true

theorem not_held_idle (t : τ) (m : Unit) :
    ¬ held ((fun _ => .idle : τ → Pos) t) m := Bool.false_ne_true

theorem Goes.holds {o : Act} (h : Goes d o p q d') : p.holds = true ∧ q.holds = true := by
  cases h <;> exact ⟨rfl, rfl⟩

theorem holds_of_call {call : Call Unit Unit} (h : p.call = some call) :
    p.holds = true ∨ p = .lock ∧ call = .lock () := by
  cases p with
  | lock =>
    cases h
    exact .inr ⟨rfl, rfl⟩
  | notify gen | wait gen | leave gen b => exact .inl rfl
  | _ => cases h

theorem lock_of_call {m : Unit} (h : p.call = some (.lock m)) : p = .lock := by
  cases p with
  | lock => rfl
  | _ => cases h

theorem leave_of_unlock (h : p.call = some (.unlock ())) : ∃ gen b, p = .leave gen b := by
  cases p with
  | leave gen b => exact ⟨gen, b, rfl⟩
  | _ => cases h

theorem wait_of_call {w : WaitCall Unit Unit} (h : p.call = some (Machine.WaitCall.call w)) :
    w.timed = false ∧ ∃ gen, p = .wait gen := by
  obtain ⟨c, m, timed⟩ := w
  cases p with
  | wait gen =>
    cases timed with
    | false => exact ⟨rfl, gen, rfl⟩
    | true => cases h
  | _ => cases timed <;> cases h

theorem holds_of_ret {call : Call Unit Unit} {r : Ret} (h : p.call = some call)
    (hret : ∀ e, r ≠ .threw e) (hunlock : call ≠ .unlock ()) : (p.ret r).holds = true := by
  cases p with
  | lock | notify gen | wait gen => cases r <;> first | rfl | exact absurd rfl (hret _)
  | leave gen b => exact absurd (Option.some.inj h).symm hunlock
  | _ => cases h

theorem keeps_scope : Scoped (client (τ := τ)) Pos.holds where
  act := by
    intro t a x o b y hact
    rcases act_goes hact with ⟨-, rfl, rfl, -⟩ | hgoes
    · rfl
    · rw [hgoes.holds.1, hgoes.holds.2]
  lock := by
    intro a hcall
    obtain rfl := lock_of_call hcall
    rfl
  inside := fun hcall hlock => (holds_of_call hcall).resolve_right fun h => hlock h.2
  ret := holds_of_ret
  unlock := by
    intro a hcall
    obtain ⟨gen, b, rfl⟩ := leave_of_unlock hcall
    rfl
  threw := by
    intro a e
    cases a <;> rfl

theorem safe : Safe (client (τ := τ)) held := keeps_scope.safe

/-! ### What is found out under the mutex -/

/-- What the statements before the position have found out about `m_generation`. -/
def Pos.knows : Pos → Nat → Prop
  | .arrive gen, generation | .advance gen, generation | .wait gen, generation => gen = generation
  | .complete gen, generation | .notify gen, generation => gen + 1 = generation
  | .leave gen _, generation => gen ≠ generation
  | _, _ => True

theorem Goes.knows {o : Act} (h : Goes d o p q d') (hknows : p.knows d.generation) :
    q.knows d'.generation := by
  cases h with
  | reads => rfl
  | last => exact hknows
  | early | asserts => trivial
  | advances => exact congrArg Nat.succ hknows
  | resets => exact hknows
  | blocks hgen => exact hgen
  | passes hgen => exact hgen

theorem guarded : Guarded (client (τ := τ)) held () Data.generation Pos.knows where
  toSafe := safe
  known := by
    intro t a x o b y hact hb hknows
    rcases act_goes hact with ⟨-, -, rfl, -⟩ | hgoes
    · cases hb
    · exact hgoes.knows hknows
  frame := by
    intro t a x o b y hact ha
    rcases act_goes hact with ⟨-, -, -, rfl⟩ | hgoes
    · rfl
    · exact absurd hgoes.holds.1 ha
  kept := by
    intro a call r v hcall hgives hheld hm hknows
    cases a with
    | notify gen =>
      have hne : gen ≠ v := Nat.ne_of_lt (Nat.lt_of_succ_le (Nat.le_of_eq hknows))
      cases r <;> first | exact hne | cases hheld
    | lock | wait gen | leave gen b =>
      cases hcall
      exact absurd rfl hm
    | _ => cases hcall
  fresh := by
    intro a call r v hcall hgives hheld hm
    cases a with
    | lock | wait gen => cases r <;> trivial
    | leave gen b => cases r <;> cases hheld
    | notify gen =>
      cases hcall
      cases hm
    | _ => cases hcall

end Barrier

end GreenThread
