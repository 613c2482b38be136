import GreenThread.Barrier.Code
import GreenThread.Condition.Queues

/-!
# The generations of the barrier

A call of `wait` arrives when it decrements `m_count`. The log beside a run numbers the arrivals,
and keeps for each the generation it was counted in and what it left of the count. A generation is
over when the arrival that left nothing has incremented `m_generation`: that call returns `true`,
the others of the generation `false`, and all of them afterwards.

A thread that sleeps in `m_cond` is in the current generation, unless the thread that has ended its
generation is still to call `notify_all`.
-/

namespace GreenThread

namespace Barrier

variable {τ : Type} [DecidableEq τ]

/-- A decrement of `m_count`. -/
structure Arrival (τ : Type) where
  thread : τ
  /-- which call of `wait` of the thread -/
  call : Nat
  /-- `m_generation` -/
  gen : Nat
  /-- what it leaves of `m_count` -/
  left : UInt32
  deriving DecidableEq, Repr

/-- What the calls of `wait` have done. Arrivals are known by their place in the list. -/
structure Log (τ : Type) where
  calls : τ → Nat
  arrivals : List (Arrival τ)
  /-- the arrival of the call that a thread is in -/
  ticket : τ → Nat
  /-- the arrivals that ended the generations, in order -/
  completions : List Nat
  /-- the arrivals whose calls have returned, with the results -/
  returns : List (Nat × Bool)

namespace Log

variable (h : Log τ) (t : τ)

def empty : Log τ := ⟨fun _ => 0, [], fun _ => 0, [], []⟩

def begins : Log τ := { h with calls := Function.update h.calls t (h.calls t + 1) }

def arrives (gen : Nat) (left : UInt32) : Log τ :=
  { h with
    arrivals := h.arrivals ++ [⟨t, h.calls t, gen, left⟩]
    ticket := Function.update h.ticket t h.arrivals.length }

def completes : Log τ := { h with completions := h.completions ++ [h.ticket t] }

def ends (result : Bool) : Log τ := { h with returns := h.returns ++ [(h.ticket t, result)] }

/-- The arrivals whose calls have returned. -/
def returned : List Nat := h.returns.map Prod.fst

end Log

def record (h : Log τ) (s : State τ) (l : Label τ) (s' : State τ) : Log τ :=
  match l with
  | .act t .begin => h.begins t
  | .act t .go =>
    match s.pc t with
    | .user (.arrive _) => h.arrives t s.shared.generation s'.shared.count
    | .user (.advance _) => h.completes t
    | _ => h
  | .act _ (.completes _) => h
  | l =>
    match Machine.place s l.thread, s'.pc l.thread with
    | some (.leave _ result), .user .idle => h.ends l.thread result
    | _, _ => h

/-- The threads of one barrier and the log of what they did. -/
def logged (count : Count) : TransitionSystem (State τ × Log τ) (Label τ) :=
  (system count).withHistory .empty record

/-- The completion function gives no zero. -/
def positive : Label τ → Bool
  | .act _ (.completes n) => n ≠ 0
  | _ => true

/-- The thread is midway through the critical section of `wait`. -/
def midway : PC Unit Unit Pos → Bool
  | .user p => p.holds
  | .yielding p => (p.ret .done).holds
  | _ => false

/-- The barrier holds each generation together. -/
structure Rendezvous (s : State τ) (h : Log τ) : Prop where
  /-- a call is counted once, in the generation of that arrival -/
  counted : ∀ (i j : Nat) (a b : Arrival τ), h.arrivals[i]? = some a → h.arrivals[j]? = some b →
    a.thread = b.thread → a.call = b.call → i = j
  generations : h.completions.length = s.shared.generation
  /-- a generation was ended by its arrival that left nothing of the count, and there is no other -/
  ended : ∀ g i, h.completions[g]? = some i →
    ∃ a : Arrival τ, h.arrivals[i]? = some a ∧ a.gen = g ∧ a.left = 0
  only : ∀ (g i j : Nat) (a : Arrival τ), h.completions[g]? = some i → h.arrivals[j]? = some a →
    a.gen = g → a.left = 0 → j = i
  /-- a call returns once, after its generation was ended, and `true` exactly when it has ended
  it -/
  once : h.returned.Nodup
  returns : ∀ i result, (i, result) ∈ h.returns →
    ∃ (a : Arrival τ) (e : Nat), h.arrivals[i]? = some a ∧ h.completions[a.gen]? = some e ∧
    (result = true ↔ i = e)
  /-- an arrival whose call has not returned is that of the call its thread is in -/
  pending : ∀ (i : Nat) (a : Arrival τ), h.arrivals[i]? = some a → i ∉ h.returned →
    s.pc a.thread ≠ .user .idle ∧ a.call = h.calls a.thread
  count : (∀ t, midway (s.pc t) = false) → s.shared.count ≠ 0
  /-- a sleeper of a generation that is over has a wake-up in flight -/
  asleep : (∀ t, midway (s.pc t) = false) → ∀ t gen, Machine.place s t = some (.wait gen) →
    (⟨t, false⟩ : SuspendedItem τ) ∈ s.cond () → gen = s.shared.generation
  awake : (∀ t, midway (s.pc t) = false) → ∀ t w gen, s.pc t = .pausing w (.wait gen) →
    gen ≠ s.shared.generation →
    0 < s.pending t

/-! ### The ledger -/

/-- How far a thread is in a call of `wait`. -/
inductive Stage
  | outside
  | before
  | waiting (gen : Nat)
  | completing (gen : Nat)
  | over (gen : Nat) (result : Bool)

def Pos.stage : Pos → Stage
  | .idle | .asserted | .failed => .outside
  | .lock | .enter | .arrive _ => .before
  | .loop gen | .wait gen => .waiting gen
  | .advance gen => .completing gen
  | .complete gen | .notify gen => .over gen true
  | .leave gen result => .over gen result

namespace Stage

def gen : Stage → Option Nat
  | .outside | .before => none
  | .waiting gen | .completing gen | .over gen _ => some gen

/-- The arrival has left nothing of the count. -/
def completes : Stage → Bool
  | .completing _ => true
  | .over _ result => result
  | _ => false

end Stage

/-- The arrival of the call that the thread `t` is in. -/
def Owns (h : Log τ) (t : τ) (p : Stage) (g : Nat) : Prop :=
  ∃ a : Arrival τ, h.arrivals[h.ticket t]? = some a ∧ a.thread = t ∧ a.call = h.calls t ∧
  a.gen = g ∧ (a.left = 0 ↔ p.completes = true) ∧
    h.ticket t ∉ h.returned

/-- What the log says of threads at these stages. -/
structure Ledger (stage : τ → Stage) (generation : Nat) (h : Log τ) : Prop where
  generations : h.completions.length = generation
  own : ∀ t g, (stage t).gen = some g → Owns h t (stage t) g
  now : ∀ t g, stage t = .completing g → g = generation
  past : ∀ t g result, stage t = .over g result → g < generation
  bound : ∀ a ∈ h.arrivals, a.gen ≤ generation ∧
    (a.call < h.calls a.thread ∨ a.call = h.calls a.thread ∧ stage a.thread ≠ .before)
  counted : ∀ (i j : Nat) (a b : Arrival τ), h.arrivals[i]? = some a → h.arrivals[j]? = some b →
    a.thread = b.thread → a.call = b.call → i = j
  zero : ∀ (i : Nat) (a : Arrival τ), h.arrivals[i]? = some a → a.left = 0 →
    h.completions[a.gen]? = some i ∨ ∃ t, stage t = .completing a.gen ∧ h.ticket t = i
  ended : ∀ g i, h.completions[g]? = some i →
    ∃ a : Arrival τ, h.arrivals[i]? = some a ∧ a.gen = g ∧ a.left = 0
  once : h.returned.Nodup
  returns : ∀ i result, (i, result) ∈ h.returns →
    ∃ a : Arrival τ, h.arrivals[i]? = some a ∧ a.gen < generation ∧ (result = true ↔ a.left = 0)
  pending : ∀ (i : Nat) (a : Arrival τ), h.arrivals[i]? = some a → i ∉ h.returned →
    (stage a.thread).gen ≠ none ∧ h.ticket a.thread = i

namespace Ledger

variable {stage : τ → Stage} {generation : Nat} {h : Log τ} {t : τ} {g : Nat}

omit [DecidableEq τ] in
theorem initial : Ledger (fun _ => .outside) 0 (Log.empty : Log τ) where
  generations := rfl
  own := nofun
  now := nofun
  past := nofun
  bound := nofun
  counted := nofun
  zero := nofun
  ended := nofun
  once := List.nodup_nil
  returns := nofun
  pending := nofun

theorem lookup_concat {α : Type} {l : List α} {i : Nat} {a x : α} (h : (l ++ [x])[i]? = some a) :
    l[i]? = some a ∨ (i = l.length ∧ x = a) := by
  rw [List.getElem?_append] at h
  split at h
  · exact .inl h
  · next hge =>
    obtain ⟨hlt, heq⟩ := List.getElem?_eq_some_iff.mp h
    rw [List.length_singleton] at hlt
    refine .inr ⟨by omega, ?_⟩
    rw [← heq, List.getElem_singleton]

omit [DecidableEq τ] in
theorem owns_mono {h h' : Log τ} {p : Stage} (hown : Owns h t p g)
    (harrivals : ∃ l, h'.arrivals = h.arrivals ++ l)
    (hticket : h'.ticket t = h.ticket t) (hcalls : h'.calls t = h.calls t)
    (hreturned : h.ticket t ∈ h'.returned → h.ticket t ∈ h.returned) : Owns h' t p g := by
  obtain ⟨a, ha, hthread, hcall, hgen, hleft, hnot⟩ := hown
  obtain ⟨l, hl⟩ := harrivals
  refine ⟨a, ?_, hthread, hcall.trans hcalls.symm, hgen, hleft, ?_⟩
  · rw [hticket, hl]
    exact (List.getElem?_append_left (List.getElem?_eq_some_iff.mp ha).1).trans ha
  · rw [hticket]
    exact fun hmem => hnot (hreturned hmem)

/-! What a step of one thread leaves as it was. -/

theorem own_update (b : Ledger stage generation h) {h' : Log τ} {p : Stage}
    (hself : ∀ g, p.gen = some g → Owns h' t p g)
    (hother : ∀ u g, u ≠ t → Owns h u (stage u) g → Owns h' u (stage u) g) (u : τ) (g : Nat)
    (hu : (Function.update stage t p u).gen = some g) :
    Owns h' u (Function.update stage t p u) g := by
  by_cases hut : u = t
  · subst hut
    rw [Function.update_self] at hu ⊢
    exact hself g hu
  · rw [Function.update_of_ne hut] at hu ⊢
    exact hother u g hut (b.own u g hu)

theorem now_update (b : Ledger stage generation h) {p : Stage}
    (hp : ∀ g, p = .completing g → g = generation) (u : τ) (g : Nat)
    (hu : Function.update stage t p u = .completing g) : g = generation := by
  rcases Machine.of_update hu with ⟨-, hu⟩ | ⟨-, hu⟩
  · exact hp g hu.symm
  · exact b.now u g hu

theorem past_update (b : Ledger stage generation h) {p : Stage}
    (hp : ∀ g result, p = .over g result → g < generation) (u : τ)
    (g : Nat) (result : Bool) (hu : Function.update stage t p u = .over g result) :
    g < generation := by
  rcases Machine.of_update hu with ⟨-, hu⟩ | ⟨-, hu⟩
  · exact hp g result hu.symm
  · exact b.past u g result hu

theorem bound_update (b : Ledger stage generation h) {p : Stage} (hp : p ≠ .before) {a : Arrival τ}
    (ha : a ∈ h.arrivals) :
    a.gen ≤ generation ∧
    (a.call < h.calls a.thread ∨ a.call = h.calls a.thread ∧
      Function.update stage t p a.thread ≠ .before) := by
  obtain ⟨hle, hcalls⟩ := b.bound a ha
  refine ⟨hle, hcalls.imp_right fun ⟨heq, hbefore⟩ => ⟨heq, ?_⟩⟩
  by_cases hat : a.thread = t
  · rwa [hat, Function.update_self]
  · rwa [Function.update_of_ne hat]

theorem zero_update (b : Ledger stage generation h) (hstage : ∀ g, stage t ≠ .completing g)
    {p : Stage} {i : Nat} {a : Arrival τ} (ha : h.arrivals[i]? = some a) (hleft : a.left = 0) :
    h.completions[a.gen]? = some i ∨ ∃ u, u ≠ t ∧ Function.update stage t p u = .completing a.gen ∧
    h.ticket u = i := by
  refine (b.zero i a ha hleft).imp_right fun ⟨u, hu, hticket⟩ => ?_
  have hut : u ≠ t := by
    rintro rfl
    exact hstage a.gen hu
  exact ⟨u, hut, by rwa [Function.update_of_ne hut], hticket⟩

theorem pending_update (b : Ledger stage generation h) {p : Stage} (hp : p.gen ≠ none) {i : Nat}
    {a : Arrival τ} (ha : h.arrivals[i]? = some a) (hi : i ∉ h.returned) :
    (Function.update stage t p a.thread).gen ≠ none ∧ h.ticket a.thread = i := by
  obtain ⟨hsome, hticket⟩ := b.pending i a ha hi
  refine ⟨?_, hticket⟩
  by_cases hat : a.thread = t
  · rwa [hat, Function.update_self]
  · rwa [Function.update_of_ne hat]

omit [DecidableEq τ] in
theorem pending_other (b : Ledger stage generation h) (hstage : (stage t).gen = none) {i : Nat}
    {a : Arrival τ} (ha : h.arrivals[i]? = some a) (hi : i ∉ h.returned) : a.thread ≠ t := by
  rintro rfl
  exact (b.pending i a ha hi).1 hstage

theorem begins (b : Ledger stage generation h) (hstage : stage t = .outside) :
    Ledger (Function.update stage t .before) generation (h.begins t) where
  generations := b.generations
  own := b.own_update (fun _ => nofun) fun u g hut hown =>
    owns_mono hown ⟨[], (List.append_nil _).symm⟩ rfl (Function.update_of_ne hut _ _) id
  now := b.now_update fun _ => nofun
  past := b.past_update fun _ _ => nofun
  bound := fun a ha => by
    obtain ⟨hgen, hcall⟩ := b.bound a ha
    refine ⟨hgen, ?_⟩
    show a.call < Function.update h.calls t (h.calls t + 1) a.thread ∨
      a.call = Function.update h.calls t (h.calls t + 1) a.thread ∧ _
    by_cases hat : a.thread = t
    · left
      rw [hat] at hcall ⊢
      rw [Function.update_self]
      omega
    · rwa [Function.update_of_ne hat, Function.update_of_ne hat]
  counted := b.counted
  zero := fun i a ha hleft =>
    (b.zero_update (by simp [hstage]) ha hleft).imp_right fun ⟨u, _, hu⟩ => ⟨u, hu⟩
  ended := b.ended
  once := b.once
  returns := b.returns
  pending := fun i a ha hi => by
    have hat := b.pending_other (t := t) (by rw [hstage]; rfl) ha hi
    rw [Function.update_of_ne hat]
    exact b.pending i a ha hi

omit [DecidableEq τ] in
theorem lookup_returned (b : Ledger stage generation h) {i : Nat} (hi : i ∈ h.returned) :
    i < h.arrivals.length := by
  obtain ⟨⟨j, result⟩, hmem, rfl⟩ := List.mem_map.mp hi
  obtain ⟨a, ha, -⟩ := b.returns j result hmem
  exact (List.getElem?_eq_some_iff.mp ha).1

omit [DecidableEq τ] in
theorem gen_le (b : Ledger stage generation h) (hg : (stage t).gen = some g) : g ≤ generation := by
  obtain ⟨a, ha, -, -, rfl, -⟩ := b.own t g hg
  exact (b.bound a (List.mem_of_getElem? ha)).1

omit [DecidableEq τ] in
theorem not_arrived (b : Ledger stage generation h) (hstage : stage t = .before) {a : Arrival τ}
    (ha : a ∈ h.arrivals) (hthread : a.thread = t) : a.call < h.calls t := by
  obtain ⟨-, hlt | ⟨-, hnot⟩⟩ := b.bound a ha
  · rwa [hthread] at hlt
  · rw [hthread] at hnot
    exact absurd hstage hnot

theorem arrives (b : Ledger stage generation h) (hstage : stage t = .before) {p : Stage}
    {left : UInt32} (hgen : p.gen = some generation) (hzero : left = 0 ↔ p = .completing generation)
    (hpos : left ≠ 0 ↔ p = .waiting generation) :
    Ledger (Function.update stage t p) generation (h.arrives t generation left) := by
  have hcompletes : left = 0 ↔ p.completes = true := by
    by_cases hleft : left = 0
    · rw [hzero.mp hleft]
      exact iff_of_true hleft rfl
    · rw [hpos.mp hleft]
      exact iff_of_false hleft Bool.false_ne_true
  have hfresh : ∀ u, u ≠ t → Function.update h.ticket t h.arrivals.length u = h.ticket u :=
    fun u hu => Function.update_of_ne hu _ _
  constructor
  · exact b.generations
  · refine b.own_update (fun g hg => ?_) fun u g hut hown =>
      owns_mono hown ⟨_, rfl⟩ (hfresh u hut) rfl id
    refine ⟨⟨t, h.calls t, generation, left⟩, ?_, rfl, rfl, Option.some.inj (hgen.symm.trans hg),
      hcompletes, ?_⟩
    · simp [Log.arrives]
    · show Function.update h.ticket t h.arrivals.length t ∉ h.returned
      rw [Function.update_self]
      exact fun hmem => absurd (b.lookup_returned hmem) (Nat.lt_irrefl _)
  · refine b.now_update fun g hp => ?_
    rw [hp] at hgen
    exact Option.some.inj hgen
  · refine b.past_update fun g result hp => ?_
    by_cases hleft : left = 0
    · cases hp.symm.trans (hzero.mp hleft)
    · cases hp.symm.trans (hpos.mp hleft)
  · intro a ha
    rcases List.mem_append.mp ha with ha | ha
    · refine ⟨(b.bound a ha).1, ?_⟩
      by_cases hat : a.thread = t
      · left
        have hlt := b.not_arrived hstage ha hat
        rwa [← hat] at hlt
      · rw [Function.update_of_ne hat]
        exact (b.bound a ha).2
    · obtain rfl := List.mem_singleton.mp ha
      refine ⟨Nat.le_refl _, .inr ⟨rfl, ?_⟩⟩
      rw [Function.update_self]
      rintro rfl
      cases hgen
  · intro i j x y hx hy hthread hcall
    rcases lookup_concat hx with hx | ⟨hi, rfl⟩
    · rcases lookup_concat hy with hy | ⟨hj, rfl⟩
      · exact b.counted i j x y hx hy hthread hcall
      · exact absurd hcall (Nat.ne_of_lt (b.not_arrived hstage (List.mem_of_getElem? hx) hthread))
    · rcases lookup_concat hy with hy | ⟨hj, rfl⟩
      · exact absurd hcall.symm
          (Nat.ne_of_lt (b.not_arrived hstage (List.mem_of_getElem? hy) hthread.symm))
      · rw [hi, hj]
  · intro i a ha hleft
    rcases lookup_concat ha with ha | ⟨hi, rfl⟩
    · refine (b.zero_update (by simp [hstage]) ha hleft).imp_right fun ⟨u, hut, hu, hticket⟩ =>
        ⟨u, hu, ?_⟩
      exact (hfresh u hut).trans hticket
    · refine .inr ⟨t, ?_, ?_⟩
      · rw [Function.update_self, hzero.mp hleft]
      · rw [hi]
        exact Function.update_self ..
  · intro g i hi
    obtain ⟨a, ha, hrest⟩ := b.ended g i hi
    have hlt := (List.getElem?_eq_some_iff.mp ha).1
    exact ⟨a, (List.getElem?_append_left hlt).trans ha, hrest⟩
  · exact b.once
  · intro i result hmem
    obtain ⟨a, ha, hrest⟩ := b.returns i result hmem
    have hlt := (List.getElem?_eq_some_iff.mp ha).1
    exact ⟨a, (List.getElem?_append_left hlt).trans ha, hrest⟩
  · intro i a ha hi
    rcases lookup_concat ha with ha | ⟨hi, rfl⟩
    · have hat := b.pending_other (t := t) (by rw [hstage]; rfl) ha hi
      obtain ⟨hsome, hticket⟩ := b.pending i a ha hi
      rw [Function.update_of_ne hat]
      exact ⟨hsome, (hfresh _ hat).trans hticket⟩
    · rw [Function.update_self, hgen, hi]
      exact ⟨Option.some_ne_none _, Function.update_self ..⟩

/-- The thread whose arrival left nothing ends the generation. -/
theorem completes (b : Ledger stage generation h) (hstage : stage t = .completing generation)
    (honly : ∀ u g, stage u = .completing g → u = t) :
    Ledger (Function.update stage t (.over generation true)) (generation + 1) (h.completes t) := by
  have hgen : (stage t).gen = some generation := by rw [hstage]; rfl
  obtain ⟨own, hown, hthread, hcall, hownGen, hleft, hnot⟩ := b.own t generation hgen
  rw [hstage] at hleft
  constructor
  · show (h.completions ++ [h.ticket t]).length = generation + 1
    rw [List.length_append, b.generations, List.length_singleton]
  · exact b.own_update
      (fun g hg => ⟨own, hown, hthread, hcall, hownGen.trans (Option.some.inj hg), hleft, hnot⟩)
      fun u g _ hother => owns_mono hother ⟨[], (List.append_nil _).symm⟩ rfl rfl id
  · intro u g hu
    rcases Machine.of_update hu with ⟨-, hp⟩ | ⟨hut, hu⟩
    · cases hp
    · exact absurd (honly u g hu) hut
  · intro u g result hu
    rcases Machine.of_update hu with ⟨-, hp⟩ | ⟨-, hu⟩
    · cases hp
      exact Nat.lt_succ_self _
    · exact Nat.lt_succ_of_lt (b.past u g result hu)
  · intro a ha
    obtain ⟨hle, hcalls⟩ := b.bound_update (p := .over generation true) nofun ha
    exact ⟨Nat.le_succ_of_le hle, hcalls⟩
  · exact b.counted
  · intro i a ha hzero
    left
    rcases b.zero i a ha hzero with hdone | ⟨u, hu, hticket⟩
    · exact (List.getElem?_append_left (List.getElem?_eq_some_iff.mp hdone).1).trans hdone
    · obtain rfl := honly u a.gen hu
      rw [b.now u a.gen hu, ← hticket, ← b.generations]
      simp [Log.completes]
  · intro g i hi
    rcases lookup_concat hi with hi | ⟨hg, rfl⟩
    · exact b.ended g i hi
    · exact ⟨own, hown, by rw [hg, b.generations, hownGen], hleft.mpr rfl⟩
  · exact b.once
  · intro i result hmem
    obtain ⟨a, ha, hlt, hresult⟩ := b.returns i result hmem
    exact ⟨a, ha, Nat.lt_succ_of_lt hlt, hresult⟩
  · exact fun i a ha hi => b.pending_update (p := .over generation true) nofun ha hi

theorem passes (b : Ledger stage generation h) (hstage : stage t = .waiting g)
    (hg : g ≠ generation) :
    Ledger (Function.update stage t (.over g false)) generation h := by
  have hgen : (stage t).gen = some g := by rw [hstage]; rfl
  have hlt : g < generation := Nat.lt_of_le_of_ne (b.gen_le hgen) hg
  obtain ⟨own, hown, hthread, hcall, hownGen, hleft, hnot⟩ := b.own t g hgen
  rw [hstage] at hleft
  constructor
  · exact b.generations
  · exact b.own_update
      (fun g' hg => ⟨own, hown, hthread, hcall, hownGen.trans (Option.some.inj hg), hleft, hnot⟩)
      fun _ _ _ hother => hother
  · exact b.now_update fun _ => nofun
  · refine b.past_update fun g' result hp => ?_
    cases hp
    exact hlt
  · exact fun a ha => b.bound_update (p := .over g false) nofun ha
  · exact b.counted
  · exact fun i a ha hzero =>
      (b.zero_update (by simp [hstage]) ha hzero).imp_right fun ⟨u, _, hu⟩ => ⟨u, hu⟩
  · exact b.ended
  · exact b.once
  · exact b.returns
  · exact fun i a ha hi => b.pending_update (p := .over g false) nofun ha hi

theorem ends (b : Ledger stage generation h) {result : Bool} (hstage : stage t = .over g result) :
    Ledger (Function.update stage t .outside) generation (h.ends t result) := by
  have hgen : (stage t).gen = some g := by rw [hstage]; rfl
  obtain ⟨own, hown, hthread, hcall, hownGen, hleft, hnot⟩ := b.own t g hgen
  rw [hstage] at hleft
  have hreturned : (h.ends t result).returned = h.returned ++ [h.ticket t] := by
    simp [Log.ends, Log.returned]
  constructor
  · exact b.generations
  · refine b.own_update (fun _ => nofun) fun u g' hut hother => ?_
    refine owns_mono hother ⟨[], (List.append_nil _).symm⟩ rfl rfl fun hmem => ?_
    rw [hreturned, List.mem_append, List.mem_singleton] at hmem
    refine hmem.resolve_right fun hsame => hut ?_
    obtain ⟨a, ha, hathread, -⟩ := hother
    rw [hsame, hown] at ha
    rw [← hathread, ← hthread, Option.some.inj ha]
  · exact b.now_update fun _ => nofun
  · exact b.past_update fun _ _ => nofun
  · exact fun a ha => b.bound_update (p := .outside) nofun ha
  · exact b.counted
  · exact fun i a ha hzero =>
      (b.zero_update (by simp [hstage]) ha hzero).imp_right fun ⟨u, _, hu⟩ => ⟨u, hu⟩
  · exact b.ended
  · rw [hreturned]
    exact List.nodup_append.mpr ⟨b.once, List.nodup_singleton _, fun i hi j hj heq => by
      rw [List.mem_singleton.mp hj] at heq
      exact hnot (heq ▸ hi)⟩
  · intro i result' hmem
    rcases List.mem_append.mp hmem with hmem | hmem
    · exact b.returns i result' hmem
    · obtain ⟨rfl, rfl⟩ := Prod.mk.inj (List.mem_singleton.mp hmem)
      exact ⟨own, hown, hownGen ▸ b.past t g result' hstage, hleft.symm⟩
  · intro i a ha hi
    rw [hreturned, List.mem_append, List.mem_singleton, not_or] at hi
    obtain ⟨hsome, hticket⟩ := b.pending i a ha hi.1
    have hat : a.thread ≠ t := by
      rintro rfl
      exact hi.2 hticket.symm
    rw [Function.update_of_ne hat]
    exact ⟨hsome, hticket⟩

omit [DecidableEq τ] in
/-- A generation that is over has one arrival that left nothing. -/
theorem only (b : Ledger stage generation h) {i j : Nat} {a : Arrival τ}
    (hended : h.completions[g]? = some i)
    (ha : h.arrivals[j]? = some a) (hgen : a.gen = g) (hleft : a.left = 0) : j = i := by
  rcases b.zero j a ha hleft with hdone | ⟨t, ht, -⟩
  · rw [hgen, hended] at hdone
    exact (Option.some.inj hdone).symm
  · have hlt := (List.getElem?_eq_some_iff.mp hended).1
    rw [b.generations] at hlt
    have hnow := b.now t a.gen ht
    omega

omit [DecidableEq τ] in
/-- A call returns `true` exactly when its arrival ended the generation. -/
theorem result (b : Ledger stage generation h) {i : Nat} {result : Bool}
    (hmem : (i, result) ∈ h.returns) :
    ∃ (a : Arrival τ) (e : Nat), h.arrivals[i]? = some a ∧ h.completions[a.gen]? = some e ∧
    (result = true ↔ i = e) := by
  obtain ⟨a, ha, hlt, hresult⟩ := b.returns i result hmem
  rw [← b.generations] at hlt
  have hended := List.getElem?_eq_getElem hlt
  refine ⟨a, _, ha, hended, hresult.trans ⟨fun hleft => b.only hended ha rfl hleft, fun hi => ?_⟩⟩
  obtain ⟨a', ha', -, hleft⟩ := b.ended a.gen _ hended
  rw [← hi, ha] at ha'
  rwa [Option.some.inj ha']

omit [DecidableEq τ] in
theorem current (b : Ledger stage generation h) {i : Nat} {a : Arrival τ}
    (ha : h.arrivals[i]? = some a) (hi : i ∉ h.returned) : a.call = h.calls a.thread := by
  obtain ⟨hsome, hticket⟩ := b.pending i a ha hi
  obtain ⟨g, hg⟩ := Option.ne_none_iff_exists'.mp hsome
  obtain ⟨a', ha', -, hcall, -⟩ := b.own a.thread g hg
  rw [hticket, ha] at ha'
  obtain rfl := Option.some.inj ha'
  exact hcall

end Ledger

/-! ### The steps of the system -/

variable {count : Count} {s s' : State τ} {l : Label τ} {h : Log τ} {ok : State τ → Label τ → Prop}

def stageOf : Option Pos → Stage
  | some p => p.stage
  | none => .outside

def stage (s : State τ) (t : τ) : Stage := stageOf (Machine.place s t)

theorem stage_update {t : τ} {q : Pos}
    (hplace : Machine.place s' = Function.update (Machine.place s) t (some q)) :
    stage s' = Function.update (stage s) t q.stage := by
  funext u
  unfold stage
  rw [hplace]
  by_cases hu : u = t
  · subst hu
    rw [Function.update_self, Function.update_self]
    rfl
  · rw [Function.update_of_ne hu, Function.update_of_ne hu]

omit [DecidableEq τ] in
theorem stage_user {t : τ} {p : Pos} (hpc : s.pc t = .user p) : stage s t = p.stage := by
  unfold stage Machine.place
  rw [hpc]
  rfl

theorem reach_knows (hr : (system count).Reach ok s) {t : τ} {p : Pos} (hpc : s.pc t = .user p)
    (hholds : p.holds = true) :
    p.knows s.shared.generation :=
  Machine.reach_informed guarded not_held_idle hr t p (by
    rw [hpc]
    exact ⟨rfl, hholds, .inl rfl⟩)

theorem record_inside (hl : ∀ t o, l ≠ .act t o)
    (hnot : ∀ g result, Machine.place s l.thread = some (.leave g result) →
    s'.pc l.thread ≠ .user .idle) : record h s l s' = h := by
  cases l with
  | act t o => exact absurd rfl (hl t o)
  | _ =>
    -- the last alternative of the record applies because of `hnot`
    simp only [record]

theorem record_ends (hl : ∀ t o, l ≠ .act t o) {g : Nat} {result : Bool}
    (hplace : Machine.place s l.thread = some (.leave g result))
    (hpc : s'.pc l.thread = .user .idle) : record h s l s' = h.ends l.thread result := by
  cases l with
  | act t o => exact absurd rfl (hl t o)
  | _ => simp only [record, hplace, hpc]

/-- Only one thread is before `m_generation++`. -/
theorem only_advances (hr : (system count).Reach ok s) {t u : τ} {gen g : Nat}
    (hpc : s.pc t = .user (.advance gen)) (hu : stage s u = .completing g) : u = t := by
  have hplace : Machine.place s u = some (.advance g) := by
    unfold stage at hu
    generalize Machine.place s u = p at hu
    cases p with
    | none => cases hu
    | some p =>
      cases p <;> cases hu
      rfl
  have hpc' : s.pc u = .user (.advance g) :=
    Machine.user_of_place (Machine.reach_called hr u) hplace rfl
  exact Machine.reach_exclusive safe.toDisciplined not_held_idle hr
    (m := ()) rfl rfl hpc' hpc rfl rfl

theorem Ledger.act (b : Ledger (stage s) s.shared.generation h) (hr : (system count).Reach ok s)
    {t : τ} {o : Act} {p q : Pos}
    (hpc : s.pc t = .user p) (hact : p.act s.shared o = some (q, s'.shared))
    (hplace : Machine.place s' = Function.update (Machine.place s) t (some q))
    (hpositive : positive (.act t o : Label τ) = true) :
    Ledger (stage s') s'.shared.generation (record h s (.act t o) s') := by
  have hstage := stage_user hpc
  rw [stage_update hplace]
  have hsame : q.stage = p.stage → record h s (.act t o) s' = h →
    s'.shared.generation = s.shared.generation →
      Ledger (Function.update (stage s) t q.stage) s'.shared.generation
      (record h s (.act t o) s') := by
    intro hq hrecord hgeneration
    rwa [hq, ← hstage, Function.update_eq_self, hrecord, hgeneration]
  rcases act_goes hact with ⟨rfl, rfl, rfl, hshared⟩ | hgoes
  · rw [hshared]
    exact b.begins hstage
  · generalize hd : s'.shared = d at hgoes
    cases hgoes with
    | reads => exact hd ▸ hsame rfl (by simp [record, hpc]) (by rw [hd])
    | @last gen hzero =>
      have hgen : gen = s.shared.generation := reach_knows hr hpc rfl
      have hrecord : record h s (.act t .go) s' =
        h.arrives t s.shared.generation (s.shared.count - 1) := by
        simp [record, hpc, hd]
      rw [hrecord, hgen, hzero]
      exact b.arrives hstage rfl (iff_of_true rfl rfl) (iff_of_false (not_not_intro rfl) nofun)
    | @early gen hpos =>
      have hgen : gen = s.shared.generation := reach_knows hr hpc rfl
      have hrecord : record h s (.act t .go) s' =
        h.arrives t s.shared.generation (s.shared.count - 1) := by
        simp [record, hpc, hd]
      rw [hrecord, hgen]
      exact b.arrives hstage rfl (iff_of_false hpos nofun) (iff_of_true hpos rfl)
    | @advances gen =>
      have hgen : gen = s.shared.generation := reach_knows hr hpc rfl
      have hrecord : record h s (.act t .go) s' = h.completes t := by simp [record, hpc]
      rw [hrecord, hgen]
      exact b.completes (hgen ▸ hstage) fun u g hu => only_advances hr hpc hu
    | resets => exact hd ▸ hsame rfl (by simp [record]) (by rw [hd])
    | asserts => cases hpositive
    | blocks => exact hd ▸ hsame rfl (by simp [record, hpc]) (by rw [hd])
    | passes hgen =>
      have hrecord : record h s (.act t .go) s' = h := by simp [record, hpc]
      rw [hrecord]
      exact b.passes hstage hgen

theorem Ledger.step (b : Ledger (stage s) s.shared.generation h) (hr : (system count).Reach ok s)
    (hstep : (system count).step s l = some s') (hpositive : positive l = true) :
    Ledger (stage s') s'.shared.generation (record h s l s') := by
  rcases Machine.reach_place safe not_held_idle hr hstep with ⟨t, o, p, q, rfl, hpc, hact, hplace⟩ |
      ⟨hl, hshared, p, call, r, hat, hcall, -, hthrew, hpc', hplace⟩ | ⟨hl, hshared, hplace, hpc'⟩
  · exact b.act hr hpc hact hplace hpositive
  · have hstage : stage s l.thread = p.stage := by
      unfold stage
      rw [hat]
      rfl
    rw [hshared, stage_update hplace]
    have hstays : ∀ q : Pos, p.ret r = q → q ≠ .idle → q.stage = p.stage →
        Ledger (Function.update (stage s) l.thread q.stage) s.shared.generation
        (record h s l s') := by
      intro q hret hidle hq
      rw [record_inside hl, hq, ← hstage, Function.update_eq_self]
      · exact b
      · rintro g result - hpc
        rw [hpc] at hpc'
        exact hidle (hret.symm.trans (PC.user.inj hpc').symm)
    cases p with
    | lock =>
      cases r with
      | threw e => exact absurd rfl (hthrew e)
      | _ => exact hstays .enter rfl nofun rfl
    | notify gen =>
      cases r with
      | threw e => exact absurd rfl (hthrew e)
      | _ => exact hstays (.leave gen true) rfl nofun rfl
    | wait gen =>
      cases r with
      | threw e => exact absurd rfl (hthrew e)
      | _ => exact hstays (.loop gen) rfl nofun rfl
    | leave gen result =>
      have hidle : (Pos.leave gen result).ret r = .idle := by
        cases r with
        | threw e => exact absurd rfl (hthrew e)
        | _ => rfl
      have hpc' : s'.pc l.thread = .user ((Pos.leave gen result).ret r) := hpc'
      rw [hidle] at hpc'
      show Ledger (Function.update (stage s) l.thread ((Pos.leave gen result).ret r).stage) _ _
      rw [hidle, record_ends hl hat hpc']
      exact b.ends hstage
    | _ => cases hcall
  · have hsame : stage s' = stage s := by
      unfold stage
      rw [hplace]
    rw [hsame, hshared, record_inside hl]
    · exact b
    · intro g result hat hidle
      rcases hpc' with hpc' | ⟨a, hin⟩
      · unfold Machine.place at hat
        rw [← hpc', hidle] at hat
        cases hat
      · rw [hidle] at hin
        obtain rfl := Option.some.inj hin.1
        exact hin.2 rfl

/-! ### The count and the sleepers -/

/-- The count is zero only while a generation is being ended. -/
def Positive (s : State τ) : Prop :=
  s.shared.count = 0 → ∃ t gen, s.pc t = .user (.advance gen) ∨ s.pc t = .user (.complete gen)

/-- A sleeper is in the current generation, unless the thread that has ended its generation is still
to notify it. -/
def Sleeping (s : State τ) : Prop :=
  ∀ t gen, Machine.place s t = some (.wait gen) → (⟨t, false⟩ : SuspendedItem τ) ∈ s.cond () →
    gen = s.shared.generation ∨ ∃ u g, s.pc u = .user (.complete g) ∨ s.pc u = .user (.notify g)

theorem user_stays (hr : (system count).Reach ok s) (hstep : (system count).step s l = some s')
    {t : τ} {p : Pos} (hpc : s.pc t = .user p) (hl : ∀ o, l ≠ .act t o) (hcall : p.call = none) :
    s'.pc t = .user p := by
  rcases Machine.reach_cases hr hstep with ⟨u, o, a, b, rfl, -, -, hpc', -⟩ |
    ⟨-, -, hother, hprogress⟩
  · have htu : t ≠ u := by
      rintro rfl
      exact hl o rfl
    rw [hpc', Function.update_of_ne htu, hpc]
  · by_cases htl : t = l.thread
    · subst htl
      rcases hprogress with hsame | ⟨a, call, hat, hcall', -⟩
      · rw [hsame, hpc]
      · rw [hpc] at hat
        obtain rfl := Option.some.inj hat
        cases hcall.symm.trans hcall'
    · rw [hother t htl, hpc]

theorem Positive.step (hpos : Positive s) (hr : (system count).Reach ok s)
    (hstep : (system count).step s l = some s') (hpositive : positive l = true) : Positive s' := by
  intro hzero
  -- the thread that ends the generation is still there after the steps of the others
  have hstays : s'.shared.count = s.shared.count → (∀ t p o, l = .act t o → s.pc t = .user p →
      (∀ gen, p ≠ .advance gen) ∧ ∀ gen, p ≠ .complete gen) →
      ∃ t gen, s'.pc t = .user (.advance gen) ∨ s'.pc t = .user (.complete gen) := by
    intro hcount hnot
    obtain ⟨t, gen, hpc⟩ := hpos (hcount ▸ hzero)
    refine ⟨t, gen, hpc.imp (fun hpc => ?_) fun hpc => ?_⟩
    · exact user_stays hr hstep hpc (fun o hl => (hnot t _ o hl hpc).1 gen rfl) rfl
    · exact user_stays hr hstep hpc (fun o hl => (hnot t _ o hl hpc).2 gen rfl) rfl
  rcases Machine.reach_cases hr hstep with ⟨t, o, p, q, rfl, hpc, hact, hpc', -⟩ | ⟨hl, hshared, -⟩
  · have hown : ∀ {p'}, p = p' → (∀ gen, p' ≠ .advance gen) →
      (∀ gen, p' ≠ .complete gen) → ∀ u a o',
        (.act t o : Label τ) = .act u o' → s.pc u = .user a →
        (∀ gen, a ≠ .advance gen) ∧ ∀ gen, a ≠ .complete gen := by
      rintro p' rfl hadvance hcomplete u a o' hl hpcu
      cases hl
      obtain rfl := PC.user.inj (hpcu.symm.trans hpc)
      exact ⟨hadvance, hcomplete⟩
    have hthere : s'.pc t = .user q := by rw [hpc', Function.update_self]
    rcases act_goes hact with ⟨rfl, hidle, rfl, hshared⟩ | hgoes
    · exact hstays (by rw [hshared]) (hown hidle nofun nofun)
    · generalize hd : s'.shared = d at hgoes
      cases hgoes with
      | reads => exact hstays (by rw [hd]) (hown rfl nofun nofun)
      | last => exact ⟨t, _, .inl hthere⟩
      | early hpos' =>
        rw [hd] at hzero
        exact absurd hzero hpos'
      | advances => exact ⟨t, _, .inr hthere⟩
      | resets hn =>
        rw [hd] at hzero
        exact absurd hzero hn
      | asserts => cases hpositive
      | blocks => exact hstays (by rw [hd]) (hown rfl nofun nofun)
      | passes => exact hstays (by rw [hd]) (hown rfl nofun nofun)
  · exact hstays (by rw [hshared]) fun t p o hlt => absurd hlt (hl t o)

theorem ret_ne_wait {p : Pos} {r : Ret} {gen : Nat} : p.ret r ≠ .wait gen := by
  cases p <;> cases r <;> exact nofun

/-- Only the calls of `wait` lead to `m_cond.wait`, and those are steps of the client. -/
theorem place_of_wait (hr : (system count).Reach ok s) (hstep : (system count).step s l = some s')
    (hl : ∀ t o, l ≠ .act t o)
    {t : τ} {gen : Nat} (hplace' : Machine.place s' t = some (.wait gen)) :
    Machine.place s t = some (.wait gen) := by
  rcases Machine.reach_place safe not_held_idle hr hstep with ⟨u, o, p, q, hlu, -⟩ |
    ⟨-, -, p, call, r, -, -, -, -, -, hplace⟩ |
      ⟨-, -, hplace, -⟩
  · exact absurd hlu (hl u o)
  · rw [hplace] at hplace'
    rcases Machine.place_of_update hplace' with ⟨-, hret⟩ | ⟨-, hbefore⟩
    · exact absurd hret.symm ret_ne_wait
    · exact hbefore
  · rwa [hplace] at hplace'

theorem timer_idle (hr : (system count).Reach ok s) (t : τ) : s.timer t = .idle := by
  refine ConditionProtocol.timer_idle (Machine.reach_inv hr) fun w hw => ?_
  have hcalled := Machine.reach_called hr t
  cases hpc : s.pc t with
  | unlocking w' a | unlockYield w' a | pausing w' a | relocking w' a | relockPause w' a =>
    rw [hpc] at hw hcalled
    obtain rfl := Option.some.inj hw
    exact (wait_of_call hcalled).1
  | _ =>
    rw [hpc] at hw
    cases hw

theorem Sleeping.act (hsleeping : Sleeping s) (hr : (system count).Reach ok s) {t : τ}
    {o : Act} {p q : Pos} (hpc : s.pc t = .user p) (hact : p.act s.shared o = some (q, s'.shared))
    (hpc' : s'.pc = Function.update s.pc t (.user q)) (hcond : s'.cond = s.cond)
    (hpositive : positive (.act t o : Label τ) = true) :
    Sleeping s' := by
  intro v gen hplace hmem
  rw [hcond] at hmem
  have hthere : s'.pc t = .user q := by rw [hpc', Function.update_self]
  have hvt : v ≠ t := by
    rintro rfl
    have hawake : ConditionProtocol.awaits (s.pc v) = none := by rw [hpc]; rfl
    exact (ConditionProtocol.unregistered (Machine.reach_inv hr) hawake).2 () false hmem
  rw [Machine.place, hpc', Function.update_of_ne hvt] at hplace
  have hbefore := hsleeping v gen hplace hmem
  -- the thread that ends the generation is another one
  have hkeep : s'.shared.generation = s.shared.generation → (∀ g, p ≠ .complete g) →
    (∀ g, p ≠ .notify g) →
      gen = s'.shared.generation ∨ ∃ u g, s'.pc u = .user (.complete g) ∨
      s'.pc u = .user (.notify g) := by
    intro hgeneration hcomplete hnotify
    refine hbefore.imp (fun heq => heq.trans hgeneration.symm) fun hending => ?_
    obtain ⟨u, g, hu⟩ := hending
    refine ⟨u, g, ?_⟩
    have hut : u ≠ t := by
      rintro rfl
      rcases hu with hu | hu
      · exact hcomplete g (PC.user.inj (hpc.symm.trans hu))
      · exact hnotify g (PC.user.inj (hpc.symm.trans hu))
    rwa [hpc', Function.update_of_ne hut]
  rcases act_goes hact with ⟨rfl, rfl, rfl, hshared⟩ | hgoes
  · exact hkeep (by rw [hshared]) (fun g h => by cases h) fun g h => by cases h
  · generalize hd : s'.shared = d at hgoes hkeep ⊢
    cases hgoes with
    | advances => exact .inr ⟨t, _, .inl hthere⟩
    | resets => exact .inr ⟨t, _, .inr hthere⟩
    | asserts => cases hpositive
    | _ => exact hkeep rfl (fun g h => by cases h) fun g h => by cases h

theorem Sleeping.step (hsleeping : Sleeping s) (hr : (system count).Reach ok s)
    (hstep : (system count).step s l = some s') (hpositive : positive l = true) : Sleeping s' := by
  have hinv := Machine.reach_inv hr
  have hmove := Machine.step_move hinv hstep
  rcases Machine.reach_cases hr hstep with ⟨t, o, p, q, rfl, hpc, hact, hpc', hcond⟩ |
    ⟨hl, hshared, -, -⟩
  · exact hsleeping.act hr hpc hact hpc' hcond hpositive
  · intro v gen hplace hmem
    have hplace := place_of_wait hr hstep hl hplace
    rw [hshared]
    -- the sleeper was there before, and the thread that is to notify it has not called
    have hkeep : (⟨v, false⟩ : SuspendedItem τ) ∈ s.cond () →
      (∀ g, s.pc l.thread = .user (.notify g) → s'.pc l.thread = s.pc l.thread) →
        gen = s.shared.generation ∨ ∃ u g, s'.pc u = .user (.complete g) ∨
        s'.pc u = .user (.notify g) := by
      intro hmem hnotify
      refine (hsleeping v gen hplace hmem).imp_right fun ⟨u, g, hu⟩ =>
        ⟨u, g, hu.imp (fun hu => ?_) fun hu => ?_⟩
      · exact user_stays hr hstep hu (hl u) rfl
      · by_cases hul : u = l.thread
        · subst hul
          rw [hnotify g hu, hu]
        · rw [hmove.pc_ne (Machine.reach_called hr) hul, hu]
    cases ConditionProtocol.queueStep hmove hl with
    | same hcond hnobody =>
      refine hkeep (hcond ▸ hmem) fun g hpc => ?_
      by_contra hne
      exact (hnobody _ () hpc hne).2 rfl
    | @joins a w hpc hcall hcond =>
      obtain ⟨hw, gen', rfl⟩ := wait_of_call hcall
      have hnot : ∀ g, s.pc l.thread ≠ .user (.notify g) := fun g hg => by cases hpc.symm.trans hg
      rw [hcond] at hmem
      change _ ∈ Function.update s.cond w.cond _ w.cond at hmem
      rw [Function.update_self] at hmem
      rcases List.mem_append.mp hmem with hmem | hmem
      · exact hkeep hmem fun g hg => absurd hg (hnot g)
      · have hv : v = l.thread := congrArg SuspendedItem.f (List.mem_singleton.mp hmem)
        subst hv
        rw [Machine.place, hpc] at hplace
        obtain rfl := Pos.wait.inj (Option.some.inj hplace)
        exact .inl (reach_knows hr hpc rfl)
    | @one a c i rest hpc hcall =>
      cases a <;> cases hcall
    | all hpc hcall hcond =>
      rw [hcond] at hmem
      exact absurd hmem (by simp)
    | timeout htimer => cases (timer_idle hr l.thread).symm.trans htimer

/-! ### Every run -/

/-- What holds in every run whose completion functions give no zero. -/
theorem reach_books {sh : State τ × Log τ}
    (hr : (logged count).Reach (fun _ l => positive l = true) sh) :
    Ledger (stage sh.1) sh.1.shared.generation sh.2 ∧ Positive sh.1 ∧ Sleeping sh.1 := by
  refine hr.invariant (I := fun sh => Ledger (stage sh.1) sh.1.shared.generation sh.2 ∧
    Positive sh.1 ∧ Sleeping sh.1) ?_ ?_
  · rintro ⟨s, h⟩ ⟨hs, hh⟩
    cases hs
    cases hh
    exact ⟨.initial, fun hzero => absurd hzero count.property, fun t gen hplace => by cases hplace⟩
  · rintro ⟨s, h⟩ l sh' hr ⟨b, hpos, hsleeping⟩ hpositive hstep
    obtain ⟨s', hs', rfl⟩ := TransitionSystem.withHistory_step.mp hstep
    exact ⟨b.step hr.forget hs' hpositive, hpos.step hr.forget hs' hpositive,
      hsleeping.step hr.forget hs' hpositive⟩

/-- The barrier holds every generation together. -/
theorem rendezvous {sh : State τ × Log τ}
    (hr : (logged count).Reach (fun _ l => positive l = true) sh) : Rendezvous sh.1 sh.2 := by
  obtain ⟨b, hpos, hsleeping⟩ := reach_books hr
  have hasleep : (∀ t, midway (sh.1.pc t) = false) →
    ∀ t gen, Machine.place sh.1 t = some (.wait gen) →
      (⟨t, false⟩ : SuspendedItem τ) ∈ sh.1.cond () → gen = sh.1.shared.generation := by
    intro hquiet t gen hplace hmem
    refine (hsleeping t gen hplace hmem).resolve_right ?_
    rintro ⟨u, g, hu | hu⟩
    · have hmid := hquiet u
      rw [hu] at hmid
      cases hmid
    · have hmid := hquiet u
      rw [hu] at hmid
      cases hmid
  refine ⟨b.counted, b.generations, b.ended, ?_, b.once, ?_, ?_, ?_, hasleep, ?_⟩
  · exact fun g i j a hended ha hgen hleft => b.only hended ha hgen hleft
  · exact fun i result hmem => b.result hmem
  · refine fun i a ha hi => ⟨fun hidle => (b.pending i a ha hi).1 ?_, b.current ha hi⟩
    rw [stage_user hidle]
    rfl
  · intro hquiet hzero
    obtain ⟨t, gen, ht | ht⟩ := hpos hzero
    · have hmid := hquiet t
      rw [ht] at hmid
      cases hmid
    · have hmid := hquiet t
      rw [ht] at hmid
      cases hmid
  · intro hquiet t w gen hpc hgen
    by_contra hpending
    have htimed := (wait_of_call (p := .wait gen) (by
      have hcalled := Machine.reach_called hr.forget t
      rwa [hpc] at hcalled)).1
    have hqueued := ConditionProtocol.queued_of_blocked (Machine.reach_inv hr.forget) hpc htimed
      (Nat.eq_zero_of_not_pos hpending)
    exact hgen (hasleep hquiet t gen (by rw [Machine.place, hpc]; rfl) hqueued)

/-- Thread 1 arrives and sleeps, thread 0 ends the generation, and a barrier for three threads is
left. -/
theorem rendezvous_two : ∃ sh : State (Fin 2) × Log (Fin 2),
    Rendezvous sh.1 sh.2 ∧ sh.1.shared = ⟨3, 1⟩ ∧
    sh.2.arrivals = [⟨1, 1, 0, 1⟩, ⟨0, 1, 0, 0⟩] ∧ sh.2.returns = [(1, true), (0, false)] := by
  let labels : List (Label (Fin 2)) :=
    [.act 1 .begin, .call 1 false, .act 1 .go, .act 1 .go, .act 1 .go, .call 1 false,
      .proceed 1 false, .act 0 .begin, .call 0 false, .act 0 .go, .act 0 .go, .act 0 .go,
      .act 0 (.completes 3), .call 0 false, .deliver 0, .wake 0, .call 0 false, .deliver 1, .wake 1,
      .proceed 1 false, .act 1 .go, .call 1 false]
  have hreach := (logged ⟨2, by decide⟩).reach_of_run (fun _ l => positive l)
    (Machine.initial (fun _ => .idle) ⟨2, 0⟩, .empty)
    ⟨rfl, rfl⟩ labels rfl
  exact ⟨_, rendezvous hreach, rfl, rfl, rfl⟩

end Barrier

end GreenThread
