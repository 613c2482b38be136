import GreenThread.Condition.Queues
import Mathlib.Data.Finset.Card

/-!
# Callbacks on a list of futures

`wait_for_all`, `async_wait_for_any` and their kin register one callback on each future of a list
with `add_external_waiter`, and go on. A future that is already ready has its callback called by the
registering thread, at once; the others keep it until the thread that completes the future calls it.
Any number of threads complete futures, in any order, and each callback is called once.

The code of the callbacks, and of what follows the registration, is a parameter. Callbacks that
count themselves in a counter are accounted for: a registered callback is counted, or has still to
be.
-/

namespace GreenThread

namespace Callbacks

/-- The code of the callbacks, and what the registering thread does after the registration. -/
structure Task (β γ σ μ κ : Type) where
  /-- the length of the list -/
  count : Nat
  /-- where a callback begins -/
  first : β
  /-- a step of the callback of the future at a position of the list; `none` is its return -/
  go : Nat → β → σ → Option (Option β × σ)
  call : β → Option (Call μ κ)
  ret : β → Ret → Option β
  after : γ
  goAfter : γ → σ → Option (γ × σ)
  callAfter : γ → Option (Call μ κ)
  retAfter : γ → Ret → γ

/-- Where a thread is. -/
inductive Pos (β γ : Type)
  /-- may complete a future -/
  | idle
  /-- before the `add_external_waiter` of the future at a position of the list -/
  | register (i : Nat)
  /-- in the callback of that future, called by the registration or by the thread that completes the
  future -/
  | callback (i : Nat) (inlined : Bool) (b : β)
  /-- after the registration -/
  | after (c : γ)
  deriving DecidableEq, Repr

structure Data (σ : Type) where
  /-- the futures known to be ready -/
  ready : Nat → Bool
  /-- the futures that keep their callback in `ext_waiters_` -/
  stored : Nat → Bool
  data : σ

/-- The steps of a thread. -/
inductive Act
  /-- the future is registered with, and is ready -/
  | ready
  /-- the future is registered with, and is not ready -/
  | pending
  /-- the future is completed, and its callback called -/
  | complete (i : Nat)
  | go
  deriving DecidableEq, Repr

variable {β γ σ μ κ τ : Type}

/-- Where a callback returns to. -/
def Pos.finish (i : Nat) (inlined : Bool) : Option β → Pos β γ
  | some b => .callback i inlined b
  | none => if inlined then .register (i + 1) else .idle

def Pos.call (T : Task β γ σ μ κ) : Pos β γ → Option (Call μ κ)
  | .callback _ _ b => T.call b
  | .after c => T.callAfter c
  | _ => none

def Pos.ret (T : Task β γ σ μ κ) : Pos β γ → Ret → Pos β γ
  | .callback i inlined b, r => Pos.finish i inlined (T.ret b r)
  | .after c, r => .after (T.retAfter c r)
  | p, _ => p

def Pos.act (T : Task β γ σ μ κ) : Pos β γ → Data σ → Act → Option (Pos β γ × Data σ)
  | .register i, x, .ready =>
    if i < T.count then some (.callback i true T.first,
      { x with ready := Function.update x.ready i true }) else none
  | .register i, x, .pending =>
    if i < T.count then some (.register (i + 1),
      { x with stored := Function.update x.stored i true }) else none
  | .register i, x, .go => if i < T.count then none else some (.after T.after, x)
  | .idle, x, .complete i =>
    if x.stored i then
      some (.callback i false T.first,
        { x with
          ready := Function.update x.ready i true, stored := Function.update x.stored i false })
    else none
  | .callback i inlined b, x, .go =>
    (T.go i b x.data).map fun (b', d) => (Pos.finish i inlined b', { x with data := d })
  | .after c, x, .go => (T.goAfter c x.data).map fun (c', d) => (.after c', { x with data := d })
  | _, _, _ => none

def client (T : Task β γ σ μ κ) : Client τ μ κ (Pos β γ) (Data σ) Act where
  call := Pos.call T
  ret := Pos.ret T
  act := fun _ p x o => p.act T x o

abbrev State (τ μ κ β γ σ : Type) := Machine.State τ μ κ (Pos β γ) (Data σ)

abbrev Label (τ : Type) := Machine.Label τ Act

def Data.start (d : σ) : Data σ := ⟨fun _ => false, fun _ => false, d⟩

variable [DecidableEq τ] [DecidableEq μ] [DecidableEq κ]

/-- The thread `w` registers the callbacks and goes on; the others complete the futures. -/
abbrev system (T : Task β γ σ μ κ) (green : τ → Bool) (w : τ) (d : σ) :
    TransitionSystem (State τ μ κ β γ σ) (Label τ) :=
  Machine.system (client T) green (fun t => if t = w then .register 0 else .idle) (.start d)

variable {T : Task β γ σ μ κ} {green : τ → Bool} {w : τ} {d : σ}
variable {s s' : State τ μ κ β γ σ} {l : Label τ}

/-! ### The steps -/

/-- What a step of a thread outside the primitives does. -/
inductive Steps (T : Task β γ σ μ κ) (x : Data σ) : Pos β γ → Pos β γ → Data σ → Prop
  | readies {i} (hi : i < T.count) :
      Steps T x (.register i)
      (.callback i true T.first) { x with ready := Function.update x.ready i true }
  | stores {i} (hi : i < T.count) :
      Steps T x (.register i)
      (.register (i + 1)) { x with stored := Function.update x.stored i true }
  | registered {i} (hi : ¬ i < T.count) : Steps T x (.register i) (.after T.after) x
  | completes {i} (hstored : x.stored i = true) : Steps T x .idle (.callback i false T.first)
      { x with ready := Function.update x.ready i true, stored := Function.update x.stored i false }
  | goes {i inlined b b' d} (hgo : T.go i b x.data = some (b', d)) :
      Steps T x (.callback i inlined b) (Pos.finish i inlined b') { x with data := d }
  | goesAfter {c c' d} (hgo : T.goAfter c x.data = some (c', d)) :
      Steps T x (.after c) (.after c') { x with data := d }

omit [DecidableEq μ] [DecidableEq κ] in
theorem act_steps {p q : Pos β γ} {x y : Data σ} {o : Act} (h : p.act T x o = some (q, y)) :
    Steps T x p q y := by
  cases p with
  | idle =>
    cases o with
    | complete i =>
      simp only [Pos.act, Option.ite_none_right_eq_some, Option.some.injEq, Prod.mk.injEq] at h
      obtain ⟨hstored, rfl, rfl⟩ := h
      exact .completes hstored
    | _ => cases h
  | register i =>
    cases o with
    | ready =>
      simp only [Pos.act, Option.ite_none_right_eq_some, Option.some.injEq, Prod.mk.injEq] at h
      obtain ⟨hi, rfl, rfl⟩ := h
      exact .readies hi
    | pending =>
      simp only [Pos.act, Option.ite_none_right_eq_some, Option.some.injEq, Prod.mk.injEq] at h
      obtain ⟨hi, rfl, rfl⟩ := h
      exact .stores hi
    | go =>
      simp only [Pos.act, Option.ite_none_left_eq_some, Option.some.injEq, Prod.mk.injEq] at h
      obtain ⟨hi, rfl, rfl⟩ := h
      exact .registered hi
    | complete => cases h
  | callback i inlined b =>
    cases o with
    | go =>
      obtain ⟨⟨b', d⟩, hgo, heq⟩ := Option.map_eq_some_iff.mp h
      cases heq
      exact .goes hgo
    | _ => cases h
  | after c =>
    cases o with
    | go =>
      obtain ⟨⟨c', d⟩, hgo, heq⟩ := Option.map_eq_some_iff.mp h
      cases heq
      exact .goesAfter hgo
    | _ => cases h

theorem reach_cases {ok : State τ μ κ β γ σ → Label τ → Prop} (hr : (system T green w d).Reach ok s)
    (hstep : (system T green w d).step s l = some s') :
    (∃ t o p q, l = .act t o ∧ s.pc t = .user p ∧ Steps T s.shared p q s'.shared ∧
      s'.pc = Function.update s.pc t (.user q) ∧ s'.cond = s.cond) ∨
    ((∀ t o, l ≠ .act t o) ∧ s'.shared = s.shared ∧ (∀ u, u ≠ l.thread → s'.pc u = s.pc u) ∧
      (s.pc l.thread).Progress (client T) green s.mutex l.thread (s'.pc l.thread)) := by
  rcases Machine.reach_cases hr hstep with ⟨t, o, p, q, hl, hpc, hact, hpc', hcond⟩ | hinside
  · exact .inl ⟨t, o, p, q, hl, hpc, act_steps hact, hpc', hcond⟩
  · exact .inr hinside

omit [DecidableEq τ] [DecidableEq μ] [DecidableEq κ] in
theorem progress_user {t : τ} {p : Pos β γ} {mutex : μ → Mutex τ} {q : PC μ κ (Pos β γ)}
    (hprogress : (PC.user p : PC μ κ (Pos β γ)).Progress (client T) green mutex t q)
    (hcall : p.call T = none) :
    q = .user p := by
  rcases hprogress with hsame | ⟨a, call, hat, hcall', -⟩
  · exact hsame
  · obtain rfl := Option.some.inj hat
    cases hcall.symm.trans hcall'

/-- Where a thread is in the client. -/
def place (s : State τ μ κ β γ σ) (t : τ) : Option (Pos β γ) := (s.pc t).at

omit [DecidableEq τ] [DecidableEq μ] [DecidableEq κ] in
theorem place_of_user {t : τ} {p : Pos β γ} (hpc : s.pc t = .user p) :
    place s t = some p := Machine.place_of_user hpc

/-- No callback is under way. -/
def Calm (s : State τ μ κ β γ σ) : Prop := ∀ t i inlined b, place s t ≠ some (.callback i inlined b)

theorem initial_place {t : τ} {p : Pos β γ} (hs : (system T green w d).init s)
    (hp : place s t = some p) :
    t = w ∧ p = .register 0 ∨ t ≠ w ∧ p = .idle := by
  cases hs
  have hp : (if t = w then Pos.register 0 else Pos.idle) = p := Option.some.inj hp
  split at hp
  · rename_i ht
    exact .inl ⟨ht, hp.symm⟩
  · rename_i ht
    exact .inr ⟨ht, hp.symm⟩

theorem initial_calm (hs : (system T green w d).init s) : Calm s := by
  intro t i inlined b hp
  rcases initial_place hs hp with ⟨-, hp⟩ | ⟨-, hp⟩ <;> cases hp

omit [DecidableEq μ] in
theorem initial_not_held {held : Pos β γ → μ → Prop}
    (hstart : ∀ m, ¬ held (.register 0) m ∧ ¬ held .idle m) (t : τ) (m : μ) :
    ¬ held (if t = w then .register 0 else .idle) m := by
  split
  · exact (hstart m).1
  · exact (hstart m).2

/-- A step of the system moves one thread in the client, by a step of the client or by the return of
a call, or none. -/
theorem reach_place {held : Pos β γ → μ → Prop} (hsafe : Safe (client (τ := τ) T) held)
    (hstart : ∀ m, ¬ held (.register 0) m ∧ ¬ held .idle m)
    {ok : State τ μ κ β γ σ → Label τ → Prop}
    (hr : (system T green w d).Reach ok s) (hstep : (system T green w d).step s l = some s') :
    (∃ t o p q, l = .act t o ∧ s.pc t = .user p ∧ Steps T s.shared p q s'.shared ∧
      place s' = Function.update (place s) t (some q)) ∨
    (∃ t p call r, place s t = some p ∧ p.call T = some call ∧ call.Gives r ∧ (∀ e, r ≠ .threw e) ∧
      s'.shared = s.shared ∧ place s' = Function.update (place s) t (some (p.ret T r))) ∨
    (s'.shared = s.shared ∧ place s' = place s) := by
  rcases Machine.reach_place hsafe (initial_not_held hstart) hr hstep with
    ⟨t, o, p, q, hl, hpc, hact, hplace⟩ |
      ⟨-, hshared, p, call, r, hat, hcall, hgives, hthrew, -, hplace⟩ | ⟨-, hshared, hplace, -⟩
  · exact .inl ⟨t, o, p, q, hl, hpc, act_steps hact, hplace⟩
  · exact .inr (.inl ⟨l.thread, p, call, r, hat, hcall, hgives, hthrew, hshared, hplace⟩)
  · exact .inr (.inr ⟨hshared, hplace⟩)

/-! ### Who is where -/

/-- The position is one of the registering thread. -/
def Pos.registers : Pos β γ → Bool
  | .register _ | .after _ => true
  | .callback _ inlined _ => inlined
  | .idle => false

/-- How many callbacks have been registered when the registering thread is at the position. -/
def Pos.registered (count : Nat) : Pos β γ → Nat
  | .register i => i
  | .callback i _ _ => i + 1
  | .after _ => count
  | .idle => 0

omit [DecidableEq μ] [DecidableEq κ] in
theorem Steps.registers {x y : Data σ} {p q : Pos β γ} (h : Steps T x p q y) :
    q.registers = p.registers := by
  cases h with
  | @goes i inlined b b' d hgo =>
    cases b' with
    | some b' => rfl
    | none => cases inlined <;> rfl
  | _ => rfl

omit [DecidableEq μ] [DecidableEq κ] in
theorem registers_ret (p : Pos β γ) (r : Ret) : (p.ret T r).registers = p.registers := by
  cases p with
  | callback i inlined b =>
    simp only [Pos.ret]
    cases T.ret b r with
    | some b' => rfl
    | none => cases inlined <;> rfl
  | _ => rfl

omit [DecidableEq μ] [DecidableEq κ] in
theorem registered_ret {p : Pos β γ} (r : Ret) (hmine : p.registers = true) :
    (p.ret T r).registered T.count = p.registered T.count := by
  cases p with
  | callback i inlined b =>
    obtain rfl : inlined = true := hmine
    simp only [Pos.ret]
    cases T.ret b r <;> rfl
  | _ => rfl

theorem reach_registers {ok : State τ μ κ β γ σ → Label τ → Prop}
    (hr : (system T green w d).Reach ok s) {t : τ}
    {p : Pos β γ} (hat : (s.pc t).at = some p) : p.registers = decide (t = w) := by
  refine hr.invariant (I := fun s => ∀ t p, (s.pc t).at = some p → p.registers = decide (t = w))
    (fun s hs t p hat => ?_) (fun s l s' hr hroles _ hstep t p hat => ?_) t p hat
  · rcases initial_place hs hat with ⟨ht, rfl⟩ | ⟨ht, rfl⟩
    · exact (decide_eq_true ht).symm
    · exact (decide_eq_false ht).symm
  · rcases reach_cases hr hstep with ⟨u, o, a, b, rfl, hpcu, hsteps, hpc, -⟩ |
      ⟨-, -, hother, hprogress⟩
    · by_cases htu : t = u
      · subst htu
        rw [hpc, Function.update_self] at hat
        obtain rfl := Option.some.inj hat
        rw [hsteps.registers]
        exact hroles t a (by rw [hpcu]; rfl)
      · rw [hpc, Function.update_of_ne htu] at hat
        exact hroles t p hat
    · by_cases htl : t = l.thread
      · subst htl
        rcases hprogress with hsame | ⟨a, call, hata, -, ⟨hin, -⟩ | ⟨r, -, -, hpc'⟩⟩
        · rw [hsame] at hat
          exact hroles _ p hat
        · obtain rfl := Option.some.inj (hin.symm.trans hat)
          exact hroles _ a hata
        · rw [hpc'] at hat
          obtain rfl := Option.some.inj hat
          exact (registers_ret a r).trans (hroles _ a hata)
      · rw [hother t htl] at hat
        exact hroles t p hat

/-! ### Counting callbacks -/

/-- Every callback adds one to the counter on its way from `before` to the rest of its code. -/
structure Counts (T : Task β γ σ μ κ) (before : β → Bool) (counter : σ → Nat) : Prop where
  first : before T.first = true
  call : ∀ {b}, before b = true → T.call b = none
  ret : ∀ {b r b'}, T.ret b r = some b' → before b' = false
  go : ∀ {i b x b' y}, T.go i b x = some (b', y) →
    (before b = true ∧ b'.elim false before = false ∧ counter y = counter x + 1) ∨
      (b'.elim false before = before b ∧ counter y = counter x)
  after : ∀ {c x c' y}, T.goAfter c x = some (c', y) → counter y = counter x

variable {before : β → Bool} {counter : σ → Nat}

/-- The position is in the callback of `i`, which has still to count. -/
def Pos.owes (before : β → Bool) (p : Pos β γ) (i : Nat) :
    Prop := ∃ inlined b, p = .callback i inlined b ∧ before b = true

@[simp]
theorem owes_callback {i j : Nat} {inlined : Bool} {b : β} :
    (Pos.callback (γ := γ) i inlined b).owes before j ↔ before b = true ∧ i = j := by
  constructor
  · rintro ⟨inlined', b', hp, hb'⟩
    cases hp
    exact ⟨hb', rfl⟩
  · rintro ⟨hb, rfl⟩
    exact ⟨inlined, b, rfl, hb⟩

@[simp]
theorem owes_idle {j : Nat} : ¬ (Pos.idle : Pos β γ).owes before j := by
  rintro ⟨inlined, b, hp, -⟩
  cases hp

@[simp]
theorem owes_register {i j : Nat} : ¬ (Pos.register i : Pos β γ).owes before j := by
  rintro ⟨inlined, b, hp, -⟩
  cases hp

@[simp]
theorem owes_after {c : γ} {j : Nat} : ¬ (Pos.after c : Pos β γ).owes before j := by
  rintro ⟨inlined, b, hp, -⟩
  cases hp

@[simp]
theorem owes_finish {i j : Nat} {inlined : Bool} {b' : Option β} :
    (Pos.finish (γ := γ) i inlined b').owes before j ↔ b'.elim false before = true ∧ i = j := by
  cases b' with
  | some b' => exact owes_callback
  | none => cases inlined <;> simp [Pos.finish]

/-- The thread is in the callback of `i`, which has still to count. -/
def At (before : β → Bool) (s : State τ μ κ β γ σ) (t : τ) (i : Nat) :
    Prop := ∃ p, s.pc t = .user p ∧ p.owes before i

/-- Where the callback of `i` has still to count: kept by the future, or in a thread. -/
def Holds (before : β → Bool) (s : State τ μ κ β γ σ) (i : Nat) : Option τ → Prop
  | none => s.shared.stored i = true
  | some t => At before s t i

omit [DecidableEq τ] [DecidableEq μ] [DecidableEq κ] in
@[simp]
theorem holds_none {i : Nat} : Holds before s i none ↔ s.shared.stored i = true := Iff.rfl

omit [DecidableEq τ] [DecidableEq μ] [DecidableEq κ] in
@[simp]
theorem holds_some {i : Nat} {t : τ} : Holds before s i (some t) ↔ At before s t i := Iff.rfl

/-- The callback of `i` has still to be called, or to count. -/
def Owes (before : β → Bool) (s : State τ μ κ β γ σ) (i : Nat) : Prop := ∃ x, Holds before s i x

/-- How many callbacks have been registered. -/
def registered (T : Task β γ σ μ κ) (s : State τ μ κ β γ σ) (w : τ) : Nat :=
  (s.pc w).at.elim 0 (Pos.registered T.count)

/-- The registered callbacks are those of `done`, which have counted, and those that have still to
count. -/
structure Accounted (T : Task β γ σ μ κ) (before : β → Bool) (counter : σ → Nat)
    (s : State τ μ κ β γ σ) (w : τ) (done : Finset Nat) : Prop where
  card : done.card = counter s.shared.data
  le : registered T s w ≤ T.count
  done_lt : ∀ i ∈ done, i < registered T s w
  owes_lt : ∀ i, Owes before s i → i < registered T s w
  done_iff : ∀ i, i < registered T s w → (i ∈ done ↔ ¬ Owes before s i)
  unique : ∀ i x y, Holds before s i x → Holds before s i y → x = y

namespace Accounted

variable {done : Finset Nat}

section

omit [DecidableEq τ] [DecidableEq μ] [DecidableEq κ]

theorem owes_nothing (h : Accounted T before counter s w done)
    (hfull : counter s.shared.data = registered T s w) (i : Nat) :
    ¬ Owes before s i := by
  intro howes
  have hlt := h.owes_lt i howes
  have hsub : done ⊆ Finset.range (registered T s w) :=
    fun j hj => Finset.mem_range.mpr (h.done_lt j hj)
  have heq := Finset.eq_of_subset_of_card_le hsub (by rw [Finset.card_range, h.card, hfull])
  have hi : i ∈ done := by
    rw [heq]
    exact Finset.mem_range.mpr hlt
  exact (h.done_iff i hlt).mp hi howes

theorem owes_something (h : Accounted T before counter s w done)
    (hless : counter s.shared.data ≠ registered T s w) :
    ∃ i, Owes before s i := by
  by_contra hnone
  have hall : done = Finset.range (registered T s w) := by
    apply Finset.ext
    intro i
    rw [Finset.mem_range]
    constructor
    · exact h.done_lt i
    · exact fun hi => (h.done_iff i hi).mpr fun howes => hnone ⟨i, howes⟩
  rw [← h.card, hall, Finset.card_range] at hless
  exact hless rfl

theorem congr (h : Accounted T before counter s w done)
    (hcounter : counter s'.shared.data = counter s.shared.data)
    (hregistered : registered T s' w = registered T s w)
    (hholds : ∀ i x, Holds before s' i x ↔ Holds before s i x) :
    Accounted T before counter s' w done := by
  have howes : ∀ i, Owes before s' i ↔ Owes before s i := fun i => exists_congr fun x => hholds i x
  constructor
  · rw [hcounter, h.card]
  · rw [hregistered]
    exact h.le
  · rw [hregistered]
    exact h.done_lt
  · rw [hregistered]
    exact fun i hi => h.owes_lt i ((howes i).mp hi)
  · rw [hregistered]
    exact fun i hi => (h.done_iff i hi).trans (not_congr (howes i).symm)
  · exact fun i x y hx hy => h.unique i x y ((hholds i x).mp hx) ((hholds i y).mp hy)

theorem registers (h : Accounted T before counter s w done) {y : Option τ}
    (hcounter : counter s'.shared.data = counter s.shared.data) (hlt : registered T s w < T.count)
    (hregistered : registered T s' w = registered T s w + 1)
    (hholds : ∀ i x, Holds before s' i x ↔ Holds before s i x ∨ i = registered T s w ∧ x = y) :
    Accounted T before counter s' w done := by
  have hnew : ¬ Owes before s (registered T s w) := fun howes => Nat.lt_irrefl _ (h.owes_lt _ howes)
  have howes : ∀ i, Owes before s' i ↔ Owes before s i ∨ i = registered T s w := by
    intro i
    constructor
    · rintro ⟨x, hx⟩
      exact ((hholds i x).mp hx).imp (fun hx => ⟨x, hx⟩) And.left
    · rintro (⟨x, hx⟩ | hi)
      · exact ⟨x, (hholds i x).mpr (.inl hx)⟩
      · exact ⟨y, (hholds i y).mpr (.inr ⟨hi, rfl⟩)⟩
  constructor
  · rw [hcounter, h.card]
  · rw [hregistered]
    exact hlt
  · rw [hregistered]
    exact fun i hi => Nat.lt_succ_of_lt (h.done_lt i hi)
  · rw [hregistered]
    intro i hi
    rcases (howes i).mp hi with hold | rfl
    · exact Nat.lt_succ_of_lt (h.owes_lt i hold)
    · exact Nat.lt_succ_self _
  · rw [hregistered]
    intro i hi
    rw [howes]
    rcases Nat.lt_succ_iff_lt_or_eq.mp hi with hlt | rfl
    · rw [h.done_iff i hlt, not_or]
      exact ⟨fun hnot => ⟨hnot, Nat.ne_of_lt hlt⟩, And.left⟩
    · exact ⟨fun hdone => absurd (h.done_lt _ hdone) (Nat.lt_irrefl _),
        fun hnot => absurd (Or.inr rfl) hnot⟩
  · intro i x x' hx hx'
    rw [hholds] at hx hx'
    rcases hx with hx | ⟨hi, rfl⟩
    · rcases hx' with hx' | ⟨hi, -⟩
      · exact h.unique i x x' hx hx'
      · exact absurd ⟨x, hi ▸ hx⟩ hnew
    · rcases hx' with hx' | ⟨-, rfl⟩
      · exact absurd ⟨x', hi ▸ hx'⟩ hnew
      · rfl

theorem moves (h : Accounted T before counter s w done) {i : Nat} {x y : Option τ}
    (hx : Holds before s i x) (hcounter : counter s'.shared.data = counter s.shared.data)
    (hregistered : registered T s' w = registered T s w)
    (hholds : ∀ j z, Holds before s' j z ↔ if j = i then z = y else Holds before s j z) :
    Accounted T before counter s' w done := by
  have howes : ∀ j, Owes before s' j ↔ Owes before s j := by
    intro j
    by_cases hj : j = i
    · subst hj
      exact ⟨fun _ => ⟨x, hx⟩, fun _ => ⟨y, (hholds j y).mpr (by rw [if_pos rfl])⟩⟩
    · exact exists_congr fun z => by rw [hholds j z, if_neg hj]
  constructor
  · rw [hcounter, h.card]
  · rw [hregistered]
    exact h.le
  · rw [hregistered]
    exact h.done_lt
  · rw [hregistered]
    exact fun j hj => h.owes_lt j ((howes j).mp hj)
  · rw [hregistered]
    exact fun j hj => (h.done_iff j hj).trans (not_congr (howes j).symm)
  · intro j z z' hz hz'
    rw [hholds] at hz hz'
    split at hz
    · rename_i hj
      rw [if_pos hj] at hz'
      exact hz.trans hz'.symm
    · rename_i hj
      rw [if_neg hj] at hz'
      exact h.unique j z z' hz hz'

theorem counts (h : Accounted T before counter s w done) {i : Nat} {x : Option τ}
    (hx : Holds before s i x) (hcounter : counter s'.shared.data = counter s.shared.data + 1)
    (hregistered : registered T s' w = registered T s w)
    (hholds : ∀ j z, Holds before s' j z ↔ Holds before s j z ∧ j ≠ i) :
    Accounted T before counter s' w (insert i done) := by
  have hlt : i < registered T s w := h.owes_lt i ⟨x, hx⟩
  have hnot : i ∉ done := fun hdone => (h.done_iff i hlt).mp hdone ⟨x, hx⟩
  have howes : ∀ j, Owes before s' j ↔ Owes before s j ∧ j ≠ i := by
    intro j
    constructor
    · rintro ⟨z, hz⟩
      exact ⟨⟨z, ((hholds j z).mp hz).1⟩, ((hholds j z).mp hz).2⟩
    · rintro ⟨⟨z, hz⟩, hj⟩
      exact ⟨z, (hholds j z).mpr ⟨hz, hj⟩⟩
  constructor
  · rw [hcounter, Finset.card_insert_of_notMem hnot, h.card]
  · rw [hregistered]
    exact h.le
  · rw [hregistered]
    intro j hj
    rcases Finset.mem_insert.mp hj with rfl | hj
    · exact hlt
    · exact h.done_lt j hj
  · rw [hregistered]
    exact fun j hj => h.owes_lt j ((howes j).mp hj).1
  · rw [hregistered]
    intro j hj
    rw [howes, Finset.mem_insert, h.done_iff j hj, not_and_not_right]
    by_cases hji : j = i
    · exact ⟨fun _ _ => hji, fun _ => .inl hji⟩
    · exact ⟨fun hor howes => absurd howes (hor.resolve_left hji),
        fun himp => .inr fun howes => hji (himp howes)⟩
  · exact fun j z z' hz hz' => h.unique j z z' ((hholds j z).mp hz).1 ((hholds j z').mp hz').1

end

end Accounted

/-! ### A run keeps the account -/

omit [DecidableEq μ] [DecidableEq κ] in
theorem not_owes_ret (hcounts : Counts T before counter) {p : Pos β γ} {r : Ret} {i : Nat} :
    ¬ (p.ret T r).owes before i := by
  cases p with
  | callback j inlined b =>
    simp only [Pos.ret, owes_finish]
    rintro ⟨hbefore, -⟩
    cases hret : T.ret b r with
    | some c =>
      rw [hret] at hbefore
      cases (hcounts.ret hret).symm.trans hbefore
    | none =>
      rw [hret] at hbefore
      cases hbefore
  | _ => simp [Pos.ret]

omit [DecidableEq τ] [DecidableEq μ] [DecidableEq κ] in
theorem at_progress (hcounts : Counts T before counter) {t : τ} {i : Nat}
    (hprogress : (s.pc t).Progress (client T) green s.mutex t (s'.pc t)) :
    At before s' t i ↔ At before s t i := by
  constructor
  · rintro ⟨p, hpc', howes⟩
    rcases hprogress with hsame | ⟨a, call, -, -, ⟨hin, hne⟩ | ⟨r, -, -, hret⟩⟩
    · exact ⟨p, hsame ▸ hpc', howes⟩
    · rw [hpc'] at hin hne
      exact absurd (congrArg PC.user (Option.some.inj hin)) hne
    · rw [hpc'] at hret
      cases hret
      exact absurd howes (not_owes_ret hcounts)
  · rintro ⟨p, hpc, howes⟩
    have hcall : p.call T = none := by
      obtain ⟨inlined, b, rfl, hb⟩ := howes
      exact hcounts.call hb
    rw [hpc] at hprogress
    exact ⟨p, progress_user hprogress hcall, howes⟩

section

omit [DecidableEq μ] [DecidableEq κ]

theorem at_moved {t : τ} {q : Pos β γ} (hpc : s'.pc = Function.update s.pc t (.user q))
    (u : τ) (i : Nat) :
    At before s' u i ↔ if u = t then q.owes before i else At before s u i := by
  unfold At
  rw [hpc]
  split
  · rename_i hu
    rw [hu, Function.update_self]
    constructor
    · rintro ⟨p, hp, howes⟩
      cases hp
      exact howes
    · exact fun howes => ⟨q, rfl, howes⟩
  · rename_i hu
    rw [Function.update_of_ne hu]

theorem holds_moved {t : τ} {p q : Pos β γ} (hpc : s.pc t = .user p)
    (hpc' : s'.pc = Function.update s.pc t (.user q))
    (hstored : s'.shared.stored = s.shared.stored) (howes : ∀ i, q.owes before i ↔ p.owes before i)
    (i : Nat) (x : Option τ) :
    Holds before s' i x ↔ Holds before s i x := by
  cases x with
  | none =>
    unfold Holds
    rw [hstored]
  | some u =>
    refine (at_moved hpc' u i).trans ?_
    split
    · rename_i hu
      subst hu
      rw [howes i]
      exact ⟨fun h => ⟨p, hpc, h⟩, fun ⟨p', hp', h⟩ => (by cases hpc.symm.trans hp'; exact h)⟩
    · rfl

theorem registered_moved {t : τ} {p q : Pos β γ} (hpc : s.pc t = .user p)
    (hpc' : s'.pc = Function.update s.pc t (.user q))
    (hsame : t = w → q.registered T.count = p.registered T.count) :
    registered T s' w = registered T s w := by
  unfold registered
  rw [hpc']
  by_cases hw : w = t
  · subst hw
    rw [Function.update_self, hpc]
    exact hsame rfl
  · rw [Function.update_of_ne hw]

theorem finish_registered {i : Nat} {b : β} {b' : Option β} :
    (Pos.finish (γ := γ) i true b').registered T.count =
    (Pos.callback (γ := γ) i true b).registered T.count := by
  cases b' <;> rfl

end

omit [DecidableEq τ] [DecidableEq μ] [DecidableEq κ] in
theorem registered_user {p : Pos β γ} (hpc : s.pc w = .user p) :
    registered T s w = p.registered T.count := by
  unfold registered
  rw [hpc]
  rfl

theorem registered_progress {ok : State τ μ κ β γ σ → Label τ → Prop}
    (hr : (system T green w d).Reach ok s) (hother : ∀ u, u ≠ l.thread → s'.pc u = s.pc u)
    (hprogress : (s.pc l.thread).Progress (client T) green s.mutex l.thread (s'.pc l.thread)) :
    registered T s' w = registered T s w := by
  unfold registered
  by_cases hw : w = l.thread
  · subst hw
    rcases hprogress with hsame | ⟨a, call, hat, -, ⟨hin, -⟩ | ⟨r, -, -, hret⟩⟩
    · rw [hsame]
    · rw [hin, hat]
    · rw [hret, hat]
      exact registered_ret r ((reach_registers hr hat).trans (decide_eq_true rfl))
  · rw [hother w hw]

omit [DecidableEq τ] [DecidableEq μ] [DecidableEq κ] in
theorem not_at {t : τ} {p : Pos β γ} (hpc : s.pc t = .user p) {i : Nat} (hnot : ¬ p.owes before i) :
    ¬ At before s t i := by
  rintro ⟨p', hp', howes⟩
  cases hpc.symm.trans hp'
  exact hnot howes

section Client

variable {done : Finset Nat} {t : τ} {p q : Pos β γ} {i : Nat}

section

omit [DecidableEq μ] [DecidableEq κ]

theorem Accounted.readies (hcounts : Counts T before counter)
    (h : Accounted T before counter s w done) (hi : i < T.count)
    (hpc : s.pc w = .user (.register i))
    (hpc' : s'.pc = Function.update s.pc w (.user (.callback i true T.first)))
    (hshared : s'.shared = { s.shared with ready := Function.update s.shared.ready i true }) :
    Accounted T before counter s' w done := by
  have hi' : registered T s w = i := registered_user hpc
  have hregistered' : registered T s' w = i + 1 :=
    registered_user (by rw [hpc', Function.update_self])
  refine h.registers (y := some w) (by rw [hshared]) (by rw [hi']; exact hi)
    (by rw [hi', hregistered']) fun j x => ?_
  rw [hi']
  cases x with
  | none => simp [hshared]
  | some u =>
    refine (at_moved hpc' u j).trans ?_
    by_cases hu : u = w
    · subst hu
      have hnot : ¬ At before s u j := not_at hpc owes_register
      simp [hcounts.first, hnot, eq_comm]
    · simp [hu]

theorem Accounted.stores (h : Accounted T before counter s w done) (hi : i < T.count)
    (hpc : s.pc w = .user (.register i))
    (hpc' : s'.pc = Function.update s.pc w (.user (.register (i + 1))))
    (hshared : s'.shared = { s.shared with stored := Function.update s.shared.stored i true }) :
    Accounted T before counter s' w done := by
  have hi' : registered T s w = i := registered_user hpc
  have hregistered' : registered T s' w = i + 1 :=
    registered_user (by rw [hpc', Function.update_self])
  refine h.registers (y := none) (by rw [hshared]) (by rw [hi']; exact hi)
    (by rw [hi', hregistered']) fun j x => ?_
  rw [hi']
  cases x with
  | none => by_cases hj : j = i <;> simp [hshared, hj]
  | some u =>
    refine (at_moved hpc' u j).trans ?_
    by_cases hu : u = w
    · subst hu
      have hnot : ¬ At before s u j := not_at hpc owes_register
      simp [hnot]
    · simp [hu]

theorem Accounted.completes (hcounts : Counts T before counter)
    (h : Accounted T before counter s w done)
    (hstored : s.shared.stored i = true) (hpc : s.pc t = .user .idle)
    (hpc' : s'.pc = Function.update s.pc t (.user (.callback i false T.first)))
    (hshared : s'.shared = { s.shared with
      ready := Function.update s.shared.ready i true, stored :=
        Function.update s.shared.stored i false })
    (hregistered : registered T s' w = registered T s w) :
    Accounted T before counter s' w done := by
  refine h.moves (x := none) (y := some t) hstored (by rw [hshared]) hregistered fun j z => ?_
  by_cases hj : j = i
  · subst hj
    rw [if_pos rfl]
    cases z with
    | none => simp [hshared]
    | some u =>
      refine (at_moved hpc' u j).trans ?_
      by_cases hu : u = t
      · simp [hu, hcounts.first]
      · have hnot : ¬ At before s u j := fun hat => nomatch h.unique j none (some u) hstored hat
        simp [hnot, hu]
  · rw [if_neg hj]
    cases z with
    | none => simp [hshared, hj]
    | some u =>
      refine (at_moved hpc' u j).trans ?_
      by_cases hu : u = t
      · subst hu
        have hnot : ¬ At before s u j := not_at hpc owes_idle
        simp [hnot, Ne.symm hj]
      · simp [hu]

theorem Accounted.goes (hcounts : Counts T before counter) (h : Accounted T before counter s w done)
    {inlined : Bool} {b : β} {b' : Option β} {y : σ} (hgo : T.go i b s.shared.data = some (b', y))
    (hpc : s.pc t = .user (.callback i inlined b))
    (hpc' : s'.pc = Function.update s.pc t (.user (Pos.finish i inlined b')))
    (hshared : s'.shared = { s.shared with data := y })
    (hregistered : registered T s' w = registered T s w) :
    ∃ done', Accounted T before counter s' w done' := by
  rcases hcounts.go hgo with ⟨hbefore, hafter, hcount⟩ | ⟨hbefore, hcount⟩
  · have hat : At before s t i := ⟨_, hpc, owes_callback.mpr ⟨hbefore, rfl⟩⟩
    refine ⟨_, h.counts (i := i) (x := some t) hat (by rw [hshared]; exact hcount) hregistered
      fun j z => ?_⟩
    cases z with
    | none =>
      rw [holds_none, holds_none, hshared]
      refine (and_iff_left_of_imp fun hstored hj => ?_).symm
      subst hj
      cases h.unique j none (some t) hstored hat
    | some u =>
      refine (at_moved hpc' u j).trans ?_
      by_cases hu : u = t
      · subst hu
        rw [if_pos rfl, owes_finish, hafter]
        refine ⟨fun hcon => absurd hcon.1 Bool.false_ne_true, fun ⟨⟨p', hp', howes⟩, hj⟩ => ?_⟩
        cases hpc.symm.trans hp'
        exact absurd (owes_callback.mp howes).2.symm hj
      · rw [if_neg hu]
        refine (and_iff_left_of_imp fun hat' hj => ?_).symm
        subst hj
        exact hu (Option.some.inj (h.unique j (some u) (some t) hat' hat))
  · refine ⟨done, h.congr (by rw [hshared]; exact hcount) hregistered
      (holds_moved hpc hpc' (by rw [hshared]) fun j => ?_)⟩
    rw [owes_finish, owes_callback, hbefore]

end

end Client

theorem Accounted.step (hcounts : Counts T before counter) {ok : State τ μ κ β γ σ → Label τ → Prop}
    {done : Finset Nat}
    (h : Accounted T before counter s w done) (hr : (system T green w d).Reach ok s)
    (hstep : (system T green w d).step s l = some s') :
    ∃ done', Accounted T before counter s' w done' := by
  rcases reach_cases hr hstep with ⟨t, o, p, q, rfl, hpc, hsteps, hpc', -⟩ |
    ⟨-, hshared, hother, hprogress⟩
  · have hregisters : p.registers = decide (t = w) := reach_registers hr (by rw [hpc]; rfl)
    generalize hy : s'.shared = y at hsteps
    cases hsteps with
    | readies hi =>
      obtain rfl : t = w := of_decide_eq_true hregisters.symm
      exact ⟨done, h.readies hcounts hi hpc hpc' hy⟩
    | stores hi =>
      obtain rfl : t = w := of_decide_eq_true hregisters.symm
      exact ⟨done, h.stores hi hpc hpc' hy⟩
    | @registered i hi =>
      obtain rfl : t = w := of_decide_eq_true hregisters.symm
      have hi' : i = T.count :=
        Nat.le_antisymm ((registered_user hpc).symm.trans_le h.le) (Nat.not_lt.mp hi)
      exact ⟨done, h.congr (by rw [hy]) (registered_moved hpc hpc' fun _ => hi'.symm)
        (holds_moved hpc hpc' (by rw [hy]) fun j => by simp)⟩
    | completes hstored =>
      exact ⟨done, h.completes hcounts hstored hpc hpc' hy (registered_moved hpc hpc' fun hw =>
        absurd (hregisters.trans (decide_eq_true hw)) Bool.false_ne_true)⟩
    | @goes i inlined b b' y hgo =>
      refine h.goes hcounts hgo hpc hpc' hy (registered_moved hpc hpc' fun hw => ?_)
      obtain rfl : inlined = true := hregisters.trans (decide_eq_true hw)
      exact finish_registered
    | goesAfter hgo =>
      exact ⟨done, h.congr (by rw [hy]; exact hcounts.after hgo)
        (registered_moved hpc hpc' fun _ => rfl)
        (holds_moved hpc hpc' (by rw [hy]) fun j => by simp)⟩
  · refine ⟨done, h.congr (by rw [hshared]) (registered_progress hr hother hprogress) fun i x => ?_⟩
    cases x with
    | none => rw [holds_none, holds_none, hshared]
    | some t =>
      rw [holds_some, holds_some]
      by_cases ht : t = l.thread
      · subst ht
        exact at_progress hcounts hprogress
      · unfold At
        rw [hother t ht]

/-- In every reachable state, the registered callbacks have counted or have still to. -/
theorem reach_accounted (hcounts : Counts T before counter) (hzero : counter d = 0)
    {ok : State τ μ κ β γ σ → Label τ → Prop} (hr : (system T green w d).Reach ok s) :
    ∃ done, Accounted T before counter s w done := by
  refine hr.invariant (I := fun s => ∃ done, Accounted T before counter s w done)
    (fun s hs => ⟨∅, ?_⟩)
    (fun s l s' hr h _ hstep => ?_)
  · cases hs
    have hzero' :
      registered T
        (Machine.initial (fun t => if t = w then Pos.register 0 else Pos.idle) (.start d) :
        State τ μ κ β γ σ) w = 0 := by
      simp [registered, Machine.initial, PC.at, Pos.registered]
    have hnone : ∀ i x, ¬ Holds before
      (Machine.initial (fun t => if t = w then Pos.register 0 else Pos.idle) (.start d) :
        State τ μ κ β γ σ) i x := by
      rintro i (_ | t) hx
      · cases hx
      · obtain ⟨p, hp, inlined, b, rfl, -⟩ := hx
        simp only [Machine.initial, PC.user.injEq] at hp
        split at hp <;> cases hp
    constructor
    · exact hzero.symm
    · rw [hzero']
      exact Nat.zero_le _
    · exact fun i hi => absurd hi (Finset.notMem_empty i)
    · intro i hholds
      obtain ⟨x, hx⟩ := hholds
      exact absurd hx (hnone i x)
    · rw [hzero']
      exact fun i hi => absurd hi (Nat.not_lt_zero i)
    · exact fun i x y hx _ => absurd hx (hnone i x)
  · obtain ⟨done, h⟩ := h
    exact h.step hcounts hr hstep

/-! ### The futures -/

/-- A future that has been registered with keeps its callback or is ready, and not both; the future
of a callback that is called is ready. -/
structure Kept (T : Task β γ σ μ κ) (w : τ) (s : State τ μ κ β γ σ) : Prop where
  le : registered T s w ≤ T.count
  lt_iff : ∀ i, i < registered T s w ↔ s.shared.stored i = true ∨ s.shared.ready i = true
  pending : ∀ i, s.shared.stored i = true → s.shared.ready i = false
  called : ∀ t i inlined b, place s t = some (.callback i inlined b) → s.shared.ready i = true

namespace Kept

variable {t : τ} {p q : Pos β γ} {i : Nat}

omit [DecidableEq μ] [DecidableEq κ] in
theorem same (h : Kept T w s) (hplace : place s' = Function.update (place s) t (some q))
    (hready : s'.shared.ready = s.shared.ready) (hstored : s'.shared.stored = s.shared.stored)
    (hregistered : registered T s' w = registered T s w)
    (hcalled : ∀ i inlined b, q = .callback i inlined b → s.shared.ready i = true) :
    Kept T w s' where
  le := by rw [hregistered]; exact h.le
  lt_iff := by rw [hregistered, hready, hstored]; exact h.lt_iff
  pending := by rw [hready, hstored]; exact h.pending
  called := by
    intro u i inlined b hu
    rw [hready]
    rw [hplace] at hu
    rcases Machine.place_of_update hu with ⟨-, hq⟩ | ⟨-, hu⟩
    · exact hcalled i inlined b hq.symm
    · exact h.called u i inlined b hu

omit [DecidableEq μ] [DecidableEq κ] in
theorem calls (h : Kept T w s) {inlined : Bool}
    (hplace : place s' = Function.update (place s) t (some (.callback i inlined T.first)))
    (hready : s'.shared.ready = Function.update s.shared.ready i true)
    (hle : registered T s' w ≤ T.count)
    (hlt : ∀ j, j < registered T s' w ↔ j = i ∨ j < registered T s w)
    (hstored : ∀ j, j ≠ i → s'.shared.stored j = s.shared.stored j)
    (hnot : s'.shared.stored i = false) : Kept T w s' where
  le := hle
  lt_iff := by
    intro j
    rw [hlt, hready]
    by_cases hj : j = i
    · subst hj
      simp
    · rw [Function.update_of_ne hj, hstored j hj, h.lt_iff, or_iff_right hj]
  pending := by
    intro j hj
    rw [hready]
    by_cases hji : j = i
    · rw [hji, hnot] at hj
      cases hj
    · rw [Function.update_of_ne hji]
      exact h.pending j (by rwa [hstored j hji] at hj)
  called := by
    intro u j inlined' b hu
    rw [hready]
    by_cases hji : j = i
    · rw [hji, Function.update_self]
    · rw [Function.update_of_ne hji]
      rw [hplace] at hu
      rcases Machine.place_of_update hu with ⟨-, hq⟩ | ⟨-, hu⟩
      · cases hq
        exact absurd rfl hji
      · exact h.called u j inlined' b hu

omit [DecidableEq μ] [DecidableEq κ] in
theorem stores (h : Kept T w s) (hi : i < T.count) (hpc : s.pc w = .user (.register i))
    (hpc' : s'.pc = Function.update s.pc w (.user (.register (i + 1))))
    (hshared : s'.shared = { s.shared with stored := Function.update s.shared.stored i true }) :
    Kept T w s' := by
  have hi' : registered T s w = i := registered_user hpc
  have hregistered' : registered T s' w = i + 1 :=
    registered_user (by rw [hpc', Function.update_self])
  have hunready : s.shared.ready i = false := by
    have hnot := (not_congr (h.lt_iff i)).mp (by omega)
    simpa using (not_or.mp hnot).2
  constructor
  · omega
  · intro j
    rw [hregistered', hshared]
    by_cases hj : j = i
    · simp [hj]
    · simp only [Function.update_of_ne hj, ← h.lt_iff j]
      omega
  · intro j hj
    rw [hshared] at hj ⊢
    by_cases hji : j = i
    · rw [hji]
      exact hunready
    · exact h.pending j (by simpa [hji] using hj)
  · intro u j inlined b hu
    rw [hshared]
    have hplace : place s' = Function.update (place s) w (some (.register (i + 1))) :=
      Machine.place_update hpc'
    rw [hplace] at hu
    rcases Machine.place_of_update hu with ⟨-, hq⟩ | ⟨-, hu⟩
    · cases hq
    · exact h.called u j inlined b hu

end Kept

/-- In every reachable state the futures keep the callbacks that have still to be called. -/
theorem reach_kept {ok : State τ μ κ β γ σ → Label τ → Prop}
    (hr : (system T green w d).Reach ok s) : Kept T w s := by
  refine hr.invariant (I := fun s => Kept T w s) (fun s hs => ?_) (fun s l s' hr h _ hstep => ?_)
  · have hcalm := initial_calm hs
    cases hs
    have hzero :
      registered T
        (Machine.initial (fun t => if t = w then Pos.register 0 else Pos.idle) (.start d) :
        State τ μ κ β γ σ) w = 0 := by
      simp [registered, Machine.initial, PC.at, Pos.registered]
    refine ⟨by omega, fun i => ?_, fun i h => (by cases h), fun t i inlined b hplace => ?_⟩
    · rw [hzero]
      exact ⟨fun hlt => absurd hlt (Nat.not_lt_zero i), fun hor => by rcases hor with hor |
        hor <;> cases hor⟩
    · exact absurd hplace (hcalm t i inlined b)
  · rcases reach_cases hr hstep with ⟨t, o, p, q, rfl, hpc, hsteps, hpc', -⟩ |
      ⟨-, hshared, hother, hprogress⟩
    · have hregisters : p.registers = decide (t = w) := reach_registers hr (by rw [hpc]; rfl)
      have hplace : place s' = Function.update (place s) t (some q) := Machine.place_update hpc'
      generalize hy : s'.shared = y at hsteps
      cases hsteps with
      | @readies i hi =>
        obtain rfl : t = w := of_decide_eq_true hregisters.symm
        have hi' : registered T s t = i := registered_user hpc
        have hregistered' : registered T s' t = i + 1 :=
          registered_user (by rw [hpc', Function.update_self])
        have hnot := (not_congr (h.lt_iff i)).mp (by omega)
        refine h.calls hplace (by rw [hy]) (by omega) (fun j => by omega) (fun j _ => by rw [hy]) ?_
        rw [hy]
        simpa using (not_or.mp hnot).1
      | stores hi =>
        obtain rfl : t = w := of_decide_eq_true hregisters.symm
        exact h.stores hi hpc hpc' hy
      | @registered i hi =>
        obtain rfl : t = w := of_decide_eq_true hregisters.symm
        have hi' : i = T.count :=
          Nat.le_antisymm ((registered_user hpc).symm.trans_le h.le) (Nat.not_lt.mp hi)
        exact h.same hplace (by rw [hy]) (by rw [hy]) (registered_moved hpc hpc' fun _ => hi'.symm)
          fun j inlined c hq => by cases hq
      | @completes i hstored =>
        have hregistered := registered_moved (T := T) hpc hpc' fun hw =>
          absurd (hregisters.trans (decide_eq_true hw)) Bool.false_ne_true
        have hlt : i < registered T s w := (h.lt_iff i).mpr (.inl hstored)
        have hle := h.le
        refine h.calls hplace (by rw [hy]) (by omega) (fun j => by omega) (fun j hj => ?_) ?_
        · rw [hy]
          exact Function.update_of_ne hj ..
        · rw [hy]
          exact Function.update_self ..
      | @goes i inlined b b' y hgo =>
        refine h.same hplace (by rw [hy]) (by rw [hy]) (registered_moved hpc hpc' fun hw => ?_)
          fun j inlined' c hq => ?_
        · obtain rfl : inlined = true := hregisters.trans (decide_eq_true hw)
          exact finish_registered
        · obtain rfl : i = j := by
            cases b' with
            | some b' => cases hq; rfl
            | none => cases inlined <;> cases hq
          exact h.called t i inlined b (place_of_user hpc)
      | goesAfter hgo =>
        exact h.same hplace (by rw [hy]) (by rw [hy]) (registered_moved hpc hpc' fun _ => rfl)
          fun j inlined c hq => by cases hq
    · have hregistered := registered_progress hr hother hprogress
      refine ⟨?_, ?_, ?_, fun t i inlined b hat => ?_⟩
      · rw [hregistered]
        exact h.le
      · rw [hregistered, hshared]
        exact h.lt_iff
      · rw [hshared]
        exact h.pending
      · rw [hshared]
        by_cases ht : t = l.thread
        · subst ht
          unfold place at hat
          rcases hprogress with hsame | ⟨a, call, hata, hcall, ⟨hin, -⟩ | ⟨r, -, -, hret⟩⟩
          · exact h.called _ i inlined b (hsame ▸ hat)
          · exact h.called _ i inlined b (hata.trans (hin.symm.trans hat))
          · rw [hret] at hat
            have hat : a.ret T r = .callback i inlined b := Option.some.inj hat
            cases a with
            | callback j inlined' c =>
              obtain rfl : j = i := by
                cases hb : T.ret c r <;> rw [Pos.ret, hb] at hat
                · cases inlined' <;> cases hat
                · cases hat
                  rfl
              exact h.called _ j inlined' c hata
            | _ => cases hat
        · refine h.called t i inlined b ?_
          unfold place
          rw [← hother t ht]
          exact hat

/-- When all the futures are registered with and no callback is under way, those that are ready have
counted. -/
theorem counter_of_calm (hcounts : Counts T before counter) (hzero : counter d = 0)
    {ok : State τ μ κ β γ σ → Label τ → Prop}
    (hr : (system T green w d).Reach ok s) (hall : registered T s w = T.count) (hcalm : Calm s) :
    counter s.shared.data = T.count ↔ ∀ i < T.count, s.shared.ready i = true := by
  obtain ⟨done, haccounted⟩ := reach_accounted hcounts hzero hr
  have hkept := reach_kept hr
  constructor
  · intro hfull i hi
    have hnothing := haccounted.owes_nothing (hfull.trans hall.symm) i
    rcases (hkept.lt_iff i).mp (by omega) with hstored | hready
    · exact absurd ⟨none, hstored⟩ hnothing
    · exact hready
  · intro hready
    by_contra hless
    obtain ⟨i, x, hx⟩ := haccounted.owes_something (by rw [hall]; exact hless)
    cases x with
    | none =>
      have hlt := (hkept.lt_iff i).mpr (.inl hx)
      cases (hkept.pending i hx).symm.trans (hready i (by omega))
    | some t =>
      obtain ⟨p, hpc, inlined, b, rfl, -⟩ := hx
      exact hcalm t i inlined b (place_of_user hpc)

/-! ### The wait -/

/-- The only wait is the untimed one on `c` that is called at `a`, after the registration. -/
structure WaitsAt (T : Task β γ σ μ κ) (a : γ) (c : κ) : Prop where
  wait : ∀ {p wc}, Pos.call T p = some (Machine.WaitCall.call wc) →
    p = .after a ∧ wc.cond = c ∧ wc.timed = false
  ret : ∀ {p call r}, Pos.call T p = some call → Pos.ret T p r ≠ .after a

/-- The registering thread is about to wait on `c`, or in its queue. -/
def Asleep (a : γ) (c : κ) (w : τ) (s : State τ μ κ β γ σ) : Prop :=
  s.pc w = .user (.after a) ∨ ∃ b, (⟨w, b⟩ : SuspendedItem τ) ∈ s.cond c

namespace WaitsAt

variable {a : γ} {c : κ}

theorem queued (hwaits : WaitsAt T a c) {ok : State τ μ κ β γ σ → Label τ → Prop}
    (hr : (system T green w d).Reach ok s) {t : τ}
    {b : Bool} (hqueued : (⟨t, b⟩ : SuspendedItem τ) ∈ s.cond c) :
    (s.pc t).at = some (.after a) ∧ ∀ p, s.pc t ≠ .user p := by
  obtain ⟨wc, hawaits, -⟩ := ConditionProtocol.waitOf_queued (Machine.reach_inv hr) hqueued
  have hcalled := Machine.reach_called hr t
  cases hpc : s.pc t with
  | unlocking wc' p | unlockYield wc' p | pausing wc' p =>
    rw [hpc] at hcalled
    rw [(hwaits.wait hcalled).1]
    exact ⟨rfl, fun _ => nofun⟩
  | _ => simp [hpc, ConditionProtocol.awaits] at hawaits

theorem at_of_asleep (hwaits : WaitsAt T a c) {ok : State τ μ κ β γ σ → Label τ → Prop}
    (hr : (system T green w d).Reach ok s)
    (hasleep : Asleep a c w s) : (s.pc w).at = some (.after a) := by
  rcases hasleep with hpc | ⟨b, hqueued⟩
  · rw [hpc]
    rfl
  · exact (hwaits.queued hr hqueued).1

theorem asleep_before (hwaits : WaitsAt T a c) (hmove : Machine.Move (client T) green s l s')
    (hl : ∀ t o, l ≠ .act t o) (hother : ∀ u, u ≠ l.thread → s'.pc u = s.pc u)
    (hprogress : (s.pc l.thread).Progress (client T) green s.mutex l.thread (s'.pc l.thread))
    (hasleep : Asleep a c w s') : Asleep a c w s := by
  rcases hasleep with hwait | ⟨b, hqueued⟩
  · refine .inl ?_
    by_cases hw : w = l.thread
    · subst hw
      rcases hprogress with hsame | ⟨p, call, hat, hcall, ⟨hin, hne⟩ | ⟨r, -, -, hret⟩⟩
      · exact hsame ▸ hwait
      · rw [hwait] at hin hne
        exact absurd (congrArg PC.user (Option.some.inj hin)) hne
      · exact absurd (PC.user.inj (hret.symm.trans hwait)) (hwaits.ret hcall)
    · rw [← hother w hw]
      exact hwait
  · cases ConditionProtocol.queueStep hmove hl with
    | same hcond => exact .inr ⟨b, by rwa [hcond] at hqueued⟩
    | @joins p wc hpc hcall hcond =>
      obtain ⟨rfl, hc, -⟩ := hwaits.wait hcall
      rw [hcond, hc, Function.update_self, List.mem_append, List.mem_singleton] at hqueued
      rcases hqueued with hqueued | hnew
      · exact .inr ⟨b, hqueued⟩
      · have hw : w = l.thread := congrArg SuspendedItem.f hnew
        refine .inl ?_
        rw [hw, hpc]
    | @one p c' i rest hpc hcall hqueue hcond =>
      refine .inr ⟨b, ?_⟩
      by_cases hc : c = c'
      · subst hc
        rw [hcond, Function.update_self] at hqueued
        rw [hqueue]
        exact List.mem_cons_of_mem i hqueued
      · rwa [hcond, Function.update_of_ne hc] at hqueued
    | @all p c' hpc hcall hcond =>
      by_cases hc : c = c'
      · subst hc
        rw [hcond, Function.update_self] at hqueued
        cases hqueued
      · refine .inr ⟨b, ?_⟩
        rwa [hcond, Function.update_of_ne hc] at hqueued
    | @timeout c' htimer hcond =>
      refine .inr ⟨b, ?_⟩
      by_cases hc : c = c'
      · subst hc
        rw [hcond, Function.update_self] at hqueued
        exact List.mem_of_mem_eraseP hqueued
      · rwa [hcond, Function.update_of_ne hc] at hqueued

/-- A thread that is blocked in the wait with nothing in flight for it is asleep. -/
theorem asleep_of_blocked (hwaits : WaitsAt T a c) {ok : State τ μ κ β γ σ → Label τ → Prop}
    (hr : (system T green w d).Reach ok s)
    {wc : WaitCall μ κ} {p : Pos β γ} (hpc : s.pc w = .pausing wc p) (hpending : s.pending w = 0) :
    Asleep a c w s := by
  have hcalled := Machine.reach_called hr w
  rw [hpc] at hcalled
  obtain ⟨-, rfl, htimed⟩ := hwaits.wait hcalled
  exact .inr ⟨false, ConditionProtocol.queued_of_blocked (Machine.reach_inv hr) hpc htimed hpending⟩

end WaitsAt

end Callbacks

end GreenThread
