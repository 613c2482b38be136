import GreenThread.Machine.Serial
import GreenThread.Queue.Waiters

/-!
# The queue as a sequential object

What each operation does to the queue when nothing else runs: one function from the data to a result
and new data, or nothing where the operation would have to wait. The statements of an operation
between the return of its `lock` or of a wait and its `unlock` compute this function, and the
statements before a wait change nothing.
-/

namespace GreenThread

namespace Queue

variable {V τ : Type} {capacity : Nat} {autoOpen : Bool} {d d' d₀ : Data V}
    {p q : Pos V} {op : Op V}

/-- The queue with more elements at its end. -/
def Data.enqueue (d : Data V) (vs : List V) : Data V := { d with queue := d.queue ++ vs }

/-- The operation without a timer: its result and the data it leaves, unless it has to wait. -/
def Op.attempt (capacity : Nat) (d : Data V) : Op V → Option (Result V × Data V)
  | .open_ => some (.bool true, { d with opened := true })
  | .close => some (.done, { d with opened := false })
  | .push v | .tryPushFor v | .tryPushUntil v =>
    if d.opened then
      if d.queue.length < capacity then some (.bool true, d.enqueue [v]) else none
    else some (.bool false, d)
  | .tryPush v => some (if d.opened ∧ d.queue.length < capacity then (.bool true, d.enqueue [v])
      else (.bool false, d))
  | .pushSome vs =>
    let room := capacity - d.queue.length
    some (if d.opened then (.rest (vs.drop room), d.enqueue (vs.take room)) else (.rest vs, d))
  | .pushAll vs => some (if d.opened then (.bool true, d.enqueue vs) else (.bool false, d))
  | .pop | .tryPopFor | .tryPopUntil =>
    match d.queue with
    | v :: queue => some (.popped v, { d with queue := queue })
    | [] => if d.opened then none else some (.bool false, d)
  | .tryPop =>
    match d.queue with
    | v :: queue => some (.popped v, { d with queue := queue })
    | [] => some (.bool false, d)

/-- The operation as one step: a timed operation whose time is over gives up instead. -/
def Op.atomic (capacity : Nat) (expired : Bool) (d : Data V) (op : Op V) :
    Option (Result V × Data V) :=
  if op.timed ∧ expired then some (.bool false, d) else op.attempt capacity d

/-- The operation can take the data from `d` to `d'` with this result. -/
def Op.Does (capacity : Nat) (op : Op V) (r : Result V) (d d' : Data V) : Prop :=
  ∃ expired, op.atomic capacity expired d = some (r, d')

theorem Op.does_of_attempt {r : Result V} (h : op.attempt capacity d = some (r, d')) :
    op.Does capacity r d d' :=
  ⟨false, by simpa [Op.atomic] using h⟩

theorem Op.does_of_expired (h : op.timed = true) : op.Does capacity (.bool false) d d :=
  ⟨true, by simp [Op.atomic, h]⟩

/-- The elements an operation is given. -/
def Op.elements : Op V → List V
  | .push v | .tryPush v | .tryPushFor v | .tryPushUntil v => [v]
  | .pushSome vs | .pushAll vs => vs
  | _ => []

/-- The operation takes an element. -/
def Op.takes : Op V → Bool
  | .pop | .tryPop | .tryPopFor | .tryPopUntil => true
  | _ => false

/-! ### One statement -/

/-- What the statements of `op` have done to the data when they come to a position. -/
def Pos.sofar (capacity : Nat) (op : Op V) (d₀ : Data V) : Pos V → Data V → Prop
  | .enter op', d => op' = op ∧ d = d₀
  | .loop op' _, d | .wait op', d => op' = op ∧ op.waits ≠ none ∧ d = d₀
  | .recheck op' _, d => op' = op ∧ op.waits ≠ none ∧ op.blocked capacity d₀ = false ∧ d = d₀
  | .test op', d => op' = op ∧ ((∃ v, op = .tryPush v ∧ d₀.opened = true) ∨ op = .tryPop) ∧ d = d₀
  | .take op', d => op' = op ∧ op.takes = true ∧ d₀.queue ≠ [] ∧ d = d₀
  | .more op' rest, d => op' = op ∧ d₀.opened = true ∧
    ((∃ vs, op = .pushSome vs) ∨ ∃ vs, op = .pushAll vs) ∧ ∃ done, op.elements = done ++ rest ∧
      ((∃ vs, op = .pushSome vs) → done.length ≤ capacity - d₀.queue.length) ∧ d = d₀.enqueue done
  | .insert op' v rest, d => op' = op ∧ d₀.opened = true ∧ ∃ done, op.elements = done ++ v :: rest ∧
    ((∀ vs, op ≠ .pushAll vs) → d.queue.length < capacity) ∧ d = d₀.enqueue done
  | .inserted op' rest, d => op' = op ∧ d₀.opened = true ∧
      ∃ done, op.elements = done ++ rest ∧ done ≠ [] ∧
    ((∀ vs, op ≠ .pushAll vs) → d.queue.length ≤ capacity) ∧ d = d₀.enqueue done
  | .taken op' v, d => op' = op ∧ op.takes = true ∧ d₀.queue = v :: d.queue ∧ d.opened = d₀.opened
  | .closing _, d => op = .close ∧ d = { d₀ with opened := false }
  | .leave op' r, d => op' = op ∧ op.Does capacity r d₀ d
  | _, _ => False

theorem Data.enqueue_nil (d : Data V) : d.enqueue [] = d := by
  rw [Data.enqueue, List.append_nil]

theorem Data.enqueue_enqueue (d : Data V) (vs ws : List V) :
    (d.enqueue vs).enqueue ws = d.enqueue (vs ++ ws) := by
  rw [Data.enqueue, Data.enqueue, Data.enqueue, List.append_assoc]

theorem enter_sofar : (op.enter d).1.sofar capacity op d (op.enter d).2 := by
  cases op with
  | open_ => exact ⟨rfl, Op.does_of_attempt rfl⟩
  | close => exact ⟨rfl, rfl⟩
  | push v | tryPushFor v | tryPushUntil v =>
    cases hopened : d.opened with
    | true =>
      simp only [Op.enter, hopened, if_true]
      exact ⟨rfl, Option.some_ne_none _, rfl⟩
    | false =>
      simp only [Op.enter, hopened, Bool.false_eq_true, if_false]
      exact ⟨rfl, Op.does_of_attempt (by simp [Op.attempt, hopened])⟩
  | tryPush v =>
    cases hopened : d.opened with
    | true =>
      simp only [Op.enter, hopened, if_true]
      exact ⟨rfl, .inl ⟨v, rfl, hopened⟩, rfl⟩
    | false =>
      simp only [Op.enter, hopened, Bool.false_eq_true, if_false]
      exact ⟨rfl, Op.does_of_attempt (by simp [Op.attempt, hopened])⟩
  | pushSome vs =>
    cases hopened : d.opened with
    | true =>
      simp only [Op.enter, hopened, if_true]
      exact ⟨rfl, hopened, .inl ⟨vs, rfl⟩, [], rfl, fun _ => Nat.zero_le _, (d.enqueue_nil).symm⟩
    | false =>
      simp only [Op.enter, hopened, Bool.false_eq_true, if_false]
      exact ⟨rfl, Op.does_of_attempt (by simp [Op.attempt, hopened])⟩
  | pushAll vs =>
    cases hopened : d.opened with
    | true =>
      simp only [Op.enter, hopened, if_true]
      refine ⟨rfl, hopened, .inr ⟨vs, rfl⟩, [], rfl, ?_, (d.enqueue_nil).symm⟩
      rintro ⟨_, heq⟩
      cases heq
    | false =>
      simp only [Op.enter, hopened, Bool.false_eq_true, if_false]
      exact ⟨rfl, Op.does_of_attempt (by simp [Op.attempt, hopened])⟩
  | pop | tryPopFor | tryPopUntil => exact ⟨rfl, Option.some_ne_none _, rfl⟩
  | tryPop => exact ⟨rfl, .inr rfl, rfl⟩

theorem test_sofar (hop : (∃ v, op = .tryPush v ∧ d.opened = true) ∨ op = .tryPop) :
    (op.test capacity d).sofar capacity op d d := by
  rcases hop with ⟨v, rfl, hopened⟩ | rfl
  · by_cases hfull : d.queue.length ≥ capacity
    · simp only [Op.test, if_pos hfull]
      refine ⟨rfl, Op.does_of_attempt ?_⟩
      rw [Op.attempt, if_neg (by omega)]
    · simp only [Op.test, if_neg hfull]
      exact ⟨rfl, hopened, [], rfl, fun _ => by omega, (d.enqueue_nil).symm⟩
  · by_cases hqueue : d.queue = []
    · simp only [Op.test, if_pos hqueue]
      exact ⟨rfl, Op.does_of_attempt (by simp [Op.attempt, hqueue])⟩
    · simp only [Op.test, if_neg hqueue]
      exact ⟨rfl, rfl, hqueue, rfl⟩

theorem does_closed {v : V} (helement : op.element = some v) (hclosed : d.opened = false) :
    op.Does capacity (.bool false) d d := by
  refine Op.does_of_attempt ?_
  cases op with
  | push w | tryPushFor w | tryPushUntil w => simp [Op.attempt, hclosed]
  | _ => cases helement

theorem does_drained (helement : op.element = none) (hwaits : op.waits ≠ none)
    (hqueue : d.queue = []) (hclosed : d.opened = false) :
    op.Does capacity (.bool false) d d := by
  refine Op.does_of_attempt ?_
  cases op with
  | pop | tryPopFor | tryPopUntil => simp [Op.attempt, hqueue, hclosed]
  | push | tryPushFor | tryPushUntil => cases helement
  | _ => exact absurd rfl hwaits

theorem recheck_sofar {ret : CvStatus} (hwaits : op.waits ≠ none)
    (hfree : op.blocked capacity d = false) :
    (op.recheck d ret).sofar capacity op d d := by
  cases helement : op.element with
  | some v =>
    rw [blocked_push helement, decide_eq_false_iff_not, not_and] at hfree
    by_cases hgo : (!d.opened) = true ∨ op.timed = true ∧ ret = .timeout
    · have hleave : op.recheck d ret = .leave op (.bool false) := by
        simp only [Op.recheck, helement]
        exact if_pos hgo
      rw [hleave]
      rcases hgo with hclosed | ⟨htimed, -⟩
      · exact ⟨rfl, does_closed helement (by simpa using hclosed)⟩
      · exact ⟨rfl, Op.does_of_expired htimed⟩
    · have hinsert : op.recheck d ret = .insert op v [] := by
        simp only [Op.recheck, helement]
        exact if_neg hgo
      rw [not_or, Bool.not_eq_true', Bool.not_eq_false] at hgo
      have hroom : d.queue.length < capacity := Nat.lt_of_not_ge fun hfull => hfree hfull hgo.1
      have helements : op.elements = [] ++ v :: [] := by
        cases op with
        | push w | tryPushFor w | tryPushUntil w =>
          cases helement
          rfl
        | _ => cases helement
      rw [hinsert]
      exact ⟨rfl, hgo.1, [], helements, fun _ => hroom, (d.enqueue_nil).symm⟩
  | none =>
    rw [blocked_pop helement hwaits, decide_eq_false_iff_not, not_and] at hfree
    by_cases hgo : d.queue = [] ∨ op.timed = true ∧ ret = .timeout
    · have hleave : op.recheck d ret = .leave op (.bool false) := by
        simp only [Op.recheck, helement]
        exact if_pos hgo
      rw [hleave]
      rcases hgo with hqueue | ⟨htimed, -⟩
      · exact ⟨rfl, does_drained helement hwaits hqueue ((Bool.not_eq_true _).mp (hfree hqueue))⟩
      · exact ⟨rfl, Op.does_of_expired htimed⟩
    · have htake : op.recheck d ret = .take op := by
        simp only [Op.recheck, helement]
        exact if_neg hgo
      rw [htake]
      refine ⟨rfl, ?_, (not_or.mp hgo).1, rfl⟩
      cases op with
      | pop | tryPopFor | tryPopUntil => rfl
      | push | tryPushFor | tryPushUntil => cases helement
      | _ => exact absurd rfl hwaits

theorem more_sofar {done rest : List V} (hopened : d₀.opened = true)
    (hop : (∃ vs, op = .pushSome vs) ∨ ∃ vs, op = .pushAll vs)
    (helements : op.elements = done ++ rest)
    (hfits : (∃ vs, op = .pushSome vs) → done.length ≤ capacity - d₀.queue.length) :
    (op.more capacity (d₀.enqueue done) rest).sofar capacity op d₀ (d₀.enqueue done) := by
  have hlength : (d₀.enqueue done).queue.length = d₀.queue.length + done.length :=
    List.length_append
  rcases hop with ⟨vs, rfl⟩ | ⟨vs, rfl⟩
  · have hvs : vs = done ++ rest := helements
    have hfits := hfits ⟨vs, rfl⟩
    -- the elements pushed are those that fit when the loop ends
    have hdoes : capacity - d₀.queue.length = done.length ∨ rest = [] →
        (Op.pushSome vs).Does capacity (.rest rest) d₀ (d₀.enqueue done) := fun hend => by
      refine Op.does_of_attempt ?_
      simp only [Op.attempt, hopened, if_true, hvs]
      rcases hend with hend | rfl
      · rw [hend, List.drop_left, List.take_left]
      · rw [List.append_nil, List.drop_eq_nil_of_le hfits, List.take_of_length_le hfits]
    cases rest with
    | nil => exact ⟨rfl, hdoes (.inr rfl)⟩
    | cons v rest =>
      by_cases hroom : (d₀.enqueue done).queue.length < capacity
      · simp only [Op.more, if_pos hroom]
        exact ⟨rfl, hopened, done, helements, fun _ => hroom, rfl⟩
      · simp only [Op.more, if_neg hroom]
        exact ⟨rfl, hdoes (.inl (by omega))⟩
  · cases rest with
    | nil =>
      refine ⟨rfl, Op.does_of_attempt ?_⟩
      have hvs : vs = done := by simpa [Op.elements] using helements
      simp only [Op.attempt, hopened, if_true, hvs]
    | cons v rest => exact ⟨rfl, hopened, done, helements, fun hnot => absurd rfl (hnot vs), rfl⟩

theorem does_take {v : V} (htakes : op.takes = true) (hqueue : d₀.queue = v :: d.queue)
    (hopened : d.opened = d₀.opened) :
    op.Does capacity (.popped v) d₀ d := by
  obtain ⟨opened, queue⟩ := d
  obtain rfl : opened = d₀.opened := hopened
  refine Op.does_of_attempt ?_
  cases op with
  | pop | tryPop | tryPopFor | tryPopUntil => simp [Op.attempt, hqueue]
  | _ => cases htakes

theorem afterInsert_sofar {done rest : List V} (hopened : d₀.opened = true)
    (helements : op.elements = done ++ rest) (hdone : done ≠ [])
    (hroom : (∀ vs, op ≠ .pushAll vs) → (d₀.enqueue done).queue.length ≤ capacity) :
    (op.afterInsert rest).sofar capacity op d₀ (d₀.enqueue done) := by
  have hlength : (d₀.enqueue done).queue.length = d₀.queue.length + done.length :=
    List.length_append
  -- an operation with one element has pushed it, and there was room
  have hsingle : ∀ v, op.elements = [v] → (∀ vs, op ≠ .pushAll vs) →
    done = [v] ∧ d₀.queue.length < capacity := by
    intro v hone hnot
    have hdone' : done = [v] := by
      rw [hone] at helements
      cases done with
      | nil => exact absurd rfl hdone
      | cons w done =>
        obtain ⟨rfl, hrest⟩ := List.cons.inj helements
        rw [(List.append_eq_nil_iff.mp hrest.symm).1]
    have hbound := hroom hnot
    rw [hlength, hdone'] at hbound
    exact ⟨hdone', hbound⟩
  cases op with
  | pushSome vs =>
    refine ⟨rfl, hopened, .inl ⟨vs, rfl⟩, done, helements, fun _ => ?_, rfl⟩
    have hbound := hroom fun _ heq => by cases heq
    omega
  | pushAll vs => exact ⟨rfl, hopened, .inr ⟨vs, rfl⟩, done, helements,
      fun ⟨_, heq⟩ => (by cases heq), rfl⟩
  | push v | tryPushFor v | tryPushUntil v | tryPush v =>
    obtain ⟨rfl, hspace⟩ := hsingle v rfl fun _ heq => by cases heq
    exact ⟨rfl, Op.does_of_attempt (by simp [Op.attempt, hopened, hspace])⟩
  | _ => exact absurd (List.append_eq_nil_iff.mp helements.symm).1 hdone

theorem go_sofar (h : p.go capacity d = some (q, d')) (hsofar : p.sofar capacity op d₀ d) :
    q.sofar capacity op d₀ d' := by
  cases p with
  | enter op' =>
    obtain ⟨rfl, rfl⟩ := hsofar
    obtain ⟨rfl, rfl⟩ := Prod.mk.inj (Option.some.inj h)
    exact enter_sofar
  | loop op' ret =>
    obtain ⟨rfl, hwaits, rfl⟩ := hsofar
    obtain ⟨rfl, rfl⟩ := Prod.mk.inj (Option.some.inj h)
    split
    · exact ⟨rfl, hwaits, rfl⟩
    · exact ⟨rfl, hwaits, (Bool.not_eq_true _).mp ‹_›, rfl⟩
  | recheck op' ret =>
    obtain ⟨rfl, hwaits, hfree, rfl⟩ := hsofar
    obtain ⟨rfl, rfl⟩ := Prod.mk.inj (Option.some.inj h)
    exact recheck_sofar hwaits hfree
  | test op' =>
    obtain ⟨rfl, hop, rfl⟩ := hsofar
    obtain ⟨rfl, rfl⟩ := Prod.mk.inj (Option.some.inj h)
    exact test_sofar hop
  | more op' rest =>
    obtain ⟨rfl, hopened, hop, done, helements, hfits, rfl⟩ := hsofar
    obtain ⟨rfl, rfl⟩ := Prod.mk.inj (Option.some.inj h)
    exact more_sofar hopened hop helements hfits
  | insert op' v rest =>
    obtain ⟨rfl, hopened, done, helements, hroom, rfl⟩ := hsofar
    obtain ⟨rfl, rfl⟩ := Prod.mk.inj (Option.some.inj h)
    have hlength : ((d₀.enqueue done).queue ++ [v]).length = (d₀.enqueue done).queue.length + 1 :=
      List.length_append
    refine ⟨rfl, hopened, done ++ [v], by rw [helements, List.append_assoc, List.singleton_append],
      by simp, fun hnot => ?_, ?_⟩
    · have hless := hroom hnot
      simp only [hlength]
      omega
    · exact Data.enqueue_enqueue d₀ done [v]
  | take op' =>
    obtain ⟨rfl, htakes, hsome, rfl⟩ := hsofar
    cases hqueue : d.queue with
    | nil => exact absurd hqueue hsome
    | cons v queue =>
      simp only [Pos.go, hqueue] at h
      obtain ⟨rfl, rfl⟩ := Prod.mk.inj (Option.some.inj h)
      exact ⟨rfl, htakes, hqueue, rfl⟩
  | _ => cases h

theorem notify_sofar (h : ∃ c, p.call = some (.notifyOne c) ∨ p.call = some (.notifyAll c))
    (hsofar : p.sofar capacity op d₀ d) :
    (p.ret .done).sofar capacity op d₀ d := by
  cases p with
  | inserted op' rest =>
    obtain ⟨rfl, hopened, done, helements, hdone, hroom, rfl⟩ := hsofar
    exact afterInsert_sofar hopened helements hdone hroom
  | taken op' v =>
    obtain ⟨rfl, htakes, hqueue, hopened⟩ := hsofar
    exact ⟨rfl, does_take htakes hqueue hopened⟩
  | closing c =>
    obtain ⟨rfl, rfl⟩ := hsofar
    cases c with
    | full => exact ⟨rfl, rfl⟩
    | empty => exact ⟨rfl, Op.does_of_attempt rfl⟩
  | wait op' =>
    obtain ⟨c, hcall | hcall⟩ := h <;> obtain ⟨c', timed, -, heq⟩ := call_wait hcall
      <;> cases timed <;> cases heq
  | lock op' | leave op' r => obtain ⟨c, hcall | hcall⟩ := h <;> cases hcall
  | _ => obtain ⟨c, hcall | hcall⟩ := h <;> cases hcall

/-- A statement of the code of an operation goes on with what the statements before it have done. -/
theorem statement_sofar {t : τ} (h : (client capacity).Statement t (p, d) (q, d'))
    (hsofar : p.sofar capacity op d₀ d) :
    q.sofar capacity op d₀ d' := by
  cases h with
  | @act _ _ _ _ o hact =>
    cases o with
    | begin op' =>
      obtain ⟨rfl, -, -⟩ := act_begin hact
      exact hsofar.elim
    | go =>
      have hgo : p.go capacity d = some (q, d') := by cases p <;> exact hact
      exact go_sofar hgo hsofar
  | notify hnotify => exact notify_sofar hnotify hsofar

theorem runs_sofar {t : τ} {x y : Pos V × Data V}
    (h : Relation.ReflTransGen ((client capacity).Statement t) x y)
    (hsofar : x.1.sofar capacity op d₀ x.2) : y.1.sofar capacity op d₀ y.2 := by
  induction h with
  | refl => exact hsofar
  | tail _ hstep ih => exact statement_sofar hstep ih

/-! ### The critical sections -/

variable [DecidableEq τ]

omit [DecidableEq τ] in
theorem sectioned : Sectioned (client (τ := τ) (V := V) capacity) Pos.holds where
  toScoped := keeps_scope
  outside := by
    intro t a x o b y hact ha
    cases o with
    | begin op => exact (act_begin hact).2.2
    | go => cases ha.symm.trans (act_go hact).holds.1
  noTry := by
    intro a hcall
    cases a with
    | wait op =>
      obtain ⟨c, timed, -, heq⟩ := call_wait hcall
      cases timed <;> cases heq
    | _ => cases hcall

/-- The critical sections of the threads of one queue. -/
abbrev sections (capacity : Nat) : Serial.View (State V τ) (Label V τ) τ (Pos V) (Data V) :=
  Machine.sections (client capacity) Pos.holds

omit [DecidableEq τ] in
theorem entry_sofar (h : (client (τ := τ) capacity).Entry q) (d : Data V) :
    ∃ op, q.op = some op ∧ q.sofar capacity op d d := by
  obtain ⟨a, call, r, hcall, hopens, hgives, hthrew, rfl⟩ := h
  cases a with
  | lock op =>
    cases hcall
    cases r with
    | done => exact ⟨op, rfl, rfl, rfl⟩
    | threw e => exact absurd rfl (hthrew e)
    | _ => exact hgives.elim
  | wait op =>
    obtain ⟨c, timed, hwaits, rfl⟩ := call_wait hcall
    have hsome : op.waits ≠ none := by
      rw [hwaits]
      exact Option.some_ne_none _
    cases r with
    | threw e => exact absurd rfl (hthrew e)
    | _ => exact ⟨op, rfl, rfl, hsome, rfl⟩
  | inserted op rest | taken op v | closing c | leave op r =>
    cases hcall
    exact hopens.elim
  | _ => cases hcall

omit [DecidableEq τ] in
theorem exit_cases (h : (client (τ := τ) capacity).Exit p) :
    (∃ op r, p = .leave op r) ∨ ∃ op, p = .wait op := by
  obtain ⟨call, hcall, hcloses⟩ := h
  cases p with
  | leave op r => exact .inl ⟨op, r, rfl⟩
  | wait op => exact .inr ⟨op, rfl⟩
  | lock op | inserted op rest | taken op v | closing c =>
    cases hcall
    exact hcloses.elim
  | _ => cases hcall

omit [DecidableEq τ] in
/-- What a finished section has done: the whole of its operation, or nothing. -/
theorem section_does {x : Serial.Section τ (Pos V) (Data V)}
    (hx : (sections capacity).Completes x) :
    (∃ op r, x.exit = .leave op r ∧ op.Does capacity r x.before x.after) ∨
    ∃ op, x.exit = .wait op ∧ x.before = x.after := by
  obtain ⟨op, -, hsofar⟩ := entry_sofar hx.entry x.before
  have hsofar := runs_sofar hx.runs hsofar
  rcases exit_cases hx.exit with ⟨op', r, hexit⟩ | ⟨op', hexit⟩
  · simp only [hexit] at hsofar
    obtain ⟨rfl, hdoes⟩ := hsofar
    exact .inl ⟨op', r, hexit, hdoes⟩
  · simp only [hexit] at hsofar
    exact .inr ⟨op', hexit, hsofar.2.2.symm⟩

end Queue

end GreenThread
