import GreenThread.Queue.Statements
import Mathlib.Data.Nat.Find

/-!
# The timed operations of the queue

One call of `try_pop_for`, `try_pop_until`, `try_push_for` or `try_push_until`, run against any
sequence of outcomes of its internal waits. The `while` looks only at the queue, so a wait that
times out is followed by another one while the queue is still empty or full, and the result looks
only at the status of the last wait, so an element or room that a timed-out wait finds is left
alone.
-/

namespace GreenThread

namespace Queue

variable {V : Type}

/-- The outcomes of the internal waits, up to the first `none`: the status that the wait returns,
and `opened_` and `the_queue_` when it has locked the mutex again. -/
abbrev Outcomes (V : Type) := Nat → Option (CvStatus × Data V)

/-- A call that has made so many waits. -/
structure Run (V : Type) where
  pos : Pos V
  data : Data V
  waits : Nat

/-- The call goes on, until it is about to leave or is in a wait that has no outcome. -/
def Run.next (capacity : Nat) (o : Outcomes V) (c : Run V) : Option (Run V) :=
  match c.pos with
  | .leave _ _ => none
  | .wait op => (o c.waits).map fun (ret, d) => ⟨(Pos.wait op).ret (.status ret), d, c.waits + 1⟩
  | p =>
    match p.go capacity c.data with
    | some (q, d) => some ⟨q, d, c.waits⟩
    | none => p.call.map fun _ => ⟨p.ret .done, c.data, c.waits⟩

/-- The operation, from the lock on, in a queue whose data is `d`. -/
def alone (capacity : Nat) (op : Op V) (d : Data V) (o : Outcomes V) :
    TransitionSystem (Run V) Unit where
  init := fun c => c = ⟨.enter op, d, 0⟩
  step := fun c _ => c.next capacity o

/-- The data after `k` waits. -/
def seen (d : Data V) (o : Outcomes V) : Nat → Option (Data V)
  | 0 => some d
  | k + 1 => (o k).map (·.2)

/-- The variable `ret` after `k` waits. -/
def last (o : Outcomes V) : Nat → CvStatus
  | 0 => .noTimeout
  | k + 1 => (o k).elim .noTimeout (·.1)

/-- The operation leaves after `k` waits, with result `r` and the data `x`. -/
def Returns (capacity : Nat) (op : Op V) (d : Data V) (o : Outcomes V) (k : Nat) (r : Result V)
    (x : Data V) : Prop :=
  (alone capacity op d o).Reachable ⟨.leave op r, x, k⟩

/-- The first of the waits to time out. -/
def TimesOut (o : Outcomes V) (n : Nat) : Prop :=
  (∃ d, o n = some (.timeout, d)) ∧ ∀ i < n, ∃ d, o i = some (.noTimeout, d)

/-- There is an element to pop, or the queue is open and has room for one. -/
def Op.ready (capacity : Nat) (op : Op V) (d : Data V) : Prop :=
  match op.element with
  | none => d.queue ≠ []
  | some _ => d.opened = true ∧ d.queue.length < capacity

/-- The operation reports success and has moved one element. -/
def Op.moved (op : Op V) (before : Data V) (r : Result V) (after : Data V) : Prop :=
  match op.element with
  | none => ∃ v, r = .popped v ∧ before = { after with queue := v :: after.queue }
  | some v => r = .bool true ∧ after = { before with queue := before.queue ++ [v] }

/-- The timeout is honoured: the operation leaves at the latest after the first wait that timed out,
and it succeeds exactly when the queue is ready for it then. -/
structure Honours (capacity : Nat) (op : Op V) (d : Data V) (o : Outcomes V) : Prop where
  returns : ∀ n, TimesOut o n → ∃ k r x, k ≤ n + 1 ∧ Returns capacity op d o k r x
  result : ∀ k r x, Returns capacity op d o k r x → ∃ y, seen d o k = some y ∧
    (op.ready capacity y ∧ op.moved y r x ∨ ¬ op.ready capacity y ∧ r = .bool false ∧ x = y)

/-- The operation makes the first `k` waits and has then found the data `x`. -/
structure Waited (capacity : Nat) (op : Op V) (d : Data V) (o : Outcomes V) (k : Nat)
    (x : Data V) : Prop where
  now : seen d o k = some x
  before : ∀ i < k, ∃ y, seen d o i = some y ∧ op.blocked capacity y = true

variable {capacity : Nat} {op : Op V} {d x y : Data V} {o : Outcomes V} {k n : Nat} {c c' : Run V}
    {r : Result V}

theorem Waited.next (h : Waited capacity op d o k x) (hblocked : op.blocked capacity x = true)
    {ret : CvStatus} (ho : o k = some (ret, y)) : Waited capacity op d o (k + 1) y where
  now := by rw [seen, ho, Option.map_some]
  before := by
    intro i hi
    rcases Nat.lt_succ_iff_lt_or_eq.mp hi with hlt | rfl
    · exact h.before i hlt
    · exact ⟨x, h.now, hblocked⟩

theorem last_succ {ret : CvStatus} (ho : o k = some (ret, y)) : last o (k + 1) = ret := by
  rw [last, ho, Option.elim_some]

/-! ### The statements of a timed operation -/

/-- The statement that moves the element. -/
def Op.acts (op : Op V) : Pos V :=
  match op.element with
  | some v => .insert op v []
  | none => .take op

/-- What the operation returns when it has found `x` after its `while`. -/
def Finished (capacity : Nat) (op : Op V) (ret : CvStatus) (x : Data V) (r : Result V)
    (y : Data V) : Prop :=
  ret = .noTimeout ∧ op.ready capacity x ∧ op.moved x r y ∨
  (ret = .timeout ∨ ¬ op.ready capacity x) ∧ r = .bool false ∧ y = x

theorem closed_of_empty {cv : Cv} (hwaits : op.waits = some (cv, true))
    (hfree : op.blocked capacity x = false)
    (helement : op.element = none) (hempty : x.queue = []) : x.opened = false := by
  have hwaits' : op.waits ≠ none := hwaits ▸ Option.some_ne_none _
  rw [blocked_pop helement hwaits', decide_eq_false_iff_not, not_and, Bool.not_eq_true] at hfree
  exact hfree hempty

theorem ready_iff {cv : Cv} (hwaits : op.waits = some (cv, true))
    (hfree : op.blocked capacity x = false) :
    ¬ op.ready capacity x ↔ x.opened = false ∧ (op.element = none → x.queue = []) := by
  cases helement : op.element with
  | none =>
    simp only [Op.ready, helement, ne_eq, not_not, forall_const]
    exact ⟨fun hempty => ⟨closed_of_empty hwaits hfree helement hempty, hempty⟩,
      fun hclosed => hclosed.2⟩
  | some v =>
    rw [blocked_push helement, decide_eq_false_iff_not, not_and, Bool.not_eq_true] at hfree
    simp only [Op.ready, helement, not_and, Nat.not_lt, reduceCtorEq, false_implies, and_true]
    refine ⟨fun hfull => ?_, fun hclosed hopened => Bool.noConfusion (hopened.symm.trans hclosed)⟩
    cases hopened : x.opened with
    | true => exact hopened.symm.trans (hfree (hfull hopened))
    | false => rfl

theorem recheck_eq {cv : Cv} (hwaits : op.waits = some (cv, true))
    (hfree : op.blocked capacity x = false) (ret : CvStatus) :
    (ret = .timeout ∨ ¬ op.ready capacity x) ∧ op.recheck x ret = .leave op (.bool false) ∨
    ret = .noTimeout ∧ op.ready capacity x ∧ op.recheck x ret = op.acts := by
  have htimed : (op.waits.elim false (·.2) = true ∧ ret = .timeout) ↔ ret = .timeout := by
    rw [hwaits]
    exact and_iff_right rfl
  have hready := ready_iff hwaits hfree
  have hret : ret ≠ .timeout → ret = .noTimeout := by
    cases ret <;> simp
  unfold Op.recheck Op.acts
  simp only [htimed]
  cases helement : op.element with
  | none =>
    simp only [helement, forall_const] at hready
    by_cases hgo : x.queue = [] ∨ ret = .timeout
    · have hempty : x.queue = [] → ¬ op.ready capacity x := fun hempty =>
        hready.mpr ⟨closed_of_empty hwaits hfree helement hempty, hempty⟩
      exact .inl ⟨hgo.symm.imp_right hempty, if_pos hgo⟩
    · obtain ⟨hqueue, hnot⟩ := not_or.mp hgo
      exact .inr ⟨hret hnot, not_not.mp fun hclosed => hqueue (hready.mp hclosed).2, if_neg hgo⟩
  | some v =>
    simp only [helement, reduceCtorEq, false_implies, and_true] at hready
    simp only [Bool.not_eq_true']
    by_cases hgo : x.opened = false ∨ ret = .timeout
    · exact .inl ⟨hgo.symm.imp_right hready.mpr, if_pos hgo⟩
    · obtain ⟨hopened, hnot⟩ := not_or.mp hgo
      exact .inr ⟨hret hnot, not_not.mp fun hclosed => hopened (hready.mp hclosed), if_neg hgo⟩

theorem enter_eq {cv : Cv} (hwaits : op.waits = some (cv, true)) :
    op.enter d = (.loop op .noTimeout, d) ∨ d.opened = false ∧ op.element ≠ none ∧
    op.enter d = (.leave op (.bool false), d) := by
  cases op with
  | tryPushFor v | tryPushUntil v =>
    cases hopened : d.opened with
    | true => exact .inl (by rw [Op.enter, hopened, if_pos rfl])
    | false => exact .inr ⟨rfl, Option.some_ne_none v, by rw [Op.enter, hopened]; rfl⟩
  | tryPopFor | tryPopUntil => exact .inl rfl
  | _ => cases hwaits

/-! ### The run of a timed operation -/

/-- Where the operation can be, and what it has seen. -/
inductive Tracks (capacity : Nat) (op : Op V) (d : Data V) (o : Outcomes V) : Run V → Prop
  | enter : Tracks capacity op d o ⟨.enter op, d, 0⟩
  | loop {x : Data V} {k : Nat} (hwaited : Waited capacity op d o k x) :
      Tracks capacity op d o ⟨.loop op (last o k), x, k⟩
  | wait {x : Data V} {k : Nat} (hwaited : Waited capacity op d o k x)
      (hblocked : op.blocked capacity x = true) :
      Tracks capacity op d o ⟨.wait op, x, k⟩
  | recheck {x : Data V} {k : Nat} (hwaited : Waited capacity op d o k x)
      (hfree : op.blocked capacity x = false) :
      Tracks capacity op d o ⟨.recheck op (last o k), x, k⟩
  | acts {x : Data V} {k : Nat} (hwaited : Waited capacity op d o k x)
      (hfree : op.blocked capacity x = false) (hlast : last o k = .noTimeout)
      (hready : op.ready capacity x) : Tracks capacity op d o ⟨op.acts, x, k⟩
  | inserted {x y : Data V} {k : Nat} {v : V} (hwaited : Waited capacity op d o k x)
      (hfree : op.blocked capacity x = false)
      (hfinished : Finished capacity op (last o k) x (.bool true) y)
      (helement : op.element = some v) :
      Tracks capacity op d o ⟨.inserted op [], y, k⟩
  | taken {x y : Data V} {k : Nat} {v : V} (hwaited : Waited capacity op d o k x)
      (hfree : op.blocked capacity x = false)
      (hfinished : Finished capacity op (last o k) x (.popped v) y) :
      Tracks capacity op d o ⟨.taken op v, y, k⟩
  | left {x y : Data V} {k : Nat} {r : Result V} (hwaited : Waited capacity op d o k x)
      (hfree : op.blocked capacity x = false)
      (hfinished : Finished capacity op (last o k) x r y) :
      Tracks capacity op d o ⟨.leave op r, y, k⟩

theorem next_enter : (⟨.enter op, x, k⟩ : Run V).next capacity o =
    some ⟨(op.enter x).1, (op.enter x).2, k⟩ := rfl

theorem next_loop {ret : CvStatus} : (⟨.loop op ret, x, k⟩ : Run V).next capacity o =
    some ⟨if op.blocked capacity x then .wait op else .recheck op ret, x, k⟩ := rfl

theorem next_recheck {ret : CvStatus} :
    (⟨.recheck op ret, x, k⟩ : Run V).next capacity o = some ⟨op.recheck x ret, x, k⟩ := rfl

theorem next_push {v : V} (helement : op.element = some v) :
    (⟨op.acts, x, k⟩ : Run V).next capacity o =
    some ⟨.inserted op [], { x with queue := x.queue ++ [v] }, k⟩ := by
  have hacts : op.acts = .insert op v [] := by rw [Op.acts, helement]
  rw [hacts]
  rfl

theorem next_pop {v : V} {queue : List V} (helement : op.element = none)
    (hqueue : x.queue = v :: queue) :
    (⟨op.acts, x, k⟩ : Run V).next capacity o =
    some ⟨.taken op v, { x with queue := queue }, k⟩ := by
  have hacts : op.acts = .take op := by rw [Op.acts, helement]
  rw [hacts]
  simp only [Run.next, Pos.go, hqueue]

theorem queue_of_ready (helement : op.element = none) (hready : op.ready capacity x) :
    ∃ v queue, x.queue = v :: queue := by
  refine List.exists_cons_of_ne_nil ?_
  simpa only [Op.ready, helement] using hready

theorem next_inserted {cv : Cv} (hwaits : op.waits = some (cv, true)) :
    (⟨.inserted op [], x, k⟩ : Run V).next capacity o = some ⟨.leave op (.bool true), x, k⟩ := by
  cases op <;> first | rfl | cases hwaits

theorem free_of_closed (hclosed : x.opened = false) : op.blocked capacity x = false := by
  unfold Op.blocked
  split <;> simp [hclosed]

theorem Tracks.next {cv : Cv} (hwaits : op.waits = some (cv, true)) (h : Tracks capacity op d o c)
    (hnext : c.next capacity o = some c') : Tracks capacity op d o c' := by
  cases h with
  | enter =>
    have hwaited : Waited capacity op d o 0 d := ⟨rfl, fun i hi => absurd hi (Nat.not_lt_zero i)⟩
    rw [next_enter] at hnext
    obtain rfl := Option.some.inj hnext
    rcases enter_eq (d := d) hwaits with henter | ⟨hclosed, helement, henter⟩
    · rw [henter]
      exact .loop hwaited
    · have hfree : op.blocked capacity d = false := free_of_closed hclosed
      have hnot := (ready_iff hwaits hfree).mpr ⟨hclosed, fun hnone => absurd hnone helement⟩
      rw [henter]
      exact .left hwaited hfree (.inr ⟨.inr hnot, rfl, rfl⟩)
  | @loop x k hwaited =>
    rw [next_loop] at hnext
    obtain rfl := Option.some.inj hnext
    split
    · exact .wait hwaited ‹_›
    · exact .recheck hwaited ((Bool.not_eq_true _).mp ‹_›)
  | @wait x k hwaited hblocked =>
    obtain ⟨⟨ret, y⟩, ho, rfl⟩ := Option.map_eq_some_iff.mp hnext
    have hloop : Tracks capacity op d o ⟨.loop op (last o (k + 1)), y, k + 1⟩ :=
      .loop (hwaited.next hblocked ho)
    rwa [last_succ ho] at hloop
  | @recheck x k hwaited hfree =>
    rw [next_recheck] at hnext
    obtain rfl := Option.some.inj hnext
    rcases recheck_eq hwaits hfree (last o k) with ⟨hfails, hpos⟩ | ⟨hlast, hready, hpos⟩
    · rw [hpos]
      exact .left hwaited hfree (.inr ⟨hfails, rfl, rfl⟩)
    · rw [hpos]
      exact .acts hwaited hfree hlast hready
  | @acts x k hwaited hfree hlast hready =>
    cases helement : op.element with
    | some v =>
      rw [next_push helement] at hnext
      obtain rfl := Option.some.inj hnext
      refine .inserted hwaited hfree (.inl ⟨hlast, hready, ?_⟩) helement
      simp only [Op.moved, helement, and_self]
    | none =>
      obtain ⟨v, queue, hqueue⟩ := queue_of_ready helement hready
      rw [next_pop helement hqueue] at hnext
      obtain rfl := Option.some.inj hnext
      refine .taken hwaited hfree (.inl ⟨hlast, hready, ?_⟩)
      simp only [Op.moved, helement]
      exact ⟨v, rfl, by rw [← hqueue]⟩
  | inserted hwaited hfree hfinished helement =>
    rw [next_inserted hwaits] at hnext
    obtain rfl := Option.some.inj hnext
    exact .left hwaited hfree hfinished
  | taken hwaited hfree hfinished =>
    cases hnext
    exact .left hwaited hfree hfinished
  | left => cases hnext

theorem reach_tracks {cv : Cv} (hwaits : op.waits = some (cv, true))
    (hr : (alone capacity op d o).Reachable c) :
    Tracks capacity op d o c := by
  refine hr.invariant (fun c hc => ?_) fun c _ c' _ htracks _ hnext => htracks.next hwaits hnext
  cases hc
  exact .enter

/-- What the operation returns follows from the first time it is not blocked. -/
theorem waited_of_returns {cv : Cv} (hwaits : op.waits = some (cv, true))
    (h : Returns capacity op d o k r y) :
    ∃ x, Waited capacity op d o k x ∧ op.blocked capacity x = false ∧
    Finished capacity op (last o k) x r y := by
  have htracks := reach_tracks hwaits h
  generalize hc : (⟨.leave op r, y, k⟩ : Run V) = c at htracks
  cases htracks with
  | left hwaited hfree hfinished =>
    cases hc
    exact ⟨_, hwaited, hfree, hfinished⟩
  | acts =>
    have hpos := congrArg Run.pos hc
    unfold Op.acts at hpos
    split at hpos <;> cases hpos
  | _ => cases hc

theorem reach_next (hr : (alone capacity op d o).Reachable c)
    (hnext : c.next capacity o = some c') :
    (alone capacity op d o).Reachable c' :=
  hr.step (l := ()) trivial hnext

theorem reach_loop (henter : op.enter d = (.loop op .noTimeout, d))
    (hwaited : Waited capacity op d o k x) :
    (alone capacity op d o).Reachable ⟨.loop op (last o k), x, k⟩ := by
  induction k generalizing x with
  | zero =>
    obtain rfl := Option.some.inj hwaited.now
    refine reach_next (.init rfl) ?_
    rw [next_enter, henter]
    rfl
  | succ k ih =>
    obtain ⟨⟨ret, x'⟩, ho, rfl⟩ := Option.map_eq_some_iff.mp hwaited.now
    obtain ⟨y, hy, hblocked⟩ := hwaited.before k (Nat.lt_succ_self k)
    have hloop := ih ⟨hy, fun i hi => hwaited.before i (Nat.lt_succ_of_lt hi)⟩
    have hwait : (alone capacity op d o).Reachable ⟨.wait op, y, k⟩ := by
      refine reach_next hloop ?_
      rw [next_loop, if_pos hblocked]
    rw [last_succ ho]
    refine reach_next hwait ?_
    change ((o k).map _) = _
    rw [ho]
    rfl

theorem returns_of_free {cv : Cv} (hwaits : op.waits = some (cv, true))
    (hwaited : Waited capacity op d o k x)
    (hfree : op.blocked capacity x = false) : ∃ r y, Returns capacity op d o k r y := by
  rcases enter_eq (d := d) hwaits with henter | ⟨hclosed, -, henter⟩
  · have hrecheck : (alone capacity op d o).Reachable ⟨.recheck op (last o k), x, k⟩ := by
      refine reach_next (reach_loop henter hwaited) ?_
      rw [next_loop, hfree]
      rfl
    have hnext := reach_next hrecheck next_recheck
    rcases recheck_eq hwaits hfree (last o k) with ⟨-, hpos⟩ | ⟨-, hready, hpos⟩
    · rw [hpos] at hnext
      exact ⟨_, _, hnext⟩
    · rw [hpos] at hnext
      cases helement : op.element with
      | some v =>
        have hinserted := reach_next hnext (next_push helement)
        exact ⟨_, _, reach_next hinserted (next_inserted hwaits)⟩
      | none =>
        obtain ⟨v, queue, hqueue⟩ := queue_of_ready helement hready
        have htaken := reach_next hnext (next_pop helement hqueue)
        exact ⟨_, _, reach_next htaken rfl⟩
  · have hbegin : (alone capacity op d o).Reachable ⟨.enter op, d, 0⟩ := .init rfl
    have hleave := reach_next hbegin next_enter
    rw [henter] at hleave
    cases k with
    | zero => exact ⟨_, _, hleave⟩
    | succ k =>
      -- it has not waited, because the closed queue did not block it
      obtain ⟨y, hy, hblocked⟩ := hwaited.before 0 (Nat.succ_pos k)
      obtain rfl := Option.some.inj hy
      exact absurd (hblocked.symm.trans (free_of_closed hclosed)) (by decide)

/-! ### The timeout -/

theorem first_timeout (hdone : ∀ i ≤ n, ∃ y, o i = some y) (hlast : last o (n + 1) = .timeout) :
    ∃ m ≤ n, TimesOut o m := by
  have hex : ∃ m, last o (m + 1) = .timeout := ⟨n, hlast⟩
  have hle : Nat.find hex ≤ n := Nat.find_min' hex hlast
  refine ⟨Nat.find hex, hle, ?_, fun i hi => ?_⟩
  · obtain ⟨⟨ret, y⟩, ho⟩ := hdone _ hle
    have htimeout := Nat.find_spec hex
    rw [last_succ ho] at htimeout
    exact ⟨y, htimeout ▸ ho⟩
  · obtain ⟨⟨ret, y⟩, ho⟩ := hdone i (Nat.le_trans (Nat.le_of_lt hi) hle)
    have hnot := Nat.find_min hex hi
    rw [last_succ ho] at hnot
    cases ret with
    | noTimeout => exact ⟨y, ho⟩
    | timeout => exact absurd rfl hnot

theorem seen_of_timesOut (h : TimesOut o n) {i : Nat} (hi : i ≤ n + 1) :
    ∃ y, seen d o i = some y := by
  cases i with
  | zero => exact ⟨d, rfl⟩
  | succ i =>
    rcases Nat.lt_succ_iff_lt_or_eq.mp hi with hlt | rfl
    · obtain ⟨y, ho⟩ := h.2 i (by omega)
      exact ⟨y, by rw [seen, ho, Option.map_some]⟩
    · obtain ⟨y, ho⟩ := h.1
      exact ⟨y, by rw [seen, ho, Option.map_some]⟩

/-- A sequence of data goes on blocking the operation, or there is a first one that does not. -/
theorem waited_or_free (hseen : ∀ i ≤ n, ∃ y, seen d o i = some y) :
    (∃ x, Waited capacity op d o n x) ∨ ∃ k < n, ∃ x, Waited capacity op d o k x ∧
    op.blocked capacity x = false := by
  induction n with
  | zero => exact .inl ⟨d, rfl, fun i hi => absurd hi (Nat.not_lt_zero i)⟩
  | succ n ih =>
    rcases ih fun i hi => hseen i (Nat.le_succ_of_le hi) with ⟨x, hwaited⟩ | ⟨k, hk, x, hwaited⟩
    · cases hblocked : op.blocked capacity x with
      | true =>
        obtain ⟨y, hy⟩ := hseen (n + 1) (Nat.le_refl _)
        obtain ⟨⟨ret, y'⟩, ho, rfl⟩ := Option.map_eq_some_iff.mp hy
        exact .inl ⟨y', hwaited.next hblocked ho⟩
      | false => exact .inr ⟨n, Nat.lt_succ_self n, x, hwaited, hblocked⟩
    · exact .inr ⟨k, Nat.lt_succ_of_lt hk, x, hwaited⟩

theorem Waited.unique (h : Waited capacity op d o k x) (h' : Waited capacity op d o k y) : x = y :=
  Option.some.inj (h.now.symm.trans h'.now)

theorem Waited.blocked (h : Waited capacity op d o n y) (h' : Waited capacity op d o k x)
    (hk : k < n) :
    op.blocked capacity x = true := by
  obtain ⟨z, hz, hblocked⟩ := h.before k hk
  obtain rfl := Option.some.inj (hz.symm.trans h'.now)
  exact hblocked

theorem Waited.earlier (h : Waited capacity op d o n y) (hk : k ≤ n) :
    ∃ x, Waited capacity op d o k x := by
  rcases Nat.lt_or_eq_of_le hk with hlt | rfl
  · obtain ⟨x, hx, -⟩ := h.before k hlt
    exact ⟨x, hx, fun i hi => h.before i (Nat.lt_trans hi hlt)⟩
  · exact ⟨y, h⟩

/-- The timeout is honoured exactly when the first wait that times out, if the operation makes it,
leaves the queue closed and, for a pop, empty. -/
theorem honours_iff {cv : Cv} (hwaits : op.waits = some (cv, true)) :
    Honours capacity op d o ↔ ∀ n z, TimesOut o n → Waited capacity op d o (n + 1) z →
      z.opened = false ∧ (op.element = none → z.queue = []) := by
  constructor
  · intro hhonours n z htimes hwaited
    obtain ⟨k, r, x, hk, hreturns⟩ := hhonours.returns n htimes
    obtain ⟨x', hwaited', hfree, hfinished⟩ := waited_of_returns hwaits hreturns
    obtain rfl : k = n + 1 := by
      by_contra hne
      have hblocked := hwaited.blocked hwaited' (by omega)
      exact Bool.noConfusion (hblocked.symm.trans hfree)
    obtain rfl := hwaited.unique hwaited'
    refine (ready_iff hwaits hfree).mp fun hready => ?_
    obtain ⟨y, ho⟩ := htimes.1
    rw [last_succ ho] at hfinished
    obtain ⟨hlast, -⟩ | ⟨-, rfl, -⟩ := hfinished
    · cases hlast
    · obtain ⟨w, hw, hresult⟩ := hhonours.result _ _ _ hreturns
      obtain rfl := Option.some.inj (hw.symm.trans hwaited.now)
      rcases hresult with ⟨-, hmoved⟩ | ⟨hnot, -⟩
      · unfold Op.moved at hmoved
        split at hmoved
        · obtain ⟨v, hr, -⟩ := hmoved
          cases hr
        · cases hmoved.1
      · exact hnot hready
  · intro hexpires
    refine ⟨fun n htimes => ?_, fun k r y hreturns => ?_⟩
    · rcases waited_or_free fun i hi => seen_of_timesOut (d := d) htimes hi with
        ⟨x, hwaited⟩ | ⟨k, hk, x, hwaited, hfree⟩
      · obtain ⟨r, y, hreturns⟩ :=
          returns_of_free hwaits hwaited (free_of_closed (hexpires n x htimes hwaited).1)
        exact ⟨n + 1, r, y, Nat.le_refl _, hreturns⟩
      · obtain ⟨r, y, hreturns⟩ := returns_of_free hwaits hwaited hfree
        exact ⟨k, r, y, Nat.le_of_lt hk, hreturns⟩
    · obtain ⟨x, hwaited, hfree, hfinished⟩ := waited_of_returns hwaits hreturns
      refine ⟨x, hwaited.now, ?_⟩
      obtain ⟨-, hready, hmoved⟩ | ⟨hfails, rfl, rfl⟩ := hfinished
      · exact .inl ⟨hready, hmoved⟩
      refine .inr ⟨hfails.elim (fun hlast => ?_) id, rfl, rfl⟩
      cases k with
      | zero => cases hlast
      | succ k =>
        have hdone : ∀ i ≤ k, ∃ y, o i = some y := by
          intro i hi
          obtain ⟨w, hw⟩ := hwaited.earlier (k := i + 1) (by omega)
          obtain ⟨out, ho, -⟩ := Option.map_eq_some_iff.mp hw.now
          exact ⟨out, ho⟩
        obtain ⟨m, hm, htimes⟩ := first_timeout hdone hlast
        obtain ⟨z, hz⟩ := hwaited.earlier (k := m + 1) (by omega)
        have hclosed := hexpires m z htimes hz
        -- the first timeout was the last, because the closed queue did not block again
        obtain rfl : m = k := by
          by_contra hne
          have hblocked := hwaited.blocked hz (by omega)
          exact Bool.noConfusion (hblocked.symm.trans (free_of_closed hclosed.1))
        obtain rfl := hz.unique hwaited
        exact (ready_iff hwaits hfree).mpr hclosed

/-- A pop whose wait times out while the queue is being closed. -/
theorem honours_iff_closed : Honours 1 (.tryPopFor : Op Nat) ⟨true, []⟩ fun n =>
    if n = 0 then some (.timeout, ⟨false, []⟩) else none := by
  refine (honours_iff rfl).mpr fun n z htimes hwaited => ?_
  cases n with
  | zero =>
    obtain rfl := Option.some.inj hwaited.now
    exact ⟨rfl, fun _ => rfl⟩
  | succ n =>
    obtain ⟨y, ho⟩ := htimes.1
    cases ho

/-- A pop that times out on an open and empty queue waits again. -/
theorem try_pop_for_waits_again : ¬ Honours 1 (.tryPopFor : Op Nat) ⟨true, []⟩ fun n =>
    if n = 0 then some (.timeout, ⟨true, []⟩) else none := by
  intro hhonours
  obtain ⟨k, r, x, hk, hreturns⟩ :=
    hhonours.returns 0 ⟨⟨_, rfl⟩, fun i hi => absurd hi (Nat.not_lt_zero i)⟩
  obtain ⟨y, hwaited, hfree, -⟩ := waited_of_returns rfl hreturns
  match k with
  | 0 | 1 =>
    obtain rfl := Option.some.inj hwaited.now
    cases hfree

end Queue

end GreenThread
