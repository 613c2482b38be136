import GreenThread.Queue.Code

/-!
# The statements of the queue

What each statement of an operation can do, the mutex that its thread holds there, and what the
thread has found out about `opened_` and `the_queue_` since it took the mutex. What it finds out
stays true until its next wait, because the data is guarded by `the_mutex_`.
-/

namespace GreenThread

namespace Queue

variable {V τ : Type} {capacity : Nat} {d d' : Data V} {p q : Pos V}

/-- The operation reports that it did nothing. -/
def Op.fails (op : Op V) (r : Result V) :
    Prop := r = .bool false ∨ ∃ vs, op = .pushSome vs ∧ r = .rest vs

/-- What the statement at a position does: where it leads, and to what data. -/
inductive Goes (capacity : Nat) (d : Data V) : Pos V → Pos V → Data V → Prop
  | opens : Goes capacity d (.enter .open_) (.leave .open_ (.bool true)) { d with opened := true }
  | closes : Goes capacity d (.enter .close) (.closing .full) { d with opened := false }
  | rejects {op r} (hclosed : d.opened = false) (hfails : op.fails r) (hop : op ≠ .pop) :
      Goes capacity d (.enter op) (.leave op r) d
  | begins {op} (hwaits : op.waits ≠ none) : Goes capacity d (.enter op) (.loop op .noTimeout) d
  | tests {op} (hop : (∃ v, op = .tryPush v ∧ d.opened = true) ∨ op = .tryPop) :
      Goes capacity d (.enter op) (.test op) d
  | iterates {op vs} (hopened : d.opened = true) (hop : op = .pushSome vs ∨ op = .pushAll vs) :
      Goes capacity d (.enter op) (.more op vs) d
  | blocks {op ret} (hblocked : op.blocked capacity d = true) :
      Goes capacity d (.loop op ret) (.wait op) d
  | passes {op ret} (hfree : op.blocked capacity d = false) :
      Goes capacity d (.loop op ret) (.recheck op ret) d
  | gives {op ret} (hpop : op = .pop → d.queue = [])
      (hpush : (∃ v, op = .push v) → d.opened = false) :
      Goes capacity d (.recheck op ret) (.leave op (.bool false)) d
  | pushes {op v ret} (helement : op.element = some v) (hopened : d.opened = true) :
      Goes capacity d (.recheck op ret) (.insert op v []) d
  | pops {op ret} (helement : op.element = none) (hqueue : d.queue ≠ []) :
      Goes capacity d (.recheck op ret) (.take op) d
  | refuses {op} : Goes capacity d (.test op) (.leave op (.bool false)) d
  | testPushes {v} (hroom : d.queue.length < capacity) :
      Goes capacity d (.test (.tryPush v)) (.insert (.tryPush v) v []) d
  | testPops {op} (hop : ∀ v, op ≠ .tryPush v) (hqueue : d.queue ≠ []) :
      Goes capacity d (.test op) (.take op) d
  | ends {op r} (hr : r = .bool true ∨ ∃ vs, op = .pushSome vs ∧ r = .rest []) :
      Goes capacity d (.more op []) (.leave op r) d
  | stops {vs v rest} : Goes capacity d (.more (.pushSome vs) (v :: rest))
      (.leave (.pushSome vs) (.rest (v :: rest))) d
  | continues {op v rest} (hroom : (∃ vs, op = .pushSome vs) → d.queue.length < capacity) :
      Goes capacity d (.more op (v :: rest)) (.insert op v rest) d
  | inserts {op v rest} : Goes capacity d (.insert op v rest)
      (.inserted op rest) { d with queue := d.queue ++ [v] }
  | takes {op v queue} (hqueue : d.queue = v :: queue) :
      Goes capacity d (.take op) (.taken op v) { d with queue := queue }
  | underflows {op} (hqueue : d.queue = []) : Goes capacity d (.take op) .undefined d

theorem enter_goes (op : Op V) : Goes capacity d (.enter op) (op.enter d).1 (op.enter d).2 := by
  have hclosed : ¬ d.opened = true → d.opened = false := fun h => (Bool.not_eq_true _).mp h
  cases op with
  | open_ => exact .opens
  | close => exact .closes
  | push v | tryPushFor v | tryPushUntil v =>
    simp only [Op.enter]
    split
    · exact .begins (by simp [Op.waits])
    · exact .rejects (hclosed ‹_›) (.inl rfl) (by simp)
  | tryPush v =>
    simp only [Op.enter]
    split
    · exact .tests (.inl ⟨v, rfl, ‹_›⟩)
    · exact .rejects (hclosed ‹_›) (.inl rfl) (by simp)
  | pushSome vs =>
    simp only [Op.enter]
    split
    · exact .iterates ‹_› (.inl rfl)
    · exact .rejects (hclosed ‹_›) (.inr ⟨vs, rfl, rfl⟩) (by simp)
  | pushAll vs =>
    simp only [Op.enter]
    split
    · exact .iterates ‹_› (.inr rfl)
    · exact .rejects (hclosed ‹_›) (.inl rfl) (by simp)
  | pop | tryPopFor | tryPopUntil => exact .begins (by simp [Op.waits])
  | tryPop => exact .tests (.inr rfl)

theorem recheck_goes (op : Op V) (ret : CvStatus) :
    Goes capacity d (.recheck op ret) (op.recheck d ret) d := by
  unfold Op.recheck
  simp only
  split
  · rename_i v helement
    split
    · rename_i hgo
      refine .gives ?_ ?_
      · rintro rfl
        cases helement
      · rintro ⟨v', rfl⟩
        rw [Bool.not_eq_true'] at hgo
        exact hgo.resolve_right fun htimed => Bool.false_ne_true htimed.1
    · rename_i hgo
      rw [not_or, Bool.not_eq_true', Bool.not_eq_false] at hgo
      exact .pushes helement hgo.1
  · rename_i helement
    split
    · rename_i hgo
      refine .gives ?_ ?_
      · rintro rfl
        exact hgo.resolve_right fun htimed => Bool.false_ne_true htimed.1
      · rintro ⟨v, rfl⟩
        cases helement
    · rename_i hgo
      exact .pops helement (not_or.mp hgo).1

theorem test_goes (op : Op V) : Goes capacity d (.test op) (op.test capacity d) d := by
  unfold Op.test
  split
  · split
    · exact .refuses
    · exact .testPushes (by omega)
  · rename_i hop
    split
    · exact .refuses
    · exact .testPops hop ‹_›

theorem more_goes (op : Op V) (rest : List V) :
    Goes capacity d (.more op rest) (op.more capacity d rest) d := by
  unfold Op.more
  cases rest with
  | nil =>
    refine .ends ?_
    split
    · exact .inr ⟨_, rfl, rfl⟩
    · exact .inl rfl
  | cons v rest =>
    cases op with
    | pushSome vs =>
      simp only
      split
      · exact .continues fun _ => ‹_›
      · exact .stops
    | _ => exact .continues fun ⟨_, heq⟩ => (by cases heq)

theorem go_goes (h : p.go capacity d = some (q, d')) : Goes capacity d p q d' := by
  cases p with
  | enter op =>
    obtain ⟨rfl, rfl⟩ := Prod.mk.inj (Option.some.inj h)
    exact enter_goes op
  | loop op ret =>
    obtain ⟨rfl, rfl⟩ := Prod.mk.inj (Option.some.inj h)
    split
    · exact .blocks ‹_›
    · exact .passes ((Bool.not_eq_true _).mp ‹_›)
  | recheck op ret =>
    obtain ⟨rfl, rfl⟩ := Prod.mk.inj (Option.some.inj h)
    exact recheck_goes op ret
  | test op =>
    obtain ⟨rfl, rfl⟩ := Prod.mk.inj (Option.some.inj h)
    exact test_goes op
  | more op rest =>
    obtain ⟨rfl, rfl⟩ := Prod.mk.inj (Option.some.inj h)
    exact more_goes op rest
  | insert op v rest =>
    cases h
    exact .inserts
  | take op =>
    rcases hqueue : d.queue with _ | ⟨v, queue⟩ <;> simp only [Pos.go, hqueue] at h <;> cases h
    · exact .underflows hqueue
    · exact .takes hqueue
  | _ => cases h

theorem act_begin {t : τ} {op : Op V} (h : (client capacity).act t p d (.begin op) = some (q, d')) :
    p = .idle ∧ q = .lock op ∧ d' = d := by
  cases p with
  | idle =>
    cases h
    exact ⟨rfl, rfl, rfl⟩
  | _ => cases h

theorem act_go {t : τ} (h : (client capacity).act t p d .go = some (q, d')) :
    Goes capacity d p q d' := by
  cases p <;> exact go_goes h

/-! ### The mutex -/

/-- The thread owns `the_mutex_`. -/
def Pos.holds : Pos V → Bool
  | .idle | .lock _ | .failed => false
  | _ => true

def held (p : Pos V) (_ : Unit) : Prop := p.holds = true

theorem Goes.holds (h : Goes capacity d p q d') : p.holds = true ∧ q.holds = true := by
  cases h <;> exact ⟨rfl, rfl⟩

theorem call_wait {op : Op V} {call : Call Unit Cv} (h : (Pos.wait op).call = some call) :
    ∃ c timed, op.waits = some (c, timed) ∧ call = Machine.WaitCall.call ⟨c, (), timed⟩ := by
  obtain ⟨⟨c, timed⟩, hwaits, rfl⟩ := Option.map_eq_some_iff.mp h
  exact ⟨c, timed, hwaits, rfl⟩

theorem wait_of_call {w : WaitCall Unit Cv} (h : p.call = some (Machine.WaitCall.call w)) :
    ∃ op, p = .wait op ∧ op.waits = some (w.cond, w.timed) := by
  obtain ⟨c, m, timed⟩ := w
  cases p with
  | wait op =>
    obtain ⟨c', timed', hwaits, heq⟩ := call_wait h
    refine ⟨op, rfl, ?_⟩
    cases timed <;> cases timed' <;> cases heq <;> exact hwaits
  | lock op | inserted op rest | taken op v | closing c' | leave op r => cases timed <;> cases h
  | _ => cases h

theorem holds_of_call {call : Call Unit Cv} (h : p.call = some call) :
    p.holds = true ∨ ∃ op, p = .lock op ∧ call = .lock () := by
  cases p with
  | lock op =>
    cases h
    exact .inr ⟨op, rfl, rfl⟩
  | wait op | inserted op rest | taken op v | closing c | leave op r => exact .inl rfl
  | _ => cases h

theorem leave_of_unlock (h : p.call = some (.unlock ())) : ∃ op r, p = .leave op r := by
  cases p with
  | leave op r => exact ⟨op, r, rfl⟩
  | wait op =>
    obtain ⟨c, timed, -, heq⟩ := call_wait h
    cases timed <;> cases heq
  | _ => cases h

theorem lock_of_call (h : p.call = some (.lock ())) : ∃ op, p = .lock op := by
  cases p with
  | lock op => exact ⟨op, rfl⟩
  | wait op =>
    obtain ⟨c, timed, -, heq⟩ := call_wait h
    cases timed <;> cases heq
  | _ => cases h

theorem holds_of_ret {call : Call Unit Cv} {r : Ret} (h : p.call = some call)
    (hret : ∀ e, r ≠ .threw e) (hunlock : call ≠ .unlock ()) : (p.ret r).holds = true := by
  cases p with
  | lock op | taken op v | wait op => cases r <;> first | rfl | exact absurd rfl (hret _)
  | inserted op rest => cases r <;> first | exact absurd rfl (hret _) | (cases op <;> rfl)
  | closing c => cases r <;> first | exact absurd rfl (hret _) | (cases c <;> rfl)
  | leave op r => exact absurd (Option.some.inj h).symm hunlock
  | _ => cases h

theorem ret_threw (e : ErrorCode) : p.ret (.threw e) = .failed := by
  cases p <;> rfl

theorem keeps_scope : Scoped (client (τ := τ) (V := V) capacity) Pos.holds where
  act := by
    intro t a x o b y hact
    cases o with
    | begin op =>
      obtain ⟨rfl, rfl, -⟩ := act_begin hact
      rfl
    | go =>
      have hgoes := act_go hact
      rw [hgoes.holds.1, hgoes.holds.2]
  lock := by
    intro a hcall
    obtain ⟨op, rfl⟩ := lock_of_call hcall
    rfl
  inside := fun hcall hlock => (holds_of_call hcall).resolve_right fun ⟨_, _, heq⟩ => hlock heq
  ret := holds_of_ret
  unlock := by
    intro a hcall
    obtain ⟨op, r, rfl⟩ := leave_of_unlock hcall
    rfl
  threw := by
    intro a e
    exact congrArg Pos.holds (ret_threw (p := a) e)

theorem safe : Safe (client (τ := τ) (V := V) capacity) held := keeps_scope.safe

/-! ### What is found out under the mutex -/

/-- What the statements before the position have found out. -/
def Pos.knows (capacity : Nat) : Pos V → Data V → Prop
  | .loop op _, _ => op.waits ≠ none
  | .wait op, d => op.blocked capacity d = true
  | .recheck op _, d => op.waits ≠ none ∧ op.blocked capacity d = false
  | .test op, d => (∃ v, op = .tryPush v ∧ d.opened = true) ∨ op = .tryPop
  | .more op rest, d => d.opened = true ∧
      ((∃ vs, op = .pushSome vs ∧ rest.length ≤ vs.length) ∨ ∃ vs, op = .pushAll vs)
  | .insert op _ rest, d => d.opened = true ∧
      ((∀ vs, op ≠ .pushAll vs) → d.queue.length < capacity) ∧
      ∀ vs, op = .pushSome vs → rest.length < vs.length
  | .inserted op rest, d => d.opened = true ∧ ∀ vs, op = .pushSome vs → rest.length < vs.length
  | .take _, d => d.queue ≠ []
  | .closing _, d => d.opened = false
  | .leave op r, d => op = .pop → r = .bool false → d.queue = [] ∧ d.opened = false
  | .undefined, _ => False
  | _, _ => True

theorem blocked_push {op : Op V} {v : V} (h : op.element = some v) :
    op.blocked capacity d = decide (d.queue.length ≥ capacity ∧ d.opened = true) := by
  cases op <;> first | rfl | cases h

theorem blocked_pop {op : Op V} (h : op.element = none) (hwaits : op.waits ≠ none) :
    op.blocked capacity d = decide (d.queue = [] ∧ d.opened = true) := by
  cases op <;> first | exact absurd rfl hwaits | rfl | cases h

theorem Goes.knows (h : Goes capacity d p q d') (hknows : p.knows capacity d) :
    q.knows capacity d' := by
  cases h with
  | opens => exact fun hop => (by cases hop)
  | closes => rfl
  | rejects _ _ hop => exact fun heq => absurd heq hop
  | begins hwaits => exact hwaits
  | tests hop => exact hop
  | iterates hopened hop =>
    refine ⟨hopened, ?_⟩
    rcases hop with rfl | rfl
    · exact .inl ⟨_, rfl, Nat.le_refl _⟩
    · exact .inr ⟨_, rfl⟩
  | blocks hblocked => exact hblocked
  | passes hfree => exact ⟨hknows, hfree⟩
  | gives hpop _ =>
    rintro rfl -
    obtain ⟨hwaits, hfree⟩ := hknows
    rw [blocked_pop rfl hwaits, decide_eq_false_iff_not, not_and] at hfree
    exact ⟨hpop rfl, (Bool.not_eq_true _).mp (hfree (hpop rfl))⟩
  | pushes helement hopened =>
    obtain ⟨-, hfree⟩ := hknows
    rw [blocked_push helement, decide_eq_false_iff_not, not_and] at hfree
    refine ⟨hopened, fun _ => ?_, ?_⟩
    · by_contra hfull
      exact hfree (by omega) hopened
    · rintro vs rfl
      cases helement
  | pops _ hqueue | testPops _ hqueue => exact hqueue
  | refuses =>
    rintro rfl
    rcases hknows with ⟨v, hop, -⟩ | hop <;> cases hop
  | testPushes hroom =>
    rcases hknows with ⟨v, -, hopened⟩ | hop
    · exact ⟨hopened, fun _ => hroom, fun vs heq => by cases heq⟩
    · cases hop
  | ends hr =>
    rintro rfl hfalse
    rcases hr with rfl | ⟨vs, hop, -⟩
    · cases hfalse
    · cases hop
  | stops => exact fun hop => (by cases hop)
  | continues hroom =>
    obtain ⟨hopened, hop⟩ := hknows
    refine ⟨hopened, fun hnot => ?_, ?_⟩
    · rcases hop with ⟨vs, heq, -⟩ | ⟨vs, heq⟩
      · exact hroom ⟨vs, heq⟩
      · exact absurd heq (hnot vs)
    · rintro vs rfl
      rcases hop with ⟨vs', heq, hle⟩ | ⟨vs', heq⟩ <;> cases heq
      exact hle
  | inserts => exact ⟨hknows.1, hknows.2.2⟩
  | takes => exact trivial
  | underflows hqueue => exact hknows hqueue

/-- What the calls other than the waits give back to a position that holds the mutex. -/
theorem done_of_ret {call : Call Unit Cv} {r : Ret} (hcall : p.call = some call)
    (hgives : call.Gives r)
    (hheld : held (p.ret r) ()) (hwait : ∀ op, p ≠ .wait op) : r = .done := by
  cases r with
  | done => rfl
  | threw e =>
    rw [held, ret_threw] at hheld
    cases hheld
  | bool b | status ret =>
    cases p with
    | wait op => exact absurd rfl (hwait op)
    | lock op | inserted op rest | taken op v | closing c | leave op r =>
      cases hcall
      exact False.elim hgives
    | _ => cases hcall

theorem afterInsert_knows {op : Op V} {rest : List V}
    (h : (Pos.inserted op rest).knows capacity d) :
    (op.afterInsert rest).knows capacity d := by
  obtain ⟨hopened, hrest⟩ := h
  cases op with
  | pushSome vs => exact ⟨hopened, .inl ⟨vs, rfl, Nat.le_of_lt (hrest vs rfl)⟩⟩
  | pushAll vs => exact ⟨hopened, .inr ⟨vs, rfl⟩⟩
  | _ => exact fun _ hfalse => (by cases hfalse)

theorem guarded : Guarded (client (τ := τ) (V := V) capacity) held () id (Pos.knows capacity) where
  toSafe := safe
  known := by
    intro t a x o b y hact hb hknows
    cases o with
    | begin op =>
      obtain ⟨-, rfl, -⟩ := act_begin hact
      cases hb
    | go => exact (act_go hact).knows hknows
  frame := by
    intro t a x o b y hact ha
    cases o with
    | begin op => exact (act_begin hact).2.2
    | go => exact absurd (act_go hact).holds.1 ha
  kept := by
    intro a call r v hcall hgives hheld hm hknows
    have hdone := done_of_ret hcall hgives hheld ?_
    · subst hdone
      cases a with
      | inserted op rest => exact afterInsert_knows hknows
      | taken op x => exact fun _ hfalse => (by cases hfalse)
      | closing c =>
        cases c with
        | full => exact hknows
        | empty => exact fun hop => (by cases hop)
      | lock op | leave op r =>
        cases hcall
        exact absurd rfl hm
      | wait op =>
        obtain ⟨c, timed, -, rfl⟩ := call_wait hcall
        exact absurd (Machine.WaitCall.mutex? _) hm
      | _ => cases hcall
    · rintro op rfl
      obtain ⟨c, timed, -, rfl⟩ := call_wait hcall
      exact hm (Machine.WaitCall.mutex? _)
  fresh := by
    intro a call r v hcall hgives hheld hm
    cases a with
    | wait op =>
      obtain ⟨c, timed, hwaits, rfl⟩ := call_wait hcall
      have hsome : op.waits ≠ none := by
        rw [hwaits]
        exact Option.some_ne_none _
      cases r with
      | threw e => cases hheld
      | _ => exact hsome
    | lock op =>
      obtain rfl := done_of_ret (p := .lock op) hcall hgives hheld fun _ => nofun
      trivial
    | leave op r =>
      obtain rfl := done_of_ret (p := .leave op r) hcall hgives hheld fun _ => nofun
      cases hheld
    | inserted op rest | taken op x | closing c =>
      cases hcall
      cases hm
    | _ => cases hcall

end Queue

end GreenThread
