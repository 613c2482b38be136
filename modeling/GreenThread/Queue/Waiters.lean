import GreenThread.Condition.Queues
import GreenThread.Library.Counting
import GreenThread.Queue.Conservation

/-!
# The waiters of the queue

A consumer that sleeps in `empty_cv_` finds at least as many woken consumers as there are elements,
and a producer that sleeps in `full_cv_` as many woken producers as there is room: each push and
each pop adds one of both, a consumer that takes an element has been counted for it, and one that
goes back to sleep has found the queue empty. So a sleeper is never left alone with something to do.
Threads that barge in only take elements or room away. The timed operations are excluded here, since
a timeout can use up a notification.
-/

namespace GreenThread

namespace Queue

variable {V τ : Type} [DecidableEq τ]

/-- The operation waits with a timer. -/
def Op.timed (op : Op V) : Bool := op.waits.elim false (·.2)

/-- The step does not begin a timed operation. -/
def untimed (_ : State V τ) (l : Label V τ) :
    Prop := ∀ t op, l = .act t (.begin op) → op.timed = false

/-- `untimed`, evaluated. -/
def isUntimed : Label V τ → Bool
  | .act _ (.begin op) => !op.timed
  | _ => true

omit [DecidableEq τ] in
theorem untimed_of_isUntimed {s : State V τ} {l : Label V τ} (h : isUntimed l = true) :
    untimed s l := by
  rintro t op rfl
  exact Bool.not_eq_true' _ |>.mp h

/-- The thread is midway through a critical section of `the_mutex_`. -/
def midway : PC Unit Cv (Pos V) → Bool
  | .user p => p.holds
  | .yielding p => (p.ret .done).holds
  | _ => false

/-- The thread sleeps in the queue of the condition variable. -/
def Asleep (s : State V τ) (c : Cv) (t : τ) : Prop := (⟨t, false⟩ : SuspendedItem τ) ∈ s.cond c

/-- The thread has been woken from its wait on the condition variable, and has not re-acquired
`the_mutex_`. -/
def Woken (s : State V τ) (c : Cv) (t : τ) : Prop :=
  ∃ w, ConditionProtocol.waitOf (s.pc t) = some w ∧ w.cond = c ∧ ¬ Asleep s c t

/-- What the sleepers of a condition variable wait for: elements, or room for them. -/
def supply (capacity : Nat) (d : Data V) : Cv → Nat
  | .empty => d.queue.length
  | .full => capacity - d.queue.length

/-- Between the critical sections, when the queue is closed or there is something for the sleepers
of a condition variable, one of them has been woken and is still to look. -/
def NoStranded (capacity : Nat) (s : State V τ) : Prop :=
  (∀ t, midway (s.pc t) = false) → ∀ c, (s.shared.opened = false ∨ 0 < supply capacity s.shared c) →
    (∃ t, Asleep s c t) → ∃ t, Woken s c t

variable {capacity : Nat} {autoOpen : Bool} {s s' : State V τ} {l : Label V τ}

/-! ### Untimed runs -/

/-- The operation a position is in. -/
def Pos.op : Pos V → Option (Op V)
  | .lock op | .enter op | .loop op _ | .wait op | .recheck op _ | .test op | .more op _
  | .insert op _ _
  | .inserted op _ | .take op | .taken op _ | .leave op _ => some op
  | .closing _ => some .close
  | _ => none

theorem Goes.op {d d' : Data V} {p q : Pos V} (hgoes : Goes capacity d p q d') {op : Op V}
    (hop : q.op = some op) :
    p.op = some op := by
  cases hgoes <;> first | exact hop | cases hop

theorem op_of_ret {p : Pos V} {r : Ret} {op : Op V} (hop : (p.ret r).op = some op) :
    p.op = some op := by
  cases r with
  | threw e =>
    rw [ret_threw] at hop
    cases hop
  | _ =>
    cases p with
    | lock op' | wait op' | taken op' v => exact hop
    | inserted op' rest => cases op' <;> exact hop
    | closing c => cases c <;> exact hop
    | _ => cases hop

theorem reach_op {ok : State V τ → Label V τ → Prop} {P : Op V → Prop}
    (hbegin : ∀ s t op, ok s (.act t (.begin op)) → P op)
    (hr : (system capacity autoOpen).Reach ok s) {t : τ} {a : Pos V}
    (hat : (s.pc t).at = some a) {op : Op V} (hop : a.op = some op) : P op := by
  refine hr.invariant (I := fun s => ∀ t a, (s.pc t).at = some a → ∀ op, a.op = some op → P op)
    (fun s hs t a hat op hop => ?_) (fun s l s' hr hops hok hstep t a hat op hop => ?_)
      t a hat op hop
  · cases hs
    cases hat
    cases hop
  · rcases reach_cases hr hstep with ⟨u, op', rfl, hpcu, hpc, -⟩ |
      ⟨u, p, q, rfl, hpcu, hgoes, hpc⟩ | ⟨-, -, hother, hprogress⟩
    · by_cases htu : t = u
      · subst htu
        rw [hpc, Function.update_self] at hat
        cases hat
        cases hop
        exact hbegin s t _ hok
      · rw [hpc, Function.update_of_ne htu] at hat
        exact hops t a hat op hop
    · by_cases htu : t = u
      · subst htu
        rw [hpc, Function.update_self] at hat
        cases hat
        exact hops t p (by rw [hpcu]; rfl) op (hgoes.op hop)
      · rw [hpc, Function.update_of_ne htu] at hat
        exact hops t a hat op hop
    · by_cases htl : t = l.thread
      · subst htl
        rcases hprogress with hsame | ⟨b, call, hatb, -, ⟨hin, -⟩ | ⟨r, -, -, hpc'⟩⟩
        · rw [hsame] at hat
          exact hops _ a hat op hop
        · obtain rfl := Option.some.inj (hin.symm.trans hat)
          exact hops _ b hatb op hop
        · rw [hpc'] at hat
          cases hat
          exact hops _ b hatb op (op_of_ret hop)
      · rw [hother t htl] at hat
        exact hops t a hat op hop

theorem reach_untimed (hr : (system capacity autoOpen).Reach untimed s) {t : τ} {a : Pos V}
    (hat : (s.pc t).at = some a) {op : Op V} (hop : a.op = some op) : op.timed = false :=
  reach_op (fun _ t op hok => hok t op rfl) hr hat hop

theorem waits_of_waitOf (hr : (system capacity autoOpen).Reach untimed s) {t : τ}
    {w : WaitCall Unit Cv} (hw : ConditionProtocol.waitOf (s.pc t) = some w) :
    ∃ op, (s.pc t).at = some (.wait op) ∧ op.waits = some (w.cond, false) ∧ w.timed = false := by
  have hcalled := Machine.reach_called hr t
  have hwait : ∀ a, (s.pc t).at = some a → Pos.call a = some (Machine.WaitCall.call w) →
      ∃ op, (s.pc t).at = some (.wait op) ∧ op.waits = some (w.cond, false) ∧ w.timed = false := by
    intro a hat hcall
    obtain ⟨op, rfl, hwaits⟩ := wait_of_call hcall
    have htimed := reach_untimed hr hat rfl
    rw [Op.timed, hwaits] at htimed
    have htimed : w.timed = false := htimed
    exact ⟨op, hat, htimed ▸ hwaits, htimed⟩
  cases hpc : s.pc t with
  | unlocking w' a | unlockYield w' a | pausing w' a | relocking w' a | relockPause w' a =>
    rw [hpc] at hw hcalled hwait
    obtain rfl := Option.some.inj hw
    exact hwait a rfl hcalled
  | _ =>
    rw [hpc] at hw
    cases hw

theorem asleep_of_mem (hr : (system capacity autoOpen).Reach untimed s)
    {i : SuspendedItem τ} {c : Cv} (hi : i ∈ s.cond c) : i.t = false := by
  obtain ⟨w, hw, -, htimed⟩ := ConditionProtocol.waitOf_queued (Machine.reach_inv hr) hi
  obtain ⟨-, -, -, huntimed⟩ := waits_of_waitOf hr (ConditionProtocol.waitOf_of_awaits hw)
  exact htimed ▸ huntimed

/-! ### Credits -/

/-- The operation waits on the condition variable. -/
def Op.waitsOn (c : Cv) (op : Op V) : Prop := ∃ timed, op.waits = some (c, timed)

instance (c : Cv) (op : Op V) : Decidable (op.waitsOn c) :=
  decidable_of_iff (op.waits = some (c, false) ∨ op.waits = some (c, true)) (by
    simp only [Op.waitsOn, Bool.exists_bool])

/-- The thread is to take what the sleepers of the condition variable wait for, or to wake one of
them. -/
def Pos.credit (c : Cv) : Pos V → Nat
  | .loop op _ | .recheck op _ => if op.waitsOn c then 1 else 0
  | .insert op _ _ => if c = .full ∧ op.waitsOn c then 1 else 0
  | .take op => if c = .empty ∧ op.waitsOn c then 1 else 0
  | .inserted _ _ => if c = .empty then 1 else 0
  | .taken _ _ => if c = .full then 1 else 0
  | _ => 0

theorem supply_blocked {d : Data V} {op : Op V} {c : Cv} (hblocked : op.blocked capacity d = true)
    (hwaits : op.waitsOn c) : supply capacity d c = 0 := by
  obtain ⟨timed, hwaits⟩ := hwaits
  rw [Op.blocked, hwaits] at hblocked
  cases c with
  | full =>
    have hfull := (of_decide_eq_true hblocked).1
    exact Nat.sub_eq_zero_of_le hfull
  | empty =>
    have hempty := (of_decide_eq_true hblocked).1
    rw [supply, hempty, List.length_nil]

theorem waitsOn_pop {op : Op V} (helement : op.element = none) : ¬ op.waitsOn .full := by
  rintro ⟨timed, hwaits⟩
  cases op <;> simp [Op.element, Op.waits] at helement hwaits

theorem waitsOn_push {op : Op V} {v : V} (helement : op.element = some v) :
    ¬ op.waitsOn .empty := by
  rintro ⟨timed, hwaits⟩
  cases op <;> simp [Op.element, Op.waits] at helement hwaits

theorem supply_gives {d : Data V} {op : Op V} {c : Cv} (htimed : op.timed = false)
    (hpop : op = .pop → d.queue = [])
    (hpush : (∃ v, op = .push v) → d.opened = false) (hwaits : op.waitsOn c) :
    supply capacity d c = 0 ∨ (c = .full ∧ d.opened = false) := by
  obtain ⟨timed, hwaits⟩ := hwaits
  cases op with
  | push v =>
    cases hwaits
    exact .inr ⟨rfl, hpush ⟨v, rfl⟩⟩
  | pop =>
    cases hwaits
    exact .inl (by rw [supply, hpop rfl, List.length_nil])
  | tryPushFor v | tryPushUntil v | tryPopFor | tryPopUntil => cases htimed
  | _ => cases hwaits

/-- A statement does not take more from the supply of the sleepers than it takes from the credits,
unless it leaves none, or finds the queue closed. -/
theorem Goes.supply {d d' : Data V} {p q : Pos V} (hgoes : Goes capacity d p q d')
    (hknows : p.knows capacity d) (htimed : ∀ op, p.op = some op → op.timed = false) (c : Cv) :
    supply capacity d' c = 0 ∨ (c = .full ∧ d.opened = false ∧ ∃ op ret, p = .recheck op ret) ∨
      supply capacity d' c + p.credit c ≤ supply capacity d c + q.credit c := by
  cases hgoes with
  | opens | closes | rejects | begins | tests | iterates | refuses | testPushes | testPops | ends
  | stops | continues =>
    exact .inr (.inr (Nat.add_le_add_left (Nat.zero_le _) _))
  | @blocks op ret hblocked =>
    by_cases hwaits : op.waitsOn c
    · exact .inl (supply_blocked hblocked hwaits)
    · refine .inr (.inr (Nat.add_le_add_left ?_ _))
      simp [Pos.credit, hwaits]
  | passes => exact .inr (.inr le_rfl)
  | @gives op ret hpop hpush =>
    by_cases hwaits : op.waitsOn c
    · rcases supply_gives (htimed op rfl) hpop hpush hwaits with hnone | ⟨hc, hclosed⟩
      · exact .inl hnone
      · exact .inr (.inl ⟨hc, hclosed, op, ret, rfl⟩)
    · refine .inr (.inr (Nat.add_le_add_left ?_ _))
      simp [Pos.credit, hwaits]
  | pushes helement =>
    refine .inr (.inr (Nat.add_le_add_left ?_ _))
    cases c with
    | full => simp [Pos.credit]
    | empty => simp [Pos.credit, waitsOn_push helement]
  | pops helement =>
    refine .inr (.inr (Nat.add_le_add_left ?_ _))
    cases c with
    | full => simp [Pos.credit, waitsOn_pop helement]
    | empty => simp [Pos.credit]
  | inserts =>
    cases c with
    | full =>
      simp only [Queue.supply, Pos.credit, List.length_append, List.length_singleton]
      split <;> omega
    | empty => simp [Queue.supply, Pos.credit]
  | takes hqueue =>
    cases c with
    | full =>
      simp only [Queue.supply, Pos.credit, hqueue, List.length_cons, reduceCtorEq, false_and,
        if_false, if_true]
      omega
    | empty =>
      simp only [Queue.supply, Pos.credit, hqueue, List.length_cons]
      split <;> omega
  | underflows hqueue => exact absurd hqueue hknows

/-- The credit of a thread: a woken waiter is to take, a sleeping one is not. -/
def creditOf (s : State V τ) (c : Cv) (t : τ) : Nat :=
  match s.pc t with
  | .user p => p.credit c
  | p =>
    match ConditionProtocol.waitOf p with
    | some w => if w.cond = c ∧ (⟨t, false⟩ : SuspendedItem τ) ∉ s.cond c then 1 else 0
    | none => 0

theorem creditOf_user {t : τ} {p : Pos V} (hpc : s.pc t = .user p) (c : Cv) :
    creditOf s c t = p.credit c := by
  rw [creditOf, hpc]

theorem creditOf_inside {t : τ} {p : Pos V} (hin : (s.pc t).Inside p) (c : Cv) :
    creditOf s c t = match ConditionProtocol.waitOf (s.pc t) with
      | some w => if w.cond = c ∧ (⟨t, false⟩ : SuspendedItem τ) ∉ s.cond c then 1 else 0
      | none => 0 := by
  unfold creditOf
  split
  · rename_i q hpc
    rw [hpc] at hin
    obtain rfl := Option.some.inj hin.1
    exact absurd rfl hin.2
  · rfl

theorem creditOf_congr {t : τ} {c : Cv} (hpc : s'.pc t = s.pc t)
    (hcond : (⟨t, false⟩ : SuspendedItem τ) ∈ s'.cond c ↔
      (⟨t, false⟩ : SuspendedItem τ) ∈ s.cond c) :
    creditOf s' c t = creditOf s c t := by
  simp only [creditOf, hpc, hcond]

theorem creditOf_awaits {t : τ} {w : WaitCall Unit Cv}
    (hw : ConditionProtocol.awaits (s.pc t) = some w) :
    creditOf s w.cond t = if (⟨t, false⟩ : SuspendedItem τ) ∈ s.cond w.cond then 0 else 1 := by
  have hin : ∃ p, (s.pc t).Inside p := by
    cases hpc : s.pc t with
    | unlocking w' a | unlockYield w' a | pausing w' a => exact ⟨a, rfl, by simp⟩
    | _ =>
      rw [hpc] at hw
      cases hw
  obtain ⟨p, hin⟩ := hin
  rw [creditOf_inside hin, ConditionProtocol.waitOf_of_awaits hw]
  simp only [true_and]
  split <;> simp_all

theorem credit_le_one (p : Pos V) (c : Cv) : p.credit c ≤ 1 := by
  unfold Pos.credit
  split <;> first | omega | (split <;> omega)

theorem credit_of_call {p : Pos V} {call : Call Unit Cv} (hcall : p.call = some call) {c : Cv}
    (hnot : call ≠ .notifyOne c) : p.credit c = 0 := by
  cases p with
  | lock op | wait op | closing c | leave op r => rfl
  | inserted op rest =>
    cases hcall
    cases c with
    | full => rfl
    | empty => exact absurd rfl hnot
  | taken op v =>
    cases hcall
    cases c with
    | full => exact absurd rfl hnot
    | empty => rfl
  | _ => cases hcall

/-- A waiter that has re-acquired the mutex is still to look. -/
theorem credit_of_ret {p : Pos V} {r : Ret} {call : Call Unit Cv} {w : WaitCall Unit Cv} {c : Cv}
    (hcall : p.call = some call) (hwait : ConditionProtocol.callWait call = some w)
    (hr : ∀ e, r ≠ .threw e) (hc : w.cond = c) : (p.ret r).credit c = 1 := by
  cases p with
  | wait op =>
    obtain ⟨c', timed, hwaits, rfl⟩ := call_wait hcall
    rw [ConditionProtocol.callWait_call] at hwait
    obtain rfl := Option.some.inj hwait
    have hon : op.waitsOn c := ⟨timed, hc ▸ hwaits⟩
    cases r with
    | threw e => exact absurd rfl (hr e)
    | _ => exact if_pos hon
  | lock op | inserted op rest | taken op v | closing c' | leave op r' =>
    cases hcall
    cases hwait
  | _ => cases hcall

theorem creditOf_progress {t : τ} {c : Cv}
    (hcalled : (s.pc t).Called (client (τ := τ) (V := V) capacity))
    (hcalled' : (s'.pc t).Called (client (τ := τ) (V := V) capacity)) (hcond : s'.cond = s.cond)
    (hprogress : (s.pc t).Progress (client capacity) (fun _ => true) s.mutex t (s'.pc t))
    (hone : ∀ a, s.pc t = .user a → s'.pc t ≠ s.pc t → Pos.call a ≠ some (.notifyOne c)) :
    creditOf s c t ≤ creditOf s' c t := by
  rcases hprogress with hsame | ⟨a, call, hat, hcall, hnext⟩
  · exact (creditOf_congr hsame (by rw [hcond])).ge
  · by_cases hpc : s.pc t = .user a
    · by_cases hsame : s'.pc t = s.pc t
      · exact (creditOf_congr hsame (by rw [hcond])).ge
      · have hnot := hone a hpc hsame
        rw [creditOf_user hpc, credit_of_call hcall fun heq => hnot (heq ▸ hcall)]
        exact Nat.zero_le _
    · have hin : (s.pc t).Inside a := ⟨hat, hpc⟩
      rw [creditOf_inside hin, ConditionProtocol.waitOf_inside hin hcalled hcall]
      split
      · rename_i w hwait
        split
        · rename_i hwoken
          rcases hnext with hin' | ⟨r, -, hthrew, hpc'⟩
          · rw [creditOf_inside hin', ConditionProtocol.waitOf_inside hin' hcalled' hcall, hwait,
              hcond]
            exact (if_pos hwoken).ge
          · rw [creditOf_user hpc']
            exact (credit_of_ret hcall hwait (fun e he => hpc (hthrew e he).1) hwoken.1).ge
        · exact Nat.zero_le _
      · exact Nat.zero_le _

/-! ### The queue that is being closed -/

/-- The thread is in `close` and has still to notify the sleepers of the condition variable. -/
def Closing (c : Cv) (p : PC Unit Cv (Pos V)) : Prop :=
  p = .user (.closing c) ∨ (c = .empty ∧ p.at = some (.closing .full))

/-- Nobody sleeps on a closed queue, or there is a thread that closes it. -/
def Shut (s : State V τ) : Prop := s.shared.opened = false →
    ∀ c, s.cond c = [] ∨ ∃ t, Closing c (s.pc t)

theorem Closing.at {c : Cv} {p : PC Unit Cv (Pos V)} (h : Closing c p) :
    ∃ c', p.at = some (.closing c') := by
  rcases h with rfl | ⟨-, hat⟩
  · exact ⟨c, rfl⟩
  · exact ⟨.full, hat⟩

theorem cond_act {t : τ} {o : Act V} {ok : State V τ → Label V τ → Prop}
    (hr : (system capacity autoOpen).Reach ok s)
    (hstep : (system capacity autoOpen).step s (.act t o) = some s') : s'.cond = s.cond := by
  exact ConditionProtocol.cond_act (Machine.step_move (Machine.reach_inv hr) hstep)

theorem timer_idle (hr : (system capacity autoOpen).Reach untimed s) (t : τ) :
    s.timer t = .idle := by
  refine ConditionProtocol.timer_idle (Machine.reach_inv hr) fun w hw => ?_
  obtain ⟨-, -, -, huntimed⟩ := waits_of_waitOf hr hw
  exact huntimed

theorem opened_of_blocked {d : Data V} {op : Op V} (hblocked : op.blocked capacity d = true) :
    d.opened = true := by
  unfold Op.blocked at hblocked
  split at hblocked
  · exact (of_decide_eq_true hblocked).2
  · exact (of_decide_eq_true hblocked).2
  · cases hblocked

theorem closing_of_call {p : Pos V} {c : Cv} (hcall : p.call = some (.notifyAll c)) :
    p = .closing c := by
  cases p with
  | closing c' =>
    cases hcall
    rfl
  | wait op =>
    obtain ⟨c', timed, -, heq⟩ := call_wait hcall
    cases timed <;> cases heq
  | _ => cases hcall

theorem Goes.closing {d d' : Data V} {p q : Pos V} (hgoes : Goes capacity d p q d')
    (hclosed : d'.opened = false) :
    (∀ c, p ≠ .closing c) ∧ (d.opened = false ∨ q = .closing .full) := by
  cases hgoes with
  | opens => cases hclosed
  | closes => exact ⟨fun _ => nofun, .inr rfl⟩
  | _ => exact ⟨fun _ => nofun, .inl hclosed⟩

omit [DecidableEq τ] in
theorem Closing.progress {c : Cv} {t : τ} (hclosing : Closing c (s.pc t))
    (hprogress : (s.pc t).Progress (client capacity) (fun _ => true) s.mutex t (s'.pc t))
    (hstay : ∀ c', s.pc t = .user (.closing c') → s'.pc t = s.pc t) : Closing c (s'.pc t) := by
  rcases hclosing with hpc | ⟨rfl, hat⟩
  · rw [hstay c hpc]
    exact .inl hpc
  · rcases hprogress with hsame | ⟨a, call, hata, hcall, ⟨hin, -⟩ | ⟨r, -, hthrew, hpc'⟩⟩
    · rw [hsame]
      exact .inr ⟨rfl, hat⟩
    · obtain rfl := Option.some.inj (hat.symm.trans hata)
      exact .inr ⟨rfl, hin⟩
    · obtain rfl := Option.some.inj (hat.symm.trans hata)
      by_cases hpc : s.pc t = .user (.closing .full)
      · rw [hstay _ hpc]
        exact .inr ⟨rfl, hat⟩
      · rw [hpc']
        cases r with
        | threw e => exact absurd (hthrew e rfl).1 hpc
        | _ => exact .inl rfl

theorem Shut.step (hshut : Shut s) (hr : (system capacity autoOpen).Reach untimed s)
    (hstep : (system capacity autoOpen).step s l = some s') : Shut s' := by
  intro hclosed' c
  have hmove := Machine.step_move (Machine.reach_inv hr) hstep
  rcases reach_cases hr hstep with ⟨t, op, rfl, hpct, hpc, hshared⟩ |
    ⟨t, p, q, rfl, hpct, hgoes, hpc⟩ |
      ⟨hl, hshared, hother, hprogress⟩
  · rw [hshared] at hclosed'
    rw [cond_act hr hstep]
    refine (hshut hclosed' c).imp_right fun ⟨u, hu⟩ => ⟨u, ?_⟩
    have hut : u ≠ t := by
      rintro rfl
      obtain ⟨c', hat⟩ := hu.at
      rw [hpct] at hat
      cases hat
    rwa [hpc, Function.update_of_ne hut]
  · rw [cond_act hr hstep]
    obtain ⟨hnot, hclosed | rfl⟩ := hgoes.closing hclosed'
    · refine (hshut hclosed c).imp_right fun ⟨u, hu⟩ => ⟨u, ?_⟩
      have hut : u ≠ t := by
        rintro rfl
        obtain ⟨c', hat⟩ := hu.at
        rw [hpct] at hat
        exact hnot c' (Option.some.inj hat)
      rwa [hpc, Function.update_of_ne hut]
    · refine .inr ⟨t, ?_⟩
      rw [hpc, Function.update_self]
      cases c with
      | full => exact .inl rfl
      | empty => exact .inr ⟨rfl, rfl⟩
  · rw [hshared] at hclosed'
    -- the thread that closes is still there, unless it has just emptied the queue
    have hkeep : (s.cond c = [] → s'.cond c = []) →
        (∀ c', s.pc l.thread = .user (.closing c') → s'.pc l.thread = s.pc l.thread) →
        s'.cond c = [] ∨ ∃ t, Closing c (s'.pc t) := by
      intro hcond hstay
      refine (hshut hclosed' c).imp hcond fun ⟨u, hu⟩ => ⟨u, ?_⟩
      by_cases hul : u = l.thread
      · subst hul
        exact hu.progress hprogress hstay
      · rwa [hother u hul]
    have hbranch : ∀ {a : Pos V} {c'}, s.pc l.thread = .user a →
      s.pc l.thread = .user (.closing c') → a = .closing c' :=
      fun ha hc => PC.user.inj (ha.symm.trans hc)
    cases ConditionProtocol.queueStep hmove hl with
    | same hcond hnobody =>
      refine hkeep (fun hnil => by rw [hcond, hnil]) fun c' hpc => ?_
      by_contra hne
      exact (hnobody _ c' hpc hne).2 rfl
    | joins hpc hcall =>
      obtain ⟨op, rfl, -⟩ := wait_of_call hcall
      have hblocked : op.blocked capacity s.shared = true := reach_knows hr hpc rfl
      exact absurd (opened_of_blocked hblocked) (by simp [hclosed'])
    | @one a c' i rest hpc hcall hqueue hcond =>
      refine hkeep (fun hnil => ?_) fun c'' hpc'' => ?_
      · rw [hcond]
        by_cases hc : c = c'
        · rw [hc, hqueue] at hnil
          cases hnil
        · rw [Function.update_of_ne hc, hnil]
      · obtain rfl := hbranch hpc hpc''
        cases hcall
    | @all a c' hpc hcall hcond hpc' =>
      obtain rfl := closing_of_call hcall
      by_cases hc : c = c'
      · exact .inl (by rw [hcond, hc, Function.update_self])
      · have hsame : s'.cond c = s.cond c := by rw [hcond, Function.update_of_ne hc]
        rw [hsame]
        refine (hshut hclosed' c).imp_right fun ⟨u, hu⟩ => ⟨u, ?_⟩
        by_cases hul : u = l.thread
        · subst hul
          rw [hpc] at hu
          rcases hu with heq | ⟨rfl, hat⟩
          · cases heq
            exact absurd rfl hc
          · cases hat
            rcases hpc' with hpc' | hpc' <;> rw [hpc']
            · exact .inr ⟨rfl, rfl⟩
            · exact .inl rfl
        · rwa [hother u hul]
    | timeout htimer => exact absurd (timer_idle hr _ ▸ htimer) nofun

/-! ### The sleepers are supplied -/

section

variable [Fintype τ]

/-- A condition variable with sleepers has as many credits as there is for them to take. -/
def Supplied (capacity : Nat) (s : State V τ) : Prop :=
  ∀ c, s.cond c ≠ [] → supply capacity s.shared c ≤ ∑ t, creditOf s c t

theorem Supplied.mono {c : Cv} (hsupplied : Supplied capacity s) (hshared : s'.shared = s.shared)
    (hcond : s.cond c ≠ []) (hcredits : ∀ t, creditOf s c t ≤ creditOf s' c t) :
    supply capacity s'.shared c ≤ ∑ t, creditOf s' c t := by
  rw [hshared]
  exact (hsupplied c hcond).trans (Finset.sum_le_sum fun t _ => hcredits t)

theorem Supplied.go (hsupplied : Supplied capacity s) (hshut : Shut s)
    (hr : (system capacity autoOpen).Reach untimed s)
    {t : τ} {p q : Pos V} (hcond : s'.cond = s.cond) (hpct : s.pc t = .user p)
    (hpc : s'.pc = Function.update s.pc t (.user q))
    (hgoes : Goes capacity s.shared p q s'.shared) :
    Supplied capacity s' := by
  intro c hne
  rw [hcond] at hne
  have hchange : ∑ u, creditOf s' c u + p.credit c = ∑ u, creditOf s c u + q.credit c := by
    rw [← creditOf_user hpct c, ← creditOf_user (s := s') (by rw [hpc, Function.update_self]) c]
    refine Counting.total_change fun u hu => creditOf_congr ?_ (by rw [hcond])
    rw [hpc, Function.update_of_ne hu]
  have hknows := reach_knows hr hpct hgoes.holds.1
  have htimed : ∀ op, p.op = some op → op.timed = false :=
    fun op hop => reach_untimed hr (by rw [hpct]; rfl) hop
  rcases hgoes.supply hknows htimed c with hnone | ⟨rfl, hclosed, op, ret, rfl⟩ | hle
  · rw [hnone]
    exact Nat.zero_le _
  · rcases hshut hclosed .full with hnil | ⟨u, hu | ⟨hfalse, -⟩⟩
    · exact absurd hnil hne
    · obtain rfl := Machine.reach_exclusive safe.toDisciplined not_held_idle hr
        (m := ()) rfl rfl hpct hu rfl rfl
      cases hpct.symm.trans hu
    · cases hfalse
  · have hbefore := hsupplied c hne
    omega

/-- A notification moves a credit from the notifier to the thread that it wakes. -/
theorem creditOf_notified (hr : (system capacity autoOpen).Reach untimed s) {t : τ}
    {a : Pos V} {c : Cv}
    {i : SuspendedItem τ} {rest : List (SuspendedItem τ)} (hpct : s.pc t = .user a)
    (hcall : a.call = some (.notifyOne c))
    (hqueue : s.cond c = i :: rest) (hcond : s'.cond = Function.update s.cond c rest)
    (hother : ∀ u, u ≠ t → s'.pc u = s.pc u) : ∑ u, creditOf s c u ≤ ∑ u, creditOf s' c u := by
  have hinv := Machine.reach_inv hr
  have hi : i ∈ s.cond c := by
    rw [hqueue]
    exact List.mem_cons_self
  have hitem : (⟨i.f, false⟩ : SuspendedItem τ) = i := by rw [← asleep_of_mem hr hi]
  obtain ⟨w, hw, hc, -⟩ := ConditionProtocol.waitOf_queued hinv hi
  have hne : i.f ≠ t := by
    rintro heq
    rw [heq, hpct] at hw
    cases hw
  have hrest : s'.cond c = rest := by rw [hcond, Function.update_self]
  have hnodup := hinv.cond c
  rw [hqueue, List.nodup_cons] at hnodup
  subst hc
  have hasleep : creditOf s w.cond i.f = 0 := by rw [creditOf_awaits hw, hitem, if_pos hi]
  have hwoken : creditOf s' w.cond i.f = 1 := by
    rw [creditOf_awaits (hother i.f hne ▸ hw), hitem, hrest, if_neg hnodup.1]
  have hgives : creditOf s w.cond t ≤ 1 := by
    rw [creditOf_user hpct]
    exact credit_le_one a _
  -- the credits change at the woken thread and at the notifier
  have hthief := Counting.total_change (f := creditOf s w.cond)
    (g := Function.update (creditOf s w.cond) i.f 1) (i := i.f)
    fun u hu => Function.update_of_ne hu _ _
  have hgiver := Counting.total_change (f := Function.update (creditOf s w.cond) i.f 1)
    (g := creditOf s' w.cond) (i := t)
    fun u hu => ?_
  · rw [Function.update_self, hasleep] at hthief
    rw [Function.update_of_ne (Ne.symm hne)] at hgiver
    omega
  · by_cases huf : u = i.f
    · rw [huf, hwoken, Function.update_self]
    · rw [Function.update_of_ne huf]
      refine creditOf_congr (hother u hu) ?_
      have hnot : (⟨u, false⟩ : SuspendedItem τ) ≠ i :=
        fun heq => huf (congrArg SuspendedItem.f heq)
      rw [hrest, hqueue, List.mem_cons, or_iff_right hnot]

theorem Supplied.step (hsupplied : Supplied capacity s) (hshut : Shut s)
    (hr : (system capacity autoOpen).Reach untimed s)
    (hok : untimed s l) (hstep : (system capacity autoOpen).step s l = some s') :
    Supplied capacity s' := by
  have hmove := Machine.step_move (Machine.reach_inv hr) hstep
  rcases reach_cases hr hstep with ⟨t, op, rfl, hpct, hpc, hshared⟩ |
    ⟨t, p, q, rfl, hpct, hgoes, hpc⟩ |
      ⟨hl, hshared, hother, hprogress⟩
  · intro c hne
    rw [cond_act hr hstep] at hne
    refine hsupplied.mono hshared hne fun u => ?_
    by_cases hut : u = t
    · rw [hut, creditOf_user hpct]
      exact Nat.zero_le _
    · refine (creditOf_congr ?_ (by rw [cond_act hr hstep])).ge
      rw [hpc, Function.update_of_ne hut]
  · exact hsupplied.go hshut hr (cond_act hr hstep) hpct hpc hgoes
  · intro c hne
    have hcalled := Machine.reach_called hr l.thread
    have hcalled' := Machine.reach_called (hr.step hok hstep) l.thread
    -- a thread at a client position that keeps no credit for `c` has none to lose
    have hquiet : s'.cond c = s.cond c → (∀ a, s.pc l.thread = .user a → a.credit c = 0) →
        (∃ a, s.pc l.thread = .user a) → supply capacity s'.shared c ≤ ∑ t, creditOf s' c t := by
      rintro hcond hnone ⟨a, ha⟩
      refine hsupplied.mono hshared (hcond ▸ hne) fun u => ?_
      by_cases hul : u = l.thread
      · rw [hul, creditOf_user ha, hnone a ha]
        exact Nat.zero_le _
      · exact (creditOf_congr (hother u hul) (by rw [hcond])).ge
    cases ConditionProtocol.queueStep hmove hl with
    | same hcond hnobody =>
      rw [hcond] at hne
      refine hsupplied.mono hshared hne fun u => ?_
      by_cases hul : u = l.thread
      · subst hul
        refine creditOf_progress hcalled hcalled' hcond hprogress fun a ha hne' hcall => ?_
        exact hne ((hnobody a c ha hne').1 hcall)
      · exact (creditOf_congr (hother u hul) (by rw [hcond])).ge
    | @joins a w hpc hcall hcond =>
      obtain ⟨op, rfl, hwaits⟩ := wait_of_call hcall
      by_cases hc : c = w.cond
      · have hblocked : op.blocked capacity s.shared = true := reach_knows hr hpc rfl
        rw [hshared, supply_blocked hblocked ⟨w.timed, hc ▸ hwaits⟩]
        exact Nat.zero_le _
      · refine hquiet (by rw [hcond, Function.update_of_ne hc]) (fun a ha => ?_) ⟨_, hpc⟩
        obtain rfl := PC.user.inj (ha.symm.trans hpc)
        rfl
    | @one a c' i rest hpc hcall hqueue hcond =>
      by_cases hc : c = c'
      · subst hc
        rw [hshared]
        refine (hsupplied c ?_).trans (creditOf_notified hr hpc hcall hqueue hcond hother)
        rw [hqueue]
        exact List.cons_ne_nil _ _
      · refine hquiet (by rw [hcond, Function.update_of_ne hc]) (fun b hb => ?_) ⟨_, hpc⟩
        obtain rfl := PC.user.inj (hb.symm.trans hpc)
        refine credit_of_call hcall fun heq => hc ?_
        cases heq
        rfl
    | @all a c' hpc hcall hcond =>
      by_cases hc : c = c'
      · rw [hcond, hc, Function.update_self] at hne
        exact absurd rfl hne
      · refine hquiet (by rw [hcond, Function.update_of_ne hc]) (fun b hb => ?_) ⟨_, hpc⟩
        obtain rfl := PC.user.inj (hb.symm.trans hpc)
        exact credit_of_call hcall nofun
    | timeout htimer => exact absurd (timer_idle hr _ ▸ htimer) nofun

/-- The invariant of the sleepers holds in every untimed run. -/
theorem reach_supplied (hr : (system capacity autoOpen).Reach untimed s) :
    Shut s ∧ Supplied capacity s := by
  refine hr.invariant (I := fun s => Shut s ∧ Supplied capacity s) (fun s hs => ?_)
    (fun s l s' hr hinv hok hstep => ?_)
  · cases hs
    exact ⟨fun _ _ => .inl rfl, fun c hne => absurd rfl hne⟩
  · exact ⟨hinv.1.step hr hstep, hinv.2.step hinv.1 hr hok hstep⟩

omit [Fintype τ] in
theorem woken_of_credit {t : τ} {c : Cv} (hmid : midway (s.pc t) = false)
    (hcredit : 0 < creditOf s c t) : Woken s c t := by
  unfold creditOf at hcredit
  split at hcredit
  · rename_i p hpc
    rw [hpc] at hmid
    cases p <;> first | exact absurd hcredit (Nat.lt_irrefl 0) | cases hmid
  · rename_i p hpc
    split at hcredit
    · rename_i w hw
      split at hcredit
      · rename_i hwoken
        exact ⟨w, hw, hwoken.1, hwoken.2⟩
      · exact absurd hcredit (Nat.lt_irrefl 0)
    · exact absurd hcredit (Nat.lt_irrefl 0)

omit [DecidableEq τ] [Fintype τ] in
/-- A thread that closes the queue is midway through its critical section. -/
theorem midway_of_closing {c : Cv} {p : PC Unit Cv (Pos V)}
    (hcalled : p.Called (client (τ := τ) (V := V) capacity))
    (hclosing : Closing c p) : midway p = true := by
  obtain ⟨c', hat⟩ := hclosing.at
  cases p with
  | user a =>
    obtain rfl := Option.some.inj hat
    rfl
  | yielding a =>
    obtain rfl := Option.some.inj hat
    cases c' with
    | full => rfl
    | empty =>
      rcases hclosing with heq | ⟨-, heq⟩
      · cases heq
      · cases heq
  | locking m a =>
    obtain rfl := Option.some.inj hat
    cases hcalled
  | unlocking w a | unlockYield w a | pausing w a | relocking w a | relockPause w a =>
    obtain rfl := Option.some.inj hat
    have hcall : (Pos.closing c' : Pos V).call = some (Machine.WaitCall.call w) := hcalled
    obtain ⟨op, heq, -⟩ := wait_of_call hcall
    cases heq
  | terminated => cases hat

/-- No waiter of the queue is stranded. -/
theorem no_waiter_stranded (hr : (system capacity autoOpen).Reach untimed s) :
    NoStranded capacity s := by
  obtain ⟨hshut, hsupplied⟩ := reach_supplied hr
  rintro hquiet c hcan ⟨t, hasleep⟩
  have hne : s.cond c ≠ [] := List.ne_nil_of_mem hasleep
  rcases hcan with hclosed | hpos
  · rcases hshut hclosed c with hnil | ⟨u, hclosing⟩
    · exact absurd hnil hne
    · have hmid := hquiet u
      rw [midway_of_closing (Machine.reach_called hr u) hclosing] at hmid
      cases hmid
  · obtain ⟨u, hu⟩ := Counting.exists_pos_of_total (hpos.trans_le (hsupplied c hne))
    exact ⟨u, woken_of_credit (hquiet u) hu⟩

/-- Thread 0 has pushed while thread 1 slept in `pop`, and thread 1 is still to look. -/
theorem no_waiter_stranded_pushed :
    ∃ s : State Nat (Fin 2), NoStranded 1 s ∧ s.shared.queue = [7] ∧ Woken s .empty 1 := by
  let labels : List (Label Nat (Fin 2)) :=
    [.act 1 (.begin .pop), .call 1 false, .act 1 .go, .act 1 .go, .call 1 false, .proceed 1 false,
      .act 0 (.begin (.push 7)), .call 0 false, .act 0 .go, .act 0 .go, .act 0 .go, .act 0 .go,
      .call 0 false, .deliver 0, .wake 0, .call 0 false]
  have hreach := (system 1 true).reach_of_run (fun _ l => isUntimed l)
    (Machine.initial (fun _ => .idle) ⟨true, []⟩)
    rfl labels rfl
  exact ⟨_, no_waiter_stranded (hreach.mono fun _ _ => untimed_of_isUntimed), rfl,
    ⟨.empty, (), false⟩, rfl, rfl, List.not_mem_nil⟩

end

end Queue

end GreenThread
