import GreenThread.Machine.Progress
import GreenThread.Queue.Waiters

/-!
# The operations of the queue as one step each

Seen from outside the mutex, a `push`, a `pop` and a `close` do what they do at one statement:
`the_queue_.push`, the `std::swap`, the write of `opened_` or the last test of a call that fails.
Before that statement the call has changed nothing, and after it its result is settled. When no step
is left, a call that has not returned waits for what is not there.
-/

namespace GreenThread

namespace Queue

variable {V τ : Type} [DecidableEq τ]

/-- How far a thread is in an operation. -/
inductive Phase (V : Type)
  | outside
  /-- the operation has changed nothing -/
  | before (op : Op V)
  /-- the operation has done what it does -/
  | after (op : Op V) (r : Result V)
  /-- after `front()` of an empty queue, or a primitive threw -/
  | broken
  deriving DecidableEq, Repr

def Pos.phase : Pos V → Phase V
  | .idle => .outside
  | .lock op | .enter op | .loop op _ | .wait op | .recheck op _ | .test op | .more op _
  | .insert op _ _ | .take op => .before op
  | .inserted op _ => .after op (.bool true)
  | .taken op v => .after op (.popped v)
  | .closing _ => .after .close .done
  | .leave op r => .after op r
  | .undefined | .failed => .broken

def phase (s : State V τ) (t : τ) : Phase V := (Machine.place s t).elim .broken Pos.phase

/-- The operations considered here. -/
def Op.plain : Op V → Prop
  | .push _ | .pop | .close => True
  | _ => False

/-- The step begins no other operation. -/
def plain (_ : State V τ) (l : Label V τ) : Prop := ∀ t op, l = .act t (.begin op) → op.plain

/-- What a step of a thread in an operation does, seen from outside the mutex. -/
inductive Effect (capacity : Nat) (d : Data V) : Phase V → Phase V → Data V → Prop
  | pushes {v} (hopened : d.opened = true) (hroom : d.queue.length < capacity) :
      Effect capacity d (.before (.push v))
      (.after (.push v) (.bool true)) { d with queue := d.queue ++ [v] }
  | refuses {v} (hclosed : d.opened = false) :
      Effect capacity d (.before (.push v)) (.after (.push v) (.bool false)) d
  | pops {v queue} (hqueue : d.queue = v :: queue) :
      Effect capacity d (.before .pop) (.after .pop (.popped v)) { d with queue := queue }
  | drained (hqueue : d.queue = []) (hclosed : d.opened = false) :
      Effect capacity d (.before .pop) (.after .pop (.bool false)) d
  | closes : Effect capacity d (.before .close) (.after .close .done) { d with opened := false }
  | returns {op r} : Effect capacity d (.after op r) .outside d
  | stays {p} : Effect capacity d p p d

variable {capacity : Nat} {autoOpen : Bool} {s s' : State V τ} {l : Label V τ}
    {d d' : Data V} {p q : Pos V}

theorem Op.plain.untimed {op : Op V} (h : op.plain) : op.timed = false := by
  cases op <;> first | rfl | exact h.elim

omit [DecidableEq τ] in
theorem untimed_of_plain (h : plain s l) : untimed s l := fun t op hl => (h t op hl).untimed

/-! ### One statement -/

/-- The positions that the operations considered here come to. -/
def Pos.plain : Pos V → Prop
  | .insert op v _ => op = .push v
  | .inserted op _ => ∃ v, op = .push v
  | .take op | .taken op _ => op = .pop
  | .loop op _ | .wait op | .recheck op _ => op.waits ≠ none
  | .test _ | .more _ _ | .undefined | .failed => False
  | _ => True

theorem enter_effect {op : Op V} (hop : op.plain) :
    (op.enter d).1.plain ∧ Effect capacity d (.before op) (op.enter d).1.phase (op.enter d).2 := by
  cases op with
  | push v =>
    cases hopened : d.opened with
    | true =>
      simp only [Op.enter, hopened, if_true]
      exact ⟨Option.some_ne_none _, .stays⟩
    | false =>
      simp only [Op.enter, hopened, Bool.false_eq_true, if_false]
      exact ⟨trivial, .refuses hopened⟩
  | pop => exact ⟨Option.some_ne_none _, .stays⟩
  | close => exact ⟨trivial, .closes⟩
  | _ => exact hop.elim

theorem recheck_effect {op : Op V} {ret : CvStatus} (hop : op.plain)
    (hknows : (Pos.recheck op ret).knows capacity d) :
    (op.recheck d ret).plain ∧ Effect capacity d (.before op) (op.recheck d ret).phase d := by
  obtain ⟨hwaits, hfree⟩ := hknows
  cases op with
  | push v =>
    cases hopened : d.opened with
    | true =>
      simp only [Op.recheck, Op.element, hopened]
      exact ⟨rfl, .stays⟩
    | false =>
      simp only [Op.recheck, Op.element, hopened]
      exact ⟨trivial, .refuses hopened⟩
  | pop =>
    cases hqueue : d.queue with
    | nil =>
      rw [blocked_pop rfl hwaits, decide_eq_false_iff_not, not_and] at hfree
      simp only [Op.recheck, Op.element, hqueue]
      exact ⟨trivial, .drained hqueue ((Bool.not_eq_true _).mp (hfree hqueue))⟩
    | cons v queue =>
      simp only [Op.recheck, Op.element, Op.waits, hqueue]
      exact ⟨rfl, .stays⟩
  | close => exact absurd rfl hwaits
  | _ => exact hop.elim

theorem go_effect (hgo : p.go capacity d = some (q, d')) (hop : ∀ op, p.op = some op → op.plain)
    (hplain : p.plain)
    (hknows : p.knows capacity d) : q.plain ∧ Effect capacity d p.phase q.phase d' := by
  cases p with
  | enter op =>
    obtain ⟨rfl, rfl⟩ := Prod.mk.inj (Option.some.inj hgo)
    exact enter_effect (hop op rfl)
  | loop op ret =>
    obtain ⟨rfl, rfl⟩ := Prod.mk.inj (Option.some.inj hgo)
    split
    · exact ⟨hplain, .stays⟩
    · exact ⟨hplain, .stays⟩
  | recheck op ret =>
    obtain ⟨rfl, rfl⟩ := Prod.mk.inj (Option.some.inj hgo)
    exact recheck_effect (hop op rfl) hknows
  | insert op v rest =>
    obtain rfl : op = .push v := hplain
    cases hgo
    exact ⟨⟨v, rfl⟩, .pushes hknows.1 (hknows.2.1 fun _ => nofun)⟩
  | take op =>
    obtain rfl : op = .pop := hplain
    cases go_goes hgo with
    | takes hqueue => exact ⟨rfl, .pops hqueue⟩
    | underflows hqueue => exact absurd hqueue hknows
  | test op | more op rest => exact hplain.elim
  | _ => cases hgo

theorem ret_effect {call : Call Unit Cv} {r : Ret} (hcall : p.call = some call)
    (hret : ∀ e, r ≠ .threw e) (hplain : p.plain) :
    (p.ret r).plain ∧ Effect capacity d p.phase (p.ret r).phase d := by
  cases r with
  | threw e => exact absurd rfl (hret e)
  | _ =>
    cases p with
    | lock op => exact ⟨trivial, .stays⟩
    | wait op => exact ⟨hplain, .stays⟩
    | inserted op rest =>
      obtain ⟨v, rfl⟩ := hplain
      exact ⟨trivial, .stays⟩
    | taken op v => exact ⟨trivial, .stays⟩
    | closing c => cases c <;> exact ⟨trivial, .stays⟩
    | leave op r' => exact ⟨trivial, .returns⟩
    | _ => cases hcall

/-! ### One step -/

theorem reach_plain (hr : (system capacity autoOpen).Reach plain s) {t : τ}
    (hplace : Machine.place s t = some p) : p.plain := by
  refine hr.invariant (I := fun s => ∀ t p, Machine.place s t = some p → p.plain)
    (fun s hs t p hplace => ?_)
    (fun s l s' hr hplain hok hstep t p hp => ?_) t p hplace
  · cases hs
    cases hplace
    trivial
  · have hfrom : ∀ u q, Machine.place s' = Function.update (Machine.place s) u (some q) →
      q.plain → p.plain := by
      intro u q hplace hq
      rw [hplace] at hp
      rcases Machine.place_of_update hp with ⟨-, rfl⟩ | ⟨-, hp⟩
      · exact hq
      · exact hplain t p hp
    rcases Machine.reach_place safe not_held_idle hr hstep with
      ⟨u, o, a, b, rfl, hpc, hact, hplace⟩ |
        ⟨-, -, a, call, r, ha, hcall, -, hret, -, hplace⟩ | ⟨-, -, hplace, -⟩
    · refine hfrom u b hplace ?_
      have ha := Machine.place_of_user hpc
      cases o with
      | begin op =>
        obtain ⟨-, rfl, -⟩ := act_begin hact
        trivial
      | go =>
        have hgo : a.go capacity s.shared = some (b, s'.shared) := by cases a <;> exact hact
        exact (go_effect hgo (fun op hop => reach_op (fun _ t op hok => hok t op rfl) hr ha hop)
          (hplain u a ha)
          (reach_knows hr hpc (act_go hact).holds.1)).1
    · have heffect : (a.ret r).plain ∧ Effect capacity s.shared a.phase (a.ret r).phase s.shared :=
        ret_effect hcall hret (hplain _ a ha)
      exact hfrom l.thread _ hplace heffect.1
    · rw [hplace] at hp
      exact hplain t p hp

/-- A step begins an operation or is one step of an operation, of one thread. -/
theorem reach_effect (hr : (system capacity autoOpen).Reach plain s)
    (hstep : (system capacity autoOpen).step s l = some s') :
    (∀ u, u ≠ l.thread → phase s' u = phase s u) ∧
    ((∃ op, l = .act l.thread (.begin op) ∧ phase s l.thread = .outside ∧
      phase s' l.thread = .before op ∧
      s'.shared = s.shared) ∨
    ((∀ t op, l ≠ .act t (.begin op)) ∧ Effect capacity s.shared (phase s l.thread)
      (phase s' l.thread) s'.shared)) := by
  have hphase : ∀ {s : State V τ} {t p}, Machine.place s t = some p →
    phase s t = p.phase := fun h => by
    rw [phase, h]
    rfl
  have hother : ∀ {t x}, Machine.place s' = Function.update (Machine.place s) t x → ∀ u, u ≠ t →
    phase s' u = phase s u := by
    intro t x hplace u hu
    rw [phase, phase, hplace, Function.update_of_ne hu]
  rcases Machine.reach_place safe not_held_idle hr hstep with ⟨t, o, a, b, rfl, hpc, hact, hplace⟩ |
      ⟨hl, hshared, a, call, r, ha, hcall, -, hret, -, hplace⟩ | ⟨hl, hshared, hplace, -⟩
  · have ha := Machine.place_of_user hpc
    have hb : Machine.place s' t = some b := by rw [hplace, Function.update_self]
    refine ⟨hother hplace, ?_⟩
    change (∃ op, _ ∧ phase s t = _ ∧ phase s' t = _ ∧ _) ∨
      _ ∧ Effect _ _ (phase s t) (phase s' t) _
    rw [hphase ha, hphase hb]
    cases o with
    | begin op =>
      obtain ⟨rfl, rfl, hshared⟩ := act_begin hact
      exact .inl ⟨op, rfl, rfl, rfl, hshared⟩
    | go =>
      have hgo : a.go capacity s.shared = some (b, s'.shared) := by cases a <;> exact hact
      exact .inr ⟨fun _ _ => nofun,
        (go_effect hgo (fun op hop => reach_op (fun _ t op hok => hok t op rfl) hr ha hop)
        (reach_plain hr ha) (reach_knows hr hpc (act_go hact).holds.1)).2⟩
  · refine ⟨hother hplace, .inr ⟨fun t op => hl t _, ?_⟩⟩
    rw [hphase ha, hphase (by rw [hplace, Function.update_self]), hshared]
    exact (ret_effect hcall hret (reach_plain hr ha)).2
  · refine ⟨fun u _ => by rw [phase, phase, hplace], .inr ⟨fun t op => hl t _, ?_⟩⟩
    have hsame : phase s' l.thread = phase s l.thread := by rw [phase, phase, hplace]
    rw [hsame, hshared]
    exact .stays

/-! ### When no step is left -/

/-- Nothing is left to do but to begin operations. -/
def Quiet (capacity : Nat) (s : State V τ) : Prop :=
  ∀ l, (∀ t op, l ≠ .act t (.begin op)) → Machine.step (client capacity) (fun _ => true) s l = none

/-- What a thread waits for is not there. -/
inductive Waits (capacity : Nat) (s : State V τ) (t : τ) : Prop
  | idle (hphase : phase s t = .outside)
  | pops (hphase : phase s t = .before .pop) (hqueue : s.shared.queue = [])
      (hopened : s.shared.opened = true)
  | pushes {v} (hphase : phase s t = .before (.push v)) (hfull : capacity ≤ s.shared.queue.length)
      (hopened : s.shared.opened = true)

theorem Quiet.idle (hquiet : Quiet capacity s) (hr : (system capacity autoOpen).Reach plain s)
    {t : τ} {a : Pos V} (hpc : s.pc t = .user a) (hcall : a.call = none) : a = .idle := by
  have hgo := hquiet (.act t .go) fun _ _ => nofun
  simp only [Machine.step, hpc, client, Option.map_eq_none_iff] at hgo
  have hplain := reach_plain hr (Machine.place_of_user hpc)
  cases a with
  | idle => rfl
  | enter op | loop op ret | recheck op ret | insert op v rest => cases hgo
  | take op =>
    simp only [Pos.go] at hgo
    split at hgo <;> cases hgo
  | wait op => exact absurd (Option.map_eq_none_iff.mp hcall) hplain
  | test | more | undefined | failed => exact hplain.elim
  | _ => cases hcall

theorem Quiet.at_rest (hquiet : Quiet capacity s)
    (hr : (system capacity autoOpen).Reach plain s) (t : τ) :
    s.pc t = .user .idle ∨ ∃ w a, s.pc t = .pausing w a ∧ s.pending t = 0 := by
  have hmachine : Machine.Quiet (client capacity) (fun _ => true) s :=
    fun l hl => hquiet l fun t op => hl t _
  have hidle : ∀ t a, s.pc t = .user a → (client (τ := τ) capacity).call a = none → a = .idle :=
    fun t a hpc hcall => hquiet.idle hr hpc hcall
  refine (Machine.at_rest safe not_held_idle hr (fun _ => rfl) hmachine
    (fun t a hpc hcall => ?_) t).imp_left ?_
  · rw [hidle t a hpc hcall]
    exact not_held_idle t ()
  · rintro ⟨a, hpc, hcall⟩
    rw [hpc, hidle t a hpc hcall]

theorem Quiet.user_of_outside (hquiet : Quiet capacity s)
    (hr : (system capacity autoOpen).Reach plain s) {t : τ}
    (hphase : phase s t = .outside) : s.pc t = .user .idle := by
  refine (hquiet.at_rest hr t).resolve_right ?_
  rintro ⟨w, a, hpc, -⟩
  have hcalled := Machine.reach_called hr t
  rw [hpc] at hcalled
  obtain ⟨op, rfl, -⟩ := wait_of_call hcalled
  rw [phase, Machine.place, hpc] at hphase
  cases hphase

variable [Fintype τ]

/-- When no step is left, a call that has not returned waits for what is not there. -/
theorem Quiet.waits (hquiet : Quiet capacity s) (hr : (system capacity autoOpen).Reach plain s)
    (t : τ) : Waits capacity s t := by
  have hr' : (system capacity autoOpen).Reach untimed s := hr.mono fun _ _ => untimed_of_plain
  have hasleep : ∀ {u w a}, s.pc u = .pausing w a → s.pending u = 0 → Asleep s w.cond u := by
    intro u w a hpc hpending
    obtain ⟨-, -, -, htimed⟩ := waits_of_waitOf hr' (t := u) (w := w) (by rw [hpc]; rfl)
    exact ConditionProtocol.queued_of_blocked (Machine.reach_inv hr) hpc htimed hpending
  rcases hquiet.at_rest hr t with hpc | ⟨w, a, hpc, hpending⟩
  · refine .idle ?_
    rw [phase, Machine.place, hpc]
    rfl
  · obtain ⟨op, hat, hwaits, -⟩ := waits_of_waitOf hr' (t := t) (w := w) (by rw [hpc]; rfl)
    -- a sleeper that had something to do would find another awake
    have hnot : ¬ (s.shared.opened = false ∨ 0 < supply capacity s.shared w.cond) := by
      intro hcan
      have hmidway : ∀ u, midway (s.pc u) = false := by
        intro u
        rcases hquiet.at_rest hr u with hu | ⟨w', b, hu, -⟩ <;> rw [hu] <;> rfl
      obtain ⟨u, w', hw', hcond, hawake⟩ :=
        no_waiter_stranded hr' hmidway w.cond hcan ⟨t, hasleep hpc hpending⟩
      rcases hquiet.at_rest hr u with hu | ⟨w'', b, hu, hpending'⟩
      · rw [hu] at hw'
        cases hw'
      · rw [hu] at hw'
        obtain rfl := Option.some.inj hw'
        exact hawake (hcond ▸ hasleep hu hpending')
    obtain ⟨hopened, hsupply⟩ := not_or.mp hnot
    have hopened : s.shared.opened = true := Bool.not_eq_false _ ▸ hopened
    have hphase : phase s t = .before op := by
      rw [phase, Machine.place, hat]
      rfl
    have hop : op.plain := reach_op (fun _ t op hok => hok t op rfl) hr hat rfl
    cases op with
    | push v =>
      obtain ⟨hcond, -⟩ := Prod.mk.inj (Option.some.inj hwaits)
      simp only [← hcond, supply] at hsupply
      exact .pushes hphase (by omega) hopened
    | pop =>
      obtain ⟨hcond, -⟩ := Prod.mk.inj (Option.some.inj hwaits)
      simp only [← hcond, supply, Nat.not_lt, Nat.le_zero] at hsupply
      exact .pops hphase (List.eq_nil_of_length_eq_zero hsupply) hopened
    | close => cases hwaits
    | _ => exact hop.elim

end Queue

end GreenThread
