import GreenThread.Queue.Conservation

/-!
# The capacity of the queue

Every producer but `push_all` looks at the size under the mutex after its last wait, so it pushes
into a queue that has room. `push_all` never looks: it pushes all its elements in one critical
section, and the queue stays within `capacity_` as long as each `push_all` finds room for all of
them when it begins.
-/

namespace GreenThread

namespace Queue

variable {V τ : Type} [DecidableEq τ]

/-- A `push_all` that finds the queue open finds room for all its elements. -/
def fits (capacity : Nat) (s : State V τ) (l : Label V τ) : Prop :=
  ∀ t vs, l = .act t .go → s.pc t = .user (.enter (.pushAll vs)) → s.shared.opened = true →
    s.shared.queue.length + vs.length ≤ capacity

/-- The elements that a `push_all` has still to push. -/
def Pos.ahead : Pos V → Nat
  | .more (.pushAll _) rest | .inserted (.pushAll _) rest => rest.length
  | .insert (.pushAll _) _ rest => rest.length + 1
  | _ => 0

/-- There is room for what is in the queue and for what a thread is still to push without
looking. -/
structure Room (capacity : Nat) (s : State V τ) : Prop where
  bounded : s.shared.queue.length ≤ capacity
  ahead : ∀ t p, Machine.place s t = some p → s.shared.queue.length + p.ahead ≤ capacity

variable {capacity : Nat} {autoOpen : Bool} {s s' : State V τ} {l : Label V τ}

/-! ### One statement -/

theorem ahead_ret (p : Pos V) (r : Ret) : (p.ret r).ahead ≤ p.ahead := by
  cases r with
  | threw e =>
    rw [ret_threw]
    exact Nat.zero_le _
  | _ =>
    cases p with
    | inserted op rest => cases op <;> exact Nat.le_refl _
    | closing c => cases c <;> exact Nat.le_refl _
    | wait op => cases op <;> exact Nat.le_refl _
    | _ => exact Nat.zero_le _

omit [DecidableEq τ] in
/-- Only the thread at a `push_all` has elements ahead, and it keeps the mutex. -/
theorem keeps_of_ahead {pc : PC Unit Cv (Pos V)} {p : Pos V} (hat : pc.at = some p)
    (hahead : p.ahead ≠ 0) :
    pc.Keeps (client (τ := τ) capacity) held () p := by
  refine ⟨hat, ?_, .inr fun call hcall => ?_⟩
  · cases p <;> first | rfl | exact absurd rfl hahead
  · cases p with
    | inserted op rest =>
      cases hcall
      exact nofun
    | more | insert => cases hcall
    | _ => exact absurd rfl hahead

theorem Goes.room {d d' : Data V} {p q : Pos V} (hgoes : Goes capacity d p q d')
    (hknows : p.knows capacity d) (hfits : ∀ vs, p = .enter (.pushAll vs) → d.opened = true →
      d.queue.length + vs.length ≤ capacity)
    (hbounded : d.queue.length ≤ capacity) (hahead : d.queue.length + p.ahead ≤ capacity) :
    d'.queue.length ≤ capacity ∧ d'.queue.length + q.ahead ≤ capacity := by
  cases hgoes with
  | @iterates op vs hopened hop =>
    refine ⟨hbounded, ?_⟩
    rcases hop with rfl | rfl
    · exact hbounded
    · exact hfits vs rfl hopened
  | @continues op v rest hroom =>
    refine ⟨hbounded, ?_⟩
    cases op <;> exact hahead
  | @inserts op v rest =>
    simp only [List.length_append, List.length_singleton]
    cases op with
    | pushAll vs =>
      change d.queue.length + (rest.length + 1) ≤ capacity at hahead
      change d.queue.length + 1 ≤ capacity ∧ d.queue.length + 1 + rest.length ≤ capacity
      omega
    | _ =>
      have hroom := hknows.2.1 fun vs => nofun
      exact ⟨hroom, hroom⟩
  | @takes op v queue hqueue =>
    rw [hqueue, List.length_cons] at hbounded
    exact ⟨Nat.le_of_succ_le hbounded, Nat.le_of_succ_le hbounded⟩
  | pushes helement =>
    refine ⟨hbounded, ?_⟩
    rename_i op v ret _
    cases op <;> first | exact hbounded | cases helement
  | _ => exact ⟨hbounded, hbounded⟩

/-! ### The runs -/

theorem alone_of_ahead {ok : State V τ → Label V τ → Prop}
    (hr : (system capacity autoOpen).Reach ok s) {t u : τ}
    {p q : Pos V} (hplace : Machine.place s t = some p) (hahead : p.ahead ≠ 0)
    (hpc : s.pc u = .user q) (hholds : q.holds = true) : t = u := by
  have hexpects := Machine.expects_of_keeps safe (Machine.reach_called hr t)
    (keeps_of_ahead hplace hahead)
  have hown := Machine.reach_expects safe.toDisciplined not_held_idle hr rfl hexpects
  have hown' := Machine.reach_expects safe.toDisciplined not_held_idle hr (t := u) rfl (m := ()) (by
    rw [hpc]
    exact hholds)
  exact Option.some.inj (hown.symm.trans hown')

theorem Room.step {ok : State V τ → Label V τ → Prop} (hr : (system capacity autoOpen).Reach ok s)
    (hroom : Room capacity s)
    (hfits : fits capacity s l) (hstep : (system capacity autoOpen).step s l = some s') :
    Room capacity s' := by
  rcases Machine.reach_place safe not_held_idle hr hstep with ⟨u, o, p, q, rfl, hpc, hact, hplace⟩ |
      ⟨-, hshared, p, call, r, hp, -, -, -, -, hplace⟩ | ⟨-, hshared, hplace, -⟩
  · have hup := Machine.place_of_user hpc
    have hnext : s'.shared.queue.length ≤ capacity ∧
      s'.shared.queue.length + q.ahead ≤ capacity := by
      cases o with
      | begin op =>
        obtain ⟨rfl, rfl, hshared⟩ := act_begin hact
        rw [hshared]
        exact ⟨hroom.bounded, hroom.bounded⟩
      | go =>
        have hgoes := act_go hact
        refine hgoes.room (reach_knows hr hpc hgoes.holds.1) ?_ hroom.bounded (hroom.ahead u p hup)
        rintro vs rfl hopened
        exact hfits u vs rfl hpc hopened
    refine ⟨hnext.1, fun t a hat => ?_⟩
    rw [hplace] at hat
    by_cases htu : t = u
    · rw [htu, Function.update_self] at hat
      exact Option.some.inj hat ▸ hnext.2
    · rw [Function.update_of_ne htu] at hat
      by_cases hahead : a.ahead = 0
      · rw [hahead]
        exact hnext.1
      -- an operation that begins leaves the queue, and a
      -- statement is run by the thread that has the mutex
      · cases o with
        | begin op =>
          rw [(act_begin hact).2.2]
          exact hroom.ahead t a hat
        | go => exact absurd (alone_of_ahead hr hat hahead hpc (act_go hact).holds.1) htu
  · refine ⟨hshared ▸ hroom.bounded, fun t a hat => ?_⟩
    rw [hplace] at hat
    rw [hshared]
    by_cases htl : t = l.thread
    · rw [htl, Function.update_self] at hat
      obtain rfl := Option.some.inj hat
      exact Nat.le_trans (Nat.add_le_add_left (ahead_ret p r) _) (hroom.ahead _ p hp)
    · rw [Function.update_of_ne htl] at hat
      exact hroom.ahead t a hat
  · refine ⟨hshared ▸ hroom.bounded, fun t a hat => ?_⟩
    rw [hshared]
    rw [hplace] at hat
    exact hroom.ahead t a hat

theorem reach_room (hr : (system capacity autoOpen).Reach (fits capacity) s) : Room capacity s := by
  refine hr.invariant (fun s hs => ?_) fun s l s' hr hroom hfits hstep => hroom.step hr hfits hstep
  cases hs
  refine ⟨Nat.zero_le _, fun t p hp => ?_⟩
  obtain rfl := Option.some.inj hp
  exact Nat.zero_le _

/-- The queue stays within its capacity in the runs whose `push_all` calls find room for their
elements. -/
theorem bounded_of_fits (hr : (system capacity autoOpen).Reach (fits capacity) s) :
    s.shared.queue.length ≤ capacity :=
  (reach_room hr).bounded

/-- `fits` as a test of one step, which does not look whether the queue is open. -/
def fitsAt (capacity : Nat) (s : State V τ) : Label V τ → Bool
  | .act t .go =>
    match s.pc t with
    | .user (.enter (.pushAll vs)) => s.shared.queue.length + vs.length ≤ capacity
    | _ => true
  | _ => true

omit [DecidableEq τ] in
theorem fits_of_fitsAt {l : Label V τ} (h : fitsAt capacity s l = true) : fits capacity s l := by
  intro t vs hl hpc _
  subst hl
  simp only [fitsAt, hpc] at h
  exact of_decide_eq_true h

/-- Two threads fill a queue of two elements, the second with a `push_all`. -/
theorem bounded_of_fits_two : ∃ s : State Nat (Fin 2),
    s.shared.queue.length ≤ 2 ∧ s.shared.queue = [7, 8] ∧
    s.pc 1 = .user (.more (.pushAll [8]) []) := by
  let labels : List (Label Nat (Fin 2)) :=
    [.act 0 (.begin (.tryPush 7)), .call 0 false, .act 0 .go, .act 0 .go, .act 0 .go, .call 0 false,
      .call 0 false, .act 1 (.begin (.pushAll [8])), .call 1 false, .act 1 .go, .act 1 .go,
      .act 1 .go, .call 1 false]
  have hreach := (system 2 true).reach_of_run (fitsAt 2)
    (Machine.initial (fun _ => .idle) ⟨true, []⟩) rfl labels rfl
  exact ⟨_, bounded_of_fits (hreach.mono fun _ _ => fits_of_fitsAt), rfl, rfl⟩

/-- A `push_all` of two elements into a queue of capacity one. -/
theorem push_all_overflows : ¬ ∀ s : State Nat (Fin 1), (system 1 true).Reachable s →
    s.shared.queue.length ≤ 1 := by
  intro hbounded
  let labels : List (Label Nat (Fin 1)) :=
    [.act 0 (.begin (.pushAll [7, 8])), .call 0 false, .act 0 .go, .act 0 .go, .act 0 .go,
      .call 0 false, .act 0 .go, .act 0 .go]
  have hreach := (system 1 true).reach_of_run (fun _ _ => true)
    (Machine.initial (fun _ => .idle) ⟨true, []⟩) rfl labels rfl
  exact absurd (hbounded _ hreach.reachable) (by decide)

end Queue

end GreenThread
