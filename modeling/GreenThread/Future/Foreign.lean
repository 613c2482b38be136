import GreenThread.Future.Continuations
import GreenThread.Future.Wakes
import Mathlib.Data.Fintype.Basic

/-!
# Futures completed from a native thread

One native thread calls `set_value` and `set_exception`, and green threads wait and add waiters. The
lock does nothing for the native thread, so that its steps fall anywhere between those of the
others: between a getter's read of `ready_` and its wait, and between the read of `ready_` in
`add_external_waiter` and its push. What the setter does in these two gaps is lost. In the runs that
keep it out of them nothing is lost.
-/

namespace GreenThread

namespace Future

variable {V E π τ : Type} [DecidableEq π] [DecidableEq τ]

/-- The native thread `f` sets, the others wait and add waiters. -/
def foreignSetter (f : τ) : τ → Op V E π → Bool
  | _, .construct _ | _, .finish => true
  | t, .set _ _ => t = f
  | t, .addWaiter _ | t, .get _ _ => t ≠ f
  | _, _ => false

abbrev foreign (f : τ) : TransitionSystem (State V E π τ × History) (Label V E π τ) :=
  watched (foreignSetter f) fun t => decide (t ≠ f)

/-- When the setter of a ready state has gone through its waiters, no getter of it is blocked
without a resume in flight, and no function registered with it has not been called. -/
def Released (f : τ) (s : State V E π τ) (h : History) : Prop :=
  ∀ k, (s.shared.state k).ready = true → (∀ d, (k, d) ∉ (pos s f).loops) →
    (∀ t w a, s.pc t = .pausing w a → w.cond = k → s.pending t ≠ 0) ∧
      ∀ w ∈ (s.shared.state k).extWaiters, 0 < h.calls w

/-- The setter does not read the bounds of `ext_waiters_` while a thread that has read `ready_` as
false is about to push. -/
def missesNoWaiter (s : State V E π τ) (l : Label V E π τ) : Prop :=
  ∀ t o k c, l = .act t o → pos s t = .op (.setBounds k) c →
    ∀ u w c', pos s u = .op (.addPush w) c' → w.state ≠ k

/-! ### Two kinds of threads -/

def Frame.sets : Frame V E → Bool
  | .setLock _ _ | .setCheck _ _ | .setStore _ _ | .setReady _ _ | .setNotify _ | .setBounds _
  | .setLoop _ _ _
  | .setUnlock _ _ _ | .setRun _ _ _ | .setRelock _ _ _ | .setEnd _ _ | .dropLock _
  | .dropCheck _ => true
  | _ => false

/-- All continuations under way are run by setters, or all by `add_external_waiter`. -/
def Code.RunBy (setter : Bool) : Code → Prop
  | .main => True
  | .continuation _ (.loop _ _ _) below => setter = true ∧ below.RunBy setter
  | .continuation _ .add below => setter = false ∧ below.RunBy setter

def Pos.RunBy (setter : Bool) : Pos V E → Prop
  | .code c => c.RunBy setter
  | .op f c => f.sets = setter ∧ c.RunBy setter
  | .failed => True

variable {f : τ} {t : τ} {s s' : Store V E π} {p p' : Pos V E} {o : Op V E π}

theorem LibStep.runBy (h : LibStep s p o p' s')
    (hmay : ∀ c, p = .code c → foreignSetter f t o = true)
    (hp : p.RunBy (decide (t = f))) : p'.RunBy (decide (t = f)) := by
  cases h with
  | @start c o p' s' hstart =>
    have hmay := hmay c rfl
    cases o with
    | finish =>
      obtain ⟨p, hfinish, heq⟩ := Option.map_eq_some_iff.mp hstart
      cases heq
      cases c with
      | main => cases hfinish
      | continuation w caller below =>
        cases caller with
        | loop k i n =>
          cases hfinish
          exact ⟨hp.1.symm, hp.2⟩
        | add =>
          cases hfinish
          exact ⟨hp.1.symm, hp.2⟩
    | construct q =>
      simp only [Future.start] at hstart
      split at hstart <;> cases hstart
      exact hp
    | set | addWaiter | get =>
      simp only [Future.start, Option.ite_none_right_eq_some, Option.some.injEq,
        Prod.mk.injEq] at hstart
      obtain ⟨-, rfl, -⟩ := hstart
      simp only [foreignSetter, decide_eq_true_eq] at hmay
      exact ⟨by simp [Frame.sets, hmay], hp⟩
    | _ => cases hmay
  | @go f' c p' s' hgo =>
    obtain ⟨hf, hc⟩ := hp
    cases f' with
    | setCheck | setLoop | dropCheck | addCheck | getCheck =>
      cases hgo
      refine ⟨?_, hc⟩
      rw [← hf]
      split <;> first | rfl | (split <;> rfl)
    | setStore | setReady | setBounds | addPush =>
      cases hgo
      exact ⟨hf, hc⟩
    | setRun k i n =>
      obtain ⟨w, -, heq⟩ := Option.map_eq_some_iff.mp hgo
      cases heq
      exact ⟨hf.symm, hc⟩
    | addRun w =>
      cases hgo
      exact ⟨hf.symm, hc⟩
    | getRead k =>
      obtain ⟨x, -, heq⟩ := Option.map_eq_some_iff.mp hgo
      cases heq
      exact ⟨hf, hc⟩
    | _ => cases hgo
  | @ret f' c o call hcall =>
    obtain ⟨hf, hc⟩ := hp
    cases f' <;> cases hcall <;> first | exact ⟨hf, hc⟩ | exact hc

theorem Code.loops_of_runBy {c : Code} (hc : c.RunBy false) : c.loops = [] := by
  induction c with
  | main => rfl
  | continuation w caller below ih =>
    cases caller with
    | loop k i n => cases hc.1
    | add => exact ih hc.2

theorem Pos.loops_of_runBy (hp : p.RunBy false) : p.loops = [] := by
  cases p with
  | code c => exact Code.loops_of_runBy hp
  | failed => rfl
  | op f c =>
    rw [Pos.loops, Code.loops_of_runBy hp.2, List.append_nil]
    cases f <;> first | rfl | cases hp.1

omit [DecidableEq π] in
theorem Event.of_adder (hevent : Event s p p' s') (hp : p.RunBy false) :
    (∀ k, (s'.state k).ready = (s.state k).ready) ∧
      ∀ k, (s'.state k).extWaiters = (s.state k).extWaiters ∨
        ∃ w c, p = .op (.addPush w) c ∧ w.state = k ∧
          (s'.state k).extWaiters = (s.state k).extWaiters ++ [w] := by
  cases hevent with
  | ready | run | ended => cases hp.1
  | runNow | register | registered => exact ⟨fun _ => rfl, fun _ => .inl rfl⟩
  | quiet _ _ _ _ hstate => exact ⟨fun k => (hstate k).1, fun k => .inl (hstate k).2⟩
  | push w c =>
    refine ⟨fun k => ?_, fun k => ?_⟩
    · by_cases hk : k = w.state
      · subst hk
        simp [Store.setState]
      · simp [Store.setState, hk]
    · by_cases hk : k = w.state
      · subst hk
        exact .inr ⟨w, c, rfl, rfl, by simp [Store.setState]⟩
      · exact .inl (by simp [Store.setState, hk])

omit [DecidableEq π] in
/-- The setter leaves the waiters alone. -/
theorem Event.of_setter (hevent : Event s p p' s') (hp : p.RunBy true) (k : Nat) :
    (s'.state k).extWaiters = (s.state k).extWaiters := by
  cases hevent with
  | push => cases hp.1
  | run | runNow | ended | register | registered => rfl
  | quiet _ _ _ _ hstate => exact (hstate k).2
  | ready k' x c =>
    by_cases hk : k = k'
    · subst hk
      simp [Store.setState]
    · simp [Store.setState, hk]

theorem LibStep.to_push {w : Waiter} {c : Code} (h : LibStep s p o p' s')
    (hp' : p' = .op (.addPush w) c) :
    (s.state w.state).ready = false := by
  cases h with
  | start hstart =>
    rw [hp'] at hstart
    exact absurd rfl (start_holds (k := w.state) hstart)
  | @ret f c' o call hcall => cases f <;> cases hp'
  | @go f c' p' s' hgo =>
    cases f with
    | addCheck w' =>
      cases hgo
      simp only [Pos.op.injEq] at hp'
      split at hp'
      · cases hp'.1
      · rename_i hready
        cases hp'.1
        exact (Bool.not_eq_true _).mp hready
    | setCheck | setLoop | dropCheck | getCheck =>
      cases hgo
      simp only [Pos.op.injEq] at hp'
      split at hp' <;> first | cases hp'.1 | (split at hp' <;> cases hp'.1)
    | setRun | getRead =>
      obtain ⟨x, -, heq⟩ := Option.map_eq_some_iff.mp hgo
      cases heq
      cases hp'
    | _ => cases hgo <;> cases hp'

/-! ### The invariant -/

/-- The setter is between the write of `ready_` and the read of the bounds of `ext_waiters_`. -/
def Pos.turning (p : Pos V E) (k : Nat) :
    Prop := ∃ c, p = .op (.setNotify k) c ∨ p = .op (.setBounds k) c

theorem Pos.loops_of_turning {k : Nat} (hp : p.turning k) : (k, 0) ∈ p.loops := by
  obtain ⟨c, rfl | rfl⟩ := hp <;> exact List.mem_cons_self

theorem Pos.not_turning {k : Nat} (hnodup : p.keys.Nodup) (hp : p.iterates k) : ¬ p.turning k := by
  rintro ⟨c, rfl | rfl⟩ <;> obtain ⟨d, hd⟩ := hp <;>
    rw [Pos.keys, Pos.loops, Frame.loop, List.singleton_append, List.map_cons,
      List.nodup_cons] at hnodup <;>
    exact hnodup.1 (List.mem_map.mpr ⟨_, hd, rfl⟩)

omit [DecidableEq π] in
theorem Event.turning {k : Nat} (hevent : Event s p p' s') (hbefore : (s.state k).ready = false)
    (hafter : (s'.state k).ready = true) : p'.turning k := by
  cases hevent with
  | ready k' x c =>
    by_cases hk : k = k'
    · exact ⟨c, .inl (by rw [hk])⟩
    · simp [Store.setState, hk, hbefore] at hafter
  | push w c => by_cases hk : k = w.state <;> simp_all [Store.setState]
  | run | runNow | ended | register | registered => simp_all
  | quiet _ _ _ _ hstate => simp_all

/-- A setter stops turning a state when it reads the bounds. -/
theorem LibStep.turning {k : Nat} (h : LibStep s p o p' s') (hp : p.turning k)
    (hp' : ¬ p'.turning k) :
    ∃ c, p = .op (.setBounds k) c := by
  obtain ⟨c, rfl | rfl⟩ := hp
  · cases h with
    | go hgo => cases hgo
    | ret hcall => exact absurd ⟨c, .inr rfl⟩ hp'
  · exact ⟨c, rfl⟩

structure Overseen (f : τ) (pos : τ → Pos V E) (s : Store V E π) (h : History) : Prop where
  known : (pos f).Known s h.calls
  nodup : (pos f).keys.Nodup
  runBy : ∀ t, (pos t).RunBy (decide (t = f))
  /-- from the read of the bounds on nobody pushes -/
  bounded : ∀ {k}, (s.state k).ready = true → ¬ (pos f).turning k →
    ∀ {t w c}, pos t = .op (.addPush w) c → w.state ≠ k
  called : ∀ {k j w}, (s.state k).extWaiters[j]? = some w → Passed pos s k j → 0 < h.calls w

section

variable {pos : τ → Pos V E} {h : History}

section

omit [DecidableEq π]

theorem Overseen.adder (hov : Overseen f pos s h) (ht : t ≠ f) : (pos t).RunBy false := by
  have hrun := hov.runBy t
  rwa [decide_eq_false ht] at hrun

theorem Overseen.setter (hov : Overseen f pos s h) : (pos f).RunBy true := by
  have hrun := hov.runBy f
  rwa [decide_eq_true rfl] at hrun

theorem Overseen.step_known (hov : Overseen f pos s h) (hevent : Event s (pos t) p' s') :
    (Function.update pos t p' f).Known s' (h.record (pos t) p').calls := by
  by_cases ht : t = f
  · subst ht
    rw [Function.update_self]
    exact hevent.known hov.known
  · rw [Function.update_of_ne (Ne.symm ht)]
    obtain ⟨hready, hext⟩ := hevent.of_adder (hov.adder ht)
    refine hov.known.kept (fun k hk => (hready k).trans hk) (fun k w hw => ?_) (h.le_record _ _)
      (fun k hk => ?_)
      (fun k _ hk => (hready k).trans hk)
    · rcases hext k with heq | ⟨w', c, -, -, heq⟩ <;> rw [heq]
      · exact hw
      · exact List.mem_append_left _ hw
    · rcases hext k with heq | ⟨w, c, hpos, hw, -⟩
      · exact heq
      · obtain ⟨d, hd⟩ := Pos.loops_of_iterates hk
        exact absurd hw (hov.bounded (hov.known.ready hd) (Pos.not_turning hov.nodup hk) hpos)

theorem Overseen.step_called (hov : Overseen f pos s h) (hevent : Event s (pos t) p' s')
    (hadder : t ≠ f → p'.RunBy false) {k j : Nat} {w : Waiter}
    (hget : (s'.state k).extWaiters[j]? = some w)
    (hpassed : Passed (Function.update pos t p') s' k j) : 0 < (h.record (pos t) p').calls w := by
  by_cases ht : t = f
  · subst ht
    rw [hevent.of_setter hov.setter] at hget
    by_cases hw : calledBy (pos t) p' = some w
    · rw [h.record_calls_self hw]
      exact Nat.succ_pos _
    · rw [h.record_calls_ne hw]
      exact hov.called hget ((hevent.passed hov.known hget hw).mp hpassed)
  · obtain ⟨hready, hext⟩ := hevent.of_adder (hov.adder ht)
    have hbefore : Passed pos s k j := by
      rw [passed_iff s t, Pos.loops_of_runBy (hov.adder ht), ← hready k]
      rw [passed_update, Pos.loops_of_runBy (hadder ht)] at hpassed
      exact hpassed
    have hold : (s.state k).extWaiters[j]? = some w →
      0 < (h.record (pos t) p').calls w := fun hget =>
      Nat.lt_of_lt_of_le (hov.called hget hbefore) (h.le_record _ _ w)
    rcases hext k with heq | ⟨w', c, hpos, rfl, heq⟩
    · exact hold (heq ▸ hget)
    · have hturning : (pos f).turning w'.state := by
        by_contra hnot
        exact hov.bounded hbefore.1 hnot hpos rfl
      exact absurd (hbefore.2 f 0 (Pos.loops_of_turning hturning)) (Nat.not_lt_zero j)

end

theorem Overseen.step (hov : Overseen f pos s h) (hlib : LibStep s (pos t) o p' s')
    (hmay : ∀ c, pos t = .code c → foreignSetter f t o = true)
    (hok : ∀ k c, pos t = .op (.setBounds k) c → ∀ u w c', pos u = .op (.addPush w) c' →
      w.state ≠ k) :
    Overseen f (Function.update pos t p') s' (h.record (pos t) p') := by
  have hevent := hlib.event
  have hrun := hlib.runBy hmay (hov.runBy t)
  refine ⟨hov.step_known hevent, ?_, fun u => ?_, ?_, hov.step_called hevent fun ht => ?_⟩
  · by_cases ht : t = f
    · subst ht
      rw [Function.update_self]
      exact hevent.nodup hov.known hov.nodup
    · rw [Function.update_of_ne (Ne.symm ht)]
      exact hov.nodup
  · by_cases hu : u = t
    · rwa [hu, Function.update_self]
    · rw [Function.update_of_ne hu]
      exact hov.runBy u
  · intro k hready' hturning' u w c hu hw
    subst hw
    have hready : (s.state w.state).ready = true := by
      by_contra hnot
      by_cases ht : t = f
      · rw [← ht, Function.update_self] at hturning'
        exact hturning' (hevent.turning ((Bool.not_eq_true _).mp hnot) hready')
      · rw [← (hevent.of_adder (hov.adder ht)).1] at hnot
        exact hnot hready'
    have hold : pos u = .op (.addPush w) c := by
      by_cases hut : u = t
      · rw [hut, Function.update_self] at hu
        exact Bool.noConfusion (hready.symm.trans (hlib.to_push hu))
      · rwa [Function.update_of_ne hut] at hu
    by_cases hturning : (pos f).turning w.state
    · by_cases ht : t = f
      · subst ht
        rw [Function.update_self] at hturning'
        obtain ⟨c', hbounds⟩ := hlib.turning hturning hturning'
        exact hok _ c' hbounds u w c hold rfl
      · rw [Function.update_of_ne (Ne.symm ht)] at hturning'
        exact hturning' hturning
    · exact hov.bounded hready hturning hold rfl
  · rwa [decide_eq_false ht] at hrun

end

/-! ### Runs -/

omit [DecidableEq π] in
theorem overseen_init (f : τ) :
    Overseen f (fun _ => .code .main : τ → Pos V E) (Store.empty (π := π))
    ⟨fun _ => 0, fun _ => false⟩ where
  known := trivial
  nodup := List.nodup_nil
  runBy := fun _ => trivial
  bounded := fun hready => by cases hready
  called := fun hget => by cases hget

/-- The setter keeps out of both gaps. -/
def missesNothing (sh : State V E π τ × History) (l : Label V E π τ) : Prop :=
  missesNobody sh.1 l ∧ missesNoWaiter sh.1 l

theorem reach_overseen {f : τ} {sh : State V E π τ × History}
    (hr : (foreign f).Reach missesNothing sh) :
    Overseen f (pos sh.1) sh.1.shared sh.2 ∧ Roused sh.1 := by
  refine hr.invariant (I := fun sh => Overseen f (pos sh.1) sh.1.shared sh.2 ∧ Roused sh.1)
    (fun sh hinit => ?_)
    (fun sh l sh' hr hov hok hstep => ?_)
  · obtain ⟨s, h⟩ := sh
    obtain ⟨rfl, rfl⟩ := hinit
    exact ⟨overseen_init f, roused_init⟩
  · obtain ⟨s, h⟩ := sh
    obtain ⟨s', hs', rfl⟩ := TransitionSystem.withHistory_step.mp hstep
    have hreach := hr.forget
    refine ⟨?_, hov.2.step (Machine.step_move (Machine.reach_inv hreach) hs')
      (Machine.reach_called hreach) hok.1⟩
    rcases reach_libStep hreach hs' with ⟨hpos, hshared⟩ | ⟨o, p', hlib, hpos, hlabel, hmay⟩
    · simp only [hpos, hshared, History.record_self]
      exact hov.1
    · simp only [hpos, Function.update_self]
      exact hov.1.step hlib hmay fun k c hc => hok.2 _ o k c (hlabel (by rw [hc]; rfl)) hc

/-- In a run in which the setter keeps out of the two gaps, it releases every getter and calls every
waiter. -/
theorem foreign_setter_releases {f : τ} {sh : State V E π τ × History}
    (hr : (foreign f).Reach missesNothing sh) :
    Released f sh.1 sh.2 := by
  obtain ⟨hov, hroused⟩ := reach_overseen hr
  have hreach := hr.forget
  intro k hready hover
  have hnone : ∀ u, ¬ AboutToNotify (sh.1.pc u) k := by
    rintro u ⟨c, hpc⟩
    have hpos : pos sh.1 u = .op (.setNotify k) c := by rw [pos, hpc]; rfl
    have hrun := hov.runBy u
    by_cases hu : u = f
    · subst hu
      exact hover 0 (by rw [hpos]; exact List.mem_cons_self)
    · rw [hpos, decide_eq_false hu] at hrun
      cases hrun.1
  refine ⟨fun t w a hpc hw => ?_, fun w hw => ?_⟩
  · subst hw
    exact hroused.resumed (Machine.reach_inv hreach) (Machine.reach_called hreach) hpc hready hnone
  · obtain ⟨j, hj⟩ := List.mem_iff_getElem?.mp hw
    refine hov.called hj ⟨hready, fun t d hd => ?_⟩
    by_cases ht : t = f
    · subst ht
      exact absurd hd (hover d)
    · rw [Pos.loops_of_runBy (hov.adder ht)] at hd
      cases hd

/-- The thread is in one of the gaps. -/
def inGap (s : State V E π τ) (t : τ) : Bool :=
  match s.pc t, pos s t with
  | .user (.op (.getWait _ _) _), _ | _, .op (.addPush _) _ => true
  | _, _ => false

/-- A check of one step that is enough for `missesNothing`: the setter notifies and reads the bounds
while nobody is in a gap. -/
def gapFree [Fintype τ] (sh : State V E π τ × History) (l : Label V E π τ) : Bool :=
  match pos sh.1 l.thread with
  | .op (.setNotify _) _ | .op (.setBounds _) _ => ∀ u, inGap sh.1 u = false
  | _ => true

omit [DecidableEq π] [DecidableEq τ] in
theorem missesNothing_of_gapFree [Fintype τ] {sh : State V E π τ × History} {l : Label V E π τ}
    (hfree : gapFree sh l = true) : missesNothing sh l := by
  refine ⟨?_, ?_⟩
  · rintro t switch k rfl ⟨c, hpc⟩ u ⟨read, c', hwait⟩
    have hpos : pos sh.1 t = .op (.setNotify k) c := by rw [pos, hpc]; rfl
    simp only [gapFree, Machine.Label.thread, hpos, decide_eq_true_eq] at hfree
    simpa [inGap, hwait] using hfree u
  · rintro t o k c rfl hpos u w c' hpush rfl
    simp only [gapFree, Machine.Label.thread, hpos, decide_eq_true_eq] at hfree
    have hgap := hfree u
    unfold inGap at hgap
    split at hgap
    · cases hgap
    · cases hgap
    · rename_i hnot
      exact hnot w c' hpush

/-- Thread 1 is queued before thread 0 notifies, and is resumed. -/
theorem foreign_setter_releases_waiting : ∃ sh : State Unit Unit Unit (Fin 2) × History,
    pos sh.1 0 = .code .main ∧ sh.1.pc 1 = .pausing ⟨0, 0, false⟩ (.op (.getWait 0 true) .main) ∧
      sh.1.pending 1 ≠ 0 := by
  let labels : List (Label Unit Unit Unit (Fin 2)) :=
    [.act 1 (.construct ()), .act 1 (.get 0 true), .call 1 false, .act 1 .go, .call 1 false,
      .proceed 1 false, .act 0 (.set 0 (.value ())), .call 0 false, .act 0 .go, .act 0 .go,
      .act 0 .go, .call 0 false, .act 0 .go, .act 0 .go, .call 0 false]
  have hreach := (foreign (0 : Fin 2)).reach_of_run (fun sh l => gapFree sh l)
    (Machine.initial (fun _ => .code .main) (.empty : Store Unit Unit Unit),
      ⟨fun _ => 0, fun _ => false⟩)
    ⟨rfl, rfl⟩ labels rfl
  exact ⟨_, rfl, rfl,
    (foreign_setter_releases (hreach.mono fun _ _ => missesNothing_of_gapFree) 0 rfl
    fun d => List.not_mem_nil).1 1 _ _ rfl rfl⟩

attribute [local instance] Machine.neZero_two

/-- The steps of a lost wake-up: thread 1 reads `ready_` as false, and thread 0 sets and notifies
before it queues. -/
def missedGetter : List (Label Unit Unit Unit (Fin 2)) :=
  [.act 1 (.construct ()), .act 1 (.get 0 true), .call 1 false, .act 1 .go,
    .act 0 (.set 0 (.value ())), .call 0 false, .act 0 .go, .act 0 .go, .act 0 .go, .call 0 false,
    .act 0 .go, .act 0 .go, .call 0 false, .call 1 false, .proceed 1 false]

/-- A getter can be missed: after these steps the setter has returned and thread 1 is blocked with
nothing in flight. -/
theorem getter_missed : ¬ ∀ sh : State Unit Unit Unit (Fin 2) × History, (foreign 0).Reachable sh →
    pos sh.1 0 = .code .main → Released 0 sh.1 sh.2 := by
  intro hall
  have hreach := ((foreign (0 : Fin 2)).reach_of_run (fun _ _ => true)
    (Machine.initial (fun _ => .code .main) (.empty : Store Unit Unit Unit),
      ⟨fun _ => 0, fun _ => false⟩)
    ⟨rfl, rfl⟩ missedGetter rfl).reachable
  exact (hall _ hreach rfl 0 rfl fun d => List.not_mem_nil).1 1 _ _ rfl rfl rfl

end Future

end GreenThread
