import GreenThread.Condition.Protocol
import GreenThread.Future.Steps

/-!
# Waking the getters

A getter that finds `ready_` false queues on `waiters_` in a later step, and a setter notifies in a
later step than it writes `ready_`. When no notification falls between the two steps of a getter,
the queue of a ready state is empty from the notification on, and every getter that still pauses has
been resumed. The lock keeps notifications out of the gap when setter and getter are green.
-/

namespace GreenThread

namespace Future

variable {V E π τ : Type} [DecidableEq π] [DecidableEq τ]

/-- The thread has read `ready_` as false and is not queued yet. -/
def AboutToWait (p : PC Nat Nat (Pos V E)) (k : Nat) :
    Prop := ∃ read c, p = .user (.op (.getWait k read) c)

/-- The thread has written `ready_` and has not notified yet. -/
def AboutToNotify (p : PC Nat Nat (Pos V E)) (k : Nat) :
    Prop := ∃ c, p = .user (.op (.setNotify k) c)

/-- After the notification nobody is queued or about to queue. -/
def Roused (s : State V E π τ) : Prop :=
  ∀ k, (s.shared.state k).ready = true → (∀ t, ¬ AboutToNotify (s.pc t) k) →
    s.cond k = [] ∧ ∀ t, ¬ AboutToWait (s.pc t) k

/-- The step is not a notification while a thread is about to queue. -/
def missesNobody (s : State V E π τ) (l : Label V E π τ) : Prop :=
  ∀ t switch k, l = .call t switch → AboutToNotify (s.pc t) k → ∀ u, ¬ AboutToWait (s.pc u) k

variable {may : τ → Op V E π → Bool} {green : τ → Bool} {s s' : State V E π τ} {l : Label V E π τ}

theorem Frame.ret_ne_wait (f : Frame V E) (c c' : Code) (k : Nat) (read : Bool) :
    f.ret c ≠ .op (.getWait k read) c' := by
  cases f <;> simp [Frame.ret]

omit [DecidableEq τ] in
theorem ready_of_act {t : τ} {p : Pos V E} {x x' : Store V E π} {o : Op V E π} {k : Nat}
    {read : Bool} {c : Code}
    (hact : (client may).act t p x o = some (.op (.getWait k read) c, x')) :
    (x.state k).ready = false := by
  simp only [client] at hact
  split at hact
  · simp only [Option.ite_none_right_eq_some] at hact
    exact absurd rfl (start_holds hact.2)
  · rename_i f c'
    cases f with
    | getCheck k' read' =>
      simp only [Frame.go, Option.some.injEq, Prod.mk.injEq, Pos.op.injEq] at hact
      obtain ⟨⟨hframe, -⟩, -⟩ := hact
      cases hready : (x.state k').ready with
      | false =>
        rw [hready, if_neg Bool.false_ne_true] at hframe
        cases hframe
        exact hready
      | true =>
        rw [hready, if_pos rfl] at hframe
        split at hframe <;> cases hframe
    | setCheck | dropCheck | addCheck | setLoop =>
      simp only [Frame.go, Option.some.injEq, Prod.mk.injEq, Pos.op.injEq] at hact
      obtain ⟨⟨hframe, -⟩, -⟩ := hact
      split at hframe <;> cases hframe
    | setRun | getRead =>
      obtain ⟨y, -, heq⟩ := Option.map_eq_some_iff.mp hact
      cases heq
    | _ => cases hact
  · cases hact

omit [DecidableEq τ] in
theorem turn_of_act {t : τ} {p p' : Pos V E} {x x' : Store V E π} {o : Op V E π} {k : Nat}
    (hact : (client may).act t p x o = some (p', x')) (hbefore : (x.state k).ready = false)
    (hafter : (x'.state k).ready = true) : ∃ c, p' = .op (.setNotify k) c := by
  have hsame : x'.state = x.state → False := by
    intro hstate
    rw [hstate, hbefore] at hafter
    cases hafter
  simp only [client] at hact
  split at hact
  · simp only [Option.ite_none_right_eq_some] at hact
    exact absurd (start_state hact.2) hsame
  · rename_i f c
    cases f with
    | setReady k' y =>
      cases hact
      by_cases hk : k = k'
      · exact ⟨c, by rw [hk]⟩
      · simp [Store.setState, hk, hbefore] at hafter
    | setStore k' y =>
      cases hact
      by_cases hk : k = k'
      · subst hk
        cases y <;> simp [Store.setState, SharedState.store, hbefore] at hafter
      · simp [Store.setState, hk, hbefore] at hafter
    | addPush w =>
      cases hact
      by_cases hk : k = w.state <;> simp_all [Store.setState]
    | setRun | getRead =>
      obtain ⟨y, -, heq⟩ := Option.map_eq_some_iff.mp hact
      cases heq
      exact (hsame rfl).elim
    | setCheck | setBounds | setLoop | dropCheck | addCheck | addRun | getCheck =>
      cases hact
      exact (hsame rfl).elim
    | _ => cases hact
  · cases hact

/-- A thread gets about to queue by reading `ready_` as false. -/
theorem aboutToWait_of_step (hmove : Machine.Move (client may) green s l s')
    (hcalled : ∀ t, (s.pc t).Called (client (π := π) may)) {t : τ} {k : Nat}
    (hwait : AboutToWait (s'.pc t) k) :
    AboutToWait (s.pc t) k ∨ (s.shared.state k).ready = false := by
  by_cases ht : t = l.thread
  · subst ht
    obtain ⟨read, c, hpc'⟩ := hwait
    rcases hmove.effect hcalled with ⟨u, o, a, b, x, rfl, -, hact, hpc, -, -⟩ |
      ⟨-, p, hpc, hprogress, -⟩
    · rw [hpc, Machine.Label.thread, Function.update_self] at hpc'
      cases hpc'
      exact .inr (ready_of_act hact)
    · rw [hpc, Function.update_self] at hpc'
      subst hpc'
      rcases hprogress with heq | ⟨a, call, -, hcall, ⟨hat, hne⟩ | ⟨r, -, -, heq⟩⟩
      · exact .inl ⟨read, c, heq.symm⟩
      · obtain rfl := Option.some.inj hat
        exact absurd rfl hne
      · obtain ⟨f, c', rfl, -⟩ := call_of_client hcall
        have hret := PC.user.inj heq
        cases r with
        | threw e => cases hret
        | _ => exact absurd hret.symm (Frame.ret_ne_wait f c' c k read)
  · rw [hmove.pc_ne hcalled ht] at hwait
    exact .inl hwait

theorem aboutToNotify_of_step (hmove : Machine.Move (client may) green s l s')
    (hcalled : ∀ t, (s.pc t).Called (client (π := π) may)) {k : Nat}
    (hbefore : (s.shared.state k).ready = false)
    (hafter : (s'.shared.state k).ready = true) : AboutToNotify (s'.pc l.thread) k := by
  rcases hmove.effect hcalled with ⟨t, o, a, b, x, rfl, -, hact, hpc, hx, -⟩ | ⟨hshared, -⟩
  · obtain ⟨c, hc⟩ := turn_of_act hact hbefore (hx ▸ hafter)
    exact ⟨c, by rw [hpc, Machine.Label.thread, Function.update_self, hc]⟩
  · rw [hshared, hbefore] at hafter
    cases hafter

theorem notified_of_step (hmove : Machine.Move (client may) green s l s')
    (hcalled : ∀ t, (s.pc t).Called (client (π := π) may)) {t : τ} {k : Nat}
    (hnotify : AboutToNotify (s.pc t) k) (hleft : ¬ AboutToNotify (s'.pc t) k) :
    s'.cond k = [] ∧ (∃ switch, l = .call t switch) ∧ ∀ k', ¬ AboutToWait (s'.pc t) k' := by
  obtain ⟨c, hpc⟩ := hnotify
  have ht : t = l.thread := by
    by_contra hne
    exact hleft ⟨c, by rw [hmove.pc_ne hcalled hne, hpc]⟩
  subst ht
  have hstay : s'.pc l.thread = s.pc l.thread → False := fun heq => hleft ⟨c, heq.trans hpc⟩
  have hbranch : ∀ {a : Pos V E} {call : Call Nat Nat}, s.pc l.thread = .user a →
      (client (π := π) may).call a = some call → call = .notifyAll k := by
    intro a call ha hcall
    obtain rfl := PC.user.inj (ha.symm.trans hpc)
    exact (Option.some.inj hcall).symm
  have hwaits : ∀ {w : WaitCall Nat Nat}, Machine.WaitCall.call w ≠ .notifyAll k := by
    rintro ⟨k', m, timed⟩
    cases timed <;> exact nofun
  cases hmove with
  | @notifyAll t a k' switch ha hcall =>
    cases hbranch ha hcall
    obtain rfl := PC.user.inj (ha.symm.trans hpc)
    refine ⟨?_, ⟨switch, rfl⟩, fun k'' => ?_⟩
    · rw [Machine.notifyEnd_cond, (Machine.notifyAll_notified rfl).cond, Function.update_self]
    · obtain ⟨-, -, p, hpc', hp⟩ := Machine.notifyEnd_effect (client (π := π) may) green
        (Machine.notifyLoop k (s.cond k) s) t (.op (.setNotify k) c)
      rintro ⟨read, c', hwait⟩
      rw [hpc', Machine.Label.thread, Function.update_self] at hwait
      rcases hp with rfl | rfl <;> cases hwait
  | @act _ _ _ o _ ha hact =>
    obtain rfl := PC.user.inj (ha.symm.trans hpc)
    cases o <;> cases hact
  | deliver | expire | aborted | timeout => exact (hstay rfl).elim
  | wake _ hp =>
    cases Machine.switched hp with
    | locked ha | yielded ha | unlocked ha | resumed ha | relocked ha => cases ha.symm.trans hpc
  | releaseFree ha | releaseHanded ha | releaseYield ha | relockFree ha | relockQueued ha =>
    cases ha.symm.trans hpc
  | native ha hcall _ hret =>
    cases hbranch ha hcall
    cases hret
  | waitThrew ha hcall | waitQueued ha hcall => exact absurd (hbranch ha hcall) hwaits
  | lockThrew ha hcall | lockFree ha hcall | lockQueued ha hcall | tryOwned ha hcall
  | tryFree ha hcall
  | tryBusy ha hcall | unlockThrew ha hcall | unlockFree ha hcall | unlockHanded ha hcall
  | unlockYield ha hcall
  | notifyNobody ha hcall | notifyOne ha hcall => cases hbranch ha hcall

theorem Roused.step (hroused : Roused s) (hmove : Machine.Move (client may) green s l s')
    (hcalled : ∀ t, (s.pc t).Called (client (π := π) may)) (hok : missesNobody s l) :
    Roused s' := by
  intro k hready' hnone'
  have hready : (s.shared.state k).ready = true := by
    by_contra hnot
    exact hnone' _ (aboutToNotify_of_step hmove hcalled ((Bool.not_eq_true _).mp hnot) hready')
  have hwait' : ∀ t, AboutToWait (s'.pc t) k → AboutToWait (s.pc t) k := by
    intro t hwait
    rcases aboutToWait_of_step hmove hcalled hwait with hold | hnot
    · exact hold
    · exact Bool.noConfusion (hready.symm.trans hnot)
  by_cases hnone : ∀ t, ¬ AboutToNotify (s.pc t) k
  · obtain ⟨hempty, hnobody⟩ := hroused k hready hnone
    refine ⟨?_, fun t hwait => hnobody t (hwait' t hwait)⟩
    cases hreg : ConditionProtocol.registers l s' with
    | none =>
      have hsub := ConditionProtocol.cond_sublist hmove hreg k
      rw [hempty] at hsub
      exact List.sublist_nil.mp hsub
    | some u =>
      obtain ⟨a, w, hpc, hcall, rfl⟩ := ConditionProtocol.startWait_of_registers hmove hreg
      rw [ConditionProtocol.startWait_cond]
      have hne : k ≠ w.cond := by
        rintro rfl
        obtain ⟨k', m, timed⟩ := w
        obtain ⟨f, c, rfl, hf⟩ := call_of_client hcall
        cases f <;> cases timed <;> cases hf
        exact hnobody u ⟨_, c, hpc⟩
      rw [Function.update_of_ne hne, hempty]
  · obtain ⟨u, hu⟩ := not_forall_not.mp hnone
    obtain ⟨hempty, ⟨switch, hl⟩, hmine⟩ := notified_of_step hmove hcalled hu (hnone' u)
    exact ⟨hempty, fun t hwait => hok u switch k hl hu t (hwait' t hwait)⟩

omit [DecidableEq π] [DecidableEq τ] in
theorem roused_init : Roused (Machine.initial (fun _ => .code .main) .empty : State V E π τ) :=
  fun _ hready => by cases hready

/-- In a run in which no notification misses anybody, the getters are roused. -/
theorem reach_roused {ok : State V E π τ → Label V E π τ → Prop}
    (hok : ∀ s l, (system may green).Reach ok s →
    ok s l → missesNobody s l) (hr : (system may green).Reach ok s) : Roused s := by
  refine hr.invariant (I := Roused) (fun s hs => ?_) (fun s l s' hr hroused hokl hstep => ?_)
  · cases hs
    exact roused_init
  · exact hroused.step (Machine.step_move (Machine.reach_inv hr) hstep) (Machine.reach_called hr)
      (hok s l hr hokl)

theorem missesNobody_of_green {ok : State V E π τ → Label V E π τ → Prop}
    (hr : (system may fun _ => true).Reach ok s) : missesNobody s l := by
  rintro t switch k - ⟨c, hnotify⟩ u ⟨read, c', hwait⟩
  obtain rfl := Machine.reach_exclusive safe.toDisciplined main_holds hr
    (m := k) rfl rfl hnotify hwait rfl rfl
  cases hnotify.symm.trans hwait

omit [DecidableEq τ] in
theorem Roused.resumed (hroused : Roused s) (hinv : Machine.Inv green s)
    (hcalled : ∀ t, (s.pc t).Called (client (π := π) may)) {t : τ} {w : WaitCall Nat Nat}
    {a : Pos V E} (hpc : s.pc t = .pausing w a)
    (hready : (s.shared.state w.cond).ready = true) (hnone : ∀ u, ¬ AboutToNotify (s.pc u) w.cond) :
    s.pending t ≠ 0 := by
  intro hpending
  have hcall := hcalled t
  rw [hpc] at hcall
  obtain ⟨k, m, timed⟩ := w
  obtain ⟨f, c, rfl, hf⟩ := call_of_client hcall
  cases f <;> cases timed <;> cases hf
  obtain ⟨hreg, -⟩ := ConditionProtocol.registered (u := t) hinv (by rw [hpc]; rfl)
  have hyields : ConditionProtocol.ownYields (s.pc t) = 0 := by rw [hpc]; rfl
  rw [hyields, Nat.sub_zero, hpending] at hreg
  rcases hreg.waiting with hqueued | ⟨aborted, htimer⟩
  · have hqueued : (⟨t, false⟩ : SuspendedItem τ) ∈ s.cond k := hqueued
    rw [(hroused k hready hnone).1] at hqueued
    cases hqueued
  · have hidle : s.timer t = .idle := hreg.2.1
    have htimer : s.timer t = .queued k aborted := htimer
    rw [hidle] at htimer
    cases htimer

end Future

end GreenThread
