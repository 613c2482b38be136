import GreenThread.Future.Code

/-!
# The steps of the library

What a run of the library does, without the primitives below it: a thread begins an operation, takes
the next step of one, or comes back from a call of a primitive. A position is firm when what its
thread knows of a shared state rests on the lock; two green threads are never firm on one shared
state.
-/

namespace GreenThread

namespace Future

variable {V E π τ : Type} [DecidableEq π] [DecidableEq τ]

/-- Where a thread is, inside a primitive or not. -/
def pos (s : State V E π τ) (t : τ) : Pos V E := (s.pc t).at.getD .failed

/-- A step of a thread at the position `p` of the library, from one store to another. -/
inductive LibStep (s : Store V E π) : Pos V E → Op V E π → Pos V E → Store V E π → Prop
  | start {c o p' s'} : start s c o = some (p', s') → LibStep s (.code c) o p' s'
  | go {f c p' s'} : f.go s c = some (p', s') → LibStep s (.op f c) .go p' s'
  | ret {f c o call} : f.call = some call → LibStep s (.op f c) o (f.ret c) s

/-- The lock a thread relies on at a frame. -/
def Frame.firm (f : Frame V E) : Option Nat :=
  match f.call with
  | none | some (.notifyAll _) => f.holds
  | _ => none

def Pos.firm : Pos V E → Option Nat
  | .op f _ => f.firm
  | _ => none

variable {may : τ → Op V E π → Bool} {green : τ → Bool} {s s' : State V E π τ} {l : Label V E π τ}

abbrev system (may : τ → Op V E π → Bool) (green : τ → Bool) :
    TransitionSystem (State V E π τ) (Label V E π τ) :=
  Machine.system (client may) green (fun _ => .code .main) .empty

theorem start_state {x x' : Store V E π} {c : Code} {o : Op V E π} {p : Pos V E}
    (hstart : start x c o = some (p, x')) : x'.state = x.state := by
  cases o with
  | go => cases hstart
  | finish =>
    obtain ⟨p, -, heq⟩ := Option.map_eq_some_iff.mp hstart
    cases heq
    rfl
  | set | ownerDestroyed | get | addWaiter =>
    simp only [start, Option.ite_none_right_eq_some, Option.some.injEq, Prod.mk.injEq] at hstart
    obtain ⟨-, -, rfl⟩ := hstart
    rfl
  | construct | moveConstruct | swap | setPromise | destroy =>
    simp only [start] at hstart
    split at hstart <;> cases hstart <;> rfl
  | moveAssign =>
    simp only [start] at hstart
    split at hstart
    · split at hstart <;> cases hstart
      rfl
    · cases hstart
  | getFuture =>
    simp only [start] at hstart
    split at hstart
    · cases hstart
    · split at hstart <;> cases hstart <;> rfl

theorem at_pos {ok : State V E π τ → Label V E π τ → Prop}
    (hr : (system may green).Reach ok s) (t : τ) :
    (s.pc t).at = some (pos s t) := by
  have hthread := (Machine.reach_inv hr).thread t
  cases hpc : s.pc t with
  | terminated => simp only [Machine.View.Ok, Machine.State.view, hpc] at hthread
  | _ => simp [pos, hpc, PC.at]

omit [DecidableEq τ] in
theorem main_holds (t : τ) (k : Nat) :
    ¬ Pos.holds ((fun _ => .code .main : τ → Pos V E) t) k := not_false

theorem Frame.holds_of_firm {f : Frame V E} {k : Nat} (hfirm : f.firm = some k) :
    f.holds = some k := by
  unfold Frame.firm at hfirm
  split at hfirm
  · exact hfirm
  · exact hfirm
  · cases hfirm

/-- A thread that is inside a call at a firm frame is in the `yield` of `notify_all`. -/
theorem Frame.call_of_firm {f : Frame V E} {k : Nat} (hfirm : f.firm = some k) {call : Call Nat Nat}
    (hcall : f.call = some call) : ∃ c, call = .notifyAll c := by
  unfold Frame.firm at hfirm
  rw [hcall] at hfirm
  split at hfirm
  · rename_i h
    cases h
  · rename_i c h
    exact ⟨c, Option.some.inj h⟩
  · cases hfirm

theorem firm_owner {ok : State V E π τ → Label V E π τ → Prop}
    (hr : (system may green).Reach ok s) {t : τ}
    (hg : green t = true) {k : Nat} (hfirm : (pos s t).firm = some k) :
    (s.mutex k).owner = some t := by
  have hat := at_pos hr t
  have hcalled := Machine.reach_called hr t
  refine Machine.reach_expects safe.toDisciplined main_holds hr hg ?_
  generalize pos s t = p at hat hfirm
  cases p with
  | code | failed => cases hfirm
  | op f c =>
    have hwait : ∀ w : WaitCall Nat Nat, f.call ≠ some (Machine.WaitCall.call w) := by
      intro w hcall
      obtain ⟨c', heq⟩ := Frame.call_of_firm hfirm hcall
      obtain ⟨k', m, timed⟩ := w
      cases timed <;> cases heq
    cases hpc : s.pc t with
    | user a =>
      rw [hpc] at hat
      obtain rfl := Option.some.inj hat
      exact Frame.holds_of_firm hfirm
    | yielding a =>
      rw [hpc] at hat hcalled
      obtain rfl := Option.some.inj hat
      obtain ⟨call, hcall, -⟩ := hcalled
      obtain ⟨c', rfl⟩ := Frame.call_of_firm hfirm hcall
      exact (ret_holds hcall).mpr (.inr ⟨Frame.holds_of_firm hfirm, by simp⟩)
    | locking m a =>
      rw [hpc] at hat hcalled
      obtain rfl := Option.some.inj hat
      obtain ⟨c', heq⟩ := Frame.call_of_firm hfirm hcalled
      cases heq
    | unlocking w a | unlockYield w a | pausing w a | relocking w a | relockPause w a =>
      rw [hpc] at hat hcalled
      obtain rfl := Option.some.inj hat
      exact absurd hcalled (hwait w)
    | terminated =>
      rw [hpc] at hat
      cases hat

/-- Two green threads are not firm on one shared state. -/
theorem firm_unique {ok : State V E π τ → Label V E π τ → Prop}
    (hr : (system may green).Reach ok s) {t u : τ}
    (ht : green t = true) (hu : green u = true) {k : Nat} (hfirm : (pos s t).firm = some k)
    (hfirm' : (pos s u).firm = some k) : t = u :=
  Option.some.inj ((firm_owner hr ht hfirm).symm.trans (firm_owner hr hu hfirm'))

theorem reach_libStep {ok : State V E π τ → Label V E π τ → Prop}
    (hr : (system may green).Reach ok s) (hstep : (system may green).step s l = some s') :
    (pos s' = pos s ∧ s'.shared = s.shared) ∨
      ∃ o p', LibStep s.shared (pos s l.thread) o p' s'.shared ∧
      pos s' = Function.update (pos s) l.thread p' ∧
        ((client (π := π) may).call (pos s l.thread) = none → l = .act l.thread o) ∧
        ∀ c, pos s l.thread = .code c → may l.thread o = true := by
  have hinv := Machine.reach_inv hr
  have hcalled := Machine.reach_called hr
  have hupdate : ∀ {t : τ} {p : PC Nat Nat (Pos V E)} {p' : Pos V E},
      s'.pc = Function.update s.pc t p → p.at = some p' →
      pos s' = Function.update (pos s) t p' := by
    intro t p p' hpc hat
    funext u
    by_cases hu : u = t
    · subst hu
      rw [pos, hpc, Function.update_self, Function.update_self, hat, Option.getD_some]
    · rw [pos, hpc, Function.update_of_ne hu, Function.update_of_ne hu, pos]
  have hself : ∀ {t : τ}, Function.update (pos s) t (pos s t) = pos s := Function.update_eq_self _ _
  rcases (Machine.step_move hinv hstep).effect hcalled with
    ⟨t, o, a, b, x, rfl, hpca, hact, hpc, hx, -⟩ |
      ⟨hshared, p, hpc, hprogress, -⟩
  · have hpos : pos s t = a := by rw [pos, hpca]; rfl
    refine .inr ⟨o, b, ?_⟩
    rw [Machine.Label.thread, hpos, hx]
    simp only [client] at hact
    split at hact
    · simp only [Option.ite_none_right_eq_some] at hact
      exact ⟨.start hact.2, hupdate hpc rfl, fun _ => rfl, fun _ _ => hact.1⟩
    · refine ⟨.go hact, hupdate hpc rfl, fun _ => rfl, fun c hc => ?_⟩
      cases hc
    · cases hact
  · have hat := at_pos hr l.thread
    rcases hprogress with rfl | ⟨a, call, hata, hcall, hnext⟩
    · exact .inl ⟨by rw [hupdate hpc hat, hself], hshared⟩
    · obtain rfl := Option.some.inj (hat.symm.trans hata)
      rcases hnext with ⟨hin, -⟩ | ⟨r, -, hthrew, rfl⟩
      · exact .inl ⟨by rw [hupdate hpc hin, hself], hshared⟩
      · obtain ⟨f, c, hf, hcallf⟩ := call_of_client hcall
        have hret : ∀ e, r ≠ .threw e := by
          intro e he
          obtain ⟨huser, hg, hthrows⟩ := hthrew e he
          exact Machine.reach_not_throws safe main_holds hr hg huser hcall hthrows
        refine .inr ⟨.go, f.ret c, ?_, ?_, fun hnone => ?_, fun c' hc => ?_⟩
        · rw [hf, hshared]
          exact .ret hcallf
        · rw [← @client_ret _ _ _ _ _ may f c _ hret, ← hf]
          exact hupdate hpc rfl
        · rw [hcall] at hnone
          cases hnone
        · rw [hf] at hc
          cases hc

end Future

end GreenThread
