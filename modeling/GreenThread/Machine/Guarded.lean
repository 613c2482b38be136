import GreenThread.Machine.Discipline

/-!
# Data guarded by a mutex

A client may write a part of its data only at positions that hold a mutex `m`. What a thread has
found out about that part stays true while the thread holds `m`: across its own steps the client
says so, the steps of the others do not touch the part, and the calls that give `m` away are left
with nothing known.
-/

namespace GreenThread

variable {τ μ κ α σ ω ρ : Type}

/-- The mutex a call takes or gives away. -/
def Call.mutex? : Call μ κ → Option μ
  | .lock m | .tryLock m | .unlock m | .wait _ m | .waitRel _ m => some m
  | .notifyOne _ | .notifyAll _ => none

theorem Call.mutex?_of_acquires {call : Call μ κ} {r : Ret} {m : μ} (h : call.Acquires r m) :
    call.mutex? = some m := by
  unfold Call.Acquires at h
  split at h
  · exact congrArg some h.symm
  · exact congrArg some h.symm
  · exact h.elim

/-- The part `g` of the data is guarded by `m`: `knows a` holds of it at every position `a` that
holds `m`. -/
structure Guarded (C : Client τ μ κ α σ ω) (held : α → μ → Prop) (m : μ) (g : σ → ρ)
    (knows : α → ρ → Prop) : Prop
    extends Safe C held where
  known : ∀ {t a x o b y}, C.act t a x o = some (b, y) → held b m → knows a (g x) → knows b (g y)
  frame : ∀ {t a x o b y}, C.act t a x o = some (b, y) → ¬ held a m → g y = g x
  kept : ∀ {a call r v}, C.call a = some call → call.Gives r → held (C.ret a r) m →
    call.mutex? ≠ some m → knows a v →
    knows (C.ret a r) v
  fresh : ∀ {a call r v}, C.call a = some call → call.Gives r → held (C.ret a r) m →
    call.mutex? = some m →
    knows (C.ret a r) v

/-- The thread is at `a`, which holds `m`, and is in no call that takes or gives `m` away. -/
def PC.Keeps (C : Client τ μ κ α σ ω) (held : α → μ → Prop) (m : μ) (p : PC μ κ α) (a : α) : Prop :=
  p.at = some a ∧ held a m ∧ (p = .user a ∨ ∀ call, C.call a = some call → call.mutex? ≠ some m)

namespace Machine

variable [DecidableEq τ] [DecidableEq μ] [DecidableEq κ]
variable {C : Client τ μ κ α σ ω} {green : τ → Bool} {s s' : State τ μ κ α σ} {l : Label τ ω}
variable {held : α → μ → Prop} {m : μ} {g : σ → ρ} {knows : α → ρ → Prop}

omit [DecidableEq μ] [DecidableEq κ] in
theorem WaitCall.mutex? (w : WaitCall μ κ) : (WaitCall.call w).mutex? = some w.mtx := by
  obtain ⟨c, m', timed⟩ := w
  cases timed <;> rfl

omit [DecidableEq τ] [DecidableEq μ] [DecidableEq κ] in
theorem expects_of_keeps (hsafe : Safe C held) {p : PC μ κ α} {a : α} (hcalled : p.Called C)
    (hkeeps : p.Keeps C held m a) : p.Expects C held m := by
  obtain ⟨hat, hheld, hcase⟩ := hkeeps
  have hdone : ∀ e, Ret.done ≠ .threw e := fun e he => by cases he
  cases p with
  | user b =>
    obtain rfl := Option.some.inj hat
    exact hheld
  | locking m' b =>
    obtain rfl := Option.some.inj hat
    have hne := hcase.resolve_left (by simp) _ hcalled
    have hm : m ≠ m' := fun heq => hne (by rw [Call.mutex?, heq])
    exact ⟨hm, (hsafe.keepsRet hcalled (by trivial) hdone hheld).resolve_right (by simp)⟩
  | yielding b =>
    obtain rfl := Option.some.inj hat
    obtain ⟨call, hcall, hyields⟩ := hcalled
    have hne := hcase.resolve_left (by simp) _ hcall
    have hgives : call.Gives .done := by cases call <;> trivial
    refine (hsafe.keepsRet hcall hgives hdone hheld).resolve_right ?_
    rintro rfl
    exact hne rfl
  | unlocking w b | unlockYield w b | pausing w b | relocking w b | relockPause w b =>
    obtain rfl := Option.some.inj hat
    have hne := hcase.resolve_left (by simp) _ hcalled
    rw [WaitCall.mutex?] at hne
    have hm : m ≠ w.mtx := fun heq => hne (by rw [heq])
    obtain ⟨r, hgives, hret⟩ : ∃ r, (WaitCall.call w).Gives r ∧ ∀ e, r ≠ .threw e := by
      obtain ⟨c, m', timed⟩ := w
      cases timed with
      | false => exact ⟨.done, trivial, hdone⟩
      | true => exact ⟨.status .noTimeout, trivial, fun e he => by cases he⟩
    refine ⟨hm, r, hgives, (hsafe.keepsRet hcalled hgives hret hheld).resolve_right ?_⟩
    obtain ⟨c, m', timed⟩ := w
    cases timed <;> simp [WaitCall.call]
  | terminated => cases hat

/-- What a thread knows of the guarded data is true of it while the thread holds the mutex. -/
def Informed (C : Client τ μ κ α σ ω) (held : α → μ → Prop) (m : μ) (g : σ → ρ)
    (knows : α → ρ → Prop) (s : State τ μ κ α σ) : Prop :=
  ∀ t a, (s.pc t).Keeps C held m a → knows a (g s.shared)

theorem Informed.step (hinformed : Informed C held m g knows s)
    (hguarded : Guarded C held m g knows)
    (hmove : Move C green s l s') (hcalled : ∀ t, (s.pc t).Called C)
    (hown : ∀ t, (s.pc t).Expects C held m → (s.mutex m).owner = some t) :
    Informed C held m g knows s' := by
  intro t a hkeeps'
  -- a thread that keeps the mutex is the only one whose step can touch the data
  have hother : ∀ u b y o, l = .act u o → s.pc u = .user b →
    (∃ c, C.act u b s.shared o = some (c, y)) →
      u ≠ t → (s.pc t).Keeps C held m a → g y = g s.shared := by
    rintro u b y o rfl hpc ⟨c, hact⟩ hne hkeeps
    refine hguarded.frame hact fun hheld => hne ?_
    have hu := hown u (by rw [hpc]; exact hheld)
    have ht := hown t (expects_of_keeps hguarded.toSafe (hcalled t) hkeeps)
    exact Option.some.inj (hu.symm.trans ht)
  rcases hmove.effect hcalled with ⟨u, o, b, c, y, hl, hpcu, hact, hpc, hy, -⟩ |
    ⟨hshared, p, hpc, hprogress, -⟩
  · by_cases htu : t = u
    · subst htu
      rw [hpc, Function.update_self] at hkeeps'
      obtain rfl := Option.some.inj hkeeps'.1
      rw [hy]
      refine hguarded.known hact hkeeps'.2.1 (hinformed t b ?_)
      rw [hpcu]
      exact ⟨rfl, hguarded.act hact hkeeps'.2.1, .inl rfl⟩
    · rw [hpc, Function.update_of_ne htu] at hkeeps'
      rw [hy, hother u b y o hl hpcu ⟨c, hact⟩ (Ne.symm htu) hkeeps']
      exact hinformed t a hkeeps'
  · rw [hshared]
    by_cases htl : t = l.thread
    · subst htl
      rw [hpc, Function.update_self] at hkeeps'
      rcases hprogress with rfl | ⟨b, call, hat, hcall, ⟨hin, hne⟩ | ⟨r, hgives, -, rfl⟩⟩
      · exact hinformed _ _ hkeeps'
      · obtain rfl := Option.some.inj (hin.symm.trans hkeeps'.1)
        have hfree := hkeeps'.2.2.resolve_left hne
        exact hinformed _ b ⟨hat, hkeeps'.2.1, .inr hfree⟩
      · obtain rfl := Option.some.inj hkeeps'.1
        have hheld := hkeeps'.2.1
        by_cases hm : call.mutex? = some m
        · exact hguarded.fresh hcall hgives hheld hm
        · refine hguarded.kept hcall hgives hheld hm
            (hinformed _ b ⟨hat, ?_, .inr fun call' hcall' => ?_⟩)
          · exact (hguarded.ret hcall hgives hheld).resolve_right fun hacquires =>
              hm (Call.mutex?_of_acquires hacquires)
          · rw [hcall] at hcall'
            cases hcall'
            exact hm
    · rw [hpc, Function.update_of_ne htl] at hkeeps'
      exact hinformed t a hkeeps'

/-- Among green threads the guarded data is as the thread that holds the mutex knows it. -/
theorem reach_informed (hguarded : Guarded C held m g knows) {start : τ → α} {data : σ}
    (hstart : ∀ t m, ¬ held (start t) m) {ok : State τ μ κ α σ → Label τ ω → Prop}
    (h : (system C (fun _ => true) start data).Reach ok s) : Informed C held m g knows s := by
  refine h.invariant (I := Informed C held m g knows) (fun s hs t a hkeeps => ?_)
    (fun s l s' hr hinformed _ hstep => ?_)
  · cases hs
    obtain ⟨hat, hheld, -⟩ := hkeeps
    obtain rfl := Option.some.inj hat
    exact absurd hheld (hstart t m)
  · have hinv := reach_inv hr
    exact hinformed.step hguarded (step_move hinv hstep) (reach_called hr)
      fun t => reach_expects hguarded.toDisciplined hstart hr rfl

end Machine

end GreenThread
