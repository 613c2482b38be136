import GreenThread.Machine.Discipline

/-!
# Threads that can go no further

When no step is left but those of the client, a thread inside a primitive is in the pause of a wait,
with nothing in flight that would end it. A thread in the pause of a `lock` would have to wait for
an owner, and the owner of the mutex of a safe client is a thread that can go on.
-/

namespace GreenThread

namespace Machine

variable {τ κ α σ ω : Type} [DecidableEq τ] [DecidableEq κ]

/-- No step is left but those of the client. -/
def Quiet {μ : Type} [DecidableEq μ] (C : Client τ μ κ α σ ω) (green : τ → Bool)
    (s : State τ μ κ α σ) : Prop :=
  ∀ l, (∀ t o, l ≠ .act t o) → step C green s l = none

variable {C : Client τ Unit κ α σ ω} {green : τ → Bool} {s : State τ Unit κ α σ} {t : τ}

namespace Quiet

theorem no_call (h : Quiet C green s) (hg : green t = true) {a : α} (hpc : s.pc t = .user a) :
    C.call a = none := by
  have hnone := h (.call t false) fun _ _ => nofun
  cases hcall : C.call a with
  | none => rfl
  | some call =>
    simp only [step, hpc, hcall, Option.bind_some] at hnone
    cases call <;> simp [callStep, hg] at hnone

theorem posted (h : Quiet C green s) (t : τ) : s.posted t = 0 := by
  have hnone := h (.deliver t) fun _ _ => nofun
  by_contra hne
  simp [step, hne] at hnone

theorem pending (h : Quiet C green s) {p : PC Unit κ α} (hp : switchReturn C s t = some p) :
    s.pending t = 0 := by
  have hnone := h (.wake t) fun _ _ => nofun
  rw [State.pending, h.posted t, Nat.zero_add]
  by_contra hne
  simp [step, wakeStep, hne, hp] at hnone

theorem no_proceed (h : Quiet C green s) (t : τ) : proceedStep C s t false = none :=
  h (.proceed t false) fun _ _ => nofun

end Quiet

/-- Where a thread is left: in the client, in a wait, or in the queue of the mutex. -/
inductive Rests (C : Client τ Unit κ α σ ω) (s : State τ Unit κ α σ) (t : τ) : Prop
  | user {a} (hpc : s.pc t = .user a) (hcall : C.call a = none)
  | pausing {w a} (hpc : s.pc t = .pausing w a) (hpending : s.pending t = 0)
  | queued (hmem : t ∈ (s.mutex ()).suspended)

theorem Inv.rests (hinv : Inv green s) (hgreen : ∀ t, green t = true) (hquiet : Quiet C green s)
    (t : τ) : Rests C s t := by
  have hthread := hinv.thread t
  have hproceed := hquiet.no_proceed t
  have hcontends : ∀ p, switchReturn C s t = some p → (s.view t).Contends () →
    t ∈ (s.mutex ()).suspended := by
    rintro p hp ⟨-, ⟨hqueued, -⟩ | ⟨-, -, hpending⟩⟩
    · exact hqueued
    · cases (hquiet.pending hp).symm.trans hpending
  cases hpc : s.pc t with
  | user a => exact .user hpc (hquiet.no_call (hgreen t) hpc)
  | locking m a =>
    simp only [View.Ok, State.view, hpc] at hthread
    exact .queued (hcontends _ (by rw [switchReturn, hpc]) hthread.1)
  | relockPause w a =>
    simp only [View.Ok, State.view, hpc] at hthread
    exact .queued (hcontends _ (by rw [switchReturn, hpc]) hthread.1)
  | yielding a =>
    simp only [View.Ok, State.view, hpc] at hthread
    cases (hquiet.pending (by rw [switchReturn, hpc])).symm.trans hthread.2.2
  | unlockYield w a =>
    simp only [View.Ok, State.view, hpc] at hthread
    exact absurd (hquiet.pending (by rw [switchReturn, hpc])) (Nat.ne_of_gt hthread.2.2.1)
  | pausing w a => exact .pausing hpc (hquiet.pending (by rw [switchReturn, hpc]))
  | unlocking w a | relocking w a =>
    rw [proceedStep, hpc] at hproceed
    simp only at hproceed
    split at hproceed <;> cases hproceed
  | terminated =>
    simp only [View.Ok, State.view, hpc] at hthread

/-- In a quiet state of a safe client whose threads hold nothing in their own code, no thread waits
for the mutex. -/
theorem at_rest {held : α → Unit → Prop} (hsafe : Safe C held) {start : τ → α} {data : σ}
    (hstart : ∀ t m, ¬ held (start t) m) {ok : State τ Unit κ α σ → Label τ ω → Prop}
    (hr : (system C green start data).Reach ok s) (hgreen : ∀ t, green t = true)
    (hquiet : Quiet C green s)
    (hfree : ∀ t a, s.pc t = .user a → C.call a = none → ¬ held a ()) (t : τ) :
    (∃ a, s.pc t = .user a ∧ C.call a = none) ∨ ∃ w a, s.pc t = .pausing w a ∧ s.pending t = 0 := by
  have hinv := reach_inv hr
  have hmutex := hinv.mutex ()
  cases hinv.rests hgreen hquiet t with
  | user hpc hcall => exact .inl ⟨_, hpc, hcall⟩
  | pausing hpc hpending => exact .inr ⟨_, _, hpc, hpending⟩
  | queued hmem =>
    -- the mutex has an owner, and the owner is nowhere
    exfalso
    obtain ⟨u, hown⟩ : ∃ u, (s.mutex ()).owner = some u := by
      cases howner : (s.mutex ()).owner with
      | none =>
        rw [hmutex.free howner] at hmem
        cases hmem
      | some u => exact ⟨u, rfl⟩
    have hmay := reach_mayOwn hsafe hstart hr hown
    cases hinv.rests hgreen hquiet u with
    | user hpc hcall =>
      rw [hpc] at hmay
      exact hfree u _ hpc hcall hmay
    | @pausing w a hpc hpending =>
      have hthread := hinv.thread u
      simp only [View.Ok, State.view, hpc] at hthread
      exact hthread.2.1 hown
    | queued hmem' => exact hmutex.owner_out u hown hmem'

end Machine

end GreenThread
