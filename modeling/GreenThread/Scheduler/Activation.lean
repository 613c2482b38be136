import GreenThread.Scheduler.Strand
import Mathlib.Tactic.Common

/-!
# Activation accounting

Every activation of a thread is one `activate_thread` handler, and every handler that is run enters
the body once. A tally beside the run counts both, with the switches of the thread, the wake sources
it has registered and the resumes that were issued for them. The counts alone decide where a thread
can be: a handler is pending exactly for a thread that is ready and for a thread whose pause has
been matched.
-/

namespace GreenThread

namespace Scheduler

variable {τ ς δ ω : Type} [DecidableEq τ] [DecidableEq ς] [DecidableEq δ] [DecidableEq ω]

/-- What has happened to a thread. -/
structure Tally where
  /-- the `activate_thread` handlers handed to the strand of the thread, and those that were run -/
  posts : Nat
  activations : Nat
  /-- the `yield`s and the pauses that have switched, and the pauses that have returned -/
  yields : Nat
  pauses : Nat
  returns : Nat
  /-- the wake sources registered, and the resumes issued -/
  registered : Nat
  issued : Nat
  deriving DecidableEq, Repr

def Tally.zero : Tally := ⟨0, 0, 0, 0, 0, 0, 0⟩

section Record

variable (s : State τ ς ω) (l : Label τ ς ω) (s' : State τ ς ω) (u : τ)

def posted : Bool :=
  match l with
  | .makeThread t | .resume t | .activate _ t _ => t = u
  | .yield w => (s.stack w).head? = some u
  | _ => false

def issues : Bool :=
  match l with
  | .resume t | .activate _ t _ => t = u
  | _ => false

def registers : Bool :=
  match l with
  | .register t => t = u
  | _ => false

def yields : Bool :=
  match l with
  | .yield w => (s.stack w).head? = some u
  | _ => false

def pauses : Bool :=
  match l with
  | .pause w => (s.stack w).head? = some u
  | _ => false

/-- The step enters the body of the thread. -/
def entered : Bool := s.status u ≠ some .running ∧ s'.status u = some .running

def record (h : τ → Tally) : τ → Tally := fun u =>
  { posts := (h u).posts + (posted s l u).toNat
    activations := (h u).activations + (entered s s' u).toNat
    yields := (h u).yields + (yields s l u).toNat
    pauses := (h u).pauses + (pauses s l u).toNat
    returns := (h u).returns + (entered s s' u && s.status u = some .blocked).toNat
    registered := (h u).registered + (registers l u).toNat
    issued := (h u).issued + (issues l u).toNat }

attribute [local simp] posted issues registers yields pauses record

end Record

variable (P : Placement τ ς δ)

def counted : TransitionSystem (State τ ς ω × (τ → Tally)) (Label τ ς ω) :=
  (system P).withHistory (fun _ => .zero) fun h s l s' => record s l s' h

/-- The pauses of a thread are matched: a resume is issued by another party for a source that is
registered, a pause waits for one, and no thread ends before it has paused for each. -/
def matched (s : State τ ς ω) (h : τ → Tally) : Label τ ς ω → Bool
  | .resume t => (h t).issued < (h t).registered
  | .activate w t _ => (h t).issued < (h t).registered ∧ (s.stack w).head? ≠ some t
  | .pause w => ∀ t ∈ (s.stack w).head?, (h t).pauses < (h t).registered
  | .finish w => ∀ t ∈ (s.stack w).head?, (h t).pauses = (h t).registered
  | _ => true

/-- No `activate` that dispatches is for a thread whose body is entered on the same worker, and no
body switches out after a handler has been run inside it. -/
def calm (s : State τ ς ω) : Label τ ς ω → Bool
  | .activate w t _ => ¬ (dispatches P s w t ∧ t ∈ s.stack w)
  | .yield w | .pause w => s.current w = (s.stack w).head?
  | _ => true

namespace State

variable (s : State τ ς ω)

/-- The activations of `t` that are queued on its strand. -/
def pending (t : τ) : Nat := (s.queue (P.strand t)).count (.activateThread t)

end State

/-- The activations of every thread are accounted for. -/
structure Accounted (s : State τ ς ω) (h : τ → Tally) : Prop where
  /-- no body was entered while it ran or after its end, and no assertion has failed -/
  fault : s.fault = none
  /-- no body is entered twice -/
  nodup : ∀ w, (s.stack w).Nodup
  once : ∀ t w w', t ∈ s.stack w → t ∈ s.stack w' → w = w'
  running : ∀ t, s.status t = some .running ↔ ∃ w, t ∈ s.stack w
  /-- a switch returns with one more activation than there were switches -/
  within : ∀ t, s.status t = some .running → (h t).activations = (h t).yields + (h t).pauses + 1
  away : ∀ t, s.status t = some .ready ∨ s.status t = some .blocked →
    (h t).activations = (h t).yields + (h t).pauses
  /-- a pause returns once -/
  returns : ∀ t, (h t).returns + (decide (s.status t = some .blocked)).toNat = (h t).pauses
  /-- no activation is lost or made up -/
  kept : ∀ t, (h t).posts = (h t).activations + s.pending P t
  posts : ∀ t, s.status t ≠ none → (h t).posts = 1 + (h t).yields + (h t).issued
  /-- a thread that has yielded, and one whose pauses were all matched, will be entered -/
  ready : ∀ t, s.status t = some .ready → 0 < s.pending P t
  blocked : ∀ t, s.status t = some .blocked → (h t).issued = (h t).pauses → s.pending P t = 1
  stopped : ∀ t, s.status t = some .stopped → ∀ x, .activateThread t ∉ s.queue x

variable {P} {s s' : State τ ς ω} {l : Label τ ς ω} {h : τ → Tally} {t u : τ}

/-! ### The counts of a thread -/

/-- The counts of a thread with the status `p` and `n` pending activations. -/
def CountsOk (n : Nat) (c : Tally) : Option Status → Prop
  | none => n = 0 ∧ c = .zero
  | some p =>
    c.posts = c.activations + n ∧ c.posts = 1 + c.yields + c.issued ∧ c.issued ≤ c.registered ∧
      c.pauses ≤ c.registered ∧
      match p with
      | .ready => c.activations = c.yields + c.pauses ∧ c.returns = c.pauses ∧ c.pauses ≤ c.issued
      | .running => c.activations = c.yields + c.pauses + 1 ∧ c.returns = c.pauses
      | .blocked => c.activations = c.yields + c.pauses ∧ c.returns + 1 = c.pauses
      | .stopped => c.activations = c.yields + c.pauses + 1 ∧ c.returns = c.pauses ∧
          c.pauses = c.registered

def Counts (P : Placement τ ς δ) (s : State τ ς ω) (h : τ → Tally) : Prop :=
  ∀ t, CountsOk (s.pending P t) (h t) (s.status t)

section CountsOk

attribute [local simp] CountsOk

theorem CountsOk.alive {n : Nat} {c : Tally} {p : Option Status} (h : CountsOk n c p) (hn : 0 < n) :
    p ≠ none ∧ p ≠ some .stopped := by
  constructor
  · rintro rfl
    exact absurd h.1 (Nat.ne_of_gt hn)
  · rintro rfl
    simp only [CountsOk] at h
    omega

theorem CountsOk.awaited {n : Nat} {c : Tally} {p : Option Status} (h : CountsOk n c p)
    (hissued : c.issued < c.registered) :
    p ≠ none ∧ p ≠ some .stopped := by
  constructor
  · rintro rfl
    rw [h.2] at hissued
    exact absurd hissued (Nat.lt_irrefl 0)
  · rintro rfl
    simp only [CountsOk] at h
    omega

theorem CountsOk.issue {n : Nat} {c : Tally} {p : Option Status} (h : CountsOk n c p)
    (hissued : c.issued < c.registered) :
    CountsOk (n + 1) { c with posts := c.posts + 1, issued := c.issued + 1 } p := by
  obtain ⟨hnone, hstopped⟩ := h.awaited hissued
  cases p with
  | none => exact absurd rfl hnone
  | some p => cases p <;> simp only [CountsOk] at h ⊢ <;> omega

theorem CountsOk.enter {n : Nat} {c : Tally} {p : Option Status} (h : CountsOk (n + 1) c p)
    (hp : p ≠ some .running) :
    CountsOk n { c with
      activations := c.activations + 1
      returns := c.returns + (decide (p = some .blocked)).toNat }
      (some .running) := by
  obtain ⟨hnone, hstopped⟩ := h.alive (Nat.succ_pos n)
  cases p with
  | none => exact absurd rfl hnone
  | some p =>
    cases p with
    | ready =>
      have hzero : (decide (some Status.ready = some Status.blocked)).toNat = 0 := rfl
      simp only [CountsOk, hzero] at h ⊢
      omega
    | blocked =>
      simp only [CountsOk, decide_true, Bool.toNat_true] at h ⊢
      omega
    | running => exact absurd rfl hp
    | stopped => exact absurd rfl hstopped

theorem CountsOk.yield {n : Nat} {c : Tally} (h : CountsOk n c (some .running)) :
    CountsOk (n + 1) { c with posts := c.posts + 1, yields := c.yields + 1 } (some .ready) := by
  simp only [CountsOk] at h ⊢
  omega

theorem CountsOk.pause {n : Nat} {c : Tally} (h : CountsOk n c (some .running))
    (hpauses : c.pauses < c.registered) :
    CountsOk n { c with pauses := c.pauses + 1 } (some .blocked) := by
  simp only [CountsOk] at h ⊢
  omega

theorem CountsOk.finish {n : Nat} {c : Tally} (h : CountsOk n c (some .running))
    (hpauses : c.pauses = c.registered) :
    CountsOk n c (some .stopped) := by
  simp only [CountsOk] at h ⊢
  omega

theorem CountsOk.register {n : Nat} {c : Tally} (h : CountsOk n c (some .running)) :
    CountsOk n { c with registered := c.registered + 1 } (some .running) := by
  simp only [CountsOk] at h ⊢
  omega

end CountsOk

/-! ### The pending activations -/

omit [DecidableEq δ] [DecidableEq ω] in
theorem resume_pending (s : State τ ς ω) (t u : τ) :
    (s.resume P t).pending P u = s.pending P u + (decide (t = u)).toNat := by
  unfold State.resume State.post State.pending
  by_cases hstrand : P.strand u = P.strand t
  · simp only [hstrand, Function.update_self, List.count_append]
    by_cases htu : t = u
    · simp [htu]
    · have hne : Handler.activateThread t ≠ Handler.activateThread u :=
        fun heq => htu (Handler.activateThread.inj heq)
      simp [htu, hne]
  · have htu : t ≠ u := fun heq => hstrand (by rw [heq])
    simp [Function.update_of_ne hstrand, htu]

omit [DecidableEq δ] [DecidableEq ω] in
theorem exit_pending (s : State τ ς ω) (x : ς) (t u : τ) :
    (s.post x (.onThreadExit t)).pending P u = s.pending P u := by
  unfold State.post State.pending
  by_cases hx : P.strand u = x
  · subst hx
    simp [List.count_append]
  · simp [Function.update_of_ne hx]

omit [DecidableEq δ] [DecidableEq ω] in
theorem pop_pending {x : ς} {k : Handler τ} {rest : List (Handler τ)}
    (hqueue : s.queue x = k :: rest) (hk : ∀ t, k = .activateThread t → x = P.strand t) (u : τ) :
    s.pending P u = ({ s with queue := Function.update s.queue x rest } : State τ ς ω).pending P u +
      (decide (k = .activateThread u)).toNat := by
  unfold State.pending
  by_cases hx : P.strand u = x
  · subst hx
    simp only [Function.update_self, hqueue, List.count_cons]
    by_cases heq : k = .activateThread u <;> simp [heq]
  · have hne : k ≠ .activateThread u := fun heq => hx (hk u heq).symm
    simp [Function.update_of_ne hx, hne]

/-! ### One step -/

omit [DecidableEq ς] [DecidableEq δ] [DecidableEq ω] in
theorem Counts.step_of (hcounts : Counts P s h) {h' : τ → Tally} (t : τ)
    (hown : CountsOk (s'.pending P t) (h' t) (s'.status t))
    (hother : ∀ u, u ≠ t → s'.status u = s.status u ∧ s'.pending P u = s.pending P u ∧ h' u = h u) :
    Counts P s' h' := by
  intro u
  by_cases hu : u = t
  · rwa [hu]
  · obtain ⟨hstatus, hpending, htally⟩ := hother u hu
    rw [hstatus, hpending, htally]
    exact hcounts u

omit [DecidableEq ς] [DecidableEq ω] in
theorem record_other (hposted : posted s l u = false) (hissues : issues l u = false)
    (hregisters : registers l u = false)
    (hyields : yields s l u = false) (hpauses : pauses s l u = false)
    (hstatus : s'.status u = s.status u) :
    record s l s' h u = h u := by
  have hentered : entered s s' u = false := by simp [entered, hstatus]
  simp [record, hposted, hissues, hregisters, hyields, hpauses, hentered]

omit [DecidableEq δ] [DecidableEq ω] in
theorem Counts.issues (hcounts : Counts P s h) (hissued : (h t).issued < (h t).registered)
    (hl : l = .resume t ∨ ∃ w now, l = .activate w t now) :
    Counts P (s.resume P t) (record s l (s.resume P t) h) := by
  have hentered : entered s (s.resume P t) t = false := by simp [entered, State.resume, State.post]
  have htally : record s l (s.resume P t) h t =
    { h t with posts := (h t).posts + 1, issued := (h t).issued + 1 } := by
    rcases hl with rfl | ⟨w, now, rfl⟩ <;>
      simp [record, posted, Scheduler.issues, registers, yields, pauses, hentered]
  refine hcounts.step_of t ?_ fun u hu => ⟨rfl, ?_, ?_⟩
  · rw [htally, resume_pending, decide_eq_true rfl]
    exact (hcounts t).issue hissued
  · rw [resume_pending, decide_eq_false (Ne.symm hu)]
    rfl
  · rcases hl with rfl | ⟨w, now, rfl⟩ <;> refine record_other ?_ ?_ rfl rfl rfl rfl <;>
      simp [posted, Scheduler.issues, Ne.symm hu]

omit [DecidableEq ς] [DecidableEq δ] [DecidableEq ω] in
theorem Counts.inside (hcounts : Counts P s h) (hissued : (h t).issued < (h t).registered)
    (hrunning : s.status t ≠ some .running)
    {w : ω} {now : Bool} (hstatus : s'.status = Function.update s.status t (some .running))
    (hqueue : s'.queue = s.queue) :
    Counts P s' (record s (.activate w t now) s' h) := by
  have hpending : ∀ u, s'.pending P u = s.pending P u :=
    fun u => by rw [State.pending, hqueue, State.pending]
  have hentered : entered s s' t = true := by simp [entered, hstatus, hrunning]
  have htally : record s (.activate w t now) s' h t =
      { h t with
        posts := (h t).posts + 1
        issued := (h t).issued + 1
        activations := (h t).activations + 1
        returns := (h t).returns + (decide (s.status t = some .blocked)).toNat } := by
    simp [record, posted, Scheduler.issues, registers, yields, pauses, hentered]
  refine hcounts.step_of t ?_ fun u hu => ⟨?_, hpending u, ?_⟩
  · rw [htally, hpending, hstatus, Function.update_self]
    exact ((hcounts t).issue hissued).enter hrunning
  · rw [hstatus, Function.update_of_ne hu]
  · refine record_other ?_ ?_ rfl rfl rfl ?_
    · simp [posted, Ne.symm hu]
    · simp [Scheduler.issues, Ne.symm hu]
    · rw [hstatus, Function.update_of_ne hu]

omit [DecidableEq δ] [DecidableEq ω] in
theorem Counts.runs (hcounts : Counts P s h) (hinv : Inv P s) {w : ω} {x : ς}
    {rest : List (Handler τ)}
    (hqueue : s.queue x = .activateThread t :: rest) (hrunning : s.status t ≠ some .running)
    (hstatus : s'.status = Function.update s.status t (some .running))
    (hqueue' : s'.queue = Function.update s.queue x rest) :
    Counts P s' (record s (.run w x) s' h) := by
  have hhome : ∀ u, (.activateThread t : Handler τ) = .activateThread u → x = P.strand u := by
    intro u hu
    refine hinv.home x u ?_
    rw [hqueue, hu]
    exact List.mem_cons_self
  have hpending : ∀ u, s.pending P u = s'.pending P u +
    (decide ((.activateThread t : Handler τ) = .activateThread u)).toNat := by
    intro u
    rw [pop_pending hqueue hhome u, State.pending, State.pending, hqueue']
  have hentered : entered s s' t = true := by simp [entered, hstatus, hrunning]
  have htally : record s (.run w x) s' h t =
      { h t with
        activations := (h t).activations + 1
        returns := (h t).returns + (decide (s.status t = some .blocked)).toNat } := by
    simp [record, posted, Scheduler.issues, registers, yields, pauses, hentered]
  refine hcounts.step_of t ?_ fun u hu => ⟨?_, ?_, ?_⟩
  · have hown := hcounts t
    rw [hpending t, decide_eq_true rfl] at hown
    rw [htally, hstatus, Function.update_self]
    exact hown.enter hrunning
  · rw [hstatus, Function.update_of_ne hu]
  · have hne : (.activateThread t : Handler τ) ≠ .activateThread u :=
      fun heq => hu (Handler.activateThread.inj heq).symm
    have hsame := hpending u
    rw [decide_eq_false hne] at hsame
    exact hsame.symm
  · refine record_other rfl rfl rfl rfl rfl ?_
    rw [hstatus, Function.update_of_ne hu]

omit [DecidableEq δ] [DecidableEq ω] in
theorem Counts.makes (hcounts : Counts P s h) (hnew : s.status t = none) :
    Counts P (makeThread P s t) (record s (.makeThread t) (makeThread P s t) h) := by
  have hstatus : (makeThread P s t).status = Function.update s.status t (some .ready) := rfl
  have hpending : ∀ u, (makeThread P s t).pending P u = s.pending P u + (decide (t = u)).toNat :=
    fun u => resume_pending _ t u
  have hentered : entered s (makeThread P s t) t = false := by simp [entered, hstatus]
  have hown := hcounts t
  rw [hnew] at hown
  obtain ⟨hzero, hnothing⟩ := hown
  have htally : record s (.makeThread t) (makeThread P s t) h t =
    { Tally.zero with posts := 1 } := by
    simp [record, posted, Scheduler.issues, registers, yields, pauses, hentered,
      hnothing, Tally.zero]
  refine hcounts.step_of t ?_ fun u hu => ⟨?_, ?_, ?_⟩
  · rw [htally, hpending, hstatus, Function.update_self, hzero, decide_eq_true rfl]
    simp [CountsOk, Tally.zero]
  · rw [hstatus, Function.update_of_ne hu]
  · rw [hpending, decide_eq_false (Ne.symm hu)]
    rfl
  · refine record_other ?_ rfl rfl rfl rfl ?_
    · simp [posted, Ne.symm hu]
    · rw [hstatus, Function.update_of_ne hu]

omit [DecidableEq ς] [DecidableEq δ] [DecidableEq ω] in
theorem Counts.registers (hcounts : Counts P s h) (hrunning : s.status t = some .running) :
    Counts P s (record s (.register t : Label τ ς ω) s h) := by
  have hentered : entered s s t = false := by simp [entered]
  have htally : record s (.register t : Label τ ς ω) s h t =
    { h t with registered := (h t).registered + 1 } := by
    simp [record, posted, Scheduler.issues, Scheduler.registers, yields, pauses, hentered]
  refine hcounts.step_of t ?_ fun u hu => ⟨rfl, rfl, ?_⟩
  · have hown := hcounts t
    rw [hrunning] at hown
    rw [htally, hrunning]
    exact hown.register
  · refine record_other rfl rfl ?_ rfl rfl rfl
    simp [Scheduler.registers, Ne.symm hu]

omit [DecidableEq ς] [DecidableEq δ] [DecidableEq ω] in
theorem Counts.leaves (hcounts : Counts P s h) {w : ω} {below : List τ}
    (hstack : s.stack w = t :: below) (hrunning : s.status t = some .running) {p : Status} {n : Nat}
    (hl : l = .yield w ∨ l = .pause w ∨ l = .finish w)
    (hstatus : s'.status = Function.update s.status t (some p))
    (hpending : ∀ u, s'.pending P u = s.pending P u + if u = t then n else 0)
    (hown : CountsOk (s.pending P t) (h t) (some .running) → CountsOk (s.pending P t + n)
      { h t with
        posts := (h t).posts + (posted s l t).toNat
        yields := (h t).yields + (yields s l t).toNat
        pauses := (h t).pauses + (pauses s l t).toNat } (some p)) :
    Counts P s' (record s l s' h) := by
  have hentered : entered s s' t = false := by simp [entered, hrunning]
  have htally : record s l s' h t =
      { h t with
        posts := (h t).posts + (posted s l t).toNat
        yields := (h t).yields + (yields s l t).toNat
        pauses := (h t).pauses + (pauses s l t).toNat } := by
    rcases hl with rfl | rfl | rfl
      <;> simp [record, Scheduler.issues, Scheduler.registers, hentered]
  refine hcounts.step_of t ?_ fun u hu => ⟨?_, ?_, ?_⟩
  · rw [htally, hpending, if_pos rfl, hstatus, Function.update_self]
    exact hown (hrunning ▸ hcounts t)
  · rw [hstatus, Function.update_of_ne hu]
  · rw [hpending, if_neg hu, Nat.add_zero]
  · have hhead : (decide ((s.stack w).head? = some u)) = false := by simp [hstack, Ne.symm hu]
    have hsame : s'.status u = s.status u := by rw [hstatus, Function.update_of_ne hu]
    rcases hl with rfl | rfl | rfl
    · exact record_other hhead rfl rfl hhead rfl hsame
    · exact record_other rfl rfl rfl rfl hhead hsame
    · exact record_other rfl rfl rfl rfl rfl hsame

omit [DecidableEq δ] [DecidableEq ω] in
theorem Counts.exits (hcounts : Counts P s h) {w : ω} {x : ς} {rest : List (Handler τ)}
    (hqueue : s.queue x = .onThreadExit t :: rest)
    (hstatus : s'.status = s.status) (hqueue' : s'.queue = Function.update s.queue x rest) :
    Counts P s' (record s (.run w x) s' h) := by
  intro u
  have hpending : s.pending P u = s'.pending P u := by
    rw [pop_pending hqueue (fun _ => nofun) u, decide_eq_false nofun, State.pending,
      State.pending, hqueue']
    rfl
  have hsame : record s (.run w x) s' h u = h u :=
    record_other rfl rfl rfl rfl rfl (by rw [hstatus])
  rw [hsame, hstatus, ← hpending]
  exact hcounts u

/-- What was counted stays right until a run fails. -/
theorem Counts.move (hcounts : Counts P s h) (hinv : Inv P s) (hmove : Move P s l s')
    (hmatched : matched s h l = true) :
    Counts P s' (record s l s' h) ∨ s'.fault ≠ none := by
  cases hmove with
  | makes hnew => exact .inl (hcounts.makes hnew)
  | registers hrunning => exact .inl (hcounts.registers hrunning)
  | resumes => exact .inl (hcounts.issues (by simpa [matched] using hmatched) (.inl rfl))
  | posts =>
    simp only [matched, Bool.decide_and, Bool.and_eq_true, decide_eq_true_eq] at hmatched
    exact .inl (hcounts.issues hmatched.1 (.inr ⟨_, _, rfl⟩))
  | @inside w t now hborn hdispatches hheld =>
    simp only [matched, Bool.decide_and, Bool.and_eq_true, decide_eq_true_eq] at hmatched
    rcases activateThread_cases s w t with ⟨hrunning, -, heq⟩ | ⟨f, heq⟩
    · rw [heq]
      exact .inl (hcounts.inside hmatched.1 hrunning rfl rfl)
    · rw [heq]
      exact .inr nofun
  | @acquires w t hborn hdispatches hfree hempty =>
    simp only [matched, Bool.decide_and, Bool.and_eq_true, decide_eq_true_eq] at hmatched
    rcases activateThread_cases (s.hold (P.strand t) w) w t with ⟨hrunning, -, heq⟩ | ⟨f, heq⟩
    · rw [heq]
      exact .inl (hcounts.inside hmatched.1 hrunning rfl rfl)
    · rw [heq]
      exact .inr nofun
  | @runs w x t rest hidle hfree hqueue =>
    let popped : State τ ς ω := { s with queue := Function.update s.queue x rest }
    rcases activateThread_cases (popped.hold x w) w t with ⟨hrunning, -, heq⟩ | ⟨f, heq⟩
    · rw [heq]
      exact .inl (hcounts.runs hinv hqueue hrunning rfl rfl)
    · rw [heq]
      exact .inr nofun
  | exits hidle hfree hqueue => exact .inl (hcounts.exits hqueue rfl rfl)
  | @yields w t below hstack hcurrent hrunning =>
    refine .inl (hcounts.leaves (n := 1) hstack hrunning (.inl rfl) rfl
      (fun u => ?_) fun hown => ?_)
    · rw [resume_pending]
      by_cases hu : u = t
      · rw [if_pos hu, decide_eq_true hu.symm]
        rfl
      · rw [if_neg hu, decide_eq_false (Ne.symm hu)]
        rfl
    · have hyield := hown.yield
      simpa [posted, Scheduler.yields, Scheduler.pauses, hstack] using hyield
  | @pauses w t below hstack =>
    refine .inl (hcounts.leaves (n := 0) hstack (hinv.running_of_stack hstack) (.inr (.inl rfl)) rfl
      (fun u => by rw [ite_self]; rfl) fun hown => ?_)
    have hpause := hown.pause (by simpa [matched, hstack] using hmatched)
    simpa [posted, Scheduler.yields, Scheduler.pauses, hstack] using hpause
  | @finishes w t below hstack =>
    refine .inl (hcounts.leaves (n := 0) hstack (hinv.running_of_stack hstack) (.inr (.inr rfl)) rfl
      (fun u => ?_) fun hown => ?_)
    · rw [exit_pending, ite_self]
      rfl
    · have hfinish := hown.finish (by simpa [matched, hstack] using hmatched)
      simpa [posted, Scheduler.yields, Scheduler.pauses] using hfinish
  | asserts => exact .inr nofun

structure Good (P : Placement τ ς δ) (s : State τ ς ω) (h : τ → Tally) : Prop where
  fault : s.fault = none
  inv : Inv P s
  counts : Counts P s h

omit [DecidableEq ς] [DecidableEq δ] [DecidableEq ω] in
/-- Where an activation is issued, the thread is not entered unless it runs. -/
theorem Good.idle (hgood : Good P s h) (hissued : (h t).issued < (h t).registered) :
    s.status t ≠ some .stopped :=
  ((hgood.counts t).awaited hissued).2

/-- A matched and calm step does not end the run. -/
theorem Good.sound (hgood : Good P s h) (hmove : Move P s l s') (hmatched : matched s h l = true)
    (hcalm : calm P s l = true) :
    s'.fault = none := by
  have hinv := hgood.inv
  cases hmove with
  | makes | registers | resumes | posts | exits | yields | pauses | finishes => exact hgood.fault
  | @inside w t now hborn hdispatches hheld =>
    simp only [matched, Bool.decide_and, Bool.and_eq_true, decide_eq_true_eq] at hmatched
    have hrunning : s.status t ≠ some .running := by
      intro hrunning
      obtain ⟨w', hmem⟩ := (hinv.running t).mp hrunning
      obtain rfl := Option.some.inj (hheld.symm.trans (hinv.holder hmem))
      simp [calm, hdispatches, hmem] at hcalm
    rw [activateThread_enters (hinv.current_ne hrunning w) hrunning (hgood.idle hmatched.1)]
    exact hgood.fault
  | @acquires w t hborn hdispatches hfree hempty =>
    simp only [matched, Bool.decide_and, Bool.and_eq_true, decide_eq_true_eq] at hmatched
    have hrunning := hinv.not_running_of_free hfree
    rw [activateThread_enters (s := s.hold (P.strand t) w) (hinv.current_ne hrunning w) hrunning
      (hgood.idle hmatched.1)]
    exact hgood.fault
  | @runs w x t rest hidle hfree hqueue =>
    have hmem : .activateThread t ∈ s.queue x := by
      rw [hqueue]
      exact List.mem_cons_self
    obtain rfl := hinv.home x t hmem
    have hrunning := hinv.not_running_of_free hfree
    have hpending : 0 < s.pending P t := List.count_pos_iff.mpr hmem
    let popped : State τ ς ω := { s with queue := Function.update s.queue (P.strand t) rest }
    rw [activateThread_enters (s := popped.hold (P.strand t) w)
      (hinv.current_ne hrunning w) hrunning
      ((hgood.counts t).alive hpending).2]
    exact hgood.fault
  | @asserts l w t below hl hstack hnot =>
    have hcurrent : s.current w ≠ some t := fun hcurrent =>
      hnot ⟨hcurrent, hinv.running_of_stack hstack⟩
    rcases hl with rfl | rfl <;> simp [calm, hstack, hcurrent] at hcalm

theorem Good.step (hgood : Good P s h) (hmove : Move P s l s') (hmatched : matched s h l = true)
    (hfault : s'.fault = none) :
    Good P s' (record s l s' h) where
  fault := hfault
  inv := (hgood.inv.move hmove).resolve_right (not_not_intro hfault)
  counts := (hgood.counts.move hgood.inv hmove hmatched).resolve_right (not_not_intro hfault)

omit [DecidableEq ς] [DecidableEq δ] [DecidableEq ω] in
theorem Good.accounted (hgood : Good P s h) : Accounted P s h := by
  have hcounts : ∀ {t p}, s.status t = some p → CountsOk (s.pending P t) (h t) (some p) :=
    fun hp => hp ▸ hgood.counts _
  constructor
  · exact hgood.fault
  · exact hgood.inv.nodup
  · exact fun t w w' => hgood.inv.once
  · exact hgood.inv.running
  · exact fun t hp => (hcounts hp).2.2.2.2.1
  · rintro t (hp | hp)
    · exact (hcounts hp).2.2.2.2.1
    · exact (hcounts hp).2.2.2.2.1
  · intro t
    have hown := hgood.counts t
    cases hp : s.status t with
    | none =>
      rw [hp] at hown
      rw [hown.2]
      rfl
    | some p =>
      rw [hp] at hown
      cases p <;> simp only [CountsOk] at hown <;> simp <;> omega
  · intro t
    have hown := hgood.counts t
    cases hp : s.status t with
    | none =>
      rw [hp] at hown
      rw [hown.1, hown.2]
      rfl
    | some p =>
      rw [hp] at hown
      exact hown.1
  · intro t hborn
    obtain ⟨p, hp⟩ := Option.ne_none_iff_exists'.mp hborn
    exact (hcounts hp).2.1
  · intro t hp
    have hown := hcounts hp
    simp only [CountsOk] at hown
    omega
  · intro t hp hall
    have hown := hcounts hp
    simp only [CountsOk] at hown
    omega
  · intro t hp x hmem
    obtain rfl := hgood.inv.home x t hmem
    have hpending : 0 < s.pending P t := List.count_pos_iff.mpr hmem
    exact ((hgood.counts t).alive hpending).2 hp

/-- Every activation is accounted for in every state of a matched and calm run. -/
theorem activations_accounted (P : Placement τ ς δ) {sh : State τ ς ω × (τ → Tally)}
    (hr : (counted P).Reach (fun sh l => matched sh.1 sh.2 l = true ∧ calm P sh.1 l = true) sh) :
    Accounted P sh.1 sh.2 := by
  refine Good.accounted (hr.invariant (I := fun sh => Good P sh.1 sh.2) ?_ ?_)
  · rintro ⟨s, h⟩ ⟨hs, hh⟩
    cases hs
    cases hh
    exact ⟨rfl, initial_inv, fun _ => ⟨rfl, rfl⟩⟩
  · rintro ⟨s, h⟩ l sh' - hgood ⟨hmatched, hcalm⟩ hstep
    obtain ⟨s', hs', rfl⟩ := TransitionSystem.withHistory_step.mp hstep
    have hmove := (step_move hs').2
    exact hgood.step hmove hmatched (hgood.sound hmove hmatched hcalm)

/-- Two threads on one strand. -/
def together : Placement (Fin 2) Unit Unit := ⟨fun _ => (), fun _ => ()⟩

/-- Thread 0 has paused, and thread 1 activates it: its body is entered inside the body of thread
1. -/
theorem activations_accounted_inside :
    ∃ sh : State (Fin 2) Unit Unit × (Fin 2 → Tally),
    Accounted together sh.1 sh.2 ∧ sh.1.stack () = [0, 1] ∧ (sh.2 0).returns = 1 := by
  let labels : List (Label (Fin 2) Unit Unit) :=
    [.makeThread 0, .makeThread 1, .run () (), .register 0, .pause (), .run () (),
      .activate () 0 true]
  have hreach := (counted together).reach_of_run
    (fun sh l => matched sh.1 sh.2 l && calm together sh.1 l)
    (initial, fun _ => .zero) ⟨rfl, rfl⟩ labels rfl
  exact ⟨_, activations_accounted together (hreach.mono fun _ _ hok => by simpa using hok), rfl,
    rfl⟩

/-- Thread 0 has paused, and thread 1 has registered and activates thread 0 before it pauses. If
thread 0, inside the body of thread 1, activates thread 1, the running body of thread 1 is entered
again. If thread 0 pauses, the assertion of thread 1's own `pause` fails. -/
theorem body_reentered :
    (∃ sh : State (Fin 2) Unit Unit × (Fin 2 → Tally),
      (counted together).Reach (fun sh l => matched sh.1 sh.2 l = true) sh ∧
      sh.1.fault = some .reentered ∧ ¬ Accounted together sh.1 sh.2) ∧
    ∃ sh : State (Fin 2) Unit Unit × (Fin 2 → Tally),
    (counted together).Reach (fun sh l => matched sh.1 sh.2 l = true) sh ∧
      sh.1.fault = some .assertion ∧ ¬ Accounted together sh.1 sh.2 := by
  let labels : List (Label (Fin 2) Unit Unit) :=
    [.makeThread 0, .makeThread 1, .run () (), .register 0, .pause (), .run () (), .register 1,
      .activate () 0 true]
  have hfails : ∀ (sh : State (Fin 2) Unit Unit × (Fin 2 → Tally)) (f : Fault),
    sh.1.fault = some f → ¬ Accounted together sh.1 sh.2 :=
    fun sh f hfault haccounted => by cases hfault.symm.trans haccounted.fault
  constructor
  · have hreach := (counted together).reach_of_run (fun sh l => matched sh.1 sh.2 l)
      (initial, fun _ => .zero) ⟨rfl, rfl⟩
      (labels ++ [.activate () 1 true]) rfl
    exact ⟨_, hreach, rfl, hfails _ _ rfl⟩
  · have hreach := (counted together).reach_of_run (fun sh l => matched sh.1 sh.2 l)
      (initial, fun _ => .zero) ⟨rfl, rfl⟩
      (labels ++ [.register 0, .pause (), .pause ()]) rfl
    exact ⟨_, hreach, rfl, hfails _ _ rfl⟩

end Scheduler

end GreenThread
