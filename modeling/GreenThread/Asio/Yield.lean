import GreenThread.Asio.Code

/-!
# Every call gets its own completion

The tally of the threads counts a call as a wake source: it is registered when the operation is
initiated, paused for in `get` and issued by the handler's activation. While a thread is in a call,
these are its only counts that move, so they tell how far the call and its handler are; and a thread
that runs again in `get` has had one activation for each pause, the last of which can only be its
handler's.
-/

namespace GreenThread

namespace Asio

variable {τ ς δ ω κ ν α : Type} [DecidableEq τ] [DecidableEq ς] [DecidableEq δ] [DecidableEq ω]
    [DecidableEq κ] [DecidableEq ν]

/-- The step of the threads that a step is. -/
def Label.scheduled (s : State τ ς ω κ ν α) : Label τ ς ω κ ν α → Option (Scheduler.Label τ ς ω)
  | .thread l => some l
  | .initiate w _ _ => (s.body w).map .register
  | .activates k w now => (s.frames k).map fun f => .activate w f.thread now
  | .get w => some (.pause w)
  | _ => none

def record (h : τ → Scheduler.Tally) (s : State τ ς ω κ ν α) (l : Label τ ς ω κ ν α)
    (s' : State τ ς ω κ ν α) : τ → Scheduler.Tally :=
  match l.scheduled s with
  | some l => Scheduler.record s.threads l s'.threads h
  | none => h

variable (P : Scheduler.Placement τ ς δ)

def counted : TransitionSystem (State τ ς ω κ ν α × (τ → Scheduler.Tally)) (Label τ ς ω κ ν α) :=
  (system P).withHistory (fun _ => .zero) record

/-- The thread that another party wakes. -/
def wakes : Scheduler.Label τ ς ω → Option τ
  | .resume t | .activate _ t _ => some t
  | _ => none

/-- The other wake sources of a thread are matched with its own pauses: none is left when it makes a
call, and none wakes it in a call. No handler is invoked by the thread that it activates. -/
def matched (s : State τ ς ω κ ν α) (h : τ → Scheduler.Tally) : Label τ ς ω κ ν α → Bool
  | .thread l => Scheduler.matched s.threads h l && (wakes l).all fun t => (s.inside t).isNone
  | .initiate w _ _ => (s.body w).all fun t => (h t).pauses = (h t).registered
  | .activates k w _ => (s.frames k).all fun f => s.body w ≠ some f.thread
  | _ => true

/-- No activation that is dispatched enters a body again, and no thread goes on to a switch or a
call in a body that has had a handler run inside it. -/
def calm (s : State τ ς ω κ ν α) : Label τ ς ω κ ν α → Bool
  | .thread l => Scheduler.calm P s.threads l
  | .initiate w _ _ => s.threads.current w = s.body w
  | .activates k w now => (s.frames k).all fun f =>
    Scheduler.calm P s.threads (.activate w f.thread now)
  | .get w => Scheduler.calm P s.threads (.pause w)
  | _ => true

/-- What a call without an interruption returns or throws. -/
def Completion.result (c : Completion α) (out : Option ν) : Outcome α :=
  if out.isNone && c.ec.isSet then .systemError c.ec else .returned (some c.given)

/-- Only calls of the thread have been given the variable. -/
def State.Exclusive (s : State τ ς ω κ ν α) (v : ν) (t : τ) :
    Prop := ∀ k f, s.frames k = some f → f.outEc = some v → f.thread = t

/-- The call whose handler writes. -/
def Label.writes : Label τ ς ω κ ν α → Option κ
  | .writesError k _ | .writesValue k => some k
  | _ => none

/-- What a thread in the pause of `get` waits for: the next statement of its handler, which can be
made, or the activation that it has posted. -/
def Awaits (s : State τ ς ω κ ν α) (k : κ) (f : Frame τ ν α) : Prop :=
  match f.stage with
  | .initiated => s.threads.pending P f.thread = 0 ∧ ∀ c, (step P s (.writesError k c)).isSome
  | .errorWritten _ => s.threads.pending P f.thread = 0 ∧ (step P s (.writesValue k)).isSome
  | .valueWritten _ => s.threads.pending P f.thread = 0 ∧
      ∀ w now, (step P s (.activates k w now)).isSome
  | .done _ => s.threads.pending P f.thread = 1

/-- Every call gets its own completion. -/
structure Exact (s : State τ ς ω κ ν α) : Prop where
  fault : s.threads.fault = none
  /-- a call ends after its handler, with what the handler was given or by an interruption -/
  returns : ∀ w s', step P s (.returns w) = some s' →
    ∃ t k f c, s.body w = some t ∧ s.inside t = some k ∧ s.frames k = some f ∧
    f.thread = t ∧ f.stage = .done c ∧
    s'.frames k = some { f with
      outcome := some (if s.interrupted t then .interrupted else c.result f.outEc) } ∧
    ∀ v, f.outEc = some v → s.Exclusive v t → s.vars v = c.ec
  /-- a handler writes into the frame of a call that its thread is in -/
  writes : ∀ l k s', l.writes = some k → step P s l = some s' →
    ∃ f, s.frames k = some f ∧ f.outcome = none ∧ s.inside f.thread = some k
  /-- a handler writes its error to the variable that the call was given -/
  supplied : ∀ k c s' f v, step P s (.writesError k c) = some s' → s.frames k = some f →
    f.outEc = some v →
    s'.vars = Function.update s.vars v c.ec
  waits : ∀ t k f, s.inside t = some k → s.frames k = some f → f.paused = true →
    s.threads.status t = some .blocked → Awaits P s k f

variable {P} {s s' : State τ ς ω κ ν α} {l : Label τ ς ω κ ν α} {h h' : τ → Scheduler.Tally} {t : τ}
    {k : κ} {f f' : Frame τ ν α}

/-! ### The frame of a call -/

def Stage.isDone : Stage α → Bool
  | .done _ => true
  | _ => false

def Stage.completion : Stage α → Option (Completion α)
  | .initiated => none
  | .errorWritten c | .valueWritten c | .done c => some c

/-- What the handler has written into the frame. A call does not end before it. -/
def Frame.Ok (f : Frame τ ν α) : Prop :=
  match f.stage with
  | .initiated => f.outcome = none
  | .errorWritten c => f.outcome = none ∧ (f.outEc = none → f.ec = c.ec)
  | .valueWritten c => f.outcome = none ∧ (f.outEc = none → f.ec = c.ec) ∧ f.value = some c.given
  | .done c => (f.outEc = none → f.ec = c.ec) ∧ f.value = some c.given

/-- The counts of a thread in a call. -/
def Frame.Tallied (f : Frame τ ν α) (c : Scheduler.Tally) : Prop :=
  c.registered = c.pauses + (if f.paused then 0 else 1) ∧
  c.issued + (if f.stage.isDone then 0 else 1) = c.registered

/-- The counts of a thread in a call do not move. -/
structure Still (c c' : Scheduler.Tally) : Prop where
  registered : c'.registered = c.registered
  pauses : c'.pauses = c.pauses
  issued : c'.issued = c.issued

omit [DecidableEq τ] [DecidableEq ν] in
theorem Frame.Tallied.still {c c' : Scheduler.Tally} (htallied : f.Tallied c)
    (hstill : Still c c') : f.Tallied c' := by
  unfold Frame.Tallied
  rw [hstill.registered, hstill.pauses, hstill.issued]
  exact htallied

omit [DecidableEq ς] [DecidableEq ω] in
theorem record_still {x x' : Scheduler.State τ ς ω} {l : Scheduler.Label τ ς ω}
    (hregisters : Scheduler.registers l t = false)
    (hpauses : Scheduler.pauses x l t = false) (hissues : Scheduler.issues l t = false) :
    Still (h t) (Scheduler.record x l x' h t) := by
  constructor <;> simp [Scheduler.record, hregisters, hpauses, hissues]

omit [DecidableEq τ] [DecidableEq ν] in
/-- A handler that is not over belongs to a call that has not ended. -/
theorem Frame.Ok.lasts (hok : f.Ok) (hstage : f.stage.isDone = false) : f.outcome = none := by
  unfold Frame.Ok at hok
  cases hs : f.stage with
  | initiated =>
    rw [hs] at hok
    exact hok
  | errorWritten c | valueWritten c =>
    rw [hs] at hok
    exact hok.1
  | done c =>
    rw [hs] at hstage
    cases hstage

/-! ### The calls and their threads -/

omit [DecidableEq τ] [DecidableEq ς] [DecidableEq ω] [DecidableEq ν] in
theorem frame_cases {k' : κ} {g : Frame τ ν α}
    (hframes : s'.frames = Function.update s.frames k (some f))
    (hg : s'.frames k' = some g) : k' = k ∧ g = f ∨ k' ≠ k ∧ s.frames k' = some g := by
  by_cases hk : k' = k
  · subst hk
    rw [hframes, Function.update_self] at hg
    exact .inl ⟨rfl, (Option.some.inj hg).symm⟩
  · rw [hframes, Function.update_of_ne hk] at hg
    exact .inr ⟨hk, hg⟩

structure Link (s : State τ ς ω κ ν α) (h : τ → Scheduler.Tally) : Prop where
  calls : ∀ t k, s.inside t = some k → ∃ f, s.frames k = some f ∧ f.thread = t ∧ f.outcome = none ∧
    f.Tallied (h t)
  lasting : ∀ k f, s.frames k = some f → f.outcome = none → s.inside f.thread = some k
  frames : ∀ k f, s.frames k = some f → f.Ok
  vars : ∀ k f v c, s.frames k = some f → f.outcome = none → f.outEc = some v →
    f.stage.completion = some c →
    s.Exclusive v f.thread → s.vars v = c.ec

namespace Link

omit [DecidableEq τ] [DecidableEq ς] [DecidableEq ω] [DecidableEq κ] [DecidableEq ν] in
theorem frame (hlink : Link s h) (hinside : s.inside t = some k) (hframe : s.frames k = some f) :
    f.thread = t ∧ f.outcome = none ∧ f.Tallied (h t) := by
  obtain ⟨f', hframe', hthread, hopen, htallied⟩ := hlink.calls t k hinside
  obtain rfl := Option.some.inj (hframe.symm.trans hframe')
  exact ⟨hthread, hopen, htallied⟩

omit [DecidableEq τ] [DecidableEq ς] [DecidableEq ω] [DecidableEq κ] [DecidableEq ν] in
theorem apart (hlink : Link s h) (hframe : s.frames k = some f) {u : τ} (hu : u ≠ f.thread) {k' : κ}
    (hinside : s.inside u = some k') :
    k' ≠ k := by
  rintro rfl
  exact hu (hlink.frame hinside hframe).1.symm

omit [DecidableEq ς] [DecidableEq ω] [DecidableEq κ] [DecidableEq τ] [DecidableEq ν] in
theorem still (hlink : Link s h) (hframes : s'.frames = s.frames) (hinside : s'.inside = s.inside)
    (hvars : s'.vars = s.vars)
    (hstill : ∀ t k, s.inside t = some k → Still (h t) (h' t)) : Link s' h' := by
  constructor
  · intro t k hk
    rw [hinside] at hk
    obtain ⟨f, hframe, hthread, hopen, htallied⟩ := hlink.calls t k hk
    exact ⟨f, hframes ▸ hframe, hthread, hopen, htallied.still (hstill t k hk)⟩
  · intro k f hframe hopen
    rw [hinside]
    exact hlink.lasting k f (hframes ▸ hframe) hopen
  · exact fun k f hframe => hlink.frames k f (hframes ▸ hframe)
  · intro k f v c hframe hopen hout hc hexclusive
    rw [hvars]
    exact hlink.vars k f v c (hframes ▸ hframe) hopen hout hc
      (by simpa only [State.Exclusive, hframes] using hexclusive)

omit [DecidableEq ς] [DecidableEq ω] [DecidableEq ν] in
theorem updates (hlink : Link s h) (f' : Frame τ ν α) (hframe : s.frames k = some f)
    (hopen : f.outcome = none)
    (hframes : s'.frames = Function.update s.frames k (some f')) (hinside : s'.inside = s.inside)
    (hthread : f'.thread = f.thread)
    (hout : f'.outEc = f.outEc) (hopen' : f'.outcome = none) (hok : f'.Ok)
    (htallied : f'.Tallied (h' f.thread)) (hstill : ∀ u, u ≠ f.thread → Still (h u) (h' u))
    (hvars : ∀ v, f.outEc ≠ some v → s'.vars v = s.vars v)
    (hown : ∀ v c, f.outEc = some v → f'.stage.completion = some c → s.Exclusive v f.thread →
      s'.vars v = c.ec) : Link s' h' := by
  have hinside_k := hlink.lasting k f hframe hopen
  have hexclusive : ∀ {v t}, s'.Exclusive v t → s.Exclusive v t := by
    intro v t hex k' g hg hgout
    by_cases hk : k' = k
    · subst hk
      obtain rfl := Option.some.inj (hframe.symm.trans hg)
      have heq := hex k' f' (by rw [hframes, Function.update_self]) (hout.trans hgout)
      rwa [hthread] at heq
    · exact hex k' g (by rwa [hframes, Function.update_of_ne hk]) hgout
  constructor
  · intro u k' hk'
    rw [hinside] at hk'
    by_cases hu : u = f.thread
    · subst hu
      obtain rfl := Option.some.inj (hinside_k.symm.trans hk')
      exact ⟨f', by rw [hframes, Function.update_self], hthread, hopen', htallied⟩
    · obtain ⟨g, hg, hgthread, hgopen, hgtallied⟩ := hlink.calls u k' hk'
      exact ⟨g, by rw [hframes, Function.update_of_ne (hlink.apart hframe hu hk'), hg], hgthread,
        hgopen, hgtallied.still (hstill u hu)⟩
  · intro k' g hg hgopen
    rw [hinside]
    rcases frame_cases hframes hg with ⟨rfl, rfl⟩ | ⟨-, hg⟩
    · rwa [hthread]
    · exact hlink.lasting k' g hg hgopen
  · intro k' g hg
    rcases frame_cases hframes hg with ⟨-, rfl⟩ | ⟨-, hg⟩
    · exact hok
    · exact hlink.frames k' g hg
  · intro k' g v c hg hgopen hgout hc hex
    rcases frame_cases hframes hg with ⟨-, rfl⟩ | ⟨hne, hg⟩
    · exact hown v c (hout ▸ hgout) hc (hthread ▸ hexclusive hex)
    · have hother : f.outEc ≠ some v := by
        intro hf
        have hsame := hexclusive hex k f hframe hf
        have hk' := hlink.lasting k' g hg hgopen
        rw [← hsame, hinside_k] at hk'
        exact hne (Option.some.inj hk').symm
      rw [hvars v hother]
      exact hlink.vars k' g v c hg hgopen hgout hc (hexclusive hex)

omit [DecidableEq ς] [DecidableEq ω] [DecidableEq ν] in
theorem initiates (hlink : Link s h) (houtside : s.inside t = none) (hnew : s.frames k = none)
    {out : Option ν}
    (hframes : s'.frames = Function.update s.frames k (some { thread := t, outEc := out }))
    (hinside : s'.inside = Function.update s.inside t (some k)) (hvars : s'.vars = s.vars)
    (hregistered : (h' t).registered = (h' t).pauses + 1)
    (hissued : (h' t).issued + 1 = (h' t).registered)
    (hstill : ∀ u, u ≠ t → Still (h u) (h' u)) : Link s' h' := by
  have hold : ∀ {k' g}, s.frames k' = some g → s'.frames k' = some g := by
    intro k' g hg
    have hne : k' ≠ k := by
      rintro rfl
      cases hnew.symm.trans hg
    rw [hframes, Function.update_of_ne hne, hg]
  constructor
  · intro u k' hk'
    by_cases hu : u = t
    · subst hu
      rw [hinside, Function.update_self] at hk'
      cases hk'
      exact ⟨{ thread := u, outEc := out }, by rw [hframes, Function.update_self], rfl, rfl,
        hregistered, hissued⟩
    · rw [hinside, Function.update_of_ne hu] at hk'
      obtain ⟨g, hg, hgthread, hgopen, hgtallied⟩ := hlink.calls u k' hk'
      exact ⟨g, hold hg, hgthread, hgopen, hgtallied.still (hstill u hu)⟩
  · intro k' g hg hgopen
    rcases frame_cases hframes hg with ⟨rfl, rfl⟩ | ⟨-, hg⟩
    · rw [hinside, Function.update_self]
    · have hk' := hlink.lasting k' g hg hgopen
      have hne : g.thread ≠ t := fun heq => by cases houtside.symm.trans (heq ▸ hk')
      rw [hinside, Function.update_of_ne hne, hk']
  · intro k' g hg
    rcases frame_cases hframes hg with ⟨-, rfl⟩ | ⟨-, hg⟩
    · exact rfl
    · exact hlink.frames k' g hg
  · intro k' g v c hg hgopen hgout hc hex
    rcases frame_cases hframes hg with ⟨-, rfl⟩ | ⟨-, hg⟩
    · cases hc
    · rw [hvars]
      exact hlink.vars k' g v c hg hgopen hgout hc fun k'' g' hg' => hex k'' g' (hold hg')

omit [DecidableEq ς] [DecidableEq ω] [DecidableEq ν] in
theorem leaves (hlink : Link s h) (hinside : s.inside t = some k) (hframe : s.frames k = some f)
    (hdone : f.stage.isDone = true) :
    Link (s.leave t k f) h := by
  obtain ⟨rfl, -, -⟩ := hlink.frame hinside hframe
  let ended : Frame τ ν α := { f with outcome := some (s.getOutcome f.thread f) }
  have hframes : (s.leave f.thread k f).frames = Function.update s.frames k (some ended) := rfl
  have hother : ∀ {k' g}, (s.leave f.thread k f).frames k' = some g → g.outcome = none →
    k' ≠ k ∧ s.frames k' = some g := by
    intro k' g hg hgopen
    rcases frame_cases hframes hg with ⟨-, rfl⟩ | hold
    · cases hgopen
    · exact hold
  constructor
  · intro u k' hk'
    by_cases hu : u = f.thread
    · simp only [State.leave, hu, Function.update_self] at hk'
      cases hk'
    · simp only [State.leave, Function.update_of_ne hu] at hk'
      obtain ⟨g, hg, hgthread, hgopen, hgtallied⟩ := hlink.calls u k' hk'
      exact ⟨g, by rw [hframes, Function.update_of_ne (hlink.apart hframe hu hk'), hg], hgthread,
        hgopen, hgtallied⟩
  · intro k' g hg hgopen
    obtain ⟨hne, hg⟩ := hother hg hgopen
    have hk' := hlink.lasting k' g hg hgopen
    have hthread : g.thread ≠ f.thread := by
      intro heq
      rw [heq, hinside] at hk'
      exact hne (Option.some.inj hk').symm
    simpa only [State.leave, Function.update_of_ne hthread] using hk'
  · intro k' g hg
    rcases frame_cases hframes hg with ⟨-, rfl⟩ | ⟨-, hg⟩
    · have hok := hlink.frames k f hframe
      cases hs : f.stage with
      | done c => simpa only [Frame.Ok, ended, hs] using hok
      | _ =>
        rw [hs] at hdone
        cases hdone
    · exact hlink.frames k' g hg
  · intro k' g v c hg hgopen hgout hc hex
    refine hlink.vars k' g v c (hother hg hgopen).2 hgopen hgout hc fun k'' g' hg' hg'out => ?_
    by_cases hk : k'' = k
    · subst hk
      obtain rfl := Option.some.inj (hframe.symm.trans hg')
      exact hex k'' ended (by rw [hframes, Function.update_self]) hg'out
    · exact hex k'' g' (by rw [hframes, Function.update_of_ne hk, hg']) hg'out

end Link

/-! ### One step -/

omit [DecidableEq κ] [DecidableEq ν] [DecidableEq ς] [DecidableEq ω] in
/-- The steps of the threads outside of the calls do not count for a thread in a call. -/
theorem busy_still {l : Scheduler.Label τ ς ω} {x : Scheduler.State τ ς ω}
    (hfree : busy s l = false)
    (hwakes : ((wakes l).all fun t => (s.inside t).isNone) = true) (hinside : s.inside t = some k) :
    Still (h t) (Scheduler.record s.threads l x h t) := by
  have hbody : ∀ w, ((s.body w).any fun t => (s.inside t).isSome) = false →
    (s.threads.stack w).head? ≠ some t := by
    intro w hany hhead
    rw [State.body, hhead, Option.any_some, hinside] at hany
    cases hany
  have hother : ∀ u, (s.inside u).isNone = true → u ≠ t := by
    rintro u hu rfl
    rw [hinside] at hu
    cases hu
  cases l with
  | register u =>
    refine record_still (decide_eq_false ?_) rfl rfl
    rintro rfl
    rw [busy, hinside] at hfree
    cases hfree
  | pause w => exact record_still rfl (decide_eq_false (hbody w hfree)) rfl
  | resume u => exact record_still rfl rfl (decide_eq_false (hother u hwakes))
  | activate w u now => exact record_still rfl rfl (decide_eq_false (hother u hwakes))
  | makeThread | run | yield | finish => exact record_still rfl rfl rfl

theorem good_next {x x' : Scheduler.State τ ς ω} {l : Scheduler.Label τ ς ω}
    (hgood : Scheduler.Good P x h)
    (hstep : Scheduler.step P x l = some x') (hmatched : Scheduler.matched x h l = true)
    (hcalm : Scheduler.calm P x l = true) :
    Scheduler.Good P x' (Scheduler.record x l x' h) := by
  have hmove := (Scheduler.step_move hstep).2
  exact hgood.step hmove hmatched (hgood.sound hmove hmatched hcalm)

omit [DecidableEq κ] [DecidableEq ν] [DecidableEq ς] [DecidableEq δ] [DecidableEq ω] in
theorem running_of_body (hgood : Scheduler.Good P s.threads h) {w : ω} (hbody : s.body w = some t) :
    s.threads.status t = some .running := by
  obtain ⟨below, hstack⟩ := List.head?_eq_some_iff.mp hbody
  exact hgood.inv.running_of_stack hstack

omit [DecidableEq ς] [DecidableEq δ] [DecidableEq ω] [DecidableEq κ] [DecidableEq ν] in
theorem pauses_le_issued (hgood : Scheduler.Good P s.threads h)
    (hrunning : s.threads.status t = some .running) :
    (h t).pauses ≤ (h t).issued ∧ (h t).issued ≤ (h t).registered := by
  have hown := hgood.counts t
  rw [hrunning] at hown
  simp only [Scheduler.CountsOk] at hown
  omega

omit [DecidableEq ς] [DecidableEq δ] [DecidableEq ω] [DecidableEq κ] [DecidableEq ν] in
/-- A thread that runs again in `get` has been activated by its handler. -/
theorem done_of_running (hgood : Scheduler.Good P s.threads h) (hlink : Link s h)
    (hrunning : s.threads.status t = some .running)
    (hinside : s.inside t = some k) (hframe : s.frames k = some f) (hpaused : f.paused = true) :
    f.stage.isDone = true := by
  obtain ⟨-, -, hregistered, hissued⟩ := hlink.frame hinside hframe
  have hcounts := pauses_le_issued hgood hrunning
  rw [if_pos hpaused] at hregistered
  by_contra hdone
  rw [if_neg hdone] at hissued
  omega

omit [DecidableEq ν] in
theorem initiates_step (hgood : Scheduler.Good P s.threads h) (hlink : Link s h) {w : ω}
    {out : Option ν} {x : Scheduler.State τ ς ω}
    (hbody : s.body w = some t) (houtside : s.inside t = none) (hnew : s.frames k = none)
    (hstep : Scheduler.step P s.threads (.register t) = some x)
    (hmatched : matched s h (.initiate w k out) = true) :
    Scheduler.Good P x (Scheduler.record s.threads (.register t) x h) ∧
      Link ((s.withThreads x).initiate t k out) (Scheduler.record s.threads (.register t) x h) := by
  have hcounts := pauses_le_issued hgood (running_of_body hgood hbody)
  have hall : (h t).pauses = (h t).registered := by simpa [matched, hbody] using hmatched
  refine ⟨good_next hgood hstep rfl rfl,
    hlink.initiates houtside hnew rfl rfl rfl ?_ ?_ fun u hu => ?_⟩
  · simp [Scheduler.record, Scheduler.registers, Scheduler.pauses, hall]
  · simp only [Scheduler.record, Scheduler.registers, Scheduler.issues, decide_true,
      Bool.toNat_true, Bool.toNat_false]
    omega
  · exact record_still (decide_eq_false (Ne.symm hu)) rfl rfl

omit [DecidableEq ν] in
theorem activates_step (hgood : Scheduler.Good P s.threads h) (hlink : Link s h)
    (hframe : s.frames k = some f) {c : Completion α}
    (hstage : f.stage = .valueWritten c) {w : ω} {now : Bool} {x : Scheduler.State τ ς ω}
    (hstep : Scheduler.step P s.threads (.activate w f.thread now) = some x)
    (hmatched : matched s h (.activates k w now) = true)
    (hcalm : calm P s (.activates k w now) = true) :
    Scheduler.Good P x (Scheduler.record s.threads (.activate w f.thread now) x h) ∧
      Link ((s.withThreads x).withFrame k { f with stage := .done c })
      (Scheduler.record s.threads (.activate w f.thread now) x h) := by
  have hok := hlink.frames k f hframe
  rw [Frame.Ok, hstage] at hok
  obtain ⟨hopen, hec, hvalue⟩ := hok
  have hinside := hlink.lasting k f hframe hopen
  obtain ⟨-, -, hregistered, hissued⟩ := hlink.frame hinside hframe
  rw [hstage] at hissued
  have hissued : (h f.thread).issued + 1 = (h f.thread).registered := hissued
  have hother : s.body w ≠ some f.thread := by simpa [matched, hframe] using hmatched
  refine ⟨good_next hgood hstep ?_ (by simpa [calm, hframe] using hcalm), ?_⟩
  · simp only [Scheduler.matched, Bool.decide_and, Bool.and_eq_true, decide_eq_true_eq]
    exact ⟨by omega, hother⟩
  · refine hlink.updates { f with stage := .done c } hframe hopen rfl rfl rfl rfl hopen
      ⟨hec, hvalue⟩ ⟨?_, ?_⟩ (fun u hu => ?_)
      (fun _ _ => rfl) fun v c' hout hc hex => ?_
    · simpa [Scheduler.record, Scheduler.registers, Scheduler.pauses] using hregistered
    · simpa [Scheduler.record, Scheduler.registers, Scheduler.issues, Stage.isDone] using hissued
    · exact record_still rfl rfl (decide_eq_false (Ne.symm hu))
    · cases hc
      exact hlink.vars k f v c hframe hopen hout (by rw [hstage]; rfl) hex

omit [DecidableEq ν] in
theorem gets_step (hgood : Scheduler.Good P s.threads h) (hlink : Link s h) {w : ω}
    (hbody : s.body w = some t)
    (hinside : s.inside t = some k) (hframe : s.frames k = some f) (hpaused : f.paused = false)
    {x : Scheduler.State τ ς ω}
    (hstep : Scheduler.step P s.threads (.pause w) = some x) (hcalm : calm P s (.get w) = true) :
    Scheduler.Good P x (Scheduler.record s.threads (.pause w) x h) ∧
      Link ((s.withThreads x).withFrame k { f with paused := true })
      (Scheduler.record s.threads (.pause w) x h) := by
  obtain ⟨rfl, hopen, hregistered, hissued⟩ := hlink.frame hinside hframe
  rw [if_neg (Bool.eq_false_iff.mp hpaused)] at hregistered
  have hhead : (s.threads.stack w).head? = some f.thread := hbody
  refine ⟨good_next hgood hstep ?_ hcalm, ?_⟩
  · simp [Scheduler.matched, hhead, hregistered]
  · refine hlink.updates { f with paused := true } hframe hopen rfl rfl rfl rfl hopen
      (hlink.frames k f hframe) ⟨?_, ?_⟩
      (fun u hu => ?_) (fun _ _ => rfl) fun v c hout hc hex =>
        hlink.vars k f v c hframe hopen hout hc hex
    · simpa [Scheduler.record, Scheduler.registers, Scheduler.pauses, hhead] using hregistered
    · simpa [Scheduler.record, Scheduler.registers, Scheduler.issues] using hissued
    · refine record_still rfl (decide_eq_false fun heq => hu ?_) rfl
      exact Option.some.inj (heq.symm.trans hhead)

omit [DecidableEq ς] [DecidableEq ω] in
theorem writesError_step (hlink : Link s h) (hframe : s.frames k = some f)
    (hstage : f.stage = .initiated) (c : Completion α) :
    Link (s.writeError k f c) h := by
  have hok := hlink.frames k f hframe
  rw [Frame.Ok, hstage] at hok
  have hopen : f.outcome = none := hok
  have hinside := hlink.lasting k f hframe hopen
  obtain ⟨-, -, hregistered, hissued⟩ := hlink.frame hinside hframe
  rw [hstage] at hissued
  unfold State.writeError
  split
  · next hnone =>
    refine hlink.updates { f with ec := c.ec, stage := .errorWritten c } hframe hopen rfl
      rfl rfl rfl hopen
      ⟨hopen, fun _ => rfl⟩ ⟨hregistered, hissued⟩ (fun u _ => ⟨rfl, rfl, rfl⟩)
        (fun _ _ => rfl) fun v c' hout => ?_
    cases hnone.symm.trans hout
  · next v hsome =>
    refine hlink.updates { f with stage := .errorWritten c } hframe hopen rfl rfl rfl rfl hopen
      ⟨hopen, fun hnone => ?_⟩ ⟨hregistered, hissued⟩ (fun u _ => ⟨rfl, rfl, rfl⟩)
        (fun v' hne => ?_) fun v' c' hout hc _ => ?_
    · cases hsome.symm.trans hnone
    · refine Function.update_of_ne ?_ _ _
      rintro rfl
      exact hne hsome
    · obtain rfl := Option.some.inj (hsome.symm.trans hout)
      cases hc
      exact Function.update_self ..

omit [DecidableEq ς] [DecidableEq ω] [DecidableEq ν] in
theorem writesValue_step (hlink : Link s h) (hframe : s.frames k = some f) {c : Completion α}
    (hstage : f.stage = .errorWritten c) :
    Link (s.writeValue k f c) h := by
  have hok := hlink.frames k f hframe
  rw [Frame.Ok, hstage] at hok
  obtain ⟨hopen, hec⟩ := hok
  have hinside := hlink.lasting k f hframe hopen
  obtain ⟨-, -, hregistered, hissued⟩ := hlink.frame hinside hframe
  rw [hstage] at hissued
  refine hlink.updates { f with value := some c.given, stage := .valueWritten c } hframe hopen rfl
    rfl rfl rfl hopen
    ⟨hopen, hec, rfl⟩ ⟨hregistered, hissued⟩ (fun u _ => ⟨rfl, rfl, rfl⟩)
      (fun _ _ => rfl) fun v c' hout hc hex => ?_
  cases hc
  exact hlink.vars k f v c hframe hopen hout (by rw [hstage]; rfl) hex

theorem linked_step (hgood : Scheduler.Good P s.threads h) (hlink : Link s h)
    (hmove : Move P s l s') (hmatched : matched s h l = true) (hcalm : calm P s l = true) :
    Scheduler.Good P s'.threads (record h s l s') ∧ Link s' (record h s l s') := by
  cases hmove with
  | thread hfree hstep =>
    obtain ⟨hmatched, hwakes⟩ := (Bool.and_eq_true _ _).mp hmatched
    exact ⟨good_next hgood hstep hmatched hcalm,
      hlink.still rfl rfl rfl fun t k hinside => busy_still hfree hwakes hinside⟩
  | @initiates w t k out x hbody houtside hnew hcurrent hstep =>
    have hrecord : record h s (.initiate w k out) ((s.withThreads x).initiate t k out) =
        Scheduler.record s.threads (.register t) x h := by
      simp only [record, Label.scheduled, hbody, Option.map_some]
      rfl
    rw [hrecord]
    exact initiates_step hgood hlink hbody houtside hnew hstep hmatched
  | unknown hbody hcurrent => exact absurd ((of_decide_eq_true hcalm).trans hbody) hcurrent
  | writesError hframe hstage =>
    refine ⟨?_, writesError_step hlink hframe hstage _⟩
    have hthreads : ∀ {k f c}, (s.writeError k f c).threads = s.threads := by
      intro k f c
      unfold State.writeError
      split <;> rfl
    rw [hthreads]
    exact hgood
  | writesValue hframe hstage => exact ⟨hgood, writesValue_step hlink hframe hstage⟩
  | @activates k f c w now x hframe hstage hstep =>
    have hrecord : record h s (.activates k w now)
      ((s.withThreads x).withFrame k { f with stage := .done c }) =
        Scheduler.record s.threads (.activate w f.thread now) x h := by
      simp only [record, Label.scheduled, hframe, Option.map_some]
      rfl
    rw [hrecord]
    exact activates_step hgood hlink hframe hstage hstep hmatched hcalm
  | gets hbody hinside hframe hpaused hstep =>
    exact gets_step hgood hlink hbody hinside hframe hpaused hstep hcalm
  | returns hbody hinside hframe hpaused =>
    exact ⟨hgood, hlink.leaves hinside hframe
      (done_of_running hgood hlink (running_of_body hgood hbody) hinside hframe hpaused)⟩
  | interrupts => exact ⟨hgood, hlink.still rfl rfl rfl fun _ _ _ => ⟨rfl, rfl, rfl⟩⟩
  | disables => exact ⟨hgood, hlink.still rfl rfl rfl fun _ _ _ => ⟨rfl, rfl, rfl⟩⟩

/-! ### Every run -/

omit [DecidableEq τ] [DecidableEq ς] [DecidableEq ω] [DecidableEq κ] [DecidableEq ν] in
theorem initial_link (h : τ → Scheduler.Tally) : Link (initial : State τ ς ω κ ν α) h where
  calls := fun _ _ hk => by cases hk
  lasting := fun _ _ hf => by cases hf
  frames := fun _ _ hf => by cases hf
  vars := fun _ _ _ _ hf => by cases hf

theorem reach_linked {sh : State τ ς ω κ ν α × (τ → Scheduler.Tally)}
    (hreach : (counted P).Reach (fun sh l => matched sh.1 sh.2 l = true ∧ calm P sh.1 l = true)
      sh) :
    Scheduler.Good P sh.1.threads sh.2 ∧ Link sh.1 sh.2 := by
  refine hreach.invariant (I := fun sh => Scheduler.Good P sh.1.threads sh.2 ∧ Link sh.1 sh.2) ?_ ?_
  · rintro ⟨s, h⟩ ⟨hs, hh⟩
    cases hs
    cases hh
    exact ⟨⟨rfl, Scheduler.initial_inv, fun _ => ⟨rfl, rfl⟩⟩, initial_link _⟩
  · rintro ⟨s, h⟩ l sh' - ⟨hgood, hlink⟩ ⟨hmatched, hcalm⟩ hstep
    obtain ⟨s', hs', rfl⟩ := TransitionSystem.withHistory_step.mp hstep
    exact linked_step hgood hlink (step_move hs').2 hmatched hcalm

omit [DecidableEq τ] [DecidableEq ς] [DecidableEq ω] [DecidableEq κ] [DecidableEq ν] in
theorem getOutcome_eq (hok : f.Ok) {c : Completion α} (hstage : f.stage = .done c) :
    s.getOutcome t f = if s.interrupted t then .interrupted else c.result f.outEc := by
  rw [Frame.Ok, hstage] at hok
  obtain ⟨hec, hvalue⟩ := hok
  unfold State.getOutcome Completion.result
  cases hout : f.outEc with
  | none => rw [hec hout, hvalue]
  | some v => rw [hvalue]; rfl

/-- A thread in the pause of `get` has no activation but the one of its handler. -/
theorem awaits (hgood : Scheduler.Good P s.threads h) (hlink : Link s h)
    (hinside : s.inside t = some k) (hframe : s.frames k = some f)
    (hpaused : f.paused = true) (hblocked : s.threads.status t = some .blocked) :
    Awaits P s k f := by
  obtain ⟨rfl, -, hregistered, hissued⟩ := hlink.frame hinside hframe
  have hfault := hgood.fault
  have hown := hgood.counts f.thread
  rw [hblocked] at hown
  simp only [Scheduler.CountsOk] at hown
  rw [if_pos hpaused] at hregistered
  -- as long as the handler has not activated the thread,
  -- the activations are those of the earlier pauses
  have hzero : f.stage.isDone = false → s.threads.pending P f.thread = 0 := by
    intro hdone
    rw [if_neg (Bool.eq_false_iff.mp hdone)] at hissued
    omega
  unfold Awaits
  cases hstage : f.stage with
  | initiated =>
    refine ⟨hzero (by rw [hstage]; rfl), fun c => ?_⟩
    simp [step, hfault, writesErrorStep, hframe, hstage]
  | errorWritten c =>
    refine ⟨hzero (by rw [hstage]; rfl), ?_⟩
    simp [step, hfault, writesValueStep, hframe, hstage]
  | valueWritten c =>
    refine ⟨hzero (by rw [hstage]; rfl), fun w now => ?_⟩
    simp [step, hfault, activatesStep, hframe, hstage, Scheduler.step, hblocked]
  | done c =>
    rw [hstage] at hissued
    have hissued : (h f.thread).issued = (h f.thread).registered := hissued
    simp only
    omega

theorem exact_of_linked (hgood : Scheduler.Good P s.threads h) (hlink : Link s h) : Exact P s := by
  constructor
  · exact hgood.fault
  · intro w s' hstep
    obtain ⟨-, hmove⟩ := step_move hstep
    cases hmove with
    | @returns _ t k f hbody hinside hframe hpaused =>
      have hdone := done_of_running hgood hlink (running_of_body hgood hbody) hinside hframe hpaused
      obtain ⟨rfl, hopen, -⟩ := hlink.frame hinside hframe
      obtain ⟨c, hstage⟩ : ∃ c, f.stage = .done c := by
        cases hs : f.stage with
        | done c => exact ⟨c, rfl⟩
        | _ =>
          rw [hs] at hdone
          cases hdone
      refine ⟨f.thread, k, f, c, hbody, hinside, hframe, rfl, hstage, ?_, fun v hout hex => ?_⟩
      · rw [← getOutcome_eq (hlink.frames k f hframe) hstage]
        exact Function.update_self ..
      · exact hlink.vars k f v c hframe hopen hout (by rw [hstage]; rfl) hex
  · intro l k s' hl hstep
    have hframe : ∃ f, s.frames k = some f ∧ f.stage.isDone = false := by
      obtain ⟨-, hmove⟩ := step_move hstep
      cases hmove with
      | writesError hframe hstage | writesValue hframe hstage =>
        cases hl
        exact ⟨_, hframe, by rw [hstage]; rfl⟩
      | _ => cases hl
    obtain ⟨f, hframe, hstage⟩ := hframe
    have hopen := (hlink.frames k f hframe).lasts hstage
    exact ⟨f, hframe, hopen, hlink.lasting k f hframe hopen⟩
  · intro k c s' f v hstep hframe hout
    obtain ⟨-, hmove⟩ := step_move hstep
    cases hmove with
    | writesError hframe' hstage =>
      obtain rfl := Option.some.inj (hframe.symm.trans hframe')
      simp only [State.writeError, hout]
  · exact fun t k f hinside hframe hpaused hblocked =>
      awaits hgood hlink hinside hframe hpaused hblocked

/-- Every call with `asio::yield` gets its own completion, whatever the order of the completions and
the threads, unless it is interrupted. -/
theorem yield_returns_completion (P : Scheduler.Placement τ ς δ)
    {sh : State τ ς ω κ ν α × (τ → Scheduler.Tally)}
    (hreach : (counted P).Reach (fun sh l => matched sh.1 sh.2 l = true ∧ calm P sh.1 l = true)
      sh) : Exact P sh.1 := by
  obtain ⟨hgood, hlink⟩ := reach_linked hreach
  exact exact_of_linked hgood hlink

/-- One thread. -/
def alone : Scheduler.Placement Unit Unit Unit := ⟨id, id⟩

/-- The handler of the first call is over before the thread pauses; the second call has an `ec`, and
its handler is invoked when the thread has paused. -/
theorem yield_returns_completion_twice :
    ∃ sh : State Unit Unit (Fin 2) (Fin 2) Unit Nat × (Unit → Scheduler.Tally), Exact alone sh.1 ∧
    (sh.1.frames 0).map Frame.outcome = some (some (.returned (some 7))) ∧
    (sh.1.frames 1).map Frame.outcome = some (some (.returned (some 0))) ∧
    sh.1.vars () = ⟨125, 0⟩ := by
  let labels : List (Label Unit Unit (Fin 2) (Fin 2) Unit Nat) :=
    [.thread (.makeThread ()), .thread (.run 0 ()), .initiate 0 0 none, .writesError 0 (.value 7),
      .writesValue 0, .activates 0 1 false, .get 0, .thread (.run 1 ()), .returns 1,
      .initiate 1 1 (some ()), .get 1, .writesError 1 (.error ⟨125, 0⟩ 0), .writesValue 1,
      .activates 1 0 false, .thread (.run 0 ()), .returns 0]
  have hreach := (counted alone).reach_of_run (fun sh l => matched sh.1 sh.2 l && calm alone sh.1 l)
    (initial, fun _ => .zero)
    ⟨rfl, rfl⟩ labels rfl
  have hexact := yield_returns_completion alone (hreach.mono fun _ _ hok => by simpa using hok)
  exact ⟨_, hexact, rfl, rfl, rfl⟩

/-- The handler has been given the value 7 and no error, and the call throws
`thread_interrupted`. -/
theorem completion_interrupted :
    ∃ (sh : State Unit Unit (Fin 2) (Fin 2) Unit Nat × (Unit → Scheduler.Tally))
      (f : Frame Unit Unit Nat),
    (counted alone).Reach (fun sh l => matched sh.1 sh.2 l = true ∧ calm alone sh.1 l = true) sh ∧
    sh.1.frames 0 = some f ∧
    f.stage = .done (.value 7) ∧ f.outEc = none ∧ f.outcome = some .interrupted := by
  let labels : List (Label Unit Unit (Fin 2) (Fin 2) Unit Nat) :=
    [.thread (.makeThread ()), .thread (.run 0 ()), .initiate 0 0 none, .interrupt (), .get 0,
      .writesError 0 (.value 7), .writesValue 0, .activates 0 1 false, .thread (.run 1 ()),
      .returns 1]
  have hreach := (counted alone).reach_of_run (fun sh l => matched sh.1 sh.2 l && calm alone sh.1 l)
    (initial, fun _ => .zero)
    ⟨rfl, rfl⟩ labels rfl
  have hallowed : (counted alone).Reach
    (fun sh l => matched sh.1 sh.2 l = true ∧ calm alone sh.1 l = true) _ :=
    hreach.mono fun _ _ hok => by simpa using hok
  let f : Frame Unit Unit Nat :=
    { thread := (), outEc := none, value := some 7, stage := .done (.value 7), paused := true,
      outcome := some .interrupted }
  exact ⟨_, f, hallowed, rfl, rfl, rfl, rfl⟩

end Asio

end GreenThread
