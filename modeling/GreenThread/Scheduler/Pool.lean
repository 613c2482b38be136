import GreenThread.Scheduler.Activation
import GreenThread.Scheduler.Exits

/-!
# The worker pool

How `scheduler_object.cpp` starts, watches and joins its workers. `start` arms the check timer and
fills an empty pool with threads that run the `io_service`. `on_check_timer` re-arms itself while
threads are counted or none was ever made, and else stops the `io_service` and notifies `join`.
`join` sleeps while threads are counted, then joins the workers, who leave when the `io_service` is
stopped, and resets everything for the next `start`.

`on_check_timer` does not look at its error code, so that a call stays due when `start` replaces the
timer: the calls that are due are counted. `join` empties `threads_`, and `start` is not called
meanwhile. Once a run of the threads has failed nothing is left to step.
-/

namespace GreenThread

namespace Scheduler

namespace Pool

variable {τ ς δ ω : Type} [DecidableEq τ] [DecidableEq ς] [DecidableEq δ] [DecidableEq ω]

/-- Where a call of `join` is. -/
inductive Joining
  | idle
  /-- at the head of the loop -/
  | check
  /-- in `cv_.wait` -/
  | asleep
  /-- joins the workers -/
  | workers
  | clear
  | flag
  | reset
  deriving DecidableEq, Repr

structure State (τ ς ω : Type) where
  threads : Scheduler.State τ ς ω
  /-- `started_` -/
  started : Bool
  /-- the `io_service` -/
  stopped : Bool
  /-- `threads_` -/
  workers : List ω
  /-- the calls of `on_check_timer` that are due -/
  timers : Nat
  joining : Joining

inductive Label (τ ς ω : Type)
  | start (ws : List ω)
  /-- `make_thread` has counted a thread whose constructor throws -/
  | makeFails
  | tick (w : ω)
  | thread (l : Scheduler.Label τ ς ω)
  | join
  | advance
  /-- `cv_.wait` returns unasked -/
  | spurious
  deriving DecidableEq, Repr

variable (P : Placement τ ς δ) (s : State τ ς ω)

/-- `scheduler_object::start` -/
def startStep (ws : List ω) : Option (State τ ς ω) :=
  if s.joining = .idle ∨ s.joining = .check ∨ s.joining = .asleep then
    some (if s.workers = [] then { s with timers := s.timers + 1, workers := ws } else s)
  else none

/-- `scheduler_object::on_check_timer`, on a worker that is in no handler. -/
def tickStep (w : ω) : Option (State τ ς ω) :=
  if w ∈ s.workers ∧ s.stopped = false ∧ s.threads.stack w = [] ∧ 0 < s.timers then
    some (if 0 < s.threads.threadCount ∨ s.started = false then s
      else
        { s with
          stopped := true
          timers := s.timers - 1
          joining := if s.joining = .asleep then .check else s.joining })
  else none

/-- The workers of the pool run handlers until the `io_service` is stopped. -/
def runnable : Scheduler.Label τ ς ω → Bool
  | .run w _ => w ∈ s.workers ∧ s.stopped = false
  | _ => true

def threadStep (l : Scheduler.Label τ ς ω) : Option (State τ ς ω) :=
  if runnable s l then
    (Scheduler.step P s.threads l).map fun threads =>
      { s with threads, started := s.started || (makes l).isSome }
  else none

/-- The next statement of `scheduler_object::join`. -/
def advanceStep : Option (State τ ς ω) :=
  match s.joining with
  | .check =>
    some { s with joining := if s.started ∧ 0 < s.threads.threadCount then .asleep else .workers }
  | .workers => if ∀ w ∈ s.workers, s.stopped = true ∧ s.threads.stack w = []
      then some { s with joining := .clear } else none
  | .clear => some { s with workers := [], joining := .flag }
  | .flag => some { s with started := false, joining := .reset }
  | .reset => some { s with stopped := false, joining := .idle }
  | .idle | .asleep => none

def step (l : Label τ ς ω) : Option (State τ ς ω) :=
  if s.threads.fault.isSome then none else
  match l with
  | .start ws => startStep s ws
  | .makeFails =>
    some { s with threads := { s.threads with threadCount := s.threads.threadCount + 1 } }
  | .tick w => tickStep s w
  | .thread l => threadStep P s l
  | .join => if s.joining = .idle then some { s with joining := .check } else none
  | .advance => advanceStep s
  | .spurious => if s.joining = .asleep then some { s with joining := .check } else none

def initial : State τ ς ω where
  threads := Scheduler.initial
  started := false
  stopped := false
  workers := []
  timers := 0
  joining := .idle

def system : TransitionSystem (State τ ς ω) (Label τ ς ω) where
  init := fun s => s = initial
  step := step P

/-- What has happened to the threads. -/
structure History (τ : Type) where
  roll : Roll τ
  tally : τ → Tally

def History.start : History τ := ⟨{}, fun _ => .zero⟩

def History.record (h : History τ) (s : State τ ς ω) (l : Label τ ς ω)
    (s' : State τ ς ω) : History τ :=
  match l with
  | .thread l => ⟨h.roll.record s.threads l, Scheduler.record s.threads l s'.threads h.tally⟩
  | _ => h

def watched : TransitionSystem (State τ ς ω × History τ) (Label τ ς ω) :=
  (system P).withHistory .start fun h s l s' => h.record s l s'

/-- `make_thread` constructs its thread, and is not called once the check timer has given up and
while its pool still waits to be joined. -/
def prompt (s : State τ ς ω) : Label τ ς ω → Bool
  | .makeFails => false
  | .thread (.makeThread _) => ¬ (s.stopped = true ∧ s.workers ≠ [])
  | _ => true

/-- Every `make_thread` succeeds, and the pauses of the threads are matched. -/
def orderly (s : State τ ς ω) (h : History τ) : Label τ ς ω → Bool
  | .makeFails => false
  | .thread l => matched s.threads h.tally l
  | _ => true

/-- A call of `join` waits for threads that will end. -/
structure Joinable (P : Placement τ ς δ) (s : State τ ς ω) (h : History τ) : Prop where
  /-- while threads are counted the pool runs, watched by its timer, and one of them has not
  exited -/
  counted : s.workers ≠ [] → s.started = true → 0 < s.threads.threadCount →
    s.stopped = false ∧ 0 < s.timers ∧ ∃ t ∈ h.roll.made, t ∉ h.roll.exited
  /-- a sleeping `join` is watched -/
  asleep : s.joining = .asleep → s.workers ≠ [] → s.stopped = false ∧ 0 < s.timers
  /-- and notified by the first check after all have exited -/
  notified : s.joining = .asleep → (∀ t ∈ h.roll.made, t ∈ h.roll.exited) →
    ∀ w s', step P s (.tick w) = some s' → s'.joining = .check

/-- The `io_service` is not stopped under a thread. -/
structure Sheltered (P : Placement τ ς δ) (s : State τ ς ω) (h : History τ) : Prop where
  count : s.threads.threadCount = h.roll.live.length
  stops : ∀ w s', step P s (.tick w) = some s' → s'.stopped = true →
    ∀ t ∈ h.roll.made, s.threads.status t = some .stopped ∧
    ∀ x, .activateThread t ∉ s.threads.queue x

variable {P} {s s' : State τ ς ω} {l : Label τ ς ω} {h h' : History τ}

/-! ### What one step can do -/

inductive Move (P : Placement τ ς δ) (s : State τ ς ω) : Label τ ς ω → State τ ς ω → Prop
  | starts {ws} (hempty : s.workers = [])
      (hopen : s.joining = .idle ∨ s.joining = .check ∨ s.joining = .asleep) :
      Move P s (.start ws) { s with timers := s.timers + 1, workers := ws }
  | ignores {ws} : Move P s (.start ws) s
  | miscounts :
      Move P s
        .makeFails { s with threads := { s.threads with threadCount := s.threads.threadCount + 1 } }
  | rearms {w} (hruns : s.stopped = false)
      (hstays : 0 < s.threads.threadCount ∨ s.started = false) : Move P s (.tick w) s
  | stops {w} (hmem : w ∈ s.workers) (hcount : s.threads.threadCount ≤ 0) : Move P s (.tick w)
      { s with
        stopped := true
        timers := s.timers - 1
        joining := if s.joining = .asleep then .check else s.joining }
  | steps {l threads} (hrunnable : runnable s l = true)
      (hstep : Scheduler.step P s.threads l = some threads) :
      Move P s (.thread l) { s with threads, started := s.started || (makes l).isSome }
  | joins (hidle : s.joining = .idle) : Move P s .join { s with joining := .check }
  | sleeps (hcheck : s.joining = .check) (hstarted : s.started = true)
      (hcount : 0 < s.threads.threadCount) :
      Move P s .advance { s with joining := .asleep }
  | passes (hcheck : s.joining = .check) : Move P s .advance { s with joining := .workers }
  | leaves (hjoins : s.joining = .workers) : Move P s .advance { s with joining := .clear }
  | clears : Move P s .advance { s with workers := [], joining := .flag }
  | flags (hflag : s.joining = .flag) :
      Move P s .advance { s with started := false, joining := .reset }
  | resets (hreset : s.joining = .reset) :
      Move P s .advance { s with stopped := false, joining := .idle }
  | wakes (hasleep : s.joining = .asleep) : Move P s .spurious { s with joining := .check }

theorem tick_move {w : ω} (hstep : tickStep s w = some s') : Move P s (.tick w) s' := by
  unfold tickStep at hstep
  rw [Option.ite_none_right_eq_some] at hstep
  obtain ⟨⟨hmem, hruns, -⟩, hstep⟩ := hstep
  by_cases hstays : 0 < s.threads.threadCount ∨ s.started = false
  · rw [if_pos hstays] at hstep
    cases hstep
    exact .rearms hruns hstays
  · rw [if_neg hstays] at hstep
    cases hstep
    exact .stops hmem (Int.not_lt.mp fun hcount => hstays (.inl hcount))

theorem advance_move (hstep : advanceStep s = some s') : Move P s .advance s' := by
  unfold advanceStep at hstep
  split at hstep
  case h_1 hcheck =>
    by_cases hwaits : s.started = true ∧ 0 < s.threads.threadCount
    · rw [if_pos hwaits] at hstep
      cases hstep
      exact .sleeps hcheck hwaits.1 hwaits.2
    · rw [if_neg hwaits] at hstep
      cases hstep
      exact .passes hcheck
  case h_2 hjoins =>
    rw [Option.ite_none_right_eq_some] at hstep
    cases hstep.2
    exact .leaves hjoins
  case h_3 =>
    cases hstep
    exact .clears
  case h_4 hflag =>
    cases hstep
    exact .flags hflag
  case h_5 hreset =>
    cases hstep
    exact .resets hreset
  case h_6 => cases hstep
  case h_7 => cases hstep

theorem step_move (hstep : step P s l = some s') : s.threads.fault = none ∧ Move P s l s' := by
  unfold step at hstep
  rw [Option.ite_none_left_eq_some] at hstep
  obtain ⟨hfault, hstep⟩ := hstep
  refine ⟨by simpa using hfault, ?_⟩
  cases l with
  | start ws =>
    simp only [startStep, Option.ite_none_right_eq_some, Option.some.injEq] at hstep
    obtain ⟨hopen, rfl⟩ := hstep
    by_cases hempty : s.workers = []
    · rw [if_pos hempty]
      exact .starts hempty hopen
    · rw [if_neg hempty]
      exact .ignores
  | makeFails =>
    cases hstep
    exact .miscounts
  | tick w => exact tick_move hstep
  | thread l =>
    simp only [threadStep, Option.ite_none_right_eq_some, Option.map_eq_some_iff] at hstep
    obtain ⟨hrunnable, threads, hthreads, rfl⟩ := hstep
    exact .steps hrunnable hthreads
  | join =>
    simp only [Option.ite_none_right_eq_some, Option.some.injEq] at hstep
    obtain ⟨hidle, rfl⟩ := hstep
    exact .joins hidle
  | advance => exact advance_move hstep
  | spurious =>
    simp only [Option.ite_none_right_eq_some, Option.some.injEq] at hstep
    obtain ⟨hasleep, rfl⟩ := hstep
    exact .wakes hasleep

/-! ### The books of the threads -/

/-- What holds of the threads whatever the pool does, as long as no `make_thread` has failed. -/
structure Books (P : Placement τ ς δ) (s : State τ ς ω) (h : History τ) : Prop where
  strands : s.threads.fault = none → Inv P s.threads
  rolls : Rolls P s.threads h.roll

theorem Books.move (b : Books P s h) (hfault : s.threads.fault = none) (hmove : Move P s l s')
    (hmakes : l ≠ .makeFails) :
    Books P s' (h.record s l s') := by
  cases hmove with
  | miscounts => exact absurd rfl hmakes
  | @steps l threads hrunnable hstep =>
    have hmove := (Scheduler.step_move hstep).2
    have hinv := b.strands hfault
    exact ⟨fun hnone => (hinv.move hmove).resolve_right (not_not_intro hnone),
      b.rolls.move hinv hmove⟩
  | _ => exact ⟨b.strands, b.rolls⟩

omit [DecidableEq ς] [DecidableEq δ] [DecidableEq ω] in
theorem Books.count_eq (b : Books P s h) (b' : Books P s' h') (hroll : h'.roll = h.roll) :
    s'.threads.threadCount = s.threads.threadCount := by
  rw [b'.rolls.count, hroll, b.rolls.count]

/-! ### The life of the pool -/

/-- What holds of the pool while no `make_thread` comes too late. -/
structure Life (s : State τ ς ω) : Prop where
  armed : s.workers ≠ [] → s.stopped = false → 0 < s.timers
  /-- nothing is counted once the timer has given up -/
  given : s.stopped = true → s.workers ≠ [] → s.threads.threadCount ≤ 0
  /-- an empty pool is stopped, or has just been emptied, only in the last statements of `join` -/
  empty : s.stopped = true → s.workers = [] → s.joining = .flag ∨ s.joining = .reset
  cleared : s.joining = .flag ∨ s.joining = .reset → s.workers = []
  sleeper : s.joining = .asleep → s.started = true ∧ s.stopped = false

omit [DecidableEq τ] [DecidableEq ς] [DecidableEq ω] in
/-- Before the last statements of `join` the `io_service` is stopped with its workers in the pool,
and then nothing is counted. -/
theorem Life.running (hlife : Life s) (hopen : s.joining ≠ .flag ∧ s.joining ≠ .reset)
    (hworks : s.workers = [] ∨ 0 < s.threads.threadCount) : s.stopped = false := by
  by_contra hstopped
  rw [Bool.not_eq_false] at hstopped
  by_cases hempty : s.workers = []
  · exact (hlife.empty hstopped hempty).elim hopen.1 hopen.2
  · have hgiven := hlife.given hstopped hempty
    rcases hworks with hworks | hworks
    · exact hempty hworks
    · omega

omit [DecidableEq τ] [DecidableEq ς] in
/-- The handlers run only before the stop, and `make_thread` is not called between the stop and the
join. -/
theorem Life.quiet {l : Scheduler.Label τ ς ω} (hprompt : prompt s (.thread l) = true)
    (hrunnable : runnable s l = true) (hstopped : s.stopped = true) (hworkers : s.workers ≠ []) :
    makes l = none ∧ exits s.threads l = none := by
  cases l with
  | makeThread t => simp [prompt, hstopped, hworkers] at hprompt
  | run w x => simp [runnable, hstopped] at hrunnable
  | _ => exact ⟨rfl, rfl⟩

omit [DecidableEq τ] [DecidableEq ς] [DecidableEq ω] in
theorem Life.goes (hlife : Life s) (hopen : s.joining ≠ .flag ∧ s.joining ≠ .reset) {p : Joining}
    (hp : p ≠ .flag ∧ p ≠ .reset ∧ p ≠ .asleep) : Life { s with joining := p } where
  armed := hlife.armed
  given := hlife.given
  empty := fun hstopped hnone => ((hlife.empty hstopped hnone).elim hopen.1 hopen.2).elim
  cleared := fun hjoining => (hjoining.elim hp.1 hp.2.1).elim
  sleeper := fun hasleep => absurd hasleep hp.2.2

theorem Life.move (hlife : Life s) (b : Books P s h) (b' : Books P s' (h.record s l s'))
    (hmove : Move P s l s') (hprompt : prompt s l = true) : Life s' := by
  obtain ⟨harmed, hgiven, hempty, hcleared, hsleeper⟩ := id hlife
  cases hmove with
  | starts hnone hopen =>
    have hlate : s.joining ≠ .flag ∧ s.joining ≠ .reset := by
      rcases hopen with heq | heq | heq <;> simp [heq]
    have hrunning := hlife.running hlate (.inl hnone)
    refine ⟨fun _ _ => Nat.succ_pos _, fun hstopped => ?_, fun hstopped => ?_,
      fun hjoining => ?_, hsleeper⟩
    · cases hrunning.symm.trans hstopped
    · cases hrunning.symm.trans hstopped
    · exact absurd hjoining (not_or.mpr hlate)
  | ignores => exact hlife
  | miscounts => cases hprompt
  | rearms => exact hlife
  | stops hmem hcount =>
    have hworkers : s.workers ≠ [] := List.ne_nil_of_mem hmem
    refine ⟨fun _ hstopped => absurd hstopped.symm Bool.false_ne_true, fun _ _ => hcount,
      fun _ hnone => absurd hnone hworkers, fun hjoining => ?_, fun hasleep => ?_⟩
    · refine absurd (hcleared ?_) hworkers
      by_cases hasleep : s.joining = .asleep
      · simp [hasleep] at hjoining
      · simpa [hasleep] using hjoining
    · by_cases hasleep' : s.joining = .asleep
      · simp [hasleep'] at hasleep
      · simp [hasleep'] at hasleep
  | @steps l threads hrunnable hstep =>
    refine ⟨harmed, fun hstopped hworkers => ?_, hempty, hcleared, fun hasleep => ?_⟩
    · obtain ⟨hmakes, hexits⟩ := Life.quiet hprompt hrunnable hstopped hworkers
      have hcount := b.count_eq b' (by simp [History.record, Roll.record, hmakes, hexits])
      rw [hcount]
      exact hgiven hstopped hworkers
    · obtain ⟨hstarted, hrunning⟩ := hsleeper hasleep
      exact ⟨by simp [hstarted], hrunning⟩
  | joins hidle => exact hlife.goes (by simp [hidle]) (by decide)
  | sleeps hcheck hstarted hcount =>
    have hrunning := hlife.running (by simp [hcheck]) (.inr hcount)
    exact ⟨harmed, hgiven, fun hstopped => absurd hstopped (by simp [hrunning]),
      fun hlast => (by rcases hlast with hlast | hlast <;> cases hlast),
      fun _ => ⟨hstarted, hrunning⟩⟩
  | passes hcheck => exact hlife.goes (by simp [hcheck]) (by decide)
  | leaves hjoins => exact hlife.goes (by simp [hjoins]) (by decide)
  | clears =>
    exact ⟨fun hne => absurd rfl hne, fun _ hne => absurd rfl hne,
      fun _ _ => .inl rfl, fun _ => rfl,
      fun hasleep => by cases hasleep⟩
  | flags hflag =>
    exact ⟨harmed, hgiven, fun _ _ => .inr rfl, fun _ => hcleared (.inl hflag),
      fun hasleep => by cases hasleep⟩
  | resets hreset =>
    exact ⟨fun hne => absurd (hcleared (.inr hreset)) hne,
      fun hstopped => absurd hstopped Bool.false_ne_true,
      fun hstopped => absurd hstopped Bool.false_ne_true, fun _ => hcleared (.inr hreset),
        fun hasleep => by cases hasleep⟩
  | wakes hasleep => exact hlife.goes (by simp [hasleep]) (by decide)

omit [DecidableEq τ] [DecidableEq ς] [DecidableEq ω] in
theorem Life.initial : Life (initial : State τ ς ω) where
  armed := fun hne => absurd rfl hne
  given := nofun
  empty := nofun
  cleared := fun _ => rfl
  sleeper := nofun

omit [DecidableEq ς] [DecidableEq δ] [DecidableEq ω] in
theorem Books.initial : Books P (initial : State τ ς ω) .start :=
  ⟨fun _ => initial_inv, initial_rolls⟩

/-- A check after all threads have exited wakes a sleeping `join`. -/
theorem Life.notified (hlife : Life s) (b : Books P s h) (hasleep : s.joining = .asleep)
    (hall : ∀ t ∈ h.roll.made, t ∈ h.roll.exited) {w : ω} (hstep : step P s (.tick w) = some s') :
    s'.joining = .check := by
  have hmove := (step_move hstep).2
  generalize hl : Label.tick w = l at hmove
  cases hmove with
  | rearms _ hstays =>
    rcases hstays with hcount | hstarted
    · obtain ⟨t, hmade, hlive⟩ := b.rolls.exists_live hcount
      exact absurd (hall t hmade) hlive
    · cases hstarted.symm.trans (hlife.sleeper hasleep).1
  | stops => exact if_pos hasleep
  | _ => cases hl

theorem Life.watches (hlife : Life s) (b : Books P s h) : Joinable P s h where
  counted := fun hworkers _ hcount => by
    have hrunning : s.stopped = false := by
      by_contra hstopped
      have hgiven := hlife.given (by simpa using hstopped) hworkers
      omega
    exact ⟨hrunning, hlife.armed hworkers hrunning, b.rolls.exists_live hcount⟩
  asleep := fun hasleep hworkers => by
    have hrunning := (hlife.sleeper hasleep).2
    exact ⟨hrunning, hlife.armed hworkers hrunning⟩
  notified := fun hasleep hall _ _ hstep => hlife.notified b hasleep hall hstep

/-- In every run in which no `make_thread` fails or comes too late, `join` waits for threads that
will end. -/
theorem joinable (P : Placement τ ς δ) {sh : State τ ς ω × History τ}
    (hreach : (watched P).Reach (fun sh l => prompt sh.1 l = true) sh) : Joinable P sh.1 sh.2 := by
  have hinv : Books P sh.1 sh.2 ∧ Life sh.1 := by
    refine hreach.invariant (I := fun sh => Books P sh.1 sh.2 ∧ Life sh.1) ?_ ?_
    · rintro ⟨s, h⟩ ⟨hs, hh⟩
      cases hs
      cases hh
      exact ⟨.initial, .initial⟩
    · rintro ⟨s, h⟩ l sh' - ⟨b, hlife⟩ hprompt hstep
      obtain ⟨s', hs', rfl⟩ := TransitionSystem.withHistory_step.mp hstep
      obtain ⟨hfault, hmove⟩ := step_move hs'
      have hmakes : l ≠ .makeFails := by
        rintro rfl
        cases hprompt
      have b' := b.move hfault hmove hmakes
      exact ⟨b', hlife.move b b' hmove hprompt⟩
  exact hinv.2.watches hinv.1

/-- One thread on a strand. -/
def single : Placement (Fin 2) Unit Unit := ⟨fun _ => (), fun _ => ()⟩

/-- The thread runs to its end while `join` sleeps, and the next check notifies `join`. -/
theorem joinable_one : ∃ sh : State (Fin 2) Unit Unit × History (Fin 2), Joinable single sh.1 sh.2 ∧
    sh.1.joining = .asleep ∧ sh.2.roll = ⟨[0], [0]⟩ := by
  let labels : List (Label (Fin 2) Unit Unit) :=
    [.start [()], .thread (.makeThread 0), .join, .advance, .tick (), .thread (.run () ()),
      .thread (.finish ()), .thread (.run () ())]
  have hreach := (watched single).reach_of_run (fun sh l => prompt sh.1 l) (initial, .start)
    ⟨rfl, rfl⟩ labels rfl
  exact ⟨_, joinable single hreach, rfl, rfl⟩

/-- A thread whose constructor throws stays counted: `join` sleeps though no thread is left. A
thread that is made after the last check of a batch is counted and never run: the `io_service` is
stopped. -/
theorem join_stranded :
    (∃ sh : State (Fin 2) Unit Unit × History (Fin 2),
      (watched single).Reachable sh ∧ sh.1.joining = .asleep ∧
      sh.1.started = true ∧ sh.1.threads.threadCount = 1 ∧ sh.2.roll = ⟨[0], [0]⟩ ∧
      ¬ Joinable single sh.1 sh.2) ∧
    ∃ sh : State (Fin 2) Unit Unit × History (Fin 2),
    (watched single).Reachable sh ∧ sh.1.joining = .asleep ∧
      sh.1.started = true ∧ sh.1.threads.threadCount = 1 ∧ sh.1.stopped = true ∧
      ¬ Joinable single sh.1 sh.2 := by
  constructor
  · let labels : List (Label (Fin 2) Unit Unit) :=
      [.start [()], .thread (.makeThread 0), .makeFails, .thread (.run () ()), .thread (.finish ()),
        .thread (.run () ()), .join, .advance]
    have hreach := (watched single).reach_of_run (fun _ _ => true) (initial, .start)
      ⟨rfl, rfl⟩ labels rfl
    refine ⟨_, hreach.reachable, rfl, rfl, rfl, rfl, fun hjoinable => ?_⟩
    obtain ⟨-, -, t, hmade, hlive⟩ := hjoinable.counted (by decide) rfl (by decide)
    exact hlive hmade
  · let labels : List (Label (Fin 2) Unit Unit) :=
      [.start [()], .thread (.makeThread 0), .thread (.run () ()), .thread (.finish ()),
        .thread (.run () ()), .tick (), .thread (.makeThread 1), .join, .advance]
    have hreach := (watched single).reach_of_run (fun _ _ => true) (initial, .start)
      ⟨rfl, rfl⟩ labels rfl
    refine ⟨_, hreach.reachable, rfl, rfl, rfl, rfl, fun hjoinable => ?_⟩
    cases (hjoinable.counted (by decide) rfl (by decide)).1

/-! ### The stop of the `io_service` -/

/-- The count is that of the roll, and the activations of the threads are accounted for until a run
fails. -/
theorem sheltered_books (P : Placement τ ς δ) {sh : State τ ς ω × History τ}
    (hreach : (watched P).Reach (fun sh l => orderly sh.1 sh.2 l = true) sh) :
    Books P sh.1 sh.2 ∧ (sh.1.threads.fault = none → Good P sh.1.threads sh.2.tally) := by
  refine hreach.invariant (I := fun sh => Books P sh.1 sh.2 ∧
    (sh.1.threads.fault = none → Good P sh.1.threads sh.2.tally)) ?_ ?_
  · rintro ⟨s, h⟩ ⟨hs, hh⟩
    cases hs
    cases hh
    exact ⟨.initial, fun _ => ⟨rfl, initial_inv, fun _ => ⟨rfl, rfl⟩⟩⟩
  · rintro ⟨s, h⟩ l sh' - ⟨b, hgood⟩ horderly hstep
    obtain ⟨s', hs', rfl⟩ := TransitionSystem.withHistory_step.mp hstep
    obtain ⟨hfault, hmove⟩ := step_move hs'
    have hmakes : l ≠ .makeFails := by
      rintro rfl
      cases horderly
    refine ⟨b.move hfault hmove hmakes, fun hfault' => ?_⟩
    cases hmove with
    | miscounts => exact absurd rfl hmakes
    | steps hrunnable hthreads =>
      exact (hgood hfault).step (Scheduler.step_move hthreads).2 horderly hfault'
    | _ => exact hgood hfault

/-- In every run whose `make_thread`s succeed and whose pauses are matched, `thread_count_` is
exact, and the `io_service` is stopped only when every thread has stopped for good. -/
theorem sheltered (P : Placement τ ς δ) {sh : State τ ς ω × History τ}
    (hreach : (watched P).Reach (fun sh l => orderly sh.1 sh.2 l = true) sh) :
    Sheltered P sh.1 sh.2 := by
  obtain ⟨b, hgood⟩ := sheltered_books P hreach
  refine ⟨b.rolls.live, fun w s' hstep hstops t hmade => ?_⟩
  obtain ⟨hfault, hmove⟩ := step_move hstep
  have hcount : sh.1.threads.threadCount ≤ 0 := by
    generalize hl : Label.tick w = l at hmove
    cases hmove with
    | rearms hruns => cases hruns.symm.trans hstops
    | stops _ hcount => exact hcount
    | _ => cases hl
  have hstopped := b.rolls.stopped (b.rolls.all_exited hcount hmade)
  exact ⟨hstopped, (hgood hfault).accounted.stopped t hstopped⟩

/-- Thread 0 makes thread 1 and ends. The first check leaves thread 1 its time, the second stops the
`io_service`. -/
theorem sheltered_child : ∃ sh : State (Fin 2) Unit Unit × History (Fin 2),
    Sheltered single sh.1 sh.2 ∧
    sh.2.roll = ⟨[0, 1], [0, 1]⟩ ∧ ((step single sh.1 (.tick ())).map State.stopped) =
    some true := by
  let labels : List (Label (Fin 2) Unit Unit) :=
    [.start [()], .thread (.makeThread 0), .thread (.run () ()), .thread (.makeThread 1),
      .thread (.finish ()), .thread (.run () ()), .thread (.yield ()), .tick (),
      .thread (.run () ()), .thread (.run () ()), .thread (.finish ()), .thread (.run () ())]
  have hreach := (watched single).reach_of_run (fun sh l => orderly sh.1 sh.2 l) (initial, .start)
    ⟨rfl, rfl⟩ labels rfl
  exact ⟨_, sheltered single hreach, rfl, rfl⟩

end Pool

end Scheduler

end GreenThread
