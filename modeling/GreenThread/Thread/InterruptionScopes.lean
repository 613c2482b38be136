import GreenThread.Thread.InterruptionPoints
import Mathlib.Algebra.Group.Nat.Defs

/-!
# Nested interruption scopes

The code of a green thread as a tree of `disable_interruption` and `restore_interruption` scopes. A
scope is left when its body is over or has thrown, and its destructor runs either way. `exec` runs a
tree with the constructors and destructors of `InterruptionPoints`, and notes for every point the
open scopes and the level, and for every scope the level before and after it. `Way` says which
points and scopes these are, without a level.

The level is an `int`. It leaves its range when one scope more is open than its largest number.
-/

namespace GreenThread.InterruptionPoints

/-- Code of one thread. `interrupted` is a call of `interrupt` by another thread at this point. -/
inductive Code
  | skip
  | observe (o : Observer)
  | interrupted
  | throws
  | seq (first second : Code)
  | scope (kind : Scope) (body : Code)
  | tryCatch (body handler : Code)

/-- A point of a run: the open scopes, the innermost first, the level and what
`interruption_enabled` answers. -/
structure Point where
  scopes : List Scope
  level : Int32
  enabled : Bool

/-- A scope that was left, with those around it, and the level before it was entered and after it
was left. -/
structure Visit where
  scopes : List Scope
  before : Int32
  after : Int32

structure Outcome where
  thread : Thread Int32
  threw : Bool := false
  points : List Point := []
  visits : List Visit := []

def Thread.point (t : Thread Int32) (scopes : List Scope) :
    Point := ⟨scopes, t.interruptDisableLevel, t.interruptionEnabled⟩

/-- Whether the call throws `thread_interrupted`. -/
def Thread.throws (t : Thread Int32) : Observer → Bool
  | .pause => t.pauseThrows
  | .interruptionPoint => t.interruptionPoint
  | _ => false

/-- The constructor of a scope's object. -/
def Thread.enter (t : Thread Int32) : Scope → Thread Int32
  | .disable => t.disableInterruption
  | .restore => t.restoreInterruption

/-- What happens after the points and visits of an earlier part. -/
def Outcome.after (o : Outcome) (points : List Point) (visits : List Visit) : Outcome :=
  { o with points := points ++ o.points, visits := visits ++ o.visits }

/-- The run of a piece of code inside the given scopes. There is none when a destructor finds no
scope of its own. -/
def exec : Code → List Scope → Thread Int32 → Option Outcome
  | .skip, scopes, t => some { thread := t, points := [t.point scopes] }
  | .observe o, scopes, t => some { thread := t, threw := t.throws o, points := [t.point scopes] }
  | .interrupted, scopes, t => some { thread := t.interrupt, points := [t.point scopes] }
  | .throws, scopes, t => some { thread := t, threw := true, points := [t.point scopes] }
  | .seq first second, scopes, t =>
    (exec first scopes t).bind fun o =>
      if o.threw then some o else (exec second scopes o.thread).map fun o' =>
        o'.after o.points o.visits
  | .scope kind body, scopes, t =>
    (exec body (kind :: scopes) (t.enter kind)).bind fun o =>
      o.thread.leave.map fun t' =>
        { thread := t'
          threw := o.threw
          points := t.point scopes :: o.points ++ [t'.point scopes]
          visits :=
            o.visits ++ [⟨kind :: scopes, t.interruptDisableLevel, t'.interruptDisableLevel⟩] }
  | .tryCatch body handler, scopes, t =>
    (exec body scopes t).bind fun o =>
      if o.threw then (exec handler scopes o.thread).map fun o' =>
        o'.after o.points o.visits else some o

/-! ### The ways through a tree -/

/-- A way through the code inside the given scopes: whether it ends by an exception, the scopes that
are open at each place that it passes, and each scope that it leaves. Only the two interruption
points throw by themselves. -/
inductive Way : Code → List Scope → Bool → List (List Scope) → List (List Scope) → Prop
  | skip {scopes} : Way .skip scopes false [scopes] []
  | observe {o scopes} (threw : Bool)
      (hthrew : threw = true → o = .pause ∨ o = .interruptionPoint) :
      Way (.observe o) scopes threw [scopes] []
  | interrupted {scopes} : Way .interrupted scopes false [scopes] []
  | throws {scopes} : Way .throws scopes true [scopes] []
  | seqThrew {first second scopes places left} (h : Way first scopes true places left) :
      Way (.seq first second) scopes true places left
  | seq {first second scopes threw places places' left left'}
      (h : Way first scopes false places left)
      (h' : Way second scopes threw places' left') :
      Way (.seq first second) scopes threw (places ++ places') (left ++ left')
  | scope {kind body scopes threw places left} (h : Way body (kind :: scopes) threw places left) :
      Way (.scope kind body) scopes threw (scopes :: places ++ [scopes]) (left ++ [kind :: scopes])
  | tryOnly {body handler scopes places left} (h : Way body scopes false places left) :
      Way (.tryCatch body handler) scopes false places left
  | tryCatch {body handler scopes threw places places' left left'}
      (h : Way body scopes true places left)
      (h' : Way handler scopes threw places' left') :
      Way (.tryCatch body handler) scopes threw (places ++ places') (left ++ left')

/-- How many `disable_interruption` scopes were opened after the innermost `restore_interruption`
scope. -/
def opened : List Scope → Nat
  | .disable :: scopes => opened scopes + 1
  | _ => 0

/-- The largest number of `disable_interruption` scopes that are open after a `restore_interruption`
scope, when `n` are open around the code. -/
def Code.depth : Code → Nat → Nat
  | .seq first second, n => max (first.depth n) (second.depth n)
  | .scope .disable body, n => body.depth (n + 1)
  | .scope .restore body, n => max n (body.depth 0)
  | .tryCatch body handler, n => max (body.depth n) (handler.depth n)
  | _, n => n

theorem Code.le_depth (c : Code) (n : Nat) : n ≤ c.depth n := by
  induction c generalizing n with
  | seq first second ih => exact Nat.le_trans (ih n) (Nat.le_max_left ..)
  | scope kind body ih =>
    cases kind with
    | disable => exact Nat.le_trans (Nat.le_succ n) (ih (n + 1))
    | restore => exact Nat.le_max_left ..
  | tryCatch body handler ih => exact Nat.le_trans (ih n) (Nat.le_max_left ..)
  | _ => exact Nat.le_refl n

theorem Way.opened_le {c : Code} {scopes : List Scope} {threw : Bool}
    {places left : List (List Scope)}
    (h : Way c scopes threw places left) : ∀ p ∈ places, opened p ≤ c.depth (opened scopes) := by
  induction h with
  | skip | observe | interrupted | throws =>
    intro p hp
    rw [List.mem_singleton.mp hp]
    exact Nat.le_refl _
  | seqThrew _ ih | tryOnly _ ih => exact fun p hp => Nat.le_trans (ih p hp) (Nat.le_max_left ..)
  | seq _ _ ih ih' | tryCatch _ _ ih ih' =>
    intro p hp
    rcases List.mem_append.mp hp with hp | hp
    · exact Nat.le_trans (ih p hp) (Nat.le_max_left ..)
    · exact Nat.le_trans (ih' p hp) (Nat.le_max_right ..)
  | @scope kind body scopes threw places left _ ih =>
    intro p hp
    have houter : opened scopes ≤ (Code.scope kind body).depth (opened scopes) := Code.le_depth ..
    rw [List.mem_append, List.mem_cons, List.mem_singleton] at hp
    rcases hp with (rfl | hp) | rfl
    · exact houter
    · cases kind with
      | disable => exact ih p hp
      | restore => exact Nat.le_trans (ih p hp) (Nat.le_max_right ..)
    · exact houter

/-! ### The points of a run -/

/-- Interruption is enabled there unless a `disable_interruption` scope is open that was opened
after every open `restore_interruption` scope, and the level is not negative. -/
structure Point.Agrees (p : Point) : Prop where
  nonneg : 0 ≤ p.level
  enabled : p.enabled = true ↔ ∀ i : Nat, p.scopes[i]? = some Scope.disable →
    ∃ j < i, p.scopes[j]? = some Scope.restore

theorem enabled_iff (scopes : List Scope) :
    enabled scopes = true ↔ ∀ i : Nat, scopes[i]? = some Scope.disable →
    ∃ j < i, scopes[j]? = some Scope.restore := by
  cases scopes with
  | nil => simp [enabled]
  | cons scope scopes =>
    cases scope with
    | disable =>
      refine ⟨fun h => absurd h Bool.false_ne_true, fun h => ?_⟩
      obtain ⟨j, hj, -⟩ := h 0 rfl
      exact absurd hj (Nat.not_lt_zero j)
    | restore =>
      refine ⟨fun _ i hi => ?_, fun _ => rfl⟩
      cases i with
      | zero => cases hi
      | succ i => exact ⟨0, Nat.succ_pos i, rfl⟩

theorem enabled_eq (scopes : List Scope) : enabled scopes = decide (opened scopes = 0) := by
  cases scopes with
  | nil => rfl
  | cons scope scopes => cases scope <;> rfl

/-- The level counts the scopes, as far as its 32 bits go. -/
theorem level_opened (guards : List (Guard Int32)) :
    level guards = Int32.ofNat (opened (guards.map Guard.scope)) := by
  induction guards with
  | nil => rfl
  | cons g guards ih =>
    cases g with
    | disable =>
      change level guards + 1 = Int32.ofNat (opened (guards.map Guard.scope) + 1)
      rw [ih, Int32.ofNat_add]
      rfl
    | restore l => rfl

/-- The thread is inside these scopes, and its level is theirs. -/
structure Inside (t : Thread Int32) (scopes : List Scope) : Prop where
  scopes : scopes = t.guards.map Guard.scope
  nested : Nested t.guards
  level : t.interruptDisableLevel = level t.guards

namespace Inside

variable {t : Thread Int32} {scopes : List Scope} (h : Inside t scopes)

include h

theorem toInt_level (hdepth : opened scopes < 2 ^ 31) :
    t.interruptDisableLevel.toInt = opened scopes := by
  rw [h.level, level_opened, ← h.scopes, Int32.toInt_ofNat_of_lt hdepth]

theorem agrees (hdepth : opened scopes < 2 ^ 31) : (t.point scopes).Agrees where
  nonneg := by
    rw [Int32.le_iff_toInt_le, Thread.point, h.toInt_level hdepth]
    exact Int.natCast_nonneg _
  enabled := by
    have hzero : t.interruptDisableLevel = 0 ↔ opened scopes = 0 := by
      rw [← Int32.toInt_inj, h.toInt_level hdepth]
      exact Int.natCast_eq_zero
    rw [← enabled_iff, enabled_eq]
    exact (beq_iff_eq.trans hzero).trans decide_eq_true_iff.symm

theorem enter (kind : Scope) : Inside (t.enter kind) (kind :: scopes) := by
  cases kind with
  | disable => exact ⟨congrArg (_ :: ·) h.scopes, h.nested, congrArg (· + 1) h.level⟩
  | restore => exact ⟨congrArg (_ :: ·) h.scopes, ⟨h.level, h.nested⟩, rfl⟩

theorem congr {t' : Thread Int32} (hguards : t'.guards = t.guards)
    (hlevel : t'.interruptDisableLevel = t.interruptDisableLevel) :
    Inside t' scopes := by
  refine ⟨?_, ?_, ?_⟩
  · rw [hguards]
    exact h.scopes
  · rw [hguards]
    exact h.nested
  · rw [hguards, hlevel]
    exact h.level

end Inside

theorem Thread.interrupt_guards (t : Thread Int32) : t.interrupt.guards = t.guards := by
  rw [Thread.interrupt]
  split <;> rfl

theorem Thread.interrupt_level (t : Thread Int32) :
    t.interrupt.interruptDisableLevel = t.interruptDisableLevel := by
  rw [Thread.interrupt]
  split <;> rfl

/-- The destructor undoes the constructor, whatever the body did to the rest of the thread. -/
theorem Thread.leave_enter {t t' : Thread Int32} {kind : Scope}
    (hguards : t'.guards = (t.enter kind).guards)
    (hlevel : t'.interruptDisableLevel = (t.enter kind).interruptDisableLevel) :
    ∃ left, t'.leave = some left ∧ left.guards = t.guards ∧
    left.interruptDisableLevel = t.interruptDisableLevel := by
  cases kind with
  | disable =>
    change t'.guards = .disable :: t.guards at hguards
    change t'.interruptDisableLevel = t.interruptDisableLevel + 1 at hlevel
    refine ⟨{ t' with interruptDisableLevel := t'.interruptDisableLevel - 1, guards := t.guards },
      ?_, rfl, ?_⟩
    · rw [Thread.leave, hguards]
    · rw [hlevel]
      exact Int32.add_sub_cancel ..
  | restore =>
    change t'.guards = .restore t.interruptDisableLevel :: t.guards at hguards
    refine ⟨{ t' with interruptDisableLevel := t.interruptDisableLevel, guards := t.guards }, ?_,
      rfl, rfl⟩
    rw [Thread.leave, hguards]

/-! ### Every tree -/

/-- A run that goes a way through the code, and leaves the thread in the scopes it was in with the
level they had. -/
structure Keeps (c : Code) (scopes : List Scope) (t : Thread Int32) (o : Outcome) : Prop where
  way : Way c scopes o.threw (o.points.map Point.scopes) (o.visits.map Visit.scopes)
  guards : o.thread.guards = t.guards
  level : o.thread.interruptDisableLevel = t.interruptDisableLevel
  visits : ∀ v ∈ o.visits, v.after = v.before
  points : ∀ p ∈ o.points, opened p.scopes < 2 ^ 31 → p.Agrees

namespace Keeps

variable {c c' : Code} {t : Thread Int32} {scopes : List Scope} {o o' : Outcome}

theorem leaf (h : Inside t scopes) {t' : Thread Int32} {threw : Bool}
    (hway : Way c scopes threw [scopes] [])
    (hguards : t'.guards = t.guards) (hlevel : t'.interruptDisableLevel = t.interruptDisableLevel) :
    Keeps c scopes t { thread := t', threw, points := [t.point scopes] } where
  way := hway
  guards := hguards
  level := hlevel
  visits := nofun
  points := by
    intro p hp
    obtain rfl := List.mem_singleton.mp hp
    exact h.agrees

theorem inside (hkeeps : Keeps c scopes t o) (h : Inside t scopes) : Inside o.thread scopes :=
  h.congr hkeeps.guards hkeeps.level

theorem trans {both : Code} (h : Keeps c scopes t o) (h' : Keeps c' scopes o.thread o')
    (hway : Way both scopes o'.threw (o.points.map Point.scopes ++ o'.points.map Point.scopes)
      (o.visits.map Visit.scopes ++ o'.visits.map Visit.scopes)) :
    Keeps both scopes t (o'.after o.points o.visits) where
  way := by
    simp only [Outcome.after, List.map_append]
    exact hway
  guards := h'.guards.trans h.guards
  level := h'.level.trans h.level
  visits := by
    intro v hv
    rcases List.mem_append.mp hv with hv | hv
    · exact h.visits v hv
    · exact h'.visits v hv
  points := by
    intro p hp
    rcases List.mem_append.mp hp with hp | hp
    · exact h.points p hp
    · exact h'.points p hp

theorem of_way {both : Code} (h : Keeps c scopes t o)
    (hway : Way both scopes o.threw (o.points.map Point.scopes) (o.visits.map Visit.scopes)) :
    Keeps both scopes t o :=
  ⟨hway, h.guards, h.level, h.visits, h.points⟩

end Keeps

theorem exec_keeps (c : Code) {scopes : List Scope} {t : Thread Int32} (h : Inside t scopes) :
    ∃ o, exec c scopes t = some o ∧ Keeps c scopes t o := by
  induction c generalizing scopes t with
  | skip => exact ⟨_, rfl, .leaf h .skip rfl rfl⟩
  | observe o =>
    refine ⟨_, rfl, .leaf h (.observe _ fun hthrew => ?_) rfl rfl⟩
    cases o with
    | pause => exact .inl rfl
    | interruptionPoint => exact .inr rfl
    | _ => cases hthrew
  | interrupted => exact ⟨_, rfl, .leaf h .interrupted t.interrupt_guards t.interrupt_level⟩
  | throws => exact ⟨_, rfl, .leaf h .throws rfl rfl⟩
  | seq first second ihFirst ihSecond =>
    obtain ⟨o, ho, hkeeps⟩ := ihFirst h
    have hway := hkeeps.way
    rw [exec, ho, Option.bind_some]
    cases hthrew : o.threw with
    | true =>
      rw [hthrew] at hway
      exact ⟨o, rfl, hkeeps.of_way (by rw [hthrew]; exact .seqThrew hway)⟩
    | false =>
      obtain ⟨o', ho', hkeeps'⟩ := ihSecond (hkeeps.inside h)
      rw [hthrew] at hway
      exact ⟨_, congrArg (Option.map _) ho', hkeeps.trans hkeeps' (.seq hway hkeeps'.way)⟩
  | scope kind body ih =>
    obtain ⟨o, ho, hkeeps⟩ := ih (h.enter kind)
    obtain ⟨t', ht', hguards, hlevel⟩ := Thread.leave_enter hkeeps.guards hkeeps.level
    rw [exec, ho, Option.bind_some, ht', Option.map_some]
    refine ⟨_, rfl, ?_, hguards, hlevel, fun v hv => ?_, fun p hp => ?_⟩
    · simp only [List.map_append, List.map_cons, List.map_nil]
      exact .scope hkeeps.way
    · rcases List.mem_append.mp hv with hv | hv
      · exact hkeeps.visits v hv
      · obtain rfl := List.mem_singleton.mp hv
        exact hlevel
    · rw [List.mem_append, List.mem_cons, List.mem_singleton] at hp
      rcases hp with (rfl | hp) | rfl
      · exact h.agrees
      · exact hkeeps.points p hp
      · exact (h.congr hguards hlevel).agrees
  | tryCatch body handler ihBody ihHandler =>
    obtain ⟨o, ho, hkeeps⟩ := ihBody h
    have hway := hkeeps.way
    rw [exec, ho, Option.bind_some]
    cases hthrew : o.threw with
    | true =>
      obtain ⟨o', ho', hkeeps'⟩ := ihHandler (hkeeps.inside h)
      rw [hthrew] at hway
      exact ⟨_, congrArg (Option.map _) ho', hkeeps.trans hkeeps' (.tryCatch hway hkeeps'.way)⟩
    | false =>
      rw [hthrew] at hway
      exact ⟨o, rfl, hkeeps.of_way (by rw [hthrew]; exact .tryOnly hway)⟩

/-- The run passes the places of a way through the code and leaves its scopes: each of them leaves
the level as it found it, and at every place the level is not negative and interruption is enabled
as the open scopes say. -/
structure Nests (c : Code) (o : Outcome) : Prop where
  way : Way c [] o.threw (o.points.map Point.scopes) (o.visits.map Visit.scopes)
  level : o.thread.interruptDisableLevel = 0
  visits : ∀ v ∈ o.visits, v.after = v.before
  points : ∀ p ∈ o.points, p.Agrees

/-- Every tree of scopes that the level can count runs to its end, and its scopes nest. -/
theorem scopes_nest (c : Code) (requested : Bool) (hdepth : c.depth 0 < 2 ^ 31) :
    ∃ o, exec c [] { interruptDisableLevel := 0, interruptRequested := requested } = some o ∧
    Nests c o := by
  obtain ⟨o, ho, hkeeps⟩ :=
    exec_keeps (t := { interruptDisableLevel := 0, interruptRequested := requested }) c
    ⟨rfl, trivial, rfl⟩
  refine ⟨o, ho, hkeeps.way, hkeeps.level, hkeeps.visits, fun p hp => hkeeps.points p hp ?_⟩
  exact Nat.lt_of_le_of_lt (hkeeps.way.opened_le _ (List.mem_map_of_mem hp)) hdepth

/-- The second `pause` is inside a `restore_interruption`, and throws. -/
theorem scopes_nest_interrupted : ∃ o, o.threw = true ∧ o.points.length = 6 ∧ o.visits.length = 2 ∧
    Nests (.scope .disable (.seq (.observe .pause) (.scope .restore (.observe .pause)))) o := by
  obtain ⟨o, ho, hnests⟩ :=
    scopes_nest (.scope .disable (.seq (.observe .pause) (.scope .restore (.observe .pause))))
    true (by decide)
  cases ho
  exact ⟨_, rfl, rfl, rfl, hnests⟩

/-- So many `disable_interruption` scopes, one in the other. -/
def nested : Nat → Code
  | 0 => .skip
  | n + 1 => .scope .disable (nested n)

theorem exec_nested (n : Nat) {scopes : List Scope} {t : Thread Int32} {o : Outcome}
    (h : exec (nested n) scopes t = some o) :
    ∃ p ∈ o.points, p.level = t.interruptDisableLevel + Int32.ofNat n := by
  induction n generalizing scopes t o with
  | zero =>
    cases h
    exact ⟨_, List.mem_singleton.mpr rfl, (Int32.add_zero _).symm⟩
  | succ n ih =>
    obtain ⟨inner, hinner, h⟩ := Option.bind_eq_some_iff.mp h
    obtain ⟨t', -, rfl⟩ := Option.map_eq_some_iff.mp h
    obtain ⟨p, hp, hlevel⟩ := ih hinner
    refine ⟨p, List.mem_append_left _ (List.mem_cons_of_mem _ hp), ?_⟩
    rw [hlevel, Int32.ofNat_add, Int32.add_comm (Int32.ofNat n), ← Int32.add_assoc]
    rfl

/-- Inside `2 ^ 31` scopes the level is negative. -/
theorem level_overflows : ¬ ∀ (c : Code) (requested : Bool),
    ∃ o, exec c [] { interruptDisableLevel := 0, interruptRequested := requested } = some o ∧
    Nests c o := by
  intro hall
  obtain ⟨o, ho, hnests⟩ := hall (nested (2 ^ 31)) false
  obtain ⟨p, hp, hlevel⟩ := exec_nested (2 ^ 31) ho
  have hnonneg := (hnests.points p hp).nonneg
  rw [hlevel] at hnonneg
  exact absurd hnonneg (by decide)

/-! ### The runs of `system` -/

/-- A run that comes back from every `pause`. -/
def Runs (t t' : Thread Int32) : Prop := t.paused = false →
    t'.paused = false ∧ ∃ events, system.run t events = some t'

namespace Runs

variable {t t' t'' : Thread Int32}

theorem refl (t : Thread Int32) : Runs t t := fun hawake => ⟨hawake, [], rfl⟩

theorem trans (h : Runs t t') (h' : Runs t' t'') : Runs t t'' := by
  intro hawake
  obtain ⟨hawake', events, hrun⟩ := h hawake
  obtain ⟨hawake'', events', hrun'⟩ := h' hawake'
  refine ⟨hawake'', events ++ events', ?_⟩
  rw [TransitionSystem.run_append, hrun, Option.bind_some, hrun']

theorem one {e : Event} (hstep : t.paused = false → system.step t e = some t')
    (hpaused : t'.paused = t.paused) : Runs t t' := by
  refine fun hawake => ⟨hpaused.trans hawake, [e], ?_⟩
  change (system.step t e).bind some = some t'
  rw [hstep hawake, Option.bind_some]

theorem observe (t : Thread Int32) (o : Observer) : Runs t t := by
  intro hawake
  refine ⟨hawake, if o = .pause then [.switchOut, .observe .pause] else [.observe o], ?_⟩
  obtain ⟨level, requested, guards, paused⟩ := t
  cases hawake
  cases o <;> rfl

theorem interrupt (t : Thread Int32) : Runs t t.interrupt := by
  refine one (e := .interrupt) (fun _ => rfl) ?_
  rw [Thread.interrupt]
  split <;> rfl

theorem enter (t : Thread Int32) (kind : Scope) : Runs t (t.enter kind) := by
  cases kind with
  | disable => exact one (e := .disableInterruption) (fun hawake => if_neg (by simp [hawake])) rfl
  | restore => exact one (e := .restoreInterruption) (fun hawake => if_neg (by simp [hawake])) rfl

theorem leave (hleave : t.leave = some t') : Runs t t' := by
  refine one (e := .leave) (fun hawake => ?_) ?_
  · exact (if_neg (by simp [hawake])).trans hleave
  · rw [Thread.leave] at hleave
    split at hleave <;> cases hleave <;> rfl

end Runs

/-- What a tree does to the thread is a run of `system`. -/
theorem exec_runs (c : Code) {scopes : List Scope} {t : Thread Int32} {o : Outcome}
    (h : exec c scopes t = some o) : Runs t o.thread := by
  induction c generalizing scopes t o with
  | skip | throws =>
    cases h
    exact .refl t
  | observe observer =>
    cases h
    exact .observe t observer
  | interrupted =>
    cases h
    exact .interrupt t
  | seq first second ihFirst ihSecond =>
    obtain ⟨mid, hmid, h⟩ := Option.bind_eq_some_iff.mp h
    split at h
    · cases h
      exact ihFirst hmid
    · obtain ⟨last, hlast, rfl⟩ := Option.map_eq_some_iff.mp h
      have hrest := ihSecond hlast
      exact (ihFirst hmid).trans hrest
  | scope kind body ih =>
    obtain ⟨inner, hinner, h⟩ := Option.bind_eq_some_iff.mp h
    obtain ⟨t', hleave, rfl⟩ := Option.map_eq_some_iff.mp h
    exact ((Runs.enter t kind).trans (ih hinner)).trans (.leave hleave)
  | tryCatch body handler ihBody ihHandler =>
    obtain ⟨mid, hmid, h⟩ := Option.bind_eq_some_iff.mp h
    split at h
    · obtain ⟨last, hlast, rfl⟩ := Option.map_eq_some_iff.mp h
      have hrest := ihHandler hlast
      exact (ihBody hmid).trans hrest
    · cases h
      exact ihBody hmid

end GreenThread.InterruptionPoints
