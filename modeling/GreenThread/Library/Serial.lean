import GreenThread.Library.System
import Mathlib.Logic.Relation

/-!
# Critical sections

Threads that take turns with some data: at most one of them is in its critical section, a step of
that thread is a step of its sequential code, and nothing else touches the data. Then every run is a
sequence of sections, one after the other: each finished section did to the data what its code does
when nobody else runs, from the data the section before it left behind.
-/

namespace Serial

variable {τ P D E F : Type*}

/-! ### Paths -/

/-- The labels lead from `d` to `d'` one after the other. -/
def Path (step : E → D → D → Prop) (d : D) : List E → D → Prop
  | [], d' => d = d'
  | e :: es, d' => ∃ mid, step e d mid ∧ Path step mid es d'

section Path

variable {step : E → D → D → Prop} {step' : F → D → D → Prop} {d d' : D}

theorem Path.snoc {es : List E} {e : E} {mid : D} (h : Path step d es mid) (he : step e mid d') :
    Path step d (es ++ [e]) d' := by
  induction es generalizing d with
  | nil =>
    cases h
    exact ⟨d', he, rfl⟩
  | cons e' es ih =>
    obtain ⟨next, hstep, hrest⟩ := h
    exact ⟨next, hstep, ih hrest⟩

/-- Labels that do nothing may be left out. -/
theorem Path.filterMap {es : List E} (f : E → Option F) (h : Path step d es d')
    (hsome : ∀ e ∈ es, ∀ x x' e', step e x x' → f e = some e' → step' e' x x')
    (hnone : ∀ e ∈ es, ∀ x x', step e x x' → f e = none → x = x') :
    Path step' d (es.filterMap f) d' := by
  induction es generalizing d with
  | nil => exact h
  | cons e es ih =>
    obtain ⟨mid, hstep, hrest⟩ := h
    have hrest := ih hrest (fun e' he' => hsome e' (List.mem_cons_of_mem _ he'))
      (fun e' he' => hnone e' (List.mem_cons_of_mem _ he'))
    cases hf : f e with
    | none =>
      rw [List.filterMap_cons_none hf, hnone e List.mem_cons_self _ _ hstep hf]
      exact hrest
    | some e' =>
      rw [List.filterMap_cons_some hf]
      exact ⟨mid, hsome e List.mem_cons_self _ _ _ hstep hf, hrest⟩

end Path

/-! ### Sections -/

/-- A finished critical section: where it began and where it ended, and with what data. -/
structure Section (τ P D : Type*) where
  thread : τ
  entry : P
  before : D
  exit : P
  after : D

/-- The data before and after a section. -/
def Section.Leads (x : Section τ P D) (d d' : D) : Prop := x.before = d ∧ x.after = d'

/-- A system seen through its critical sections. -/
structure View (S L τ P D : Type*) where
  /-- where the thread is in its section -/
  inside : S → τ → Option P
  data : S → D
  thread : L → τ
  code : τ → P × D → P × D → Prop
  entry : P → Prop
  exit : P → Prop

variable {S L : Type*}

namespace View

variable (v : View S L τ P D)

/-- The code of the thread leads from one place to another when nobody else runs. -/
def Runs (t : τ) : P × D → P × D → Prop := Relation.ReflTransGen (v.code t)

/-- The section began and ended where it may, and did what its code does. -/
structure Completes (x : Section τ P D) : Prop where
  entry : v.entry x.entry
  exit : v.exit x.exit
  runs : v.Runs x.thread (x.entry, x.before) (x.exit, x.after)

/-- What a step of the thread `t` does to its section and to the data. -/
inductive Turn (t : τ) (s s' : S) : Prop
  | outside (h : v.inside s t = none) (h' : v.inside s' t = none) (hdata : v.data s' = v.data s)
  | enters {q : P} (h : v.inside s t = none) (h' : v.inside s' t = some q) (hentry : v.entry q)
      (hdata : v.data s' = v.data s)
  | works {p q : P} (h : v.inside s t = some p) (h' : v.inside s' t = some q)
      (hruns : v.Runs t (p, v.data s) (q, v.data s'))
  | leaves {p : P} (h : v.inside s t = some p) (h' : v.inside s' t = none) (hexit : v.exit p)
      (hdata : v.data s' = v.data s)

/-- The threads of the system take turns, from the data `start` on. -/
structure TakesTurns (sys : TransitionSystem S L) (start : D) : Prop where
  init : ∀ {s}, sys.init s → v.data s = start ∧ ∀ t, v.inside s t = none
  alone : ∀ {s t u p q}, sys.Reachable s → v.inside s t = some p → v.inside s u = some q → t = u
  others : ∀ {s l s'}, sys.Reachable s → sys.step s l = some s' → ∀ u, u ≠ v.thread l →
    v.inside s' u = v.inside s u
  turn : ∀ {s l s'}, sys.Reachable s → sys.step s l = some s' → v.Turn (v.thread l) s s'

/-- The finished sections in the order of their ends, and how the open one began. -/
structure History (τ P D : Type*) where
  finished : List (Section τ P D)
  opened : Option (P × D)

def History.start : History τ P D := ⟨[], none⟩

def record (h : History τ P D) (s : S) (l : L) (s' : S) : History τ P D :=
  match v.inside s (v.thread l), v.inside s' (v.thread l) with
  | none, some q => { h with opened := some (q, v.data s') }
  | some p, none =>
    { finished := h.finished ++ h.opened.toList.map fun e => ⟨v.thread l, e.1, e.2, p, v.data s⟩
      opened := none }
  | _, _ => h

/-- The run so far is its finished sections, one after the other, and the beginning of the one that
is open. -/
structure Serializes (start : D) (s : S) (h : History τ P D) : Prop where
  completes : ∀ x ∈ h.finished, v.Completes x
  idle : (∀ t, v.inside s t = none) → Path Section.Leads start h.finished (v.data s)
  busy : ∀ t p, v.inside s t = some p → ∃ e d, h.opened = some (e, d) ∧ v.entry e ∧
    Path Section.Leads start h.finished d ∧ v.Runs t (e, d) (p, v.data s)

variable {v} {sys : TransitionSystem S L} {start : D} {s s' : S} {l : L} {h : History τ P D}

theorem record_stays (hstays : v.inside s (v.thread l) = none ∨ v.inside s' (v.thread l) ≠ none) :
    (v.record h s l s').finished = h.finished := by
  unfold record
  split
  · rfl
  · rename_i hin hout
    exact (hstays.elim (fun hnone => by cases hin.symm.trans hnone) fun hsome => absurd hout hsome)
  · rfl

theorem Serializes.record_leaves (hserial : v.Serializes start s h) {p : P}
    (hin : v.inside s (v.thread l) = some p) (hout : v.inside s' (v.thread l) = none) :
    ∃ e d, v.record h s l s' = ⟨h.finished ++ [⟨v.thread l, e, d, p, v.data s⟩], none⟩ ∧
      v.entry e ∧ Path Section.Leads start h.finished d ∧
      v.Runs (v.thread l) (e, d) (p, v.data s) := by
  obtain ⟨e, d, hopened, hentry, hpath, hruns⟩ := hserial.busy _ p hin
  refine ⟨e, d, ?_, hentry, hpath, hruns⟩
  simp only [record, hin, hout, hopened, Option.toList_some, List.map_cons, List.map_nil]

theorem Serializes.step (hserial : v.Serializes start s h) (hturns : v.TakesTurns sys start)
    (hr : sys.Reachable s)
    (hstep : sys.step s l = some s') : v.Serializes start s' (v.record h s l s') := by
  have hothers := hturns.others hr hstep
  have hr' : sys.Reachable s' := hr.step trivial hstep
  cases hturns.turn hr hstep with
  | outside hin hin' hdata =>
    have hsame : ∀ u, v.inside s' u = v.inside s u := fun u => by
      by_cases hu : u = v.thread l
      · rw [hu, hin, hin']
      · exact hothers u hu
    have hrecord : v.record h s l s' = h := by simp only [record, hin, hin']
    rw [hrecord]
    refine ⟨hserial.completes, fun hnone => ?_, fun u p hu => ?_⟩
    · rw [hdata]
      exact hserial.idle fun u => (hsame u).symm.trans (hnone u)
    · rw [hdata]
      exact hserial.busy u p ((hsame u).symm.trans hu)
  | @enters q hin hin' hentry hdata =>
    have hrecord : v.record h s l s' = { h with opened := some (q, v.data s') } := by
      simp only [record, hin, hin']
    -- nobody else is inside, because the thread is there now
    have hnone : ∀ u, v.inside s u = none := fun u => by
      by_cases hu : u = v.thread l
      · rw [hu, hin]
      · rw [← hothers u hu]
        cases hother : v.inside s' u with
        | none => rfl
        | some p => exact absurd (hturns.alone hr' hother hin') hu
    rw [hrecord]
    refine ⟨hserial.completes, fun hidle => ?_, fun u p hu => ?_⟩
    · cases (hidle (v.thread l)).symm.trans hin'
    · obtain rfl := hturns.alone hr' hu hin'
      obtain rfl := Option.some.inj (hin'.symm.trans hu)
      refine ⟨q, v.data s', rfl, hentry, ?_, .refl⟩
      rw [hdata]
      exact hserial.idle hnone
  | @works p q hin hin' hruns =>
    have hrecord : v.record h s l s' = h := by simp only [record, hin, hin']
    rw [hrecord]
    refine ⟨hserial.completes, fun hidle => ?_, fun u r hu => ?_⟩
    · cases (hidle (v.thread l)).symm.trans hin'
    · obtain rfl := hturns.alone hr' hu hin'
      obtain rfl := Option.some.inj (hin'.symm.trans hu)
      obtain ⟨e, d, hopened, hentry, hpath, hsofar⟩ := hserial.busy _ p hin
      exact ⟨e, d, hopened, hentry, hpath, hsofar.trans hruns⟩
  | @leaves p hin hin' hexit hdata =>
    obtain ⟨e, d, hrecord, hentry, hpath, hruns⟩ := hserial.record_leaves hin hin'
    rw [hrecord]
    refine ⟨fun x hx => ?_, fun _ => ?_, fun u q hu => ?_⟩
    · rcases List.mem_append.mp hx with hx | hx
      · exact hserial.completes x hx
      · obtain rfl := List.mem_singleton.mp hx
        exact ⟨hentry, hexit, hruns⟩
    · rw [hdata]
      exact hpath.snoc ⟨rfl, rfl⟩
    · by_cases hut : u = v.thread l
      · subst hut
        cases hin'.symm.trans hu
      · rw [hothers u hut] at hu
        exact absurd (hturns.alone hr hu hin) hut

/-- Every run of threads that take turns is its sections one after the other. -/
theorem TakesTurns.reach_serializes (hturns : v.TakesTurns sys start)
    {ok : S × History τ P D → L → Prop}
    {sh : S × History τ P D} (hr : (sys.withHistory .start v.record).Reach ok sh) :
    v.Serializes start sh.1 sh.2 := by
  refine hr.invariant (I := fun sh => v.Serializes start sh.1 sh.2) ?_ ?_
  · rintro ⟨s, h⟩ ⟨hs, hh⟩
    obtain rfl : h = .start := hh
    obtain ⟨hdata, hnone⟩ := hturns.init hs
    exact ⟨fun x hx => absurd hx List.not_mem_nil, fun _ => hdata.symm,
      fun t p ht => absurd ((hnone t).symm.trans ht) (Option.some_ne_none _).symm⟩
  · rintro ⟨s, h⟩ l sh' hr hserial - hstep
    obtain ⟨s', hs', rfl⟩ := TransitionSystem.withHistory_step.mp hstep
    exact hserial.step hturns hr.forget hs'

end View

end Serial
