import GreenThread.Scheduler.Strand
import Mathlib.Data.List.Nodup
import Mathlib.Tactic.Common

/-!
# The thread count

`make_thread` counts a thread in, and `on_thread_exit`, which the last step of the thread posts to
its strand, counts it out. Beside a run stand the threads that were made and the ones that
`on_thread_exit` has processed. A thread has at most one such handler in its life, and has had it or
waits for it exactly when it has stopped.
-/

namespace GreenThread

namespace Scheduler

variable {τ ς δ ω : Type} [DecidableEq τ] [DecidableEq ς] [DecidableEq δ] [DecidableEq ω]

/-- The threads that were made, and the ones that `on_thread_exit` has processed. -/
structure Roll (τ : Type) where
  made : List τ := []
  exited : List τ := []
  deriving DecidableEq, Repr

/-- The thread that a step makes. -/
def makes : Label τ ς ω → Option τ
  | .makeThread t => some t
  | _ => none

/-- The thread whose exit a step processes. -/
def exits (s : State τ ς ω) : Label τ ς ω → Option τ
  | .run _ x =>
    match s.queue x with
    | .onThreadExit t :: _ => some t
    | _ => none
  | _ => none

def Roll.record (r : Roll τ) (s : State τ ς ω) (l : Label τ ς ω) : Roll τ where
  made := r.made ++ (makes l).toList
  exited := r.exited ++ (exits s l).toList

/-- The threads that were made and not processed by `on_thread_exit`. -/
def Roll.live (r : Roll τ) : List τ := r.made.filter (· ∉ r.exited)

/-- The handlers of `t` that are queued on its strand and will count it out. -/
def State.leaving (P : Placement τ ς δ) (s : State τ ς ω) (t : τ) :
    Nat := (s.queue (P.strand t)).count (.onThreadExit t)

/-- A queued handler activates a thread that exists, or is on the strand of the thread that it
counts out. -/
def Placed (P : Placement τ ς δ) (s : State τ ς ω) (x : ς) : Handler τ → Prop
  | .activateThread t => s.status t ≠ none
  | .onThreadExit t => x = P.strand t

/-- The count agrees with the roll. -/
structure Rolls (P : Placement τ ς δ) (s : State τ ς ω) (r : Roll τ) : Prop where
  nodup : r.made.Nodup
  born : ∀ t, t ∈ r.made ↔ s.status t ≠ none
  placed : ∀ x, ∀ k ∈ s.queue x, Placed P s x k
  exits : ∀ t, r.exited.count t + s.leaving P t = (decide (s.status t = some .stopped)).toNat
  count : s.threadCount = r.made.length - r.exited.length

variable {P : Placement τ ς δ} {s s' : State τ ς ω} {l : Label τ ς ω} {r : Roll τ} {t u : τ}

/-! ### What the roll says -/

section

omit [DecidableEq ς] [DecidableEq δ] [DecidableEq ω]

theorem Rolls.stopped (h : Rolls P s r) (hmem : t ∈ r.exited) : s.status t = some .stopped := by
  by_contra hnot
  have hexits := h.exits t
  have hcount : 0 < r.exited.count t := List.count_pos_iff.mpr hmem
  rw [decide_eq_false hnot, Bool.toNat_false] at hexits
  omega

theorem Rolls.exited_subset (h : Rolls P s r) : r.exited ⊆ r.made := fun t hmem => by
  rw [h.born t, h.stopped hmem]
  exact nofun

theorem Rolls.exited_nodup (h : Rolls P s r) : r.exited.Nodup :=
  List.nodup_iff_count_le_one.mpr fun t => by
    have hexits := h.exits t
    have hle := Bool.toNat_le (decide (s.status t = some .stopped))
    omega

/-- The count is the number of the threads that were not counted out. -/
theorem Rolls.live (h : Rolls P s r) : s.threadCount = r.live.length := by
  have hsplit := r.made.length_eq_length_filter_add (· ∈ r.exited)
  have hexited : (r.made.filter (· ∈ r.exited)).Perm r.exited :=
    (List.perm_ext_iff_of_nodup (h.nodup.filter _) h.exited_nodup).mpr fun t => by
      simpa using fun hmem => h.exited_subset hmem
  have hlive : r.live = r.made.filter fun t => !decide (t ∈ r.exited) := by simp [Roll.live]
  rw [h.count, hlive, hsplit, hexited.length_eq]
  omega

theorem Rolls.all_exited (h : Rolls P s r) (hcount : s.threadCount ≤ 0) (hmade : t ∈ r.made) :
    t ∈ r.exited := by
  by_contra hnot
  have hmem : t ∈ r.live := List.mem_filter.mpr ⟨hmade, by simpa using hnot⟩
  have hpos := List.length_pos_of_mem hmem
  have hlive := h.live
  omega

theorem Rolls.exists_live (h : Rolls P s r) (hcount : 0 < s.threadCount) :
    ∃ t ∈ r.made, t ∉ r.exited := by
  have hpos : 0 < r.live.length := by
    have hlive := h.live
    omega
  obtain ⟨t, hmem⟩ := List.exists_mem_of_length_pos hpos
  obtain ⟨hmade, hnot⟩ := List.mem_filter.mp hmem
  exact ⟨t, hmade, by simpa using hnot⟩

end

/-! ### One step -/

omit [DecidableEq τ] [DecidableEq ς] [DecidableEq δ] [DecidableEq ω] in
theorem Placed.of_born {x : ς} {k : Handler τ} (h : Placed P s x k)
    (hborn : ∀ t, s'.status t = none → s.status t = none) :
    Placed P s' x k := by
  cases k with
  | activateThread t => exact fun hnone => h (hborn t hnone)
  | onThreadExit t => exact h

omit [DecidableEq ς] [DecidableEq δ] [DecidableEq ω] in
theorem Rolls.keeps (h : Rolls P s r) (hborn : ∀ t, s'.status t = none ↔ s.status t = none)
    (hstopped : ∀ t, s'.status t = some .stopped ↔ s.status t = some .stopped)
    (hplaced : ∀ x, ∀ k ∈ s'.queue x, Placed P s x k)
    (hleaving : ∀ t, s'.leaving P t = s.leaving P t) (hcount : s'.threadCount = s.threadCount) :
    Rolls P s' r where
  nodup := h.nodup
  born := fun t => by rw [h.born t, ne_eq, ne_eq, hborn t]
  placed := fun x k hmem => (hplaced x k hmem).of_born fun t hnone => (hborn t).mp hnone
  exits := fun t => by
    rw [hleaving t, h.exits t]
    simp only [hstopped t]
  count := hcount.trans h.count

omit [DecidableEq δ] [DecidableEq ω] in
theorem post_leaving (s : State τ ς ω) {x : ς} {k : Handler τ} (hk : k ≠ .onThreadExit u) :
    (s.post x k).leaving P u = s.leaving P u := by
  unfold State.post State.leaving
  by_cases hx : P.strand u = x
  · subst hx
    simp [List.count_append, hk]
  · simp [Function.update_of_ne hx]

omit [DecidableEq τ] [DecidableEq ω] in
theorem mem_post {x y : ς} {k k' : Handler τ} (hmem : k' ∈ (s.post x k).queue y) :
    k' ∈ s.queue y ∨ y = x ∧ k' = k := by
  by_cases hy : y = x
  · subst hy
    simpa [State.post] using hmem
  · exact .inl (by simpa [State.post, hy] using hmem)

omit [DecidableEq τ] [DecidableEq ω] in
theorem mem_pop {x y : ς} {k k' : Handler τ} {rest : List (Handler τ)}
    (hqueue : s.queue x = k :: rest)
    (hmem : k' ∈ Function.update s.queue x rest y) : k' ∈ s.queue y := by
  by_cases hy : y = x
  · subst hy
    rw [hqueue]
    exact List.mem_cons_of_mem _ (by simpa using hmem)
  · simpa [hy] using hmem

omit [DecidableEq δ] [DecidableEq ω] in
theorem Rolls.resume (h : Rolls P s r) (hborn : s.status t ≠ none) : Rolls P (s.resume P t) r := by
  refine h.keeps (fun _ => Iff.rfl) (fun _ => Iff.rfl) (fun x k hmem => ?_)
    (fun u => post_leaving s nofun) rfl
  rcases mem_post hmem with hmem | ⟨hx, rfl⟩
  · exact h.placed x k hmem
  · exact hborn

omit [DecidableEq δ] [DecidableEq ω] in
theorem Rolls.hold (h : Rolls P s r) (x : ς) (w : ω) :
    Rolls P (s.hold x w) r := ⟨h.nodup, h.born, h.placed, h.exits, h.count⟩

omit [DecidableEq ς] [DecidableEq δ] in
theorem Rolls.enters (h : Rolls P s r) (hborn : s.status t ≠ none) (w : ω) :
    Rolls P (activateThread s w t) r := by
  rcases activateThread_cases s w t with ⟨hrunning, hstopped, heq⟩ | ⟨f, heq⟩
  · rw [heq]
    refine h.keeps (fun u => ?_) (fun u => ?_) h.placed (fun _ => rfl) rfl
    · by_cases hu : u = t
      · subst hu
        exact iff_of_false (by simp [State.enter]) hborn
      · simp [State.enter, hu]
    · by_cases hu : u = t
      · subst hu
        exact iff_of_false (by simp [State.enter]) hstopped
      · simp [State.enter, hu]
  · rw [heq]
    exact h.keeps (fun _ => Iff.rfl) (fun _ => Iff.rfl) h.placed (fun _ => rfl) rfl

omit [DecidableEq δ] in
theorem Rolls.leaves (h : Rolls P s r) {w : ω} {below : List τ} {p : Status}
    (hborn : s.status t = some .running)
    (hp : p ≠ .stopped) : Rolls P (s.leave P w t below p) r := by
  refine h.keeps (fun u => ?_) (fun u => ?_) h.placed (fun _ => rfl) rfl
  · by_cases hu : u = t
    · subst hu
      simp [State.leave, hborn]
    · simp [State.leave, hu]
  · by_cases hu : u = t
    · subst hu
      simp [State.leave, hborn, hp]
    · simp [State.leave, hu]

omit [DecidableEq δ] [DecidableEq ω] in
theorem Rolls.pops (h : Rolls P s r) {x : ς} {rest : List (Handler τ)}
    (hqueue : s.queue x = .activateThread t :: rest) :
    Rolls P { s with queue := Function.update s.queue x rest } r := by
  refine h.keeps (fun _ => Iff.rfl) (fun _ => Iff.rfl)
    (fun y k hmem => h.placed y k (mem_pop hqueue hmem)) (fun u => ?_) rfl
  · unfold State.leaving
    by_cases hx : P.strand u = x
    · subst hx
      simp [hqueue]
    · simp [hx]

omit [DecidableEq δ] [DecidableEq ω] in
theorem Rolls.makes (h : Rolls P s r) (hnew : s.status t = none) :
    Rolls P (makeThread P s t) { r with made := r.made ++ [t] } := by
  have hstatus : (makeThread P s t).status = Function.update s.status t (some .ready) := rfl
  have hout : t ∉ r.made := fun hmem => (h.born t).mp hmem hnew
  constructor
  · exact List.nodup_append.mpr ⟨h.nodup, List.nodup_singleton t, fun u hu v hv heq => by
      rw [List.mem_singleton.mp hv] at heq
      exact hout (heq ▸ hu)⟩
  · intro u
    rw [hstatus, List.mem_append, List.mem_singleton]
    by_cases hu : u = t
    · subst hu
      simp
    · rw [Function.update_of_ne hu, ← h.born u]
      simp [hu]
  · intro x k hmem
    rcases mem_post hmem with hmem | ⟨hx, rfl⟩
    · refine (h.placed x k hmem).of_born fun u hnone => ?_
      by_cases hu : u = t
      · rw [hu, hnew]
      · rwa [hstatus, Function.update_of_ne hu] at hnone
    · show (makeThread P s t).status t ≠ none
      simp [hstatus]
  · intro u
    have hleaving : (makeThread P s t).leaving P u = s.leaving P u := post_leaving _ nofun
    rw [hleaving, hstatus, h.exits u]
    by_cases hu : u = t
    · subst hu
      simp [hnew]
    · rw [Function.update_of_ne hu]
  · have hcount := h.count
    show s.threadCount + 1 = ((r.made ++ [t]).length : Int) - r.exited.length
    rw [List.length_append, List.length_singleton]
    omega

omit [DecidableEq δ] in
theorem Rolls.finishes (h : Rolls P s r) {w : ω} {below : List τ}
    (hrunning : s.status t = some .running) :
    Rolls P ((s.leave P w t below .stopped).post (P.strand t) (.onThreadExit t)) r := by
  have hstatus : ∀ u, u ≠ t → Function.update s.status t (some .stopped) u = s.status u :=
    fun u hu => Function.update_of_ne hu _ _
  constructor
  · exact h.nodup
  · intro u
    rw [h.born u]
    show _ ↔ Function.update s.status t (some .stopped) u ≠ none
    by_cases hu : u = t
    · subst hu
      simp [hrunning]
    · rw [hstatus u hu]
  · intro x k hmem
    rcases mem_post hmem with hmem | ⟨hx, rfl⟩
    · refine (h.placed x k hmem).of_born fun u hnone => ?_
      change Function.update s.status t (some .stopped) u = none at hnone
      by_cases hu : u = t
      · subst hu
        simp at hnone
      · rwa [hstatus u hu] at hnone
    · exact hx
  · intro u
    have hexits := h.exits u
    show _ = (decide (Function.update s.status t (some .stopped) u = some .stopped)).toNat
    by_cases hu : u = t
    · subst hu
      rw [hrunning, decide_eq_false (by simp), Bool.toNat_false] at hexits
      have hone : ((s.leave P w u below .stopped).post (P.strand u) (.onThreadExit u)).leaving P u =
        s.leaving P u + 1 := by
        simp [State.leaving, State.post, State.leave]
      rw [hone, Function.update_self, decide_eq_true rfl, Bool.toNat_true]
      omega
    · rw [post_leaving _ (by simpa using Ne.symm hu), hstatus u hu]
      exact hexits
  · exact h.count

omit [DecidableEq δ] [DecidableEq ω] in
theorem Rolls.exited (h : Rolls P s r) {x : ς} {rest : List (Handler τ)}
    (hqueue : s.queue x = .onThreadExit t :: rest) :
    Rolls P { s with queue := Function.update s.queue x rest, threadCount := s.threadCount - 1 }
      { r with exited := r.exited ++ [t] } := by
  obtain rfl : x = P.strand t :=
    h.placed x (.onThreadExit t) (by rw [hqueue]; exact List.mem_cons_self)
  constructor
  · exact h.nodup
  · exact h.born
  · exact fun y k hmem => h.placed y k (mem_pop hqueue hmem)
  · intro u
    rw [← h.exits u]
    unfold State.leaving
    by_cases hx : P.strand u = P.strand t
    · by_cases hu : u = t
      · subst hu
        simp [hqueue, List.count_append]
        omega
      · simp [hx, hqueue, List.count_append, Ne.symm hu]
    · have hu : t ≠ u := fun heq => hx (by rw [heq])
      simp [hx, hu, List.count_append]
  · have hcount := h.count
    show s.threadCount - 1 = (r.made.length : Int) - ((r.exited ++ [t]).length : Int)
    rw [List.length_append, List.length_singleton]
    omega

/-- Every step keeps the roll, whatever the threads do and also when it ends the run. -/
theorem Rolls.move (h : Rolls P s r) (hinv : Inv P s) (hmove : Move P s l s') :
    Rolls P s' (r.record s l) := by
  have hquiet : Scheduler.makes l = none → Scheduler.exits s l = none → Rolls P s' r →
    Rolls P s' (r.record s l) := by
    intro hmakes hexits hsame
    have hrecord : r.record s l = r := by simp [Roll.record, hmakes, hexits]
    rwa [hrecord]
  cases hmove with
  | @makes t hnew =>
    have hrecord : r.record s (.makeThread t) = { r with made := r.made ++ [t] } := by
      simp [Roll.record, Scheduler.makes, Scheduler.exits]
    rw [hrecord]
    exact h.makes hnew
  | registers => exact hquiet rfl rfl h
  | resumes hborn => exact hquiet rfl rfl (h.resume hborn)
  | posts hborn => exact hquiet rfl rfl (h.resume hborn)
  | inside hborn => exact hquiet rfl rfl (h.enters hborn _)
  | @acquires w t hborn _ _ _ => exact hquiet rfl rfl ((h.hold (P.strand t) w).enters hborn w)
  | @runs w x t rest hidle hfree hqueue =>
    have hborn : s.status t ≠ none :=
      h.placed x (.activateThread t) (by rw [hqueue]; exact List.mem_cons_self)
    have henters := ((h.pops hqueue).hold x w).enters hborn w
    exact hquiet rfl (by simp [Scheduler.exits, hqueue]) henters
  | @exits w x t rest hidle hfree hqueue =>
    have hrecord : r.record s (.run w x) = { r with exited := r.exited ++ [t] } := by
      simp [Roll.record, Scheduler.makes, Scheduler.exits, hqueue]
    rw [hrecord]
    exact h.exited hqueue
  | yields hstack hcurrent hstatus =>
    refine hquiet rfl rfl (Rolls.resume (h.leaves hstatus (by decide)) ?_)
    simp [State.leave]
  | pauses hstack => exact hquiet rfl rfl (h.leaves (hinv.running_of_stack hstack) (by decide))
  | finishes hstack => exact hquiet rfl rfl (h.finishes (hinv.running_of_stack hstack))
  | asserts hl =>
    have hsame : Rolls P (s.fail .assertion) r := ⟨h.nodup, h.born, h.placed, h.exits, h.count⟩
    rcases hl with rfl | rfl
    · exact hquiet rfl rfl hsame
    · exact hquiet rfl rfl hsame

omit [DecidableEq ς] [DecidableEq δ] [DecidableEq ω] in
theorem initial_rolls : Rolls P (initial : State τ ς ω) {} where
  nodup := List.nodup_nil
  born := fun _ => iff_of_false List.not_mem_nil fun h => h rfl
  placed := fun _ _ hmem => absurd hmem List.not_mem_nil
  exits := fun _ => rfl
  count := rfl

end Scheduler

end GreenThread
