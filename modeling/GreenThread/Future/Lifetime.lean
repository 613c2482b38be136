import GreenThread.Library.Reclaim
import GreenThread.Future.Handles

/-!
# The lifetime of shared states

What every run of the handles keeps true, if no two operations race on one object. A state has at
most one promise, and a promise that has not been asked for its future is the only reference. No
state is used after its destruction or destroyed twice. When nobody is doing anything, a state is
destroyed exactly when no handle and no kept callback refers to it. A callback that was kept refers
to the state that keeps it and to the one it is to complete, so that neither is ever destroyed.
-/

namespace GreenThread

namespace Handles

open RefCount (Stmt Phase Moves Tidy)

variable {ν ω O α : Type} [DecidableEq ν] [DecidableEq ω] [DecidableEq O] [DecidableEq α]

/-! ### The statements of the operations -/

/-- Promises stay promises. -/
def Typed : Stmt (Slot ν ω α) O → Prop
  | .make r _ => r.isPromise = true
  | .copy r _ => r.isPromise = false
  | .swap r r' => r.isPromise = r'.isPromise
  | _ => True

/-- The slots whose `obtained_` a statement moves or clears. -/
def moved : Stmt (Slot ν ω α) O → List (Slot ν ω α)
  | .make r _ => [r]
  | .swap r r' => [r, r']
  | _ => []

section Code

variable {op : Op ν ω O} {a b : α} {st : Stmt (Slot ν ω α) O} {w : ω} {r r' x : Slot ν ω α}

attribute [local simp] Op.code unhook Handle.slot Stmt.writes moved Typed Slot.isPromise

omit [DecidableEq ν] [DecidableEq ω] [DecidableEq O] [DecidableEq α] in
theorem code_typed : ∀ st ∈ op.code a, Typed st := by
  cases op with
  | move h h' | assign h h' | swap h h' => cases h <;> cases h' <;> simp
  | get h | destroy h | wait h | andThen h w o | invoke w h => cases h <;> simp
  | result w x kept => cases kept <;> simp
  | _ => simp

theorem swap_isPromise (hkind : r.isPromise = r'.isPromise) (x : Slot ν ω α) :
    (Equiv.swap r r' x).isPromise = x.isPromise := by
  by_cases hr : x = r
  · rw [hr, Equiv.swap_apply_left, hkind]
  · by_cases hr' : x = r'
    · rw [hr', Equiv.swap_apply_right, hkind]
    · rw [Equiv.swap_apply_of_ne_of_ne hr hr']

omit [DecidableEq ν] [DecidableEq ω] [DecidableEq O] [DecidableEq α] in
/-- A promise is copied from by the member that sets its `obtained_`, which moves no promise. -/
theorem code_source (hcopy : .copy x r ∈ op.code a) (hr : r.isPromise = true) :
    r ∈ op.obtains ∧ ∀ st ∈ op.code a, r ∉ moved st := by
  cases op with
  | getFuture p y =>
    obtain ⟨-, rfl⟩ : x = .future y ∧ r = .promise p := by simpa using hcopy
    simp [Op.obtains]
  | result w y kept =>
    obtain ⟨-, rfl⟩ : x = .future y ∧ r = .cont w := by cases kept <;> simpa using hcopy
    cases kept <;> simp [Op.obtains]
  | copy z z' =>
    obtain ⟨-, rfl⟩ : x = .shared z ∧ r = .shared z' := by simpa using hcopy
    cases hr
  | assignCopy z z' =>
    obtain ⟨-, rfl⟩ : x = .tmp a ∧ r = .shared z' := by simpa using hcopy
    cases hr
  | andThen h w o =>
    obtain ⟨-, rfl⟩ : x = .src w ∧ r = h.slot := by simpa using hcopy
    cases h <;> cases hr
  | invoke w h =>
    obtain ⟨-, rfl⟩ : x = h.slot ∧ r = .src w := by simpa using hcopy
    cases hr
  | get h => cases h <;> simp at hcopy
  | _ => simp at hcopy

omit [DecidableEq ν] [DecidableEq ω] [DecidableEq O] [DecidableEq α] in
theorem code_waiter (hst : st ∈ op.code a) (hw : .src w ∈ st.writes ∨ .cont w ∈ st.writes) :
    (∃ h o, op = .andThen h w o) ∨ ∃ y, op = .result w y false := by
  revert st
  cases op with
  | move h h' | assign h h' | swap h h' => cases h <;> cases h' <;> simp
  | get h | destroy h | wait h | invoke w h => cases h <;> simp
  | andThen h w' o => cases h <;> simp [eq_comm]
  | result w' y kept => cases kept <;> simp [eq_comm]
  | _ => simp

omit [DecidableEq ν] [DecidableEq ω] [DecidableEq O] [DecidableEq α] in
theorem code_local (hst : st ∈ op.code b) (hx : .tmp a ∈ st.writes ∨ .tmpPromise a ∈ st.writes) :
    a = b := by
  revert st
  cases op with
  | move h h' | assign h h' | swap h h' => cases h <;> cases h' <;> simp
  | get h | destroy h | wait h | andThen h w o | invoke w h => cases h <;> simp
  | result w y kept => cases kept <;> simp
  | _ => simp

omit [DecidableEq O] in
theorem code_tidy {held : Slot ν ω α → Option O} (hx : x = .tmp a ∨ x = .tmpPromise a)
    (hnone : held x = none) :
    Tidy held x (op.code a) := by
  by_cases huntouched : ∀ st ∈ op.code a, x ∉ st.writes
  · exact .inl ⟨hnone, huntouched⟩
  · refine .inr ?_
    rcases hx with rfl | rfl
    · cases op with
      | assign h h' =>
        exact ⟨[.swap (.tmp a) h'.slot, .swap h.slot (.tmp a)], [], rfl, fun _ hst => by cases hst⟩
      | assignCopy z z' =>
        exact ⟨[.copy (.tmp a) (.shared z'), .swap (.shared z) (.tmp a)], [], rfl,
          fun _ hst => by cases hst⟩
      | get h =>
        cases h with
        | future y => exact ⟨[.swap (.tmp a) (.future y), .use (.tmp a)], [], rfl,
            fun _ hst => by cases hst⟩
        | shared z => simp at huntouched
      | move h h' | swap h h' => cases h <;> cases h' <;> simp at huntouched
      | destroy h | wait h | andThen h w o | invoke w h => cases h <;> simp at huntouched
      | result w y kept => cases kept <;> simp at huntouched
      | _ => simp at huntouched
    · cases op with
      | assignPromise p q =>
        exact ⟨[.swap (.tmpPromise a) (.promise q), .swap (.promise p) (.tmpPromise a),
          .use (.tmpPromise a)], [], rfl,
          fun _ hst => by cases hst⟩
      | move h h' | swap h h' | assign h h' => cases h <;> cases h' <;> simp at huntouched
      | get h | destroy h | wait h | andThen h w o | invoke w h => cases h <;> simp at huntouched
      | result w y kept => cases kept <;> simp at huntouched
      | _ => simp at huntouched

section

omit [DecidableEq ν] [DecidableEq ω] [DecidableEq O] [DecidableEq α]

theorem copy_reads (hcopy : .copy x r ∈ op.code a) : r ∈ op.reads a :=
  List.mem_flatMap.mpr ⟨_, hcopy, List.mem_singleton_self r⟩

theorem moved_sub (hr : r ∈ moved st) : r ∈ st.writes := by
  cases st with
  | make | swap => exact hr
  | copy | use | drop => cases hr

theorem andThen_reads (k : Handle ν) (w : ω) (o : O) :
    (k.slot : Slot ν ω α) ∈ (Op.andThen k w o).reads a := by
  simp [Op.reads, Stmt.reads]

theorem andThen_last {k : Handle ν} {o : O} {done : List (Stmt (Slot ν ω α) O)}
    (hcode : (Op.andThen k w o).code a = done ++ [st]) : st = .use k.slot := by
  change [Stmt.copy (.src w) k.slot, .make (.cont w) o] ++ [.use k.slot] = done ++ [st] at hcode
  obtain ⟨-, hlast⟩ := List.append_inj' hcode rfl
  exact (List.cons.inj hlast).1.symm

end

variable {s s' : State ν ω O α}

section

omit [DecidableEq ν] [DecidableEq ω] [DecidableEq O]

/-- A `then` has the slots of its waiter for itself as long as it attaches it. -/
theorem attaching_writes {k : Handle ν} {o : O} (hstage : s.stage w = .attaching a) :
    s.writes a (.andThen k w o) = [.src w, .cont w] :=
  if_pos hstage

theorem mem_attaching {k : Handle ν} {o : O} (hstage : s.stage w = .attaching a)
    (hx : x ∈ (Op.andThen k w o).writes a) :
    x ∈ s.writes a (.andThen k w o) := by
  rw [attaching_writes hstage]
  simpa [Op.writes] using hx

theorem result_uses (y : ν) : (.src w : Slot ν ω α) ∈ s.writes a (.result w y false) ∧
    (.cont w : Slot ν ω α) ∈ s.writes a (.result w y false) := by
  simp [State.writes, Op.writes]

theorem writes_sub (hx : x ∈ s.writes a op) : x ∈ op.writes a := by
  cases op with
  | andThen k w o =>
    rw [State.writes] at hx
    split at hx
    · simpa [Op.writes] using hx
    · cases hx
  | _ => exact hx

theorem writes_mono (hstage : ∀ w, s'.stage w = .attaching a → s.stage w = .attaching a)
    (hx : x ∈ s'.writes a op) :
    x ∈ s.writes a op := by
  cases op with
  | andThen k w o =>
    simp only [State.writes] at hx ⊢
    split at hx
    · rwa [if_pos (hstage w ‹_›)]
    · cases hx
  | _ => exact hx

end

omit [DecidableEq ν] [DecidableEq O] in
theorem staged_cases (hallowed : op.allowed s a = true) (w : ω) :
    op.staged a s.stage w = s.stage w ∨
    (s.stage w = .fresh ∧ op.staged a s.stage w = .attaching a) ∨
    ∃ y kept, op = .result w y kept ∧ (s.stage w = if kept then .stored a else .called a) ∧
      op.staged a s.stage w = if kept then .kept else .gone := by
  cases op with
  | andThen k w' o =>
    by_cases hw : w = w'
    · subst hw
      simp only [Op.allowed, decide_eq_true_eq, Bool.decide_and, Bool.and_eq_true] at hallowed
      exact .inr (.inl ⟨hallowed.2, Function.update_self ..⟩)
    · exact .inl (Function.update_of_ne hw _ _)
  | result w' y kept =>
    by_cases hw : w = w'
    · subst hw
      simp only [Op.allowed, decide_eq_true_eq] at hallowed
      exact .inr (.inr ⟨y, kept, rfl, hallowed, Function.update_self ..⟩)
    · exact .inl (Function.update_of_ne hw _ _)
  | _ => exact .inl rfl

omit [DecidableEq O] in
theorem carry_of_notMem {obtained : Slot ν ω α → Bool} {p : Phase (Slot ν ω α) O}
    (hr : ∀ st prog, p = .run (st :: prog) → r ∉ moved st) :
    State.carry obtained p r = obtained r := by
  cases p with
  | run prog =>
    cases prog with
    | nil => rfl
    | cons st prog =>
      have hnot := hr st prog rfl
      cases st with
      | make x o => exact Function.update_of_ne (List.ne_of_not_mem_cons hnot) _ _
      | swap x y =>
        exact congrArg obtained (Equiv.swap_apply_of_ne_of_ne (List.ne_of_not_mem_cons hnot)
          (List.ne_of_not_mem_cons (List.not_mem_of_not_mem_cons hnot)))
      | _ => rfl
  | _ => rfl

omit [DecidableEq ν] [DecidableEq ω] [DecidableEq O] [DecidableEq α] in
theorem result_writes {y : ν} (hst : st ∈ (Op.result w y false : Op ν ω O).code a) :
    (.src w ∈ st.writes → st = .drop (.src w)) ∧ (.cont w ∈ st.writes → st = .drop (.cont w)) := by
  revert st
  simp

omit [DecidableEq ν] [DecidableEq ω] [DecidableEq O] [DecidableEq α] in
theorem result_tidy (held : Slot ν ω α → Option O) (w : ω) (y : ν) :
    Tidy held (.src w) ((Op.result w y false : Op ν ω O).code a) ∧
    Tidy held (.cont w) ((Op.result w y false : Op ν ω O).code a) :=
  ⟨.inr ⟨[.copy (.future y) (.cont w), .use (.cont w), .drop (.cont w)], [], rfl,
    fun _ hst => by cases hst⟩,
    .inr ⟨[.copy (.future y) (.cont w), .use (.cont w)], [.drop (.src w)], rfl, by simp⟩⟩

end Code

/-! ### What a step does -/

section Steps

variable {s s' : State ν ω O α} {a b : α} {op : Op ν ω O} {w : ω}

section

omit [DecidableEq O]

theorem begun_phase_self : (s.begun a op).refs.phase a = .run (op.code a) := Function.update_self ..

theorem begun_phase_of_ne (hb : b ≠ a) : (s.begun a op).refs.phase b = s.refs.phase b :=
  Function.update_of_ne hb _ _

theorem begun_op_self : (s.begun a op).op a = some op := Function.update_self ..

theorem begun_op_of_ne (hb : b ≠ a) : (s.begun a op).op b = s.op b := Function.update_of_ne hb _ _

end

theorem begin_cases (hstep : s.begin a op = some s') :
    s.refs.phase a = .run [] ∧ op.allowed s a = true ∧ (s' = s ∨ s' = s.begun a op) := by
  obtain ⟨⟨hidle, hallowed, -⟩, hstep⟩ := Option.ite_none_right_eq_some.mp hstep
  refine ⟨hidle, hallowed, ?_⟩
  split at hstep
  · exact .inl (Option.some.inj hstep).symm
  · exact .inr (Option.some.inj hstep).symm

theorem go_refs (hstep : s.go a = some s') :
    ∃ refs, s.refs.go a = some refs ∧ s' =
    { s with refs := refs, obtained := State.carry s.obtained (s.refs.phase a) } := by
  obtain ⟨-, hmap⟩ := Option.ite_none_right_eq_some.mp hstep
  obtain ⟨refs, hgo, rfl⟩ := Option.map_eq_some_iff.mp hmap
  exact ⟨refs, hgo, rfl⟩

omit [DecidableEq ν] [DecidableEq ω] [DecidableEq α] in
theorem complete_ready (hstep : s.complete a = some s') :
    ∃ ready, s' = { s with ready := ready } := by
  simp only [State.complete] at hstep
  split at hstep
  · split at hstep
    · obtain ⟨-, rfl⟩ := Option.ite_some_none_eq_some.mp hstep
      exact ⟨_, rfl⟩
    · cases hstep
  · cases hstep

omit [DecidableEq ν] in
theorem attach_cases (hstep : s.attach a = some s') : ∃ r k w o o', s.refs.phase a = .inUse r [] ∧
    s.op a = some (.andThen k w o) ∧ s.refs.held r = some o' ∧ s.stage w = .attaching a ∧
    (s' = { s with stage := Function.update s.stage w (.called a) } ∨
      ∃ refs, s.refs.adopt a (unhook w) = some refs ∧
      s' = { s with refs := refs, stage := Function.update s.stage w (.stored a) }) := by
  simp only [State.attach] at hstep
  split at hstep
  next r k w o hphase hop =>
    split at hstep
    next o' hheld =>
      obtain ⟨hstage, hstep⟩ := Option.ite_none_right_eq_some.mp hstep
      refine ⟨r, k, w, o, o', hphase, hop, hheld, hstage, ?_⟩
      split at hstep
      · exact .inl (Option.some.inj hstep).symm
      · obtain ⟨refs, hadopt, rfl⟩ := Option.map_eq_some_iff.mp hstep
        exact .inr ⟨refs, hadopt, rfl⟩
    · cases hstep
  · cases hstep

end Steps

/-! ### The invariant -/

namespace State

variable (s : State ν ω O α)

def code (a : α) : List (Stmt (Slot ν ω α) O) :=
  match s.op a with
  | some op => op.code a
  | none => []

/-- A state has the callback of the waiter. -/
def Hooked (w : ω) : Prop := s.stage w = .kept ∨ ∃ a, s.stage w = .stored a

/-- What an operation has done with its waiter. -/
def During (a : α) : Op ν ω O → Prop
  | .andThen h w o =>
    (s.stage w = .attaching a ∧
      ((s.refs.phase a).rest = (Op.andThen h w o).code a ∨
        (s.refs.phase a).rest = [.make (.cont w) o, .use h.slot] ∧
        s.refs.held (.src w) = s.refs.held h.slot ∨
        ((s.refs.phase a).rest = [.use h.slot] ∨ (s.refs.phase a).rest = []) ∧
          s.refs.held (.src w) = s.refs.held h.slot ∧ s.refs.held (.cont w) = some o)) ∨
    (s.refs.phase a).rest = [] ∧ (s.stage w = .stored a ∨ s.stage w = .called a)
  | .result w _ kept => s.stage w = if kept then .kept else .gone
  | _ => True

end State

structure Ok (s : State ν ω O α) : Prop where
  refs : RefCount.Inv s.refs
  within : ∀ a, (s.refs.phase a).Within (s.code a)
  apart : ∀ a b op op', a ≠ b → s.Busy a → s.Busy b → s.op a = some op → s.op b = some op' →
    ∀ x ∈ s.writes a op, x ∉ op'.reads b ∧ x ∉ s.writes b op'
  retrieved : ∀ a x r, .copy x r ∈ (s.refs.phase a).rest → r.isPromise = true → s.obtained r = true
  /-- a state has one promise -/
  alone : ∀ r r' o, r.isPromise = true → r'.isPromise = true → s.refs.held r = some o →
    s.refs.held r' = some o → r = r'
  /-- a promise that was not asked for its future is the only reference -/
  first : ∀ r o, r.isPromise = true → s.refs.held r = some o → s.obtained r = false →
    ∀ r', s.refs.held r' = some o → r' = r
  during : ∀ a op, s.Busy a → s.op a = some op → s.During a op
  /-- a state has the callbacks of waiters that refer to it -/
  inside : ∀ o st, st ∈ s.refs.inside o → ∃ w, s.Hooked w ∧ s.refs.held (.src w) = some o
  hooked : ∀ w, s.Hooked w → (∃ o, s.refs.held (.src w) = some o) ∧
    ∃ o, s.refs.held (.cont w) = some o
  locals : ∀ a x, x = .tmp a ∨ x = .tmpPromise a → Tidy s.refs.held x (s.refs.phase a).rest
  fresh : ∀ w, s.stage w = .fresh → s.refs.held (.src w) = none ∧ s.refs.held (.cont w) = none
  gone : ∀ w, s.stage w = .gone → (s.refs.held (.src w) = none ∧ s.refs.held (.cont w) = none) ∨
    ∃ a y, s.op a = some (.result w y false) ∧ Tidy s.refs.held (.src w) (s.refs.phase a).rest ∧
      Tidy s.refs.held (.cont w) (s.refs.phase a).rest

namespace Ok

variable {s s' : State ν ω O α} {a b : α} {op op' : Op ν ω O} {st : Stmt (Slot ν ω α) O}
    {prog : List (Stmt (Slot ν ω α) O)}
  {w : ω} {r x : Slot ν ω α} {o : O}

omit [DecidableEq ν] [DecidableEq ω] [DecidableEq O] in
theorem empty : Ok (State.empty : State ν ω O α) where
  refs := .empty
  within := fun _ => ⟨[], rfl⟩
  apart := fun _ _ _ _ _ hbusy => absurd rfl hbusy
  retrieved := fun _ _ _ hst => by cases hst
  alone := fun _ _ _ _ _ hr => by cases hr
  first := fun _ _ _ hr => by cases hr
  during := fun _ _ hbusy => absurd rfl hbusy
  inside := fun _ _ hst => by cases hst
  hooked := fun w hw => by
    rcases hw with hw | ⟨a, hw⟩ <;> cases hw
  locals := fun _ _ _ => .inl ⟨rfl, fun _ hst => by cases hst⟩
  fresh := fun _ _ => ⟨rfl, rfl⟩
  gone := fun _ hw => by cases hw

variable (h : Ok s)

include h

omit [DecidableEq ν] [DecidableEq ω] [DecidableEq O] in
theorem op_of_rest (hst : st ∈ (s.refs.phase a).rest) :
    ∃ op, s.op a = some op ∧ st ∈ op.code a := by
  have hcode := (h.within a).mem hst
  unfold State.code at hcode
  split at hcode
  · exact ⟨_, ‹_›, hcode⟩
  · cases hcode

omit [DecidableEq ν] [DecidableEq ω] [DecidableEq O] in
theorem op_of_run (hphase : s.refs.phase a = .run (st :: prog)) :
    ∃ op, s.op a = some op ∧ st ∈ op.code a := by
  refine h.op_of_rest ?_
  rw [hphase]
  exact List.mem_cons_self

omit [DecidableEq ν] [DecidableEq ω] [DecidableEq O] [DecidableEq α] h in
theorem busy_of_run (hphase : s.refs.phase a = .run (st :: prog)) : s.Busy a := fun heq => by
  cases hphase.symm.trans heq

section

omit [DecidableEq ν] [DecidableEq ω] [DecidableEq O]

theorem reads (hx : x ∈ (s.refs.phase b).reads) :
    s.Busy b ∧ ∃ op, s.op b = some op ∧ x ∈ op.reads b := by
  refine ⟨fun heq => ?_, ?_⟩
  · rw [heq] at hx
    cases hx
  · have hcode := (h.within b).reads hx
    unfold State.code at hcode
    split at hcode
    · exact ⟨_, ‹_›, hcode⟩
    · cases hcode

theorem rest_writes (hop : s.op b = some op) (hst : st ∈ (s.refs.phase b).rest)
    (hx : x ∈ st.writes) : x ∈ s.writes b op := by
  have hbusy : s.Busy b := fun heq => by
    rw [heq] at hst
    cases hst
  obtain ⟨op', hop', hcode⟩ := h.op_of_rest hst
  obtain rfl := Option.some.inj (hop.symm.trans hop')
  have hwrites : x ∈ op.writes b := List.mem_flatMap.mpr ⟨st, hcode, hx⟩
  cases op with
  | andThen k w o =>
    rcases h.during b _ hbusy hop with ⟨hstage, -⟩ | ⟨hnone, -⟩
    · exact mem_attaching hstage hwrites
    · rw [hnone] at hst
      cases hst
  | _ => exact hwrites

theorem writes (hx : x ∈ (s.refs.phase b).writes) :
    s.Busy b ∧ ∃ op, s.op b = some op ∧ x ∈ s.writes b op := by
  have hbusy : s.Busy b := fun heq => by
    rw [heq] at hx
    cases hx
  have hcode := (h.within b).writes hx
  unfold State.code at hcode
  split at hcode
  next op hop =>
    refine ⟨hbusy, op, hop, ?_⟩
    cases op with
    | andThen k w o =>
      rcases h.during b _ hbusy hop with ⟨hstage, -⟩ | ⟨hnone, -⟩
      · exact mem_attaching hstage hcode
      · -- the last statement of a `then` copies nothing
        have hwithin := h.within b
        simp only [State.code, hop] at hwithin
        cases hphase : s.refs.phase b with
        | adding r src rest =>
          rw [hphase] at hx hnone hwithin
          obtain ⟨done, st, heq, hr, -⟩ := hwithin
          obtain rfl : rest = [] := hnone
          obtain rfl := andThen_last heq
          cases hr
        | run | freeing | inUse =>
          rw [hphase] at hx
          cases hx
    | _ => exact hcode
  · cases hcode

theorem race (hphase : s.refs.phase a = .run (st :: prog)) : s.refs.Apart a st := by
  have hbusy := busy_of_run hphase
  have hmem : st ∈ (s.refs.phase a).rest := by
    rw [hphase]
    exact List.mem_cons_self
  obtain ⟨op, hop, hst⟩ := h.op_of_rest hmem
  intro b hb
  refine ⟨fun x hx => ?_, fun x hx hx' => ?_⟩
  · have hwrites := h.rest_writes hop hmem hx
    refine ⟨fun hx' => ?_, fun hx' => ?_⟩
    · obtain ⟨hbusy', op', hop', hreads⟩ := h.reads hx'
      exact (h.apart a b op op' hb.symm hbusy hbusy' hop hop' x hwrites).1 hreads
    · obtain ⟨hbusy', op', hop', hwrites'⟩ := h.writes hx'
      exact (h.apart a b op op' hb.symm hbusy hbusy' hop hop' x hwrites).2 hwrites'
  · obtain ⟨hbusy', op', hop', hwrites'⟩ := h.writes hx'
    exact (h.apart b a op' op hb hbusy' hbusy hop' hop x hwrites').1
      (List.mem_flatMap.mpr ⟨st, hst, hx⟩)

/-- The objects of an operation are left alone by the other agents. -/
theorem untouched (hphase : s.refs.phase a = .run (st :: prog)) (hb : b ≠ a) (hbusy : s.Busy b)
    (hop : s.op b = some op) (hx : x ∈ op.reads b ∨ x ∈ s.writes b op) : x ∉ st.writes := by
  intro hwrites
  have hmem : st ∈ (s.refs.phase a).rest := by
    rw [hphase]
    exact List.mem_cons_self
  obtain ⟨op', hop', -⟩ := h.op_of_rest hmem
  have happart := h.apart a b op' op hb.symm (busy_of_run hphase) hbusy hop' hop x
    (h.rest_writes hop' hmem hwrites)
  exact hx.elim happart.1 happart.2

theorem waiting (hphase : s.refs.phase a = .run (st :: prog))
    (hw : .src w ∈ st.writes ∨ .cont w ∈ st.writes) :
    s.stage w = .attaching a ∨ s.stage w = .gone := by
  have hrest : (s.refs.phase a).rest = st :: prog := by rw [hphase]; rfl
  obtain ⟨op, hop, hst⟩ := h.op_of_run hphase
  have hduring := h.during a op (busy_of_run hphase) hop
  rcases code_waiter hst hw with ⟨k, o, rfl⟩ | ⟨y, rfl⟩
  · rcases hduring with ⟨hstage, -⟩ | ⟨hnil, -⟩
    · exact .inl hstage
    · cases hrest.symm.trans hnil
  · exact .inr hduring

theorem inside_nil (hphase : s.refs.phase a = .freeing o prog) : s.refs.inside o = [] := by
  refine List.eq_nil_iff_forall_not_mem.mpr fun st hst => ?_
  obtain ⟨w, -, hw⟩ := h.inside o st hst
  exact (h.refs.dying a o prog hphase).1 _ hw

end

theorem start_alone {refs : RefCount.State (Slot ν ω α) O α}
    (hphase : s.refs.phase a = .run (st :: prog))
    (hstart : s.refs.start a prog st = some refs) (r r' : Slot ν ω α) (o : O)
    (hr : r.isPromise = true) (hr' : r'.isPromise = true)
    (ho : refs.held r = some o) (ho' : refs.held r' = some o) : r = r' := by
  obtain ⟨op, hop, hst⟩ := h.op_of_run hphase
  have htyped := code_typed st hst
  rw [(RefCount.start_held hstart).1] at ho ho'
  cases st with
  | make x o' =>
    have hfresh : ∀ {y}, s.refs.held y ≠ some o' := fun hy => by
      cases (RefCount.start_fresh hstart).symm.trans (h.refs.existing _ _ hy).1
    simp only [Stmt.apply] at ho ho'
    by_cases hx : r = x <;> by_cases hx' : r' = x
    · rw [hx, hx']
    · rw [hx, Function.update_self] at ho
      rw [Function.update_of_ne hx'] at ho'
      exact absurd (ho'.trans ho.symm) hfresh
    · rw [hx', Function.update_self] at ho'
      rw [Function.update_of_ne hx] at ho
      exact absurd (ho.trans ho'.symm) hfresh
    · rw [Function.update_of_ne hx] at ho
      rw [Function.update_of_ne hx'] at ho'
      exact h.alone r r' o hr hr' ho ho'
  | copy x src =>
    have hx : ∀ {y : Slot ν ω α}, y.isPromise = true → y ≠ x := fun hy heq => by
      rw [heq, show x.isPromise = false from htyped] at hy
      cases hy
    simp only [Stmt.apply] at ho ho'
    rw [Function.update_of_ne (hx hr)] at ho
    rw [Function.update_of_ne (hx hr')] at ho'
    exact h.alone r r' o hr hr' ho ho'
  | swap x y =>
    have hkind : ∀ z, (Equiv.swap x y z).isPromise = z.isPromise := swap_isPromise htyped
    exact (Equiv.swap x y).injective
      (h.alone _ _ o ((hkind r).trans hr) ((hkind r').trans hr') ho ho')
  | use x => exact h.alone r r' o hr hr' ho ho'
  | drop x =>
    exact h.alone r r' o hr hr' (Stmt.of_drop ho) (Stmt.of_drop ho')

/-- A promise that was not asked for its future stays the only reference. -/
theorem start_first {refs : RefCount.State (Slot ν ω α) O α}
    (hphase : s.refs.phase a = .run (st :: prog))
    (hstart : s.refs.start a prog st = some refs) (r : Slot ν ω α) (o : O) (hr : r.isPromise = true)
    (ho : refs.held r = some o) (hobtained : State.carry s.obtained (s.refs.phase a) r = false)
    (r' : Slot ν ω α) (ho' : refs.held r' = some o) : r' = r := by
  obtain ⟨op, hop, hst⟩ := h.op_of_run hphase
  have htyped := code_typed st hst
  rw [(RefCount.start_held hstart).1] at ho ho'
  rw [hphase] at hobtained
  cases st with
  | make x o' =>
    have hfresh : ∀ {y}, s.refs.held y ≠ some o' := fun hy => by
      cases (RefCount.start_fresh hstart).symm.trans (h.refs.existing _ _ hy).1
    simp only [Stmt.apply] at ho ho'
    simp only [State.carry] at hobtained
    by_cases hx : r = x <;> by_cases hx' : r' = x
    · rw [hx, hx']
    · rw [hx, Function.update_self] at ho
      rw [Function.update_of_ne hx'] at ho'
      exact absurd (ho'.trans ho.symm) hfresh
    · rw [hx', Function.update_self] at ho'
      rw [Function.update_of_ne hx] at ho
      exact absurd (ho.trans ho'.symm) hfresh
    · rw [Function.update_of_ne hx] at ho hobtained
      rw [Function.update_of_ne hx'] at ho'
      exact h.first r o hr ho hobtained r' ho'
  | copy x src =>
    have hx : r ≠ x := fun heq => by
      rw [heq, show x.isPromise = false from htyped] at hr
      cases hr
    simp only [Stmt.apply] at ho ho'
    rw [Function.update_of_ne hx] at ho
    by_cases hx' : r' = x
    · -- the copy would be from the promise itself, whose `obtained_` has been set for it
      rw [hx', Function.update_self] at ho'
      obtain rfl := h.first r o hr ho hobtained src ho'
      have hset := h.retrieved a x src (by rw [hphase]; exact List.mem_cons_self) hr
      cases hobtained.symm.trans hset
    · rw [Function.update_of_ne hx'] at ho'
      exact h.first r o hr ho hobtained r' ho'
  | swap x y =>
    have hkind : ∀ z, (Equiv.swap x y z).isPromise = z.isPromise := swap_isPromise htyped
    exact (Equiv.swap x y).injective (h.first _ o ((hkind r).trans hr) ho hobtained _ ho')
  | use x => exact h.first r o hr ho hobtained r' ho'
  | drop x =>
    exact h.first r o hr (Stmt.of_drop ho) hobtained r' (Stmt.of_drop ho')

section Go

variable {refs : RefCount.State (Slot ν ω α) O α} (hgo : s.refs.go a = some refs)

include hgo

theorem attaches {k : Handle ν} (hduring : s.During a (.andThen k w o)) :
    ({ s with refs := refs } : State ν ω O α).During a (.andThen k w o) := by
  have hsrc : k.slot ≠ (.src w : Slot ν ω α) := by cases k <;> exact fun heq => by cases heq
  have hcont : k.slot ≠ (.cont w : Slot ν ω α) := by cases k <;> exact fun heq => by cases heq
  rcases RefCount.go_next (fun o prog => h.inside_nil) hgo with ⟨st, hphase, hstart⟩ |
    ⟨-, hsame, hrest⟩
  · have hheld := (RefCount.start_held hstart).1
    unfold State.During at hduring
    rw [hphase] at hduring
    rcases hduring with ⟨hstage, hfirst | ⟨hsecond, hwaiter⟩ | ⟨hthird | hnone, hwaiter, hresult⟩⟩ |
      ⟨hnone, -⟩
    · obtain ⟨rfl, hrest⟩ := List.cons.inj hfirst
      refine .inl ⟨hstage, .inr (.inl ⟨hrest, ?_⟩)⟩
      show refs.held (.src w) = refs.held k.slot
      rw [hheld, Stmt.apply, Function.update_self, Function.update_of_ne hsrc]
    · obtain ⟨rfl, hrest⟩ := List.cons.inj hsecond
      refine .inl ⟨hstage, .inr (.inr ⟨.inl hrest, ?_, ?_⟩)⟩
      · show refs.held (.src w) = refs.held k.slot
        rw [hheld, Stmt.apply, Function.update_of_ne (fun heq => by cases heq),
          Function.update_of_ne hcont]
        exact hwaiter
      · show refs.held (.cont w) = some o
        rw [hheld, Stmt.apply, Function.update_self]
    · obtain ⟨rfl, hrest⟩ := List.cons.inj hthird
      refine .inl ⟨hstage, .inr (.inr ⟨.inr hrest, ?_⟩)⟩
      show refs.held (.src w) = refs.held k.slot ∧ refs.held (.cont w) = some o
      rw [hheld]
      exact ⟨hwaiter, hresult⟩
    · cases hnone
    · cases hnone
  · show State.During _ a (.andThen k w o)
    unfold State.During
    simp only [hrest, hsame]
    exact hduring

theorem waiter_held (hattach : ∀ b, s.stage w ≠ .attaching b) (hgone : s.stage w ≠ .gone) :
    refs.held (.src w) = s.refs.held (.src w) ∧ refs.held (.cont w) = s.refs.held (.cont w) := by
  refine ⟨RefCount.go_held hgo fun st prog hphase hw => ?_,
    RefCount.go_held hgo fun st prog hphase hw => ?_⟩
  · exact (h.waiting hphase (.inl hw)).elim (hattach a) hgone
  · exact (h.waiting hphase (.inr hw)).elim (hattach a) hgone

theorem hooked_held (hw : s.Hooked w) :
    refs.held (.src w) = s.refs.held (.src w) ∧ refs.held (.cont w) = s.refs.held (.cont w) := by
  rcases hw with hw | ⟨b, hw⟩ <;>
    exact h.waiter_held hgo (fun c heq => by cases hw.symm.trans heq) fun heq => by
      cases hw.symm.trans heq

theorem others_held (hb : b ≠ a) (hbusy : s.Busy b) (hop : s.op b = some op)
    (hx : x ∈ op.reads b ∨ x ∈ s.writes b op) :
    refs.held x = s.refs.held x :=
  RefCount.go_held hgo fun _ _ hphase => h.untouched hphase hb hbusy hop hx

theorem rest_sub (hst : st ∈ (refs.phase b).rest) : st ∈ (s.refs.phase b).rest := by
  by_cases hb : b = a
  · subst hb
    rcases RefCount.go_next (fun o prog => h.inside_nil) hgo with ⟨st', hphase, -⟩ | ⟨-, -, hrest⟩
    · rw [hphase]
      exact List.mem_cons_of_mem _ hst
    · rwa [hrest] at hst
  · rwa [(RefCount.go_moves hgo).others hb] at hst

omit h in
theorem busy_before (hb : refs.phase b ≠ .run []) : s.Busy b := by
  by_cases hba : b = a
  · rw [hba]
    exact RefCount.go_busy hgo
  · rwa [(RefCount.go_moves hgo).others hba] at hb

/-- `obtained_` of a promise that is copied from is moved neither by its own member nor by another
agent. -/
theorem stays_retrieved (hcopy : .copy x r ∈ (refs.phase b).rest) (hr : r.isPromise = true) :
    State.carry s.obtained (s.refs.phase a) r = true := by
  have hcopy := h.rest_sub hgo hcopy
  obtain ⟨op, hop, hst⟩ := h.op_of_rest hcopy
  refine (carry_of_notMem fun st prog hphase hmem => ?_).trans (h.retrieved b x r hcopy hr)
  by_cases hb : b = a
  · subst hb
    obtain ⟨op', hop', hst'⟩ := h.op_of_run hphase
    obtain rfl := Option.some.inj (hop.symm.trans hop')
    exact (code_source hst hr).2 st hst' hmem
  · have hbusy : s.Busy b := fun heq => by
      rw [heq] at hcopy
      cases hcopy
    exact h.untouched hphase hb hbusy hop (.inl (copy_reads hst)) (moved_sub hmem)

theorem stays_during (hbusy : s.Busy b) (hop : s.op b = some op) :
    ({ s with refs := refs } : State ν ω O α).During b op := by
  have hduring := h.during b op hbusy hop
  cases op with
  | andThen k w o =>
    by_cases hb : b = a
    · subst hb
      exact h.attaches hgo hduring
    · have hphase := (RefCount.go_moves hgo).others hb
      rcases hduring with ⟨hstage, hprogram⟩ | ⟨hnone, hstage⟩
      · have hwrites := attaching_writes (k := k) (o := o) hstage
        have hsrc := h.others_held hgo hb hbusy hop (x := .src w)
          (.inr (by rw [hwrites]; exact List.mem_cons_self))
        have hcont := h.others_held hgo hb hbusy hop (x := .cont w)
          (.inr (by rw [hwrites]; exact List.mem_cons_of_mem _ List.mem_cons_self))
        have hslot := h.others_held hgo hb hbusy hop (.inl (andThen_reads k w o))
        refine .inl ⟨hstage, ?_⟩
        simp only [hphase, hsrc, hcont, hslot]
        exact hprogram
      · exact .inr ⟨(congrArg Phase.rest hphase).trans hnone, hstage⟩
  | _ => exact hduring

theorem stays_local (hx : x = .tmp b ∨ x = .tmpPromise b) :
    Tidy refs.held x (refs.phase b).rest := by
  by_cases hb : b = a
  · subst hb
    exact (h.locals b x hx).go (fun o prog => h.inside_nil) hgo
  · rw [(RefCount.go_moves hgo).others hb]
    refine (h.locals b x hx).congr (RefCount.go_held hgo fun st prog hphase hwrites => hb ?_)
    obtain ⟨op, hop, hst⟩ := h.op_of_run hphase
    rcases hx with rfl | rfl
    · exact code_local hst (.inl hwrites)
    · exact code_local hst (.inr hwrites)

theorem stays_empty (hw : s.stage w = .gone) (hx : x = .src w ∨ x = .cont w)
    (hnone : s.refs.held x = none) :
    refs.held x = none := by
  rcases RefCount.go_cases hgo with ⟨st, prog, hphase, hstart⟩ | ⟨-, hsame, -⟩
  · rw [(RefCount.start_held hstart).1]
    by_cases hwrites : x ∈ st.writes
    · have hwaiter : .src w ∈ st.writes ∨ .cont w ∈ st.writes := by
        rcases hx with rfl | rfl
        · exact .inl hwrites
        · exact .inr hwrites
      obtain ⟨op, hop, hst⟩ := h.op_of_run hphase
      rcases code_waiter hst hwaiter with ⟨k, o, rfl⟩ | ⟨y, rfl⟩
      · rcases h.during a _ (RefCount.go_busy hgo) hop with ⟨hstage, -⟩ | ⟨-, hstage | hstage⟩
          <;> cases hw.symm.trans hstage
      · have hdrop : st = .drop x := by
          rcases hx with rfl | rfl
          · exact (result_writes hst).1 hwrites
          · exact (result_writes hst).2 hwrites
        rw [hdrop]
        exact Function.update_self ..
    · rwa [Stmt.apply_of_notMem _ hwrites]
  · rwa [hsame]

theorem stays_gone (hw : s.stage w = .gone) :
    (refs.held (.src w) = none ∧ refs.held (.cont w) = none) ∨
    ∃ b y, s.op b = some (.result w y false) ∧ Tidy refs.held (.src w) (refs.phase b).rest ∧
      Tidy refs.held (.cont w) (refs.phase b).rest := by
  have hempty : s.refs.held (.src w) = none ∧ s.refs.held (.cont w) = none →
      refs.held (.src w) = none ∧ refs.held (.cont w) = none :=
    .imp (h.stays_empty hgo hw (.inl rfl)) (h.stays_empty hgo hw (.inr rfl))
  rcases h.gone w hw with hnone | ⟨b, y, hop, hsrc, hcont⟩
  · exact .inl (hempty hnone)
  · by_cases hb : b = a
    · subst hb
      exact .inr ⟨b, y, hop, hsrc.go (fun o prog => h.inside_nil) hgo,
        hcont.go (fun o prog => h.inside_nil) hgo⟩
    · by_cases hidle : s.refs.phase b = .run []
      · rw [hidle] at hsrc hcont
        exact .inl (hempty ⟨hsrc.none, hcont.none⟩)
      · rw [← (RefCount.go_moves hgo).others hb] at hsrc hcont
        have hwrites := result_uses (s := s) (a := b) (w := w) y
        exact .inr ⟨b, y, hop, hsrc.congr (h.others_held hgo hb hidle hop (.inr hwrites.1)),
          hcont.congr (h.others_held hgo hb hidle hop (.inr hwrites.2))⟩

end Go

theorem go (hstep : s.go a = some s') : Ok s' := by
  obtain ⟨refs, hgo, rfl⟩ := go_refs hstep
  have hmove := RefCount.go_moves hgo
  refine ⟨h.refs.move hmove fun st prog hphase => h.race hphase, ?_, ?_, ?_, ?_, ?_, ?_, ?_,
    ?_, ?_, ?_, ?_⟩
  · intro b
    by_cases hb : b = a
    · subst hb
      exact RefCount.go_within (h.within b) (fun o prog => h.inside_nil) hgo
    · show (refs.phase b).Within (s.code b)
      rw [hmove.others hb]
      exact h.within b
  · exact fun b c op op' hne hb hc hop hop' =>
      h.apart b c op op' hne (busy_before hgo hb) (busy_before hgo hc) hop hop'
  · exact fun b x r => h.stays_retrieved hgo
  · intro r r' o hr hr' ho ho'
    rcases RefCount.go_cases hgo with ⟨st, prog, hphase, hstart⟩ | ⟨-, hsame, -⟩
    · exact h.start_alone hphase hstart r r' o hr hr' ho ho'
    · change refs.held r = some o at ho
      change refs.held r' = some o at ho'
      rw [hsame] at ho ho'
      exact h.alone r r' o hr hr' ho ho'
  · intro r o hr ho hobtained r' ho'
    rcases RefCount.go_cases hgo with ⟨st, prog, hphase, hstart⟩ | ⟨hrun, hsame, -⟩
    · exact h.start_first hphase hstart r o hr ho hobtained r' ho'
    · change refs.held r = some o at ho
      change refs.held r' = some o at ho'
      rw [hsame] at ho ho'
      refine h.first r o hr ho ?_ r' ho'
      exact (carry_of_notMem fun st prog hphase => absurd hphase (hrun _)).symm.trans hobtained
  · exact fun b op hb => h.stays_during hgo (busy_before hgo hb)
  · intro o st hst
    change st ∈ refs.inside o at hst
    rw [RefCount.go_inside hgo] at hst
    obtain ⟨w, hw, hsrc⟩ := h.inside o st hst
    exact ⟨w, hw, (h.hooked_held hgo hw).1.trans hsrc⟩
  · intro w hw
    show (∃ o, refs.held (.src w) = some o) ∧ ∃ o, refs.held (.cont w) = some o
    rw [(h.hooked_held hgo hw).1, (h.hooked_held hgo hw).2]
    exact h.hooked w hw
  · exact fun b x hx => h.stays_local hgo hx
  · intro w hw
    have hsame := h.waiter_held hgo (fun c heq => by cases hw.symm.trans heq) fun heq => by
      cases hw.symm.trans heq
    show refs.held (.src w) = none ∧ refs.held (.cont w) = none
    rw [hsame.1, hsame.2]
    exact h.fresh w hw
  · exact fun w hw => h.stays_gone hgo hw

section Begin

variable (hidle : s.refs.phase a = .run []) (hallowed : op.allowed s a = true)

omit h in
include hallowed in
omit [DecidableEq O] in
theorem begun_attaching (hb : b ≠ a) (hw : (s.begun a op).stage w = .attaching b) :
    s.stage w = .attaching b := by
  rcases staged_cases hallowed w with hsame | ⟨-, hnow⟩ | ⟨y, kept, -, -, hnow⟩
  · exact hsame.symm.trans hw
  · cases hnow.symm.trans hw
    exact absurd rfl hb
  · have hnow := hnow.symm.trans hw
    cases kept <;> cases hnow

omit h in
include hallowed in
omit [DecidableEq O] in
theorem begun_hooked : (s.begun a op).Hooked w ↔ s.Hooked w := by
  show (op.staged a s.stage w = .kept ∨ ∃ b, op.staged a s.stage w = .stored b) ↔
    (s.stage w = .kept ∨ ∃ b, s.stage w = .stored b)
  rcases staged_cases hallowed w with hsame | ⟨hfresh, hnow⟩ | ⟨y, kept, -, hwas, hnow⟩
  · rw [hsame]
  · rw [hfresh, hnow]
    simp
  · rw [hwas, hnow]
    cases kept <;> simp

include hallowed in
omit [DecidableEq O] in
theorem begun_apart {op₁ op₂ : Op ν ω O} {c : α}
    (hapart : ∀ b, b ≠ a → s.Busy b → s.Apart a b op) (hne : b ≠ c)
    (hb : (s.begun a op).Busy b) (hc : (s.begun a op).Busy c)
    (hop₁ : (s.begun a op).op b = some op₁)
    (hop₂ : (s.begun a op).op c = some op₂) (hx : x ∈ (s.begun a op).writes b op₁) :
    x ∉ op₂.reads c ∧ x ∉ (s.begun a op).writes c op₂ := by
  have hmono : ∀ {d op}, d ≠ a → x ∈ (s.begun a _).writes d op → x ∈ s.writes d op := fun hd =>
    writes_mono fun w => begun_attaching hallowed hd
  unfold State.Busy at hb hc
  by_cases hba : b = a
  · subst hba
    rw [begun_op_self] at hop₁
    obtain rfl := Option.some.inj hop₁
    rw [begun_op_of_ne hne.symm] at hop₂
    rw [begun_phase_of_ne hne.symm] at hc
    have happart := (hapart c hne.symm hc op₂ hop₂).1 x (writes_sub hx)
    exact ⟨happart.1, fun hwrites => happart.2 (hmono hne.symm hwrites)⟩
  · rw [begun_op_of_ne hba] at hop₁
    rw [begun_phase_of_ne hba] at hb
    by_cases hca : c = a
    · subst hca
      rw [begun_op_self] at hop₂
      obtain rfl := Option.some.inj hop₂
      obtain ⟨hwrites, hreads, -⟩ := hapart b hba hb op₁ hop₁
      have hx := hmono hba hx
      exact ⟨fun hreads' => hreads x hreads' hx,
        fun hwrites' => (hwrites x (writes_sub hwrites')).2 hx⟩
    · rw [begun_op_of_ne hca] at hop₂
      rw [begun_phase_of_ne hca] at hc
      have happart := h.apart b c op₁ op₂ hne hb hc hop₁ hop₂ x (hmono hba hx)
      exact ⟨happart.1, fun hwrites => happart.2 (hmono hca hwrites)⟩

include hallowed in
omit [DecidableEq O] in
theorem begun_during (hb : (s.begun a op).Busy b) (hop : (s.begun a op).op b = some op') :
    (s.begun a op).During b op' := by
  have hstage := staged_cases hallowed
  by_cases hba : b = a
  · subst hba
    rw [begun_op_self] at hop
    obtain rfl := Option.some.inj hop
    cases op with
    | andThen k w o =>
      refine .inl ⟨Function.update_self .., .inl ?_⟩
      rw [begun_phase_self]
      rfl
    | result w y kept => exact Function.update_self ..
    | _ => trivial
  · rw [begun_op_of_ne hba] at hop
    have hphase : (s.begun a op).refs.phase b = s.refs.phase b := begun_phase_of_ne hba
    unfold State.Busy at hb
    rw [hphase] at hb
    have hduring := h.during b op' hb hop
    cases op' with
    | andThen k w o =>
      have hsame : (s.begun a op).stage w = s.stage w := by
        refine (hstage w).resolve_right ?_
        rintro (⟨hfresh, -⟩ | ⟨y, kept, -, hwas, -⟩)
        · rcases hduring with ⟨hstage', -⟩ | ⟨-, hstage' | hstage'⟩
            <;> cases hfresh.symm.trans hstage'
        · rcases hduring with ⟨hstage', -⟩ | ⟨-, hstage' | hstage'⟩ <;> rw [hstage'] at hwas
            <;> cases kept <;> cases hwas <;>
            exact hba rfl
      show State.During _ b _
      unfold State.During
      simp only [hphase, hsame]
      exact hduring
    | result w y kept =>
      refine ((hstage w).resolve_right ?_).trans hduring
      rintro (⟨hfresh, -⟩ | ⟨y', kept', -, hwas, -⟩)
      · have hwas := hfresh.symm.trans hduring
        cases kept <;> cases hwas
      · have hwas := hwas.symm.trans hduring
        cases kept <;> cases kept' <;> cases hwas
    | _ => trivial

include hidle hallowed in
omit [DecidableEq O] in
theorem begun_gone (hw : (s.begun a op).stage w = .gone) :
    (s.refs.held (.src w) = none ∧ s.refs.held (.cont w) = none) ∨
    ∃ b y, (s.begun a op).op b = some (.result w y false) ∧
    Tidy s.refs.held (.src w) ((s.begun a op).refs.phase b).rest ∧
      Tidy s.refs.held (.cont w) ((s.begun a op).refs.phase b).rest := by
  rcases staged_cases hallowed w with hsame | ⟨-, hnow⟩ | ⟨y, kept, rfl, -, hnow⟩
  · rcases h.gone w (hsame.symm.trans hw) with hnone | ⟨b, y, hop', hsrc, hcont⟩
    · exact .inl hnone
    · by_cases hb : b = a
      · subst hb
        rw [hidle] at hsrc hcont
        exact .inl ⟨hsrc.none, hcont.none⟩
      · refine .inr ⟨b, y, ?_⟩
        rw [begun_op_of_ne hb, begun_phase_of_ne hb]
        exact ⟨hop', hsrc, hcont⟩
  · cases hnow.symm.trans hw
  · cases kept with
    | true => cases hnow.symm.trans hw
    | false =>
      refine .inr ⟨a, y, ?_⟩
      rw [begun_op_self, begun_phase_self]
      exact ⟨rfl, result_tidy (a := a) _ w y⟩

end Begin

theorem begin (hstep : s.begin a op = some s')
    (hapart : ∀ b, b ≠ a → s.Busy b → s.Apart a b op) : Ok s' := by
  obtain ⟨hidle, hallowed, rfl | rfl⟩ := begin_cases hstep
  · exact h
  refine ⟨?_, ?_, ?_, ?_, h.alone, ?_, ?_, ?_, ?_, ?_, ?_, ?_⟩
  · exact h.refs.move (.skips hidle) fun st prog hphase => by cases hidle.symm.trans hphase
  · intro b
    unfold State.code
    by_cases hb : b = a
    · subst hb
      rw [begun_phase_self, begun_op_self]
      exact ⟨[], rfl⟩
    · rw [begun_phase_of_ne hb, begun_op_of_ne hb]
      exact h.within b
  · exact fun b c op₁ op₂ hne hb hc hop₁ hop₂ x => h.begun_apart hallowed hapart hne hb hc hop₁ hop₂
  · intro b x r hcopy hr
    show (s.obtained r || decide (r ∈ op.obtains)) = true
    by_cases hb : b = a
    · subst hb
      rw [begun_phase_self] at hcopy
      rw [decide_eq_true (code_source hcopy hr).1, Bool.or_true]
    · rw [begun_phase_of_ne hb] at hcopy
      rw [h.retrieved b x r hcopy hr, Bool.true_or]
  · intro r o hr ho hobtained
    exact h.first r o hr ho (Bool.or_eq_false_iff.mp hobtained).1
  · exact fun b op' => h.begun_during hallowed
  · intro o st hst
    obtain ⟨w, hw, hsrc⟩ := h.inside o st hst
    exact ⟨w, (begun_hooked hallowed).mpr hw, hsrc⟩
  · exact fun w hw => h.hooked w ((begun_hooked hallowed).mp hw)
  · intro b x hx
    show Tidy s.refs.held x ((s.begun a op).refs.phase b).rest
    by_cases hb : b = a
    · subst hb
      rw [begun_phase_self]
      have hnone := h.locals b x hx
      rw [hidle] at hnone
      exact code_tidy hx hnone.none
    · rw [begun_phase_of_ne hb]
      exact h.locals b x hx
  · intro w hw
    refine h.fresh w ?_
    rcases staged_cases hallowed w with hsame | ⟨hfresh, -⟩ | ⟨y, kept, -, -, hnow⟩
    · exact hsame.symm.trans hw
    · exact hfresh
    · have hnow := hnow.symm.trans hw
      cases kept <;> cases hnow
  · exact fun w => h.begun_gone hidle hallowed

omit [DecidableEq ν] [DecidableEq ω] in
theorem complete (hstep : s.complete a = some s') : Ok s' := by
  obtain ⟨ready, rfl⟩ := complete_ready hstep
  exact ⟨h.refs, h.within, h.apart, h.retrieved, h.alone, h.first, h.during, h.inside, h.hooked,
    h.locals, h.fresh, h.gone⟩

omit [DecidableEq ν] [DecidableEq O] in
theorem attached {refs : RefCount.State (Slot ν ω α) O α} {now : Stage α} {k : Handle ν} {o₁ : O}
    (hphase : s.refs.phase a = .inUse r []) (hop : s.op a = some (.andThen k w o))
    (hheld : s.refs.held r = some o₁)
    (hstage : s.stage w = .attaching a) (hnow : now = .stored a ∨ now = .called a)
    (hrefs : RefCount.Inv refs)
    (hsame : refs.held = s.refs.held) (hphases : refs.phase = s.refs.phase)
    (hinside : ∀ o' st, st ∈ refs.inside o' → st ∈ s.refs.inside o' ∨ now = .stored a ∧ o' = o₁) :
    Ok { s with refs := refs, stage := Function.update s.stage w now } := by
  have hbusy : s.Busy a := fun heq => by cases hphase.symm.trans heq
  -- the waiter is complete and refers to the state that is in use
  have hwaiter : s.refs.held (.src w) = some o₁ ∧ s.refs.held (.cont w) = some o := by
    have hr : r = k.slot := by
      have hwithin := h.within a
      rw [hphase] at hwithin
      simp only [State.code, hop] at hwithin
      obtain ⟨done, hcode⟩ := hwithin
      exact Stmt.use.inj (andThen_last hcode)
    have hrest : (s.refs.phase a).rest = [] := by rw [hphase]; rfl
    rcases h.during a _ hbusy hop with ⟨-, hcode | ⟨hcode, -⟩ | ⟨-, hsrc, hcont⟩⟩ |
      ⟨-, hstage' | hstage'⟩
    · cases hrest.symm.trans hcode
    · cases hrest.symm.trans hcode
    · rw [hsrc, ← hr]
      exact ⟨hheld, hcont⟩
    · cases hstage.symm.trans hstage'
    · cases hstage.symm.trans hstage'
  have hself : Function.update s.stage w now w = now := Function.update_self ..
  have hother : ∀ {w'}, s.stage w' ≠ .attaching a →
    Function.update s.stage w now w' = s.stage w' := by
    intro w' hw
    refine Function.update_of_ne ?_ _ _
    rintro rfl
    exact hw hstage
  have hback : ∀ {w' stage}, Function.update s.stage w now w' = stage → stage ≠ .stored a →
    stage ≠ .called a →
      s.stage w' = stage := by
    intro w' stage hw hstored hcalled
    by_cases heq : w' = w
    · rw [heq, hself] at hw
      rcases hnow with hnow | hnow
      · exact absurd (hw.symm.trans hnow) hstored
      · exact absurd (hw.symm.trans hnow) hcalled
    · rwa [Function.update_of_ne heq] at hw
  have hmono :
    ∀ {b op x}, x ∈ ({ s with refs := refs, stage := Function.update s.stage w now } : State ν ω O
      α).writes b op →
      x ∈ s.writes b op := fun hx =>
    writes_mono (fun w' hw => hback hw (fun heq => by cases heq) fun heq => by cases heq) hx
  refine ⟨hrefs, ?_, ?_, ?_, ?_, ?_, ?_, ?_, ?_, ?_, ?_, ?_⟩
  · intro b
    show (refs.phase b).Within (s.code b)
    rw [hphases]
    exact h.within b
  · intro b c op₁ op₂ hne hb hc hop₁ hop₂ x hx
    change refs.phase b ≠ .run [] at hb
    change refs.phase c ≠ .run [] at hc
    rw [hphases] at hb hc
    have happart := h.apart b c op₁ op₂ hne hb hc hop₁ hop₂ x (hmono hx)
    exact ⟨happart.1, fun hwrites => happart.2 (hmono hwrites)⟩
  · intro b x r' hcopy
    change .copy x r' ∈ (refs.phase b).rest at hcopy
    rw [hphases] at hcopy
    exact h.retrieved b x r' hcopy
  · intro r r' o' hr hr'
    show refs.held r = some o' → refs.held r' = some o' → r = r'
    rw [hsame]
    exact h.alone r r' o' hr hr'
  · intro r o' hr
    show refs.held r = some o' → s.obtained r = false → ∀ r', refs.held r' = some o' → r' = r
    rw [hsame]
    exact h.first r o' hr
  · intro b op' hb hop'
    change refs.phase b ≠ .run [] at hb
    rw [hphases] at hb
    have hduring := h.during b op' hb hop'
    cases op' with
    | andThen k' w' o' =>
      by_cases hw : w' = w
      · subst hw
        obtain rfl : b = a := by
          rcases hduring with ⟨hstage', -⟩ | ⟨-, hstage' | hstage'⟩
          · exact Stage.attaching.inj (hstage'.symm.trans hstage)
          · cases hstage.symm.trans hstage'
          · cases hstage.symm.trans hstage'
        refine .inr ⟨?_, ?_⟩
        · show (refs.phase b).rest = []
          rw [hphases, hphase]
          rfl
        · show Function.update s.stage w' now w' = _ ∨ Function.update s.stage w' now w' = _
          rwa [hself]
      · show State.During _ b (.andThen k' w' o')
        unfold State.During
        simp only [hsame, hphases, Function.update_of_ne hw]
        exact hduring
    | result w' y kept =>
      refine (hother ?_).trans hduring
      rw [show s.stage w' = _ from hduring]
      cases kept <;> exact fun heq => by cases heq
    | _ => trivial
  · intro o' st hst
    show ∃ w', (Function.update s.stage w now w' = .kept ∨
      ∃ b, Function.update s.stage w now w' = .stored b) ∧
      refs.held (.src w') = some o'
    rw [hsame]
    rcases hinside o' st hst with hold | ⟨hstored, rfl⟩
    · obtain ⟨w', hw, hsrc⟩ := h.inside o' st hold
      refine ⟨w', ?_, hsrc⟩
      rw [hother (by rcases hw with hw | ⟨b, hw⟩ <;> rw [hw] <;> exact fun heq => by cases heq)]
      exact hw
    · exact ⟨w, .inr ⟨a, hself.trans hstored⟩, hwaiter.1⟩
  · intro w' hw
    show (∃ o', refs.held (.src w') = some o') ∧ ∃ o', refs.held (.cont w') = some o'
    rw [hsame]
    by_cases heq : w' = w
    · rw [heq]
      exact ⟨⟨o₁, hwaiter.1⟩, o, hwaiter.2⟩
    · refine h.hooked w' ?_
      change Function.update s.stage w now w' = .kept ∨
        ∃ b, Function.update s.stage w now w' = .stored b at hw
      rwa [Function.update_of_ne heq] at hw
  · intro b x hx
    show Tidy refs.held x (refs.phase b).rest
    rw [hsame, hphases]
    exact h.locals b x hx
  · intro w' hw
    show refs.held (.src w') = none ∧ refs.held (.cont w') = none
    rw [hsame]
    exact h.fresh w' (hback hw (fun heq => by cases heq) fun heq => by cases heq)
  · intro w' hw
    show (refs.held (.src w') = none ∧ refs.held (.cont w') = none) ∨
      ∃ b y, s.op b = some (.result w' y false) ∧
      Tidy refs.held (.src w') (refs.phase b).rest ∧ Tidy refs.held (.cont w') (refs.phase b).rest
    rw [hsame, hphases]
    exact h.gone w' (hback hw (fun heq => by cases heq) fun heq => by cases heq)

theorem attach (hstep : s.attach a = some s') : Ok s' := by
  obtain ⟨r, k, w, o, o₁, hphase, hop, hheld, hstage, rfl | ⟨refs, hadopt, rfl⟩⟩ :=
    attach_cases hstep
  · exact h.attached hphase hop hheld hstage (.inr rfl) h.refs rfl rfl fun _ _ => .inl
  · simp only [RefCount.State.adopt, hphase, hheld, Option.map_some, Option.some.injEq] at hadopt
    subst hadopt
    refine h.attached hphase hop hheld hstage (.inl rfl)
      (h.refs.move (.adopts hphase hheld) fun st prog heq => ?_) rfl rfl ?_
    · cases hphase.symm.trans heq
    · intro o' st hst
      change st ∈ Function.update s.refs.inside o₁ _ o' at hst
      by_cases ho : o' = o₁
      · exact .inr ⟨rfl, ho⟩
      · exact .inl (by rwa [Function.update_of_ne ho] at hst)

theorem step {l : Label ν ω O α} (hstep : s.step l = some s') (hrace : s.RaceFree l) : Ok s' := by
  cases l with
  | begin a op => exact h.begin hstep hrace
  | go a => exact h.go hstep
  | complete a => exact h.complete hstep
  | attach a => exact h.attach hstep

theorem kept_step {l : Label ν ω O α} (hstep : s.step l = some s') (hkept : s.stage w = .kept) :
    s'.stage w = .kept ∧ s'.refs.held (.src w) = s.refs.held (.src w) ∧
    s'.refs.held (.cont w) = s.refs.held (.cont w) := by
  cases l with
  | begin a op =>
    obtain ⟨-, hallowed, rfl | rfl⟩ := begin_cases hstep
    · exact ⟨hkept, rfl, rfl⟩
    · refine ⟨((staged_cases hallowed w).resolve_right ?_).trans hkept, rfl, rfl⟩
      rintro (⟨hfresh, -⟩ | ⟨y, kept, -, hwas, -⟩)
      · cases hkept.symm.trans hfresh
      · cases kept <;> cases hkept.symm.trans hwas
  | go a =>
    obtain ⟨refs, hgo, rfl⟩ := go_refs hstep
    exact ⟨hkept, h.waiter_held hgo (fun b heq => by cases hkept.symm.trans heq)
      fun heq => by cases hkept.symm.trans heq⟩
  | complete a =>
    obtain ⟨ready, rfl⟩ := complete_ready hstep
    exact ⟨hkept, rfl, rfl⟩
  | attach a =>
    obtain ⟨r, k, w', o, o', hphase, -, hheld, hstage, hattach⟩ := attach_cases hstep
    have hother : w ≠ w' := by
      rintro rfl
      cases hkept.symm.trans hstage
    rcases hattach with rfl | ⟨refs, hadopt, rfl⟩
    · exact ⟨(Function.update_of_ne hother _ _).trans hkept, rfl, rfl⟩
    · simp only [RefCount.State.adopt, hphase, hheld, Option.map_some, Option.some.injEq] at hadopt
      subst hadopt
      exact ⟨(Function.update_of_ne hother _ _).trans hkept, rfl, rfl⟩

end Ok

/-- Every run without data races. -/
theorem reach_ok {s : State ν ω O α}
    (hr : (system (ν := ν) (ω := ω) (O := O) (α := α)).Reach State.RaceFree s) : Ok s := by
  refine hr.invariant (fun s hs => ?_) fun s l s' _ h hrace hstep => h.step hstep hrace
  cases hs
  exact .empty

/-- The references alone make a run of counted references. -/
theorem refines {s : State ν ω O α}
    (hr : (system (ν := ν) (ω := ω) (O := O) (α := α)).Reach State.RaceFree s) :
    RefCount.system.Reach RefCount.State.RaceFree s.refs := by
  induction hr with
  | init hs =>
    cases hs
    exact .init rfl
  | @step s s' l hr hrace hstep ih =>
    have h := reach_ok hr
    cases l with
    | begin a op =>
      obtain ⟨hidle, -, rfl | rfl⟩ := begin_cases hstep
      · exact ih
      · exact ih.step (l := .begin a (op.code a)) trivial (if_pos hidle)
    | go a =>
      obtain ⟨refs, hgo, rfl⟩ := go_refs hstep
      exact ih.step (l := .go a) (fun st prog hphase => h.race hphase) hgo
    | complete a =>
      obtain ⟨ready, rfl⟩ := complete_ready hstep
      exact ih
    | attach a =>
      obtain ⟨r, k, w, o, o', -, -, -, -, rfl | ⟨refs, hadopt, rfl⟩⟩ := attach_cases hstep
      · exact ih
      · exact ih.step (l := .adopt a (unhook w)) trivial hadopt

/-! ### What the states can be relied on for -/

/-- No promise, no future and no waiter refers to the state. -/
def State.Abandoned (s : State ν ω O α) (o : O) : Prop :=
  (∀ p, s.refs.held (.promise p) ≠ some o) ∧ (∀ k : Handle ν, s.refs.held k.slot ≠ some o) ∧
    ∀ w, s.stage w ≠ .fresh → s.stage w ≠ .gone →
    s.refs.held (.src w) ≠ some o ∧ s.refs.held (.cont w) ≠ some o

structure Reclaims (s : State ν ω O α) : Prop where
  /-- no state is used after its destruction -/
  fault : s.refs.fault = false
  once : ∀ o, s.refs.frees o ≤ 1
  valid : ∀ r o, s.refs.held r = some o → s.refs.frees o = 0
  onePromise : ∀ r r' o, r.isPromise = true → r'.isPromise = true → s.refs.held r = some o →
    s.refs.held r' = some o → r = r'
  /-- a promise that was not asked for its future is the only reference -/
  unshared : ∀ r o, r.isPromise = true → s.refs.held r = some o → s.obtained r = false →
    ∀ r', s.refs.held r' = some o → r' = r
  counted : (∀ a, ¬ s.Busy a) → ∀ o, {r | s.refs.held r = some o}.encard = s.refs.count o
  freed : (∀ a, ¬ s.Busy a) → ∀ o, s.refs.made o = true → (s.refs.frees o = 1 ↔ s.Abandoned o)

omit [DecidableEq ν] [DecidableEq ω] [DecidableEq O] in
theorem Ok.unreferenced {s : State ν ω O α} (h : Ok s) (hidle : ∀ a, s.refs.phase a = .run [])
    {o : O} (hnone : s.Abandoned o) :
    s.refs.Unreferenced o := by
  obtain ⟨hpromises, hfutures, hwaiters⟩ := hnone
  have hempty : ∀ w, s.stage w = .fresh ∨ s.stage w = .gone →
    s.refs.held (.src w) = none ∧ s.refs.held (.cont w) = none := by
    rintro w (hw | hw)
    · exact h.fresh w hw
    · rcases h.gone w hw with hnone | ⟨a, y, -, hsrc, hcont⟩
      · exact hnone
      · rw [hidle a] at hsrc hcont
        exact ⟨hsrc.none, hcont.none⟩
  have hslots : ∀ w, s.refs.held (.src w) ≠ some o ∧ s.refs.held (.cont w) ≠ some o := by
    intro w
    by_cases hw : s.stage w = .fresh ∨ s.stage w = .gone
    · obtain ⟨hsrc, hcont⟩ := hempty w hw
      exact ⟨fun heq => (by cases hsrc.symm.trans heq), fun heq => (by cases hcont.symm.trans heq)⟩
    · obtain ⟨hfresh, hgone⟩ := not_or.mp hw
      exact hwaiters w hfresh hgone
  have hlocal : ∀ a x, x = .tmp a ∨ x = .tmpPromise a → s.refs.held x ≠ some o := by
    intro a x hx heq
    have htidy := h.locals a x hx
    rw [hidle a] at htidy
    cases htidy.none.symm.trans heq
  intro r
  cases r with
  | promise p => exact hpromises p
  | future x => exact hfutures (.future x)
  | shared z => exact hfutures (.shared z)
  | src w => exact (hslots w).1
  | cont w => exact (hslots w).2
  | tmp a => exact hlocal a _ (.inl rfl)
  | tmpPromise a => exact hlocal a _ (.inr rfl)

/-- The handles share a state safely and destroy it with the last of them. -/
theorem reclaims {s : State ν ω O α}
    (hr : (system (ν := ν) (ω := ω) (O := O) (α := α)).Reach State.RaceFree s) : Reclaims s := by
  have h := reach_ok hr
  have hrefs := RefCount.reach_inv (fun _ _ => id) (refines hr)
  have hidle : (∀ a, ¬ s.Busy a) → ∀ a, s.refs.phase a = .run [] :=
    fun hidle a => not_not.mp (hidle a)
  refine ⟨hrefs.fault, hrefs.frees, fun r o hheld => (hrefs.existing r o hheld).2, h.alone, h.first,
    fun hquiet => hrefs.idle_count (hidle hquiet), fun hquiet o hmade => ?_⟩
  rw [hrefs.idle_freed (hidle hquiet) hmade]
  exact ⟨fun hnone => ⟨fun p => hnone _, fun k => hnone _, fun w _ _ => ⟨hnone _, hnone _⟩⟩,
    h.unreferenced (hidle hquiet)⟩

/-- One thread destroys the promise while the other is in `get`, which destroys the state. -/
theorem reclaims_broken : ∃ s : State Nat Nat Nat (Fin 2), Reclaims s ∧ s.refs.frees 0 = 1 := by
  let labels : List (Label Nat Nat Nat (Fin 2)) :=
    [.begin 0 (.makePromise 0 0), .go 0, .go 0, .begin 0 (.getFuture 0 0), .go 0, .go 0,
      .begin 1 (.get (.future 0)), .go 1, .go 1, .begin 0 (.destroyPromise 0), .go 0, .complete 0,
      .go 1, .go 0, .go 0, .go 1, .go 1]
  have hreach := (system (ν := Nat) (ω := Nat) (O := Nat) (α := Fin 2)).reach_of_run
    (fun s l => decide (s.RaceFree l))
    State.empty rfl labels rfl
  exact ⟨_, reclaims (hreach.mono fun _ _ => of_decide_eq_true), rfl⟩

/-- What a callback refers to when the state was not ready for it is never destroyed, whatever
becomes of the handles. -/
theorem leaks {s s' : State ν ω O α} {w : ω}
    (hr : (system (ν := ν) (ω := ω) (O := O) (α := α)).Reach State.RaceFree s)
    (hkept : s.stage w = .kept)
    (hlater : ({ system with init := fun x => x = s } : TransitionSystem _ _).Reach
      State.RaceFree s') :
    ∃ o o', s.refs.held (.src w) = some o ∧ s.refs.held (.cont w) = some o' ∧ s'.refs.frees o = 0 ∧
    s'.refs.frees o' = 0 := by
  have hlate : Ok s' ∧ s'.stage w = .kept ∧ s'.refs.held (.src w) = s.refs.held (.src w) ∧
      s'.refs.held (.cont w) = s.refs.held (.cont w) := by
    refine hlater.invariant (I := fun x => Ok x ∧ x.stage w = .kept ∧
      x.refs.held (.src w) = s.refs.held (.src w) ∧
      x.refs.held (.cont w) = s.refs.held (.cont w)) (fun x hx => ?_) fun x l x' _ hx hrace hstep =>
        ?_
    · cases hx
      exact ⟨reach_ok hr, hkept, rfl, rfl⟩
    · obtain ⟨h, hstage, hsrc, hcont⟩ := hx
      obtain ⟨hstage', hsrc', hcont'⟩ := h.kept_step hstep hstage
      exact ⟨h.step hstep hrace, hstage', hsrc'.trans hsrc, hcont'.trans hcont⟩
  obtain ⟨h, hstage, hsrc, hcont⟩ := hlate
  obtain ⟨⟨o, ho⟩, o', ho'⟩ := h.hooked w (.inl hstage)
  exact ⟨o, o', hsrc.symm.trans ho, hcont.symm.trans ho', (h.refs.existing _ _ ho).2,
    (h.refs.existing _ _ ho').2⟩

/-- The promise is set while `then` runs, the callback is called, and every handle is destroyed. -/
theorem leaks_called : ∃ s s' : State Nat Nat Nat (Fin 2),
    s.stage 0 = .kept ∧ s'.refs.held (.promise 0) = none ∧
    s'.refs.held (.future 0) = none ∧ s'.refs.held (.future 1) = none ∧
    ∃ o o', s.refs.held (.src 0) = some o ∧ s.refs.held (.cont 0) = some o' ∧ s'.refs.frees o = 0 ∧
    s'.refs.frees o' = 0 := by
  let labels : List (Label Nat Nat Nat (Fin 2)) :=
    [.begin 0 (.makePromise 0 0), .go 0, .go 0, .begin 0 (.getFuture 0 0), .go 0, .go 0,
      .begin 0 (.andThen (.future 0) 0 1), .go 0, .go 0, .go 0, .go 0, .go 0, .attach 0,
      .begin 1 (.setPromise 0), .go 1, .complete 1, .go 0, .begin 0 (.result 0 1 true), .go 0,
      .go 0]
  let later : List (Label Nat Nat Nat (Fin 2)) :=
    [.begin 0 (.invoke 0 (.future 2)), .go 0, .go 0, .begin 0 (.setContinuation 0), .go 0,
      .complete 0, .go 0, .begin 0 (.destroy (.future 2)), .go 0, .go 1,
      .begin 1 (.destroyPromise 0), .go 1, .go 1, .go 1, .begin 0 (.destroy (.future 0)), .go 0,
      .begin 0 (.destroy (.future 1)), .go 0]
  let s : State Nat Nat Nat (Fin 2) := (system.run State.empty labels).getD State.empty
  have hreach : system.Reach (fun s l => decide (State.RaceFree s l)) s :=
    system.reach_of_run _ State.empty rfl labels rfl
  have hlater := TransitionSystem.reach_of_run { system with init := fun x => x = s }
    (fun s l => decide (State.RaceFree s l))
    s rfl later rfl
  exact ⟨s, _, rfl, rfl, rfl, rfl, leaks (hreach.mono fun _ _ => of_decide_eq_true) rfl
    (hlater.mono fun _ _ => of_decide_eq_true)⟩

end Handles

end GreenThread
