import GreenThread.Library.RefCount
import Mathlib.Data.Set.Card

/-!
# What reference counting guarantees

The invariant of the runs without data races: the count of an object is the number of its counted
references, a reference that is not yet counted comes from one that is, and an object without
references has been destroyed or is about to be.
-/

namespace RefCount

variable {R O A : Type} [DecidableEq R] [DecidableEq O] [DecidableEq A]

/-! ### The slots that refer to an object -/

def refs (own : R → Option O) (o : O) : Set R := {r | own r = some o}

section Refs

variable {own : R → Option O} {r r' : R} {o o' : O}

theorem refs_gain (hnone : own r = none) :
    (refs (Function.update own r (some o)) o').encard = (refs own o').encard + if o' = o then 1
    else 0 := by
  by_cases ho : o' = o
  · subst ho
    have hset : refs (Function.update own r (some o')) o' = insert r (refs own o') := by
      ext x
      by_cases hx : x = r
      · simp [refs, hx]
      · simp [refs, hx]
    rw [hset, if_pos rfl, Set.encard_insert_of_notMem]
    simp [refs, hnone]
  · have hset : refs (Function.update own r (some o)) o' = refs own o' := by
      ext x
      by_cases hx : x = r
      · simp [refs, hx, hnone, Ne.symm ho]
      · simp [refs, Function.update_of_ne hx]
    rw [hset, if_neg ho, add_zero]

theorem refs_lose (hown : own r = some o) :
    (refs (Function.update own r none) o').encard + (if o' = o then 1 else 0) =
    (refs own o').encard := by
  have hback : own = Function.update (Function.update own r none) r (some o) := by
    rw [Function.update_idem, ← hown, Function.update_eq_self]
  conv_rhs => rw [hback]
  exact (refs_gain (Function.update_self ..)).symm

omit [DecidableEq O] in
theorem refs_swap : (refs (own ∘ Equiv.swap r r') o).encard = (refs own o).encard := by
  have himage : refs (own ∘ Equiv.swap r r') o = Equiv.swap r r' '' refs own o := by
    ext x
    rw [Set.mem_image_equiv, Equiv.symm_swap]
    rfl
  rw [himage]
  exact (Equiv.injective _).encard_image _

end Refs

/-! ### The invariant -/

namespace State

variable (s : State R O A)

/-- The slot has been set by a copy that has not yet counted it. -/
def Pending (r : R) : Prop := ∃ a src prog, s.phase a = .adding r src prog

open Classical in
/-- The references that are counted. -/
noncomputable def own (r : R) : Option O := if s.Pending r then none else s.held r

def Dying (o : O) : Prop := ∃ a prog, s.phase a = .freeing o prog

def Unreferenced (o : O) : Prop := ∀ r, s.held r ≠ some o

variable {s} {r : R} {o : O}

omit [DecidableEq R] [DecidableEq O] [DecidableEq A] in
theorem own_of_pending (h : s.Pending r) : s.own r = none := if_pos h

omit [DecidableEq R] [DecidableEq O] [DecidableEq A] in
theorem own_of_settled (h : ¬ s.Pending r) : s.own r = s.held r := if_neg h

omit [DecidableEq R] [DecidableEq O] [DecidableEq A] in
theorem own_eq (h : s.own r = some o) : s.held r = some o ∧ ¬ s.Pending r := by
  by_cases hpending : s.Pending r
  · rw [own_of_pending hpending] at h
    cases h
  · rw [own_of_settled hpending] at h
    exact ⟨h, hpending⟩

end State

/-- What every run without data races keeps true. -/
structure Inv (s : State R O A) : Prop where
  counted : ∀ o, (refs s.own o).encard = s.count o
  /-- a slot that is not yet counted was copied from one that is and stays so, or is the only one -/
  adding : ∀ a r src prog, s.phase a = .adding r src prog → ∃ o, s.held r = some o ∧
    (∀ x ∈ src, s.own x = some o) ∧ (src = none → ∀ r', s.held r' = some o → r' = r)
  alone : ∀ a b r src src' prog prog', s.phase a = .adding r src prog →
    s.phase b = .adding r src' prog' → a = b
  used : ∀ a r prog, s.phase a = .inUse r prog → ∃ o, s.own r = some o
  existing : ∀ r o, s.held r = some o → s.made o = true ∧ s.frees o = 0
  dying : ∀ a o prog, s.phase a = .freeing o prog →
    s.Unreferenced o ∧ s.made o = true ∧ s.frees o = 0
  once : ∀ a b o prog prog', s.phase a = .freeing o prog → s.phase b = .freeing o prog' → a = b
  frees : ∀ o, s.frees o ≤ 1
  unmade : ∀ o, s.made o = false → s.frees o = 0
  reclaimed : ∀ o, s.made o = true → s.Unreferenced o → s.frees o = 1 ∨ s.Dying o
  fault : s.fault = false

variable {s s' : State R O A} {a b : A} {l : Label R O A} {r r' : R} {o : O}

/-! ### The invariant is kept -/

section Pending

omit [DecidableEq R] [DecidableEq O] [DecidableEq A] in
theorem pending_iff (hothers : ∀ b, b ≠ a → s'.phase b = s.phase b)
    (hphase : ∀ r src prog, s.phase a ≠ .adding r src prog)
    (hphase' : ∀ r src prog, s'.phase a ≠ .adding r src prog) :
    s'.Pending r ↔ s.Pending r := by
  constructor
  · rintro ⟨b, src, prog, hb⟩
    have hne : b ≠ a := fun heq => hphase' _ _ _ (heq ▸ hb)
    exact ⟨b, src, prog, (hothers b hne).symm.trans hb⟩
  · rintro ⟨b, src, prog, hb⟩
    have hne : b ≠ a := fun heq => hphase _ _ _ (heq ▸ hb)
    exact ⟨b, src, prog, (hothers b hne).trans hb⟩

omit [DecidableEq R] [DecidableEq O] in
/-- The slot that a copy has just set is the one new pending slot. -/
theorem pending_adding {src : Option R} {prog : List (Stmt R O)}
    (hothers : ∀ b, b ≠ a → s'.phase b = s.phase b)
    (hphase : ∀ r src prog, s.phase a ≠ .adding r src prog)
    (hphase' : s'.phase a = .adding r src prog) :
    s'.Pending r' ↔ r' = r ∨ s.Pending r' := by
  constructor
  · rintro ⟨b, src', prog', hb⟩
    by_cases hne : b = a
    · subst hne
      cases hphase'.symm.trans hb
      exact .inl rfl
    · exact .inr ⟨b, src', prog', (hothers b hne).symm.trans hb⟩
  · rintro (rfl | ⟨b, src', prog', hb⟩)
    · exact ⟨a, src, prog, hphase'⟩
    · have hne : b ≠ a := fun heq => hphase _ _ _ (heq ▸ hb)
      exact ⟨b, src', prog', (hothers b hne).trans hb⟩

section

omit [DecidableEq R] [DecidableEq O] [DecidableEq A]

theorem own_congr (hheld : s'.held r = s.held r) (hpending : s'.Pending r ↔ s.Pending r) :
    s'.own r = s.own r := by
  by_cases h : s.Pending r
  · rw [State.own_of_pending h, State.own_of_pending (hpending.mpr h)]
  · rw [State.own_of_settled h, State.own_of_settled (hpending.not.mpr h), hheld]

/-- A phase that the agent is not in is one of another agent, and was before. -/
theorem phase_elsewhere {p q : Phase R O} (hothers : ∀ b, b ≠ a → s'.phase b = s.phase b)
    (hself : s'.phase a = q) (hne : q ≠ p) (hb : s'.phase b = p) : b ≠ a ∧ s.phase b = p := by
  have hba : b ≠ a := by
    rintro rfl
    exact hne (hself.symm.trans hb)
  exact ⟨hba, (hothers b hba).symm.trans hb⟩

theorem adding_elsewhere {src : Option R} {prog prog' : List (Stmt R O)}
    (hothers : ∀ b, b ≠ a → s'.phase b = s.phase b)
    (hself : s'.phase a = .run prog) (hb : s'.phase b = .adding r src prog') :
    b ≠ a ∧ s.phase b = .adding r src prog' :=
  phase_elsewhere hothers hself (fun heq => by cases heq) hb

theorem inUse_elsewhere {prog prog' : List (Stmt R O)}
    (hothers : ∀ b, b ≠ a → s'.phase b = s.phase b)
    (hself : s'.phase a = .run prog) (hb : s'.phase b = .inUse r prog') :
    b ≠ a ∧ s.phase b = .inUse r prog' :=
  phase_elsewhere hothers hself (fun heq => by cases heq) hb

theorem freeing_elsewhere {prog prog' : List (Stmt R O)}
    (hothers : ∀ b, b ≠ a → s'.phase b = s.phase b)
    (hself : s'.phase a = .run prog) (hb : s'.phase b = .freeing o prog') :
    b ≠ a ∧ s.phase b = .freeing o prog' :=
  phase_elsewhere hothers hself (fun heq => by cases heq) hb

theorem dying_elsewhere (hothers : ∀ b, b ≠ a → s'.phase b = s.phase b)
    (hphase : ∀ prog, s.phase a ≠ .freeing o prog) (hdying : s.Dying o) : s'.Dying o := by
  obtain ⟨b, prog, hb⟩ := hdying
  have hne : b ≠ a := fun heq => hphase prog (heq ▸ hb)
  exact ⟨b, prog, (hothers b hne).trans hb⟩

end

end Pending

namespace Inv

omit [DecidableEq R] [DecidableEq O] [DecidableEq A] in
theorem empty : Inv (State.empty : State R O A) where
  counted := fun o => by
    have hnone : refs (State.empty : State R O A).own o = ∅ := by
      ext r
      refine iff_of_false (fun h => ?_) (Set.notMem_empty r)
      cases (State.own_eq h).1
    rw [hnone, Set.encard_empty]
    rfl
  adding := fun _ _ _ _ h => by cases h
  alone := fun _ _ _ _ _ _ _ h => by cases h
  used := fun _ _ _ h => by cases h
  existing := fun _ _ h => by cases h
  dying := fun _ _ _ h => by cases h
  once := fun _ _ _ _ _ h => by cases h
  frees := fun _ => Nat.zero_le 1
  unmade := fun _ _ => rfl
  reclaimed := fun _ h => by cases h
  fault := rfl

variable (h : Inv s)

include h

section

omit [DecidableEq R] [DecidableEq O] [DecidableEq A]

theorem alone_elsewhere {c : A} {src src' : Option R} {prog prog' prog'' : List (Stmt R O)}
    (hothers : ∀ b, b ≠ a → s'.phase b = s.phase b) (hself : s'.phase a = .run prog)
    (hb : s'.phase b = .adding r src prog') (hc : s'.phase c = .adding r src' prog'') : b = c :=
  h.alone b c r src src' prog' prog'' (adding_elsewhere hothers hself hb).2
  (adding_elsewhere hothers hself hc).2

theorem once_elsewhere {c : A} {prog prog' prog'' : List (Stmt R O)}
    (hothers : ∀ b, b ≠ a → s'.phase b = s.phase b)
    (hself : s'.phase a = .run prog) (hb : s'.phase b = .freeing o prog')
    (hc : s'.phase c = .freeing o prog'') : b = c :=
  h.once b c o prog' prog'' (freeing_elsewhere hothers hself hb).2
  (freeing_elsewhere hothers hself hc).2

theorem touch (hfrees : s.frees o = 0) : s.touch o = false := by
  rw [State.touch, h.fault, hfrees]
  rfl

theorem count_pos (hown : s.own r = some o) : 0 < s.count o := by
  have hpos : (refs s.own o).encard ≠ 0 :=
    Set.encard_ne_zero_of_mem (show r ∈ refs s.own o from hown)
  rw [h.counted, Nat.cast_ne_zero] at hpos
  exact Nat.pos_of_ne_zero hpos

/-- Every reference to an object comes from one that is counted, or is the first. -/
theorem root (hheld : s.held r = some o) : s.own r = some o ∨
    ∃ b src prog, s.phase b = .adding r src prog ∧ (∀ x ∈ src, s.own x = some o) ∧
    (src = none → ∀ r', s.held r' = some o → r' = r) := by
  by_cases hpending : s.Pending r
  · obtain ⟨b, src, prog, hb⟩ := hpending
    obtain ⟨o', ho', hsrc, hsole⟩ := h.adding b r src prog hb
    obtain rfl := Option.some.inj (hheld.symm.trans ho')
    exact .inr ⟨b, src, prog, hb, hsrc, hsole⟩
  · exact .inl ((State.own_of_settled hpending).trans hheld)

end

omit [DecidableEq R] [DecidableEq O] in
/-- The phase of one agent changes between a program and a call, and nothing else. -/
theorem settle (hheld : s'.held = s.held) (hcount : s'.count = s.count) (hmade : s'.made = s.made)
    (hfrees : s'.frees = s.frees)
    (hfault : s'.fault = false) (hothers : ∀ b, b ≠ a → s'.phase b = s.phase b)
    (hphase : (s.phase a).settled = true)
    (hphase' : (∃ prog, s'.phase a = .run prog) ∨ ∃ r prog o, s'.phase a = .inUse r prog ∧
      s.own r = some o) : Inv s' := by
  have hadd' : ∀ r src prog, s'.phase a ≠ .adding r src prog := by
    rcases hphase' with ⟨prog', heq⟩ | ⟨r', prog', o', heq, -⟩ <;> exact fun r src prog hb => by
      cases heq.symm.trans hb
  have hfree' : ∀ o prog, s'.phase a ≠ .freeing o prog := by
    rcases hphase' with ⟨prog', heq⟩ | ⟨r', prog', o', heq, -⟩ <;> exact fun o prog hb => by
      cases heq.symm.trans hb
  have hown : s'.own = s.own := funext fun r =>
    own_congr (congrFun hheld r) (pending_iff hothers (fun _ _ _ => Phase.ne_adding hphase) hadd')
  have hadd : ∀ {b r src prog}, s'.phase b = .adding r src prog → s.phase b = .adding r src prog :=
    fun {b r src prog} hb => by
    have hne : b ≠ a := fun heq => hadd' r src prog (heq ▸ hb)
    exact (hothers b hne).symm.trans hb
  have hfree : ∀ {b o prog}, s'.phase b = .freeing o prog → s.phase b = .freeing o prog :=
    fun {b o prog} hb => by
    have hne : b ≠ a := fun heq => hfree' o prog (heq ▸ hb)
    exact (hothers b hne).symm.trans hb
  have hunref : ∀ o, s'.Unreferenced o ↔ s.Unreferenced o :=
    fun o => by rw [State.Unreferenced, State.Unreferenced, hheld]
  refine ⟨?_, ?_, ?_, ?_, ?_, ?_, ?_, ?_, ?_, ?_, hfault⟩
  · rw [hown, hcount]
    exact h.counted
  · intro b r src prog hb
    rw [hheld, hown]
    exact h.adding b r src prog (hadd hb)
  · exact fun b c r src src' prog prog' hb hc =>
      h.alone b c r src src' prog prog' (hadd hb) (hadd hc)
  · intro b r prog hb
    rw [hown]
    by_cases hne : b = a
    · subst hne
      rcases hphase' with ⟨prog', heq⟩ | ⟨r', prog', o', heq, ho'⟩
      · cases heq.symm.trans hb
      · cases heq.symm.trans hb
        exact ⟨o', ho'⟩
    · exact h.used b r prog ((hothers b hne).symm.trans hb)
  · rw [hheld, hmade, hfrees]
    exact h.existing
  · intro b o prog hb
    rw [hunref, hmade, hfrees]
    exact h.dying b o prog (hfree hb)
  · exact fun b c o prog prog' hb hc => h.once b c o prog prog' (hfree hb) (hfree hc)
  · rw [hfrees]
    exact h.frees
  · rw [hmade, hfrees]
    exact h.unmade
  · intro o hmade' hnone
    rw [hmade] at hmade'
    rw [hfrees]
    exact (h.reclaimed o hmade' ((hunref o).mp hnone)).imp_right
      (dying_elsewhere hothers fun _ => Phase.ne_freeing hphase)

omit [DecidableEq O] in
theorem gain {src : Option R} {prog : List (Stmt R O)} (hempty : s.held r = none)
    (hphase : (s.phase a).settled = true)
    (hheld : s'.held = Function.update s.held r (some o)) (hcount : s'.count = s.count)
    (hfrees : s'.frees = s.frees)
    (hfault : s'.fault = s.fault) (hothers : ∀ b, b ≠ a → s'.phase b = s.phase b)
    (hphase' : s'.phase a = .adding r src prog)
    (hmade : ∀ o', s'.made o' = true ↔ o' = o ∨ s.made o' = true)
    (hsource : (∃ x, src = some x ∧ s.own x = some o) ∨ src = none ∧ s.made o = false) :
    Inv s' := by
  have hpending : ∀ {r'}, s'.Pending r' ↔ r' = r ∨ s.Pending r' :=
    pending_adding hothers (fun _ _ _ => Phase.ne_adding hphase) hphase'
  have hold : ∀ {r' o'}, s.held r' = some o' → r' ≠ r := by
    rintro r' o' hr' rfl
    rw [hempty] at hr'
    cases hr'
  have hself : s'.held r = some o := by rw [hheld, Function.update_self]
  have hother : ∀ {r'}, r' ≠ r → s'.held r' = s.held r' :=
    fun hne => by rw [hheld, Function.update_of_ne hne]
  have hown : s'.own = s.own := by
    funext r'
    by_cases hr : r' = r
    · subst hr
      have hnone : s.own r' = none := by
        cases hown : s.own r' with
        | none => rfl
        | some o' => cases hempty.symm.trans (State.own_eq hown).1
      rw [State.own_of_pending (hpending.mpr (.inl rfl)), hnone]
    · exact own_congr (hother hr) (hpending.trans (or_iff_right hr))
  have hlive : s.frees o = 0 := by
    rcases hsource with ⟨x, -, hx⟩ | ⟨-, hnew⟩
    · exact (h.existing x o (State.own_eq hx).1).2
    · exact h.unmade o hnew
  have hadd : ∀ {b r₁ src₁ prog₁}, b ≠ a → s'.phase b = .adding r₁ src₁ prog₁ →
    s.phase b = .adding r₁ src₁ prog₁ :=
    fun hne hb => (hothers _ hne).symm.trans hb
  have hfree : ∀ {b o₁ prog₁}, s'.phase b = .freeing o₁ prog₁ →
    b ≠ a ∧ s.phase b = .freeing o₁ prog₁ := fun {b o₁ prog₁} hb => by
    have hne : b ≠ a := fun heq => by
      subst heq
      cases hphase'.symm.trans hb
    exact ⟨hne, (hothers _ hne).symm.trans hb⟩
  -- nothing that was on its way to be destroyed is the object that has gained a reference
  have hapart : ∀ {o'}, s.Unreferenced o' → s.made o' = true → o' ≠ o := by
    rintro o' hnone hmade' rfl
    rcases hsource with ⟨x, -, hx⟩ | ⟨-, hnew⟩
    · exact hnone x (State.own_eq hx).1
    · rw [hnew] at hmade'
      cases hmade'
  refine ⟨?_, ?_, ?_, ?_, ?_, ?_, ?_, ?_, ?_, ?_, hfault.trans h.fault⟩
  · rw [hown, hcount]
    exact h.counted
  · intro b r₁ src₁ prog₁ hb
    rw [hown]
    by_cases hne : b = a
    · subst hne
      cases hphase'.symm.trans hb
      refine ⟨o, hself, fun x hx => ?_, fun hnone r' hr' => ?_⟩
      · rcases hsource with ⟨y, rfl, hy⟩ | ⟨rfl, -⟩
        · obtain rfl := Option.mem_some_iff.mp hx
          exact hy
        · cases hx
      · by_contra hr
        rw [hother hr] at hr'
        rcases hsource with ⟨y, rfl, -⟩ | ⟨-, hnew⟩
        · cases hnone
        · rw [(h.existing _ _ hr').1] at hnew
          cases hnew
    · obtain ⟨o₁, ho₁, hsrc, hsole⟩ := h.adding b r₁ src₁ prog₁ (hadd hne hb)
      refine ⟨o₁, (hother (hold ho₁)).trans ho₁, hsrc, fun hnone r' hr' => ?_⟩
      by_cases hr : r' = r
      · subst hr
        obtain rfl := Option.some.inj (hself.symm.trans hr')
        rcases hsource with ⟨x, -, hx⟩ | ⟨-, hnew⟩
        · -- the source of the copy would be the slot of the other agent, which is pending
          obtain rfl := hsole hnone x (State.own_eq hx).1
          exact absurd ⟨b, src₁, prog₁, hadd hne hb⟩ (State.own_eq hx).2
        · rw [(h.existing _ _ ho₁).1] at hnew
          cases hnew
      · exact hsole hnone r' ((hother hr).symm.trans hr')
  · intro b c r₁ src₁ src₂ prog₁ prog₂ hb hc
    have hclash : ∀ {d src₃ prog₃}, d ≠ a → s'.phase d ≠ .adding r src₃ prog₃ :=
      fun {d src₃ prog₃} hne hd => by
      obtain ⟨o₁, ho₁, -⟩ := h.adding d r src₃ prog₃ (hadd hne hd)
      exact hold ho₁ rfl
    by_cases hb' : b = a <;> by_cases hc' : c = a
    · rw [hb', hc']
    · subst hb'
      cases hphase'.symm.trans hb
      exact absurd hc (hclash hc')
    · subst hc'
      cases hphase'.symm.trans hc
      exact absurd hb (hclash hb')
    · exact h.alone b c r₁ src₁ src₂ prog₁ prog₂ (hadd hb' hb) (hadd hc' hc)
  · intro b r₁ prog₁ hb
    have hne : b ≠ a := fun heq => by
      subst heq
      cases hphase'.symm.trans hb
    rw [hown]
    exact h.used b r₁ prog₁ ((hothers b hne).symm.trans hb)
  · intro r' o' hr'
    rw [hmade, hfrees]
    by_cases hr : r' = r
    · subst hr
      obtain rfl := Option.some.inj (hself.symm.trans hr')
      exact ⟨.inl rfl, hlive⟩
    · obtain ⟨hmade', hfrees'⟩ := h.existing r' o' ((hother hr).symm.trans hr')
      exact ⟨.inr hmade', hfrees'⟩
  · intro b o₁ prog₁ hb
    obtain ⟨hne, hb⟩ := hfree hb
    obtain ⟨hnone, hmade₁, hfrees₁⟩ := h.dying b o₁ prog₁ hb
    rw [hmade, hfrees]
    refine ⟨fun r' hr' => ?_, .inr hmade₁, hfrees₁⟩
    by_cases hr : r' = r
    · subst hr
      exact hapart hnone hmade₁ (Option.some.inj (hself.symm.trans hr')).symm
    · exact hnone r' ((hother hr).symm.trans hr')
  · exact fun b c o₁ prog₁ prog₂ hb hc => h.once b c o₁ prog₁ prog₂ (hfree hb).2 (hfree hc).2
  · rw [hfrees]
    exact h.frees
  · intro o' hnew
    rw [hfrees]
    refine h.unmade o' ?_
    cases hold' : s.made o' with
    | false => rfl
    | true => cases hnew.symm.trans ((hmade o').mpr (.inr hold'))
  · intro o' hmade' hnone
    rw [hfrees]
    rcases (hmade o').mp hmade' with rfl | hmade'
    · exact absurd hself (hnone r)
    · have hnone' : s.Unreferenced o' := fun r' hr' => hnone r' ((hother (hold hr')).trans hr')
      exact (h.reclaimed o' hmade' hnone').imp_right
        (dying_elsewhere hothers fun _ => Phase.ne_freeing hphase)

omit [DecidableEq O] in
theorem swap {prog : List (Stmt R O)} (hphase : s.phase a = .run (.swap r r' :: prog))
    (hapart : s.Apart a (.swap r r')) :
    Inv { s.setPhase a (.run prog) with held := s.held ∘ Equiv.swap r r' } := by
  set s' : State R O A :=
    { s.setPhase a (.run prog) with held := s.held ∘ Equiv.swap r r' } with hs'
  have hothers : ∀ b, b ≠ a → s'.phase b = s.phase b := fun b hne => setPhase_others _ hne
  have hself : s'.phase a = .run prog := setPhase_self _
  have hpending : ∀ x, s'.Pending x ↔ s.Pending x := fun x =>
    pending_iff hothers (fun _ _ _ heq => by cases hphase.symm.trans heq)
      (fun _ _ _ heq => by cases hself.symm.trans heq)
  have hfixed : ∀ {x : R}, x ≠ r → x ≠ r' → Equiv.swap r r' x = x := Equiv.swap_apply_of_ne_of_ne
  -- the other agents neither copy to these slots nor from them, and call nothing through them
  have hmoved : ∀ {b x}, b ≠ a → x ∈ (s.phase b).writes ∨ x ∈ (s.phase b).reads →
    Equiv.swap r r' x = x := fun {b x} hne hx => by
    have hwrites := (hapart b hne).1
    refine hfixed ?_ ?_
    · rintro rfl
      exact hx.elim (hwrites x List.mem_cons_self).2 (hwrites x List.mem_cons_self).1
    · rintro rfl
      exact hx.elim (hwrites x (List.mem_cons_of_mem _ List.mem_cons_self)).2
        (hwrites x (List.mem_cons_of_mem _ List.mem_cons_self)).1
  have hquiet : ∀ {x}, s.Pending x → Equiv.swap r r' x = x := by
    rintro x ⟨b, src, prog', hb⟩
    have hne : b ≠ a := fun heq => by
      subst heq
      cases hphase.symm.trans hb
    exact hmoved hne (.inl (by rw [hb]; exact List.mem_singleton_self x))
  have hown : s'.own = s.own ∘ Equiv.swap r r' := by
    funext x
    show s'.own x = s.own (Equiv.swap r r' x)
    by_cases hx : s.Pending x
    · rw [State.own_of_pending ((hpending x).mpr hx), hquiet hx, State.own_of_pending hx]
    · have hx' : ¬ s.Pending (Equiv.swap r r' x) := fun hpend => by
        have hback := hquiet hpend
        rw [Equiv.swap_apply_self] at hback
        exact hx (hback ▸ hpend)
      rw [State.own_of_settled ((hpending x).not.mpr hx), State.own_of_settled hx']
      rfl
  have hunref : ∀ {o'}, s'.Unreferenced o' ↔ s.Unreferenced o' := fun {o'} => by
    refine ⟨fun hnone x hx => hnone (Equiv.swap r r' x) ?_, fun hnone x => hnone _⟩
    show s.held (Equiv.swap r r' (Equiv.swap r r' x)) = some o'
    rwa [Equiv.swap_apply_self]
  refine ⟨?_, ?_, ?_, ?_, fun x o' hx => h.existing _ o' hx, ?_, ?_, h.frees, h.unmade, ?_, h.fault⟩
  · intro o'
    rw [hown, refs_swap]
    exact h.counted o'
  · intro b r₁ src₁ prog₁ hb
    obtain ⟨hne, hb⟩ := adding_elsewhere hothers hself hb
    obtain ⟨o₁, ho₁, hsrc, hsole⟩ := h.adding b r₁ src₁ prog₁ hb
    have hr₁ : Equiv.swap r r' r₁ = r₁ :=
      hmoved hne (.inl (by rw [hb]; exact List.mem_singleton_self r₁))
    refine ⟨o₁, ?_, fun x hx => ?_, fun hnone x hx => ?_⟩
    · show s.held (Equiv.swap r r' r₁) = some o₁
      rwa [hr₁]
    · have hx' : Equiv.swap r r' x = x :=
        hmoved hne (.inr (by rw [hb]; exact Option.mem_toList.mpr hx))
      rw [hown]
      show s.own (Equiv.swap r r' x) = some o₁
      rw [hx']
      exact hsrc x hx
    · have hback := congrArg (Equiv.swap r r') (hsole hnone _ hx)
      rwa [Equiv.swap_apply_self, hr₁] at hback
  · exact fun b c r₁ src₁ src₂ prog₁ prog₂ => h.alone_elsewhere hothers hself
  · intro b r₁ prog₁ hb
    obtain ⟨hne, hb⟩ := inUse_elsewhere hothers hself hb
    obtain ⟨o₁, ho₁⟩ := h.used b r₁ prog₁ hb
    have hr₁ : Equiv.swap r r' r₁ = r₁ :=
      hmoved hne (.inr (by rw [hb]; exact List.mem_singleton_self r₁))
    refine ⟨o₁, ?_⟩
    rw [hown]
    show s.own (Equiv.swap r r' r₁) = some o₁
    rwa [hr₁]
  · intro b o₁ prog₁ hb
    rw [hunref]
    exact h.dying b o₁ prog₁ (freeing_elsewhere hothers hself hb).2
  · exact fun b c o₁ prog₁ prog₂ => h.once_elsewhere hothers hself
  · intro o' hmade hnone
    refine (h.reclaimed o' hmade (hunref.mp hnone)).imp_right ?_
    exact dying_elsewhere hothers fun prog₁ heq => by cases hphase.symm.trans heq

theorem add {src : Option R} {prog : List (Stmt R O)} (hphase : s.phase a = .adding r src prog)
    (hheld : s.held r = some o) :
    Inv { s.setPhase a (.run prog) with
      count := Function.update s.count o (s.count o + 1), fault := s.touch o } := by
  set s' : State R O A := { s.setPhase a (.run prog) with
    count := Function.update s.count o (s.count o + 1), fault := s.touch o } with hs'
  have hothers : ∀ b, b ≠ a → s'.phase b = s.phase b := fun b hne => setPhase_others _ hne
  have hself : s'.phase a = .run prog := setPhase_self _
  have hnone : s.own r = none := State.own_of_pending ⟨a, src, prog, hphase⟩
  have hsettled : ¬ s'.Pending r := by
    rintro ⟨b, src₁, prog₁, hb⟩
    obtain ⟨hne, hb⟩ := adding_elsewhere hothers hself hb
    exact hne (h.alone b a r src₁ src prog₁ prog hb hphase)
  have hown : s'.own = Function.update s.own r (some o) := by
    funext x
    by_cases hx : x = r
    · rw [hx, Function.update_self, State.own_of_settled hsettled]
      exact hheld
    · rw [Function.update_of_ne hx]
      refine own_congr rfl ⟨?_, ?_⟩
      · rintro ⟨b, src₁, prog₁, hb⟩
        exact ⟨b, src₁, prog₁, (adding_elsewhere hothers hself hb).2⟩
      · rintro ⟨b, src₁, prog₁, hb⟩
        have hne : b ≠ a := fun heq => by
          subst heq
          cases hphase.symm.trans hb
          exact hx rfl
        exact ⟨b, src₁, prog₁, (hothers b hne).trans hb⟩
  have hkeep : ∀ {x o'}, s.own x = some o' → s'.own x = some o' := fun {x o'} hx => by
    have hne : x ≠ r := fun heq => by cases hnone.symm.trans (heq ▸ hx)
    rwa [hown, Function.update_of_ne hne]
  refine ⟨?_, ?_, ?_, ?_, h.existing, ?_, ?_, h.frees, h.unmade, ?_,
    h.touch (h.existing r o hheld).2⟩
  · intro o'
    rw [hown, refs_gain hnone, h.counted]
    by_cases ho : o' = o
    · rw [if_pos ho, ho]
      show (s.count o : ℕ∞) + 1 = (Function.update s.count o (s.count o + 1) o : ℕ)
      rw [Function.update_self, Nat.cast_add, Nat.cast_one]
    · rw [if_neg ho, add_zero]
      show (s.count o' : ℕ∞) = (Function.update s.count o (s.count o + 1) o' : ℕ)
      rw [Function.update_of_ne ho]
  · intro b r₁ src₁ prog₁ hb
    obtain ⟨o₁, ho₁, hsrc, hsole⟩ := h.adding b r₁ src₁ prog₁ (adding_elsewhere hothers hself hb).2
    exact ⟨o₁, ho₁, fun x hx => hkeep (hsrc x hx), hsole⟩
  · exact fun b c r₁ src₁ src₂ prog₁ prog₂ => h.alone_elsewhere hothers hself
  · intro b r₁ prog₁ hb
    obtain ⟨o₁, ho₁⟩ := h.used b r₁ prog₁ (inUse_elsewhere hothers hself hb).2
    exact ⟨o₁, hkeep ho₁⟩
  · exact fun b o₁ prog₁ hb => h.dying b o₁ prog₁ (freeing_elsewhere hothers hself hb).2
  · exact fun b c o₁ prog₁ prog₂ => h.once_elsewhere hothers hself
  · intro o' hmade hnone'
    refine (h.reclaimed o' hmade hnone').imp_right ?_
    exact dying_elsewhere hothers fun prog₁ heq => by cases hphase.symm.trans heq

omit [DecidableEq R] in
theorem destroy {prog : List (Stmt R O)} (hphase : s.phase a = .freeing o prog) :
    Inv { s.setPhase a (.run (s.inside o ++ prog)) with
      frees := Function.update s.frees o (s.frees o + 1), fault := s.touch o } := by
  set s' : State R O A :=
    { s.setPhase a (.run (s.inside o ++ prog)) with
      frees := Function.update s.frees o (s.frees o + 1), fault := s.touch o } with hs'
  obtain ⟨hnone, hmade, hfrees⟩ := h.dying a o prog hphase
  have hothers : ∀ b, b ≠ a → s'.phase b = s.phase b := fun b hne => setPhase_others _ hne
  have hself : s'.phase a = .run (s.inside o ++ prog) := setPhase_self _
  have hfree : ∀ {b o₁ prog₁}, s'.phase b = .freeing o₁ prog₁ →
    o₁ ≠ o ∧ s.phase b = .freeing o₁ prog₁ := fun {b o₁ prog₁} hb => by
    obtain ⟨hne, hb'⟩ := freeing_elsewhere hothers hself hb
    exact ⟨fun heq => hne (h.once b a o₁ prog₁ prog hb' (heq ▸ hphase)), hb'⟩
  have hown : s'.own = s.own := funext fun r => own_congr rfl
    (pending_iff hothers (fun _ _ _ heq => by cases hphase.symm.trans heq)
      (fun _ _ _ heq => by cases hself.symm.trans heq))
  have hfreed : s'.frees o = 1 := by
    show Function.update s.frees o (s.frees o + 1) o = 1
    rw [Function.update_self, hfrees]
  have hsame : ∀ {o'}, o' ≠ o → s'.frees o' = s.frees o' := fun hne => Function.update_of_ne hne _ _
  refine ⟨?_, ?_, ?_, ?_, ?_, ?_, ?_, ?_, ?_, ?_, h.touch hfrees⟩
  · rw [hown]
    exact h.counted
  · intro b r₁ src₁ prog₁ hb
    rw [hown]
    exact h.adding b r₁ src₁ prog₁ (adding_elsewhere hothers hself hb).2
  · exact fun b c r₁ src₁ src₂ prog₁ prog₂ => h.alone_elsewhere hothers hself
  · intro b r₁ prog₁ hb
    rw [hown]
    exact h.used b r₁ prog₁ (inUse_elsewhere hothers hself hb).2
  · intro r' o' hr'
    have hne : o' ≠ o := fun heq => hnone r' (heq ▸ hr')
    rw [hsame hne]
    exact h.existing r' o' hr'
  · intro b o₁ prog₁ hb
    obtain ⟨hne, hb⟩ := hfree hb
    rw [hsame hne]
    exact h.dying b o₁ prog₁ hb
  · exact fun b c o₁ prog₁ prog₂ hb hc => h.once b c o₁ prog₁ prog₂ (hfree hb).2 (hfree hc).2
  · intro o'
    by_cases hne : o' = o
    · rw [hne, hfreed]
    · rw [hsame hne]
      exact h.frees o'
  · intro o' hnew
    have hne : o' ≠ o := fun heq => by
      rw [heq] at hnew
      cases hmade.symm.trans hnew
    rw [hsame hne]
    exact h.unmade o' hnew
  · intro o' hmade' hnone'
    by_cases hne : o' = o
    · exact .inl (hne ▸ hfreed)
    · rw [hsame hne]
      refine (h.reclaimed o' hmade' hnone').imp_right (dying_elsewhere hothers fun prog₁ heq => ?_)
      cases hphase.symm.trans heq
      exact hne rfl

/-- A reference is given up. The last one takes the object with it. -/
theorem drop {prog : List (Stmt R O)} (hphase : s.phase a = .run (.drop r :: prog))
    (hapart : s.Apart a (.drop r)) (hheld : s.held r = some o) :
    Inv { s.setPhase a (if s.count o = 1 then .freeing o prog else .run prog) with
      held := Function.update s.held r none, count := Function.update s.count o (s.count o - 1),
        fault := s.touch o } := by
  set s' : State R O A := { s.setPhase a (if s.count o = 1 then .freeing o prog else .run prog) with
    held := Function.update s.held r none, count := Function.update s.count o (s.count o - 1),
      fault := s.touch o } with hs'
  have hothers : ∀ b, b ≠ a → s'.phase b = s.phase b := fun b hne => setPhase_others _ hne
  have hself : s'.phase a = if s.count o = 1 then .freeing o prog else .run prog := setPhase_self _
  have hend : (s.count o = 1 ∧ s'.phase a = .freeing o prog) ∨
    s.count o ≠ 1 ∧ s'.phase a = .run prog := by
    by_cases hlast : s.count o = 1
    · exact .inl ⟨hlast, by rw [hself, if_pos hlast]⟩
    · exact .inr ⟨hlast, by rw [hself, if_neg hlast]⟩
  have helse : ∀ {b p}, s'.phase b = p → p ≠ .freeing o prog → p ≠ .run prog →
    b ≠ a ∧ s.phase b = p := fun {b p} hb hfreeing hrun => by
    have hne : b ≠ a := fun heq => by
      subst heq
      rcases hend with ⟨-, hp⟩ | ⟨-, hp⟩
      · exact hfreeing (hb.symm.trans hp)
      · exact hrun (hb.symm.trans hp)
    exact ⟨hne, (hothers b hne).symm.trans hb⟩
  have hadd : ∀ {b r₁ src₁ prog₁}, s'.phase b = .adding r₁ src₁ prog₁ →
    b ≠ a ∧ s.phase b = .adding r₁ src₁ prog₁ :=
    fun hb => helse hb (fun heq => by cases heq) (fun heq => by cases heq)
  -- the others neither copy to the slot nor from it, and call nothing through it
  have hfar : ∀ {b x}, b ≠ a → x ∈ (s.phase b).writes ∨ x ∈ (s.phase b).reads → x ≠ r := by
    rintro b x hne hx rfl
    have hwrites := (hapart b hne).1 x (List.mem_singleton_self x)
    exact hx.elim hwrites.2 hwrites.1
  have hpending : ∀ x, s'.Pending x ↔ s.Pending x := by
    intro x
    constructor
    · rintro ⟨b, src, prog₁, hb⟩
      exact ⟨b, src, prog₁, (hadd hb).2⟩
    · rintro ⟨b, src, prog₁, hb⟩
      have hne : b ≠ a := fun heq => by
        subst heq
        cases hphase.symm.trans hb
      exact ⟨b, src, prog₁, (hothers b hne).trans hb⟩
  have hsettled : ¬ s.Pending r := by
    rintro ⟨b, src, prog₁, hb⟩
    have hne : b ≠ a := fun heq => by
      subst heq
      cases hphase.symm.trans hb
    exact hfar hne (.inl (by rw [hb]; exact List.mem_singleton_self r)) rfl
  have hcounted : s.own r = some o := (State.own_of_settled hsettled).trans hheld
  have hother : ∀ {x}, x ≠ r → s'.held x = s.held x := fun hx => Function.update_of_ne hx _ _
  have hgone : s'.held r = none := Function.update_self ..
  have hless : ∀ {x o'}, s'.held x = some o' → x ≠ r ∧ s.held x = some o' := fun {x o'} hx => by
    have hne : x ≠ r := fun heq => by
      rw [heq, hgone] at hx
      cases hx
    exact ⟨hne, (hother hne).symm.trans hx⟩
  have hown : s'.own = Function.update s.own r none := by
    funext x
    by_cases hx : x = r
    · rw [hx, Function.update_self, State.own_of_settled ((hpending r).not.mpr hsettled)]
      exact hgone
    · rw [Function.update_of_ne hx]
      exact own_congr (hother hx) (hpending x)
  have hkeep : ∀ {x o'}, x ≠ r → s.own x = some o' → s'.own x = some o' :=
    fun hne hx => by rwa [hown, Function.update_of_ne hne]
  have hpos := h.count_pos hcounted
  have htotal : ∀ o', (refs s'.own o').encard = s'.count o' := by
    intro o'
    have hlose : (refs (Function.update s.own r none) o').encard + (if o' = o then 1 else 0) =
      (refs s.own o').encard :=
      refs_lose hcounted
    rw [← hown, h.counted] at hlose
    by_cases ho : o' = o
    · subst ho
      rw [if_pos rfl] at hlose
      have hcount : s'.count o' + 1 = s.count o' := by
        show Function.update s.count o' (s.count o' - 1) o' + 1 = s.count o'
        rw [Function.update_self]
        omega
      rw [← hcount, Nat.cast_add, Nat.cast_one] at hlose
      exact (ENat.add_left_injective_of_ne_top (by decide)) hlose
    · rw [if_neg ho, add_zero] at hlose
      rw [hlose]
      show (s.count o' : ℕ∞) = (Function.update s.count o (s.count o - 1) o' : ℕ)
      rw [Function.update_of_ne ho]
  -- when the count has become zero, no slot is left, not even one whose copy is not yet counted
  have hlast : s.count o = 1 → s'.Unreferenced o := by
    intro hone x hx
    obtain ⟨hne, hx⟩ := hless hx
    have hzero : s'.count o = 0 := by
      show Function.update s.count o (s.count o - 1) o = 0
      rw [Function.update_self, hone]
    have hnone : ∀ y, s'.own y ≠ some o := fun y hy => by
      have hpos' : (refs s'.own o).encard ≠ 0 :=
        Set.encard_ne_zero_of_mem (show y ∈ refs s'.own o from hy)
      rw [htotal, hzero] at hpos'
      exact hpos' rfl
    rcases h.root hx with hcount | ⟨b, src, prog₁, hb, hsrc, hsole⟩
    · exact hnone x (hkeep hne hcount)
    · have hba : b ≠ a := fun heq => by
        subst heq
        cases hphase.symm.trans hb
      cases src with
      | none => exact hne (hsole rfl r hheld).symm
      | some y =>
        have hy : y ≠ r := hfar hba (.inr (by rw [hb]; exact List.mem_singleton_self y))
        exact hnone y (hkeep hy (hsrc y rfl))
  have hfrees := (h.existing r o hheld)
  have hfree : ∀ {b o₁ prog₁}, s'.phase b = .freeing o₁ prog₁ →
      (b = a ∧ o₁ = o ∧ s.count o = 1) ∨ b ≠ a ∧ o₁ ≠ o ∧ s.phase b = .freeing o₁ prog₁ :=
        fun {b o₁ prog₁} hb => by
    by_cases hne : b = a
    · subst hne
      rcases hend with ⟨hone, hp⟩ | ⟨-, hp⟩
      · cases hp.symm.trans hb
        exact .inl ⟨rfl, rfl, hone⟩
      · cases hp.symm.trans hb
    · have hb := (hothers b hne).symm.trans hb
      exact .inr ⟨hne, fun heq => (h.dying b o₁ prog₁ hb).1 r (heq ▸ hheld), hb⟩
  refine ⟨htotal, ?_, ?_, ?_, ?_, ?_, ?_, h.frees, h.unmade, ?_, h.touch hfrees.2⟩
  · intro b r₁ src₁ prog₁ hb
    obtain ⟨hne, hb⟩ := hadd hb
    obtain ⟨o₁, ho₁, hsrc, hsole⟩ := h.adding b r₁ src₁ prog₁ hb
    have hr₁ : r₁ ≠ r := hfar hne (.inl (by rw [hb]; exact List.mem_singleton_self r₁))
    refine ⟨o₁, (hother hr₁).trans ho₁, fun x hx => ?_,
      fun hnone x hx => hsole hnone x (hless hx).2⟩
    exact hkeep (hfar hne (.inr (by rw [hb]; exact Option.mem_toList.mpr hx))) (hsrc x hx)
  · exact fun b c r₁ src₁ src₂ prog₁ prog₂ hb hc =>
      h.alone b c r₁ src₁ src₂ prog₁ prog₂ (hadd hb).2 (hadd hc).2
  · intro b r₁ prog₁ hb
    obtain ⟨hne, hb⟩ := helse hb (fun heq => by cases heq) (fun heq => by cases heq)
    obtain ⟨o₁, ho₁⟩ := h.used b r₁ prog₁ hb
    exact ⟨o₁, hkeep (hfar hne (.inr (by rw [hb]; exact List.mem_singleton_self r₁))) ho₁⟩
  · exact fun x o' hx => h.existing x o' (hless hx).2
  · intro b o₁ prog₁ hb
    rcases hfree hb with ⟨-, rfl, hone⟩ | ⟨-, -, hb⟩
    · exact ⟨hlast hone, hfrees⟩
    · obtain ⟨hnone, hrest⟩ := h.dying b o₁ prog₁ hb
      exact ⟨fun x hx => hnone x (hless hx).2, hrest⟩
  · intro b c o₁ prog₁ prog₂ hb hc
    rcases hfree hb with ⟨rfl, rfl, -⟩ | ⟨-, hne, hb⟩
    · rcases hfree hc with ⟨rfl, -⟩ | ⟨-, hne, -⟩
      · rfl
      · exact absurd rfl hne
    · rcases hfree hc with ⟨-, rfl, -⟩ | ⟨-, -, hc⟩
      · exact absurd rfl hne
      · exact h.once b c o₁ prog₁ prog₂ hb hc
  · intro o' hmade hnone
    by_cases ho : o' = o
    · subst ho
      rcases hend with ⟨-, hp⟩ | ⟨hmore, -⟩
      · exact .inr ⟨a, prog, hp⟩
      · -- another counted reference is left
        have hsome : (refs s'.own o').encard ≠ 0 := by
          rw [htotal]
          show ((Function.update s.count o' (s.count o' - 1) o' : ℕ) : ℕ∞) ≠ 0
          rw [Function.update_self, Nat.cast_ne_zero]
          omega
        obtain ⟨x, hx⟩ := Set.encard_ne_zero.mp hsome
        exact absurd (State.own_eq hx).1 (hnone x)
    · have hnone' : s.Unreferenced o' := fun x hx => by
        have hne : x ≠ r := fun heq => by
          rw [heq, hheld] at hx
          exact ho (Option.some.inj hx).symm
        exact hnone x ((hother hne).trans hx)
      refine (h.reclaimed o' hmade hnone').imp_right ?_
      exact dying_elsewhere hothers fun prog₁ heq => by cases hphase.symm.trans heq

omit h in
theorem move (h : Inv s) (hmove : Moves s a s')
    (hrace : ∀ st prog, s.phase a = .run (st :: prog) → s.Apart a st) : Inv s' := by
  cases hmove with
  | @skips prog prog' hphase =>
    exact h.settle rfl rfl rfl rfl h.fault (fun b hne => setPhase_others _ hne)
      (by rw [hphase]; rfl) (.inl ⟨prog', setPhase_self _⟩)
  | @makes r o prog hphase hempty hnew =>
    refine h.gain hempty (by rw [hphase]; rfl)
      rfl rfl rfl rfl (fun b hne => setPhase_others _ hne) (setPhase_self _) (fun o' => ?_)
        (.inr ⟨rfl, hnew⟩)
    show Function.update s.made o true o' = true ↔ _
    by_cases ho : o' = o
    · simp [ho]
    · simp [ho]
  | @copies r src o prog hphase hempty hsrc =>
    have hapart := hrace _ _ hphase
    have hsettled : ¬ s.Pending src := by
      rintro ⟨b, src', prog', hb⟩
      have hne : b ≠ a := fun heq => by
        subst heq
        cases hphase.symm.trans hb
      refine (hapart b hne).2 src (List.mem_singleton_self src) ?_
      rw [hb]
      exact List.mem_singleton_self src
    refine h.gain hempty (by rw [hphase]; rfl)
      rfl rfl rfl rfl (fun b hne => setPhase_others _ hne) (setPhase_self _) (fun o' => ?_)
      (.inl ⟨src, rfl, (State.own_of_settled hsettled).trans hsrc⟩)
    refine ⟨.inr, fun hor => hor.elim (fun ho => ?_) id⟩
    rw [ho]
    exact (h.existing src o hsrc).1
  | @swaps r r' prog hphase => exact h.swap hphase (hrace _ _ hphase)
  | @uses r o prog hphase hheld =>
    have hapart := hrace _ _ hphase
    have hsettled : ¬ s.Pending r := by
      rintro ⟨b, src', prog', hb⟩
      have hne : b ≠ a := fun heq => by
        subst heq
        cases hphase.symm.trans hb
      refine (hapart b hne).2 r (List.mem_singleton_self r) ?_
      rw [hb]
      exact List.mem_singleton_self r
    exact h.settle rfl rfl rfl rfl (h.touch (h.existing r o hheld).2)
      (fun b hne => setPhase_others _ hne)
      (by rw [hphase]; rfl)
      (.inr ⟨r, prog, o, setPhase_self _, (State.own_of_settled hsettled).trans hheld⟩)
  | @drops r o prog hphase hheld => exact h.drop hphase (hrace _ _ hphase) hheld
  | @counts r src o prog hphase hheld => exact h.add hphase hheld
  | @returns r o prog hphase hheld =>
    exact h.settle rfl rfl rfl rfl (h.touch (h.existing r o hheld).2)
      (fun b hne => setPhase_others _ hne)
      (by rw [hphase]; rfl) (.inl ⟨prog, setPhase_self _⟩)
  | @destroys o prog hphase => exact h.destroy hphase
  | @adopts r o prog prog' hphase hheld =>
    obtain ⟨o', ho'⟩ := h.used a r prog hphase
    exact h.settle rfl rfl rfl rfl h.fault (fun b _ => rfl)
      (by rw [hphase]; rfl)
      (.inr ⟨r, prog, o', hphase, ho'⟩)

end Inv

theorem reach_inv {ok : State R O A → Label R O A → Prop} (hrace : ∀ s l, ok s l → s.RaceFree l)
    (hr : (system (A := A)).Reach ok s) :
    Inv s := by
  refine hr.invariant (fun s hs => ?_) fun s l s' _ h hok hstep => ?_
  · cases hs
    exact .empty
  · obtain ⟨a, hmove, hapart⟩ := step_moves hstep (hrace s l hok)
    exact h.move hmove hapart

/-! ### When nobody is doing anything -/

section Idle

variable (h : Inv s) (hidle : ∀ a, s.phase a = .run [])

include h hidle

omit h [DecidableEq R] [DecidableEq O] [DecidableEq A] in
theorem idle_own (r : R) : s.own r = s.held r := by
  refine State.own_of_settled ?_
  rintro ⟨a, src, prog, ha⟩
  cases (hidle a).symm.trans ha

omit [DecidableEq R] [DecidableEq O] [DecidableEq A] in
theorem Inv.idle_count (o : O) : {r | s.held r = some o}.encard = s.count o := by
  rw [← h.counted o]
  congr 1
  ext r
  show s.held r = some o ↔ s.own r = some o
  rw [idle_own hidle r]

omit [DecidableEq R] [DecidableEq O] [DecidableEq A] in
/-- An object that was made has been destroyed exactly when nothing refers to it. -/
theorem Inv.idle_freed {o : O} (hmade : s.made o = true) : s.frees o = 1 ↔ s.Unreferenced o := by
  constructor
  · intro hfreed r hr
    rw [(h.existing r o hr).2] at hfreed
    cases hfreed
  · intro hnone
    refine (h.reclaimed o hmade hnone).resolve_right ?_
    rintro ⟨a, prog, ha⟩
    cases (hidle a).symm.trans ha

end Idle

end RefCount
