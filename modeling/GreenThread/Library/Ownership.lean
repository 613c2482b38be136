import Mathlib.Logic.Equiv.Basic

/-!
# Exclusive ownership

Owners hold at most one resource each. Ownership is exclusive when no resource has two owners. It
stays exclusive when owners pass their resources around by a permutation, when one gives its
resource up, and when one that holds nothing gets a resource nobody has.
-/

namespace Ownership

variable {O R : Type*}

/-- No resource has two owners. -/
def Exclusive (own : O → Option R) : Prop := ∀ (o o' : O) (r : R), own o = some r →
    own o' = some r → o = o'

def Owned (own : O → Option R) (r : R) : Prop := ∃ o, own o = some r

variable {own own' : O → Option R}

theorem Exclusive.of_le (h : Exclusive own) (hle : ∀ o r, own' o = some r → own o = some r) :
    Exclusive own' :=
  fun _ _ _ ho ho' => h _ _ _ (hle _ _ ho) (hle _ _ ho')

theorem Exclusive.perm (h : Exclusive own) (σ : Equiv.Perm O) (hown : ∀ o, own' o = own (σ o)) :
    Exclusive own' := by
  intro o o' r ho ho'
  rw [hown] at ho ho'
  exact σ.injective (h _ _ _ ho ho')

theorem owned_perm (σ : Equiv.Perm O) (hown : ∀ o, own' o = own (σ o)) {r : R} :
    Owned own' r ↔ Owned own r := by
  constructor
  · rintro ⟨o, ho⟩
    exact ⟨σ o, by rwa [← hown]⟩
  · rintro ⟨o, ho⟩
    exact ⟨σ.symm o, by rwa [hown, Equiv.apply_symm_apply]⟩

variable [DecidableEq O]

theorem Exclusive.gain (h : Exclusive own) {o : O} {r : R} (hnone : ¬ Owned own r) :
    Exclusive (Function.update own o (some r)) := by
  intro o₁ o₂ r' h₁ h₂
  have hrest : ∀ {o' : O}, o' ≠ o → Function.update own o (some r) o' = some r' →
    own o' = some r' := by
    intro o' hne ho'
    rwa [Function.update_of_ne hne] at ho'
  have hself : Function.update own o (some r) o = some r' → r' = r := by
    intro ho
    rw [Function.update_self, Option.some.injEq] at ho
    exact ho.symm
  by_cases h₁o : o₁ = o <;> by_cases h₂o : o₂ = o
  · rw [h₁o, h₂o]
  · subst h₁o
    obtain rfl := hself h₁
    exact absurd ⟨o₂, hrest h₂o h₂⟩ hnone
  · subst h₂o
    obtain rfl := hself h₂
    exact absurd ⟨o₁, hrest h₁o h₁⟩ hnone
  · exact h _ _ _ (hrest h₁o h₁) (hrest h₂o h₂)

theorem owned_gain {o : O} {r r' : R} (hnone : own o = none) :
    Owned (Function.update own o (some r)) r' ↔ r' = r ∨ Owned own r' := by
  constructor
  · rintro ⟨o', ho'⟩
    by_cases hne : o' = o
    · subst hne
      rw [Function.update_self, Option.some.injEq] at ho'
      exact .inl ho'.symm
    · rw [Function.update_of_ne hne] at ho'
      exact .inr ⟨o', ho'⟩
  · rintro (rfl | ⟨o', ho'⟩)
    · exact ⟨o, Function.update_self ..⟩
    · refine ⟨o', ?_⟩
      rwa [Function.update_of_ne]
      rintro rfl
      rw [hnone] at ho'
      cases ho'

end Ownership
