import Mathlib.Algebra.BigOperators.Ring.Finset
import Mathlib.Algebra.Order.BigOperators.Group.Finset
import Mathlib.Data.Fintype.BigOperators

/-!
# Counting over a finite family

The total of a family of counters, seen from one member: what the others contribute does not change
when only that member does.
-/

namespace Counting

variable {ι : Type*} [Fintype ι] [DecidableEq ι]

/-- The contribution of the others, which every family that differs at `i` only shares. -/
theorem exists_rest (f : ι → ℕ) (i : ι) :
    ∃ rest, ∀ g : ι → ℕ, (∀ j, j ≠ i → g j = f j) → ∑ j, g j = rest + g i := by
  refine ⟨∑ j ∈ Finset.univ.erase i, f j, fun g hg => ?_⟩
  rw [← Finset.sum_erase_add _ _ (Finset.mem_univ i)]
  congr 1
  apply Finset.sum_congr rfl
  intro j hj
  exact hg j (Finset.ne_of_mem_erase hj)

theorem total_change {f g : ι → ℕ} {i : ι} (h : ∀ j, j ≠ i → g j = f j) :
    ∑ j, g j + f i = ∑ j, f j + g i := by
  obtain ⟨rest, hrest⟩ := exists_rest f i
  have hf := hrest f fun _ _ => rfl
  have hg := hrest g h
  omega

omit [DecidableEq ι] in
theorem le_total (f : ι → ℕ) (i : ι) : f i ≤ ∑ j, f j :=
  Finset.single_le_sum (fun _ _ => Nat.zero_le _) (Finset.mem_univ i)

theorem add_le_total (f : ι → ℕ) {i j : ι} (hij : i ≠ j) : f i + f j ≤ ∑ k, f k := by
  obtain ⟨rest, hrest⟩ := exists_rest f i
  have hzero := hrest (Function.update f i 0) fun k hk => Function.update_of_ne hk _ _
  have hle := le_total (Function.update f i 0) j
  rw [Function.update_of_ne hij.symm, hzero, Function.update_self] at hle
  have hfull := hrest f fun _ _ => rfl
  omega

omit [DecidableEq ι] in
theorem exists_pos_of_total {f : ι → ℕ} (h : 0 < ∑ i, f i) : ∃ i, 0 < f i := by
  by_contra hall
  have hzero : ∑ i, f i = 0 := by
    apply Finset.sum_eq_zero
    intro i _
    by_contra hi
    exact hall ⟨i, Nat.pos_of_ne_zero hi⟩
  omega

end Counting
