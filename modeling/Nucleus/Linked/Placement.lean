import Mathlib.Data.List.Perm.Basic
import Nucleus.Linked.Ring

/-! Families of lists that share out the cells: every cell is in exactly one list,
once. The basic step moves one cell from one list to another. -/
namespace Linked

open Function (update)

variable {α K : Type*} [DecidableEq α] {c : K → List α} {x p : α} {j k : K}

/-- Every cell is in exactly one place, once. -/
def Placed (c : K → List α) : Prop := ∀ x, ∃ k, (c k).count x = 1 ∧ ∀ k', k' ≠ k → x ∉ c k'

namespace Placed

theorem eq_of_mem (h : Placed c) (hj : x ∈ c j) (hk : x ∈ c k) : j = k := by
  obtain ⟨k₀, -, hElse⟩ := h x
  have hjk₀ : j = k₀ := not_imp_comm.mp (hElse j) (not_not_intro hj)
  have hkk₀ : k = k₀ := not_imp_comm.mp (hElse k) (not_not_intro hk)
  exact hjk₀.trans hkk₀.symm

theorem not_mem (h : Placed c) (hj : x ∈ c j) (hk : k ≠ j) : x ∉ c k := fun hx =>
  hk (h.eq_of_mem hx hj)

theorem count_eq_one (h : Placed c) (hk : x ∈ c k) : (c k).count x = 1 := by
  obtain ⟨k₀, hCount, -⟩ := h x
  have hk₀ : x ∈ c k₀ := List.count_pos_iff.mp (by omega)
  rwa [h.eq_of_mem hk hk₀]

theorem nodup (h : Placed c) (k : K) : (c k).Nodup := by
  refine List.nodup_iff_count_le_one.mpr fun x => ?_
  by_cases hx : x ∈ c k
  · exact (h.count_eq_one hx).le
  · simp [List.count_eq_zero.mpr hx]

/-- One cell moves from the list of `j` to the list of `k`. -/
theorem move [DecidableEq K] {lj lk : List α} (h : Placed c) (hp : p ∈ c j) (hjk : j ≠ k)
    (hj : lj.Perm ((c j).erase p)) (hk : lk.Perm (p :: c k)) :
    Placed (update (update c j lj) k lk) := by
  have hpk : p ∉ c k := h.not_mem hp hjk.symm
  have hpj : p ∉ lj := by
    rw [hj.mem_iff, (h.nodup j).mem_erase_iff]
    exact fun hm => hm.1 rfl
  have hOther (y : α) (hy : y ≠ p) (k' : K) :
      (update (update c j lj) k lk k').count y = (c k').count y := by
    by_cases hk' : k' = k
    · subst hk'
      rw [Function.update_self, hk.count_eq, List.count_cons_of_ne hy.symm]
    · rw [Function.update_of_ne hk']
      by_cases hj' : k' = j
      · subst hj'
        rw [Function.update_self, hj.count_eq, List.count_erase_of_ne hy]
      · rw [Function.update_of_ne hj']
  intro y
  by_cases hy : y = p
  · subst hy
    refine ⟨k, ?_, fun k' hk' => ?_⟩
    · rw [Function.update_self, hk.count_eq, List.count_cons_self, List.count_eq_zero.mpr hpk]
    · rw [Function.update_of_ne hk']
      by_cases hj' : k' = j
      · rw [hj', Function.update_self]
        exact hpj
      · rw [Function.update_of_ne hj']
        exact h.not_mem hp hj'
  · obtain ⟨k₀, hCount, hElse⟩ := h y
    refine ⟨k₀, (hOther y hy k₀).trans hCount, fun k' hk' => ?_⟩
    rw [← List.count_eq_zero, hOther y hy k', List.count_eq_zero]
    exact hElse k' hk'

end Placed

end Linked
