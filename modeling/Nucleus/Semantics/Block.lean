import Mathlib.Data.Nat.Notation
import Mathlib.Logic.Function.Basic

/-! Blocks of cells that are stored one after another, as a store-multiple instruction
does. The cells may be anywhere, and some of them may be the same. -/
namespace Semantics

open Function (update)

variable {A V : Type*} [DecidableEq A] {cell : ℕ → A} {value : ℕ → V} {mem : A → V} {n i : ℕ}
  {a : A}

/-- Store the first `n` values in the first `n` cells. -/
def storeAll (cell : ℕ → A) (value : ℕ → V) : ℕ → (A → V) → A → V
  | 0, mem => mem
  | n + 1, mem => update (storeAll cell value n mem) (cell n) (value n)

/-- The first value may be stored ahead of the others. -/
theorem storeAll_succ (cell : ℕ → A) (value : ℕ → V) (n : ℕ) (mem : A → V) :
    storeAll cell value (n + 1) mem =
      storeAll (fun i => cell (i + 1)) (fun i => value (i + 1)) n
        (update mem (cell 0) (value 0)) := by
  induction n with
  | zero => rfl
  | succ n ih => rw [storeAll, ih, storeAll]

/-- A cell keeps its value if every value that is stored there is the one it has. -/
theorem storeAll_same (h : ∀ i < n, cell i = a → value i = mem a) :
    storeAll cell value n mem a = mem a := by
  induction n with
  | zero => rfl
  | succ n ih =>
      rw [storeAll]
      by_cases ha : cell n = a
      · subst ha
        rw [Function.update_self]
        exact h n (Nat.lt_succ_self n) rfl
      · rw [Function.update_of_ne (Ne.symm ha)]
        exact ih fun i hi => h i (Nat.lt_succ_of_lt hi)

/-- Different cells hold what was stored in them. -/
theorem storeAll_apply (hInj : ∀ i j, i < n → j < n → cell i = cell j → i = j) (hi : i < n) :
    storeAll cell value n mem (cell i) = value i := by
  induction n with
  | zero => exact absurd hi (Nat.not_lt_zero i)
  | succ n ih =>
      rw [storeAll]
      by_cases hin : i = n
      · subst hin
        exact Function.update_self ..
      · have hne : cell i ≠ cell n := fun hEq => hin (hInj i n hi (Nat.lt_succ_self n) hEq)
        rw [Function.update_of_ne hne]
        refine ih (fun i j hi hj => ?_) (by omega)
        exact hInj i j (Nat.lt_succ_of_lt hi) (Nat.lt_succ_of_lt hj)

end Semantics
