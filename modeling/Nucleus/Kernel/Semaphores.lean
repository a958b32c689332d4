import Nucleus.Kernel.Runs
import Nucleus.Kernel.Syscall
import Nucleus.Semantics.Semaphore

/-! The semaphore system calls over runs of requests. `passeren` waits inside the
kernel, so the process that waits keeps out the one that would release it. -/
namespace Nucleus

open Function (update)
open Semantics Semaphore

variable {P D : Type}

def semaphoreCall (fuel : ℕ) (k : Kernel P D) (semaphore : Word) : Op → Outcome (Kernel P D)
  | .passeren => passeren fuel k semaphore
  | .verhogen => return verhogen k semaphore

/-- The kernel handles the requests of processes one after another, each to its end and
with interrupts disabled. While a request does not return, no other one is handled. -/
inductive Serves (semaphore : Word) :
    Kernel P D → List (P × Op) → Kernel P D → List (P × Op) → Prop where
  | nil (k : Kernel P D) : Serves semaphore k [] k []
  | cons {k k' k'' : Kernel P D} {request : P × Op} {requests completed : List (P × Op)}
      (fuel : ℕ) (first : semaphoreCall fuel k semaphore request.2 = .ok k')
      (rest : Serves semaphore k' requests k'' completed) :
      Serves semaphore k (request :: requests) k'' (request :: completed)
  | spin {k : Kernel P D} {request : P × Op} (requests : List (P × Op))
      (first : ∀ fuel, semaphoreCall fuel k semaphore request.2 = .error .outOfFuel) :
      Serves semaphore k (request :: requests) k []

namespace Kernel

variable {k k' : Kernel P D} {semaphore : Word} {requests completed : List (P × Op)} {v : ℕ}

theorem verhogen_toNat (hValue : (k.words semaphore).toNat = v) (hWrap : v + 1 < 2 ^ 32) :
    ((verhogen k semaphore).words semaphore).toNat = v + 1 := by
  simp only [verhogen, Function.update_self, BitVec.toNat_add, hValue]
  exact Nat.mod_eq_of_lt hWrap

theorem pred_toNat {value : Word} (hValue : value.toNat = v + 1) : (value - 1).toNat = v := by
  rw [BitVec.toNat_sub_of_le]
  · simp [hValue]
  · simp [BitVec.le_def, hValue]

/-- What the kernel completes is what a server completes that is stuck at a P without
value. -/
theorem serves_granted (run : Serves semaphore k requests k' completed)
    (hValue : (k.words semaphore).toNat = v) (hWrap : v + verhogens requests < 2 ^ 32) :
    completed = granted v requests := by
  induction run generalizing v with
  | nil => simp [granted]
  | @cons k k' k'' request requests completed fuel first rest ih =>
      obtain ⟨q, _ | _⟩ := request
      · obtain ⟨hPos, rfl⟩ := passeren_ok first
        rw [verhogens_cons_passeren] at hWrap
        cases v with
        | zero => exact absurd (BitVec.eq_of_toNat_eq hValue) hPos
        | succ v =>
            have hLess :
                (update k.words semaphore (k.words semaphore - 1) semaphore).toNat = v := by
              rw [Function.update_self]
              exact pred_toNat hValue
            rw [granted, ← ih hLess (by omega)]
      · cases first
        rw [verhogens_cons_verhogen] at hWrap
        rw [granted, ← ih (verhogen_toNat hValue (by omega)) (by omega)]
  | @spin k request requests first =>
      obtain ⟨q, _ | _⟩ := request
      · by_cases hZero : k.words semaphore = 0
        · rw [hZero] at hValue
          cases hValue
          rfl
        · cases (passeren_pos hZero 0).symm.trans (first 1)
      · cases first 0

/-- Every list of requests has an outcome. -/
theorem exists_serves (k : Kernel P D) (semaphore : Word) (requests : List (P × Op)) :
    ∃ k' completed, Serves semaphore k requests k' completed := by
  induction requests generalizing k with
  | nil => exact ⟨k, [], .nil k⟩
  | cons request requests ih =>
      obtain ⟨q, _ | _⟩ := request
      · by_cases hZero : k.words semaphore = 0
        · exact ⟨k, [], .spin requests (passeren_zero hZero)⟩
        · obtain ⟨k', completed, run⟩ := ih _
          exact ⟨k', _, .cons 1 (passeren_pos hZero 0) run⟩
      · obtain ⟨k', completed, run⟩ := ih _
        exact ⟨k', _, .cons 0 rfl run⟩

/-- The calls implement a counting semaphore exactly when no V is requested while a P
is waiting for it. -/
theorem semaphore_counts_iff (k : Kernel P D) (semaphore : Word) (requests : List (P × Op))
    (hWrap : (k.words semaphore).toNat + verhogens requests < 2 ^ 32) :
    (∀ before, before <+: requests → ∃ k' completed, Serves semaphore k before k' completed ∧
        Counts (k.words semaphore).toNat before completed) ↔
      ∀ before q, before ++ [(q, .verhogen)] <+: requests →
        passerens before ≤ (k.words semaphore).toNat + verhogens before := by
  rw [← granted_counts_iff]
  refine forall₂_congr fun before hBefore => ?_
  have hFits : (k.words semaphore).toNat + verhogens before < 2 ^ 32 := by
    have hLe : verhogens before ≤ verhogens requests := hBefore.sublist.countP_le
    omega
  constructor
  · intro hCounts
    obtain ⟨k', completed, run, hCount⟩ := hCounts
    exact serves_granted run rfl hFits ▸ hCount
  · intro hCount
    obtain ⟨k', completed, run⟩ := exists_serves k semaphore before
    exact ⟨k', completed, run, serves_granted run rfl hFits ▸ hCount⟩

/-- A V before the P that needs it. -/
theorem semaphore_counts_two : ∃ k' completed,
    Serves 0x8000 (Kernel.zero (Fin 2) Unit) [(1, .verhogen), (0, .passeren)] k' completed ∧
      Counts 0 [((1 : Fin 2), Op.verhogen), (0, .passeren)] completed := by
  refine (semaphore_counts_iff (Kernel.zero (Fin 2) Unit) 0x8000
    [(1, .verhogen), (0, .passeren)] (by decide)).mpr (fun before q hBefore => ?_) _ List.prefix_rfl
  have hAll : ∀ before ∈ [((1 : Fin 2), Op.verhogen), (0, .passeren)].inits,
      passerens before ≤ 0 + verhogens before := by decide
  exact hAll before ((List.mem_inits ..).mpr ((List.prefix_append ..).trans hBefore))

/-- A P on the value 0 is never completed, although a V is requested after it. -/
theorem passeren_blocks_verhogen :
    (∃ k', Serves 0x8000 (Kernel.zero (Fin 2) Unit) [(0, .passeren), (1, .verhogen)] k' []) ∧
      ¬ ∃ k' completed, Serves 0x8000 (Kernel.zero (Fin 2) Unit)
        [(0, .passeren), (1, .verhogen)] k' completed ∧
        Counts 0 [((0 : Fin 2), .passeren), (1, .verhogen)] completed := by
  refine ⟨⟨_, .spin _ (passeren_zero rfl)⟩, fun hCounts => ?_⟩
  obtain ⟨k', completed, run, hCount⟩ := hCounts
  cases serves_granted run rfl (by decide)
  exact absurd hCount.1 (by decide)

end Kernel

end Nucleus
