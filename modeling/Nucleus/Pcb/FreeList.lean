import Mathlib.Data.List.FinRange
import Nucleus.Linked.Segment
import Nucleus.Pcb.Basic

/-! The list of free blocks: `freePcb`, `allocPcb` and `initPcbs` of `pcb.c`. The
list is threaded through `p_next` and starts at `pcbFree_h`. -/
namespace Nucleus

open Function (update)
open Linked Semantics

variable {P : Type}

section Code

variable [DecidableEq P]

/-- The result is the table and the new value of `pcbFree_h`. -/
def freePcb (pcb : PcbTable P) (pcbFree_h p : Option P) : Outcome (PcbTable P × Option P) :=
  match pcbFree_h with
  | some _ => do
      let q ← deref p
      return (pcb.setNext q pcbFree_h, p)
  | none => do
      let q ← deref p
      return (pcb.setNext q none, p)

/-- The result is the table, the new value of `pcbFree_h` and the returned pointer. -/
def allocPcb (pcb : PcbTable P) (pcbFree_h : Option P) : PcbTable P × Option P × Option P :=
  match pcbFree_h with
  | some p =>
      let pcbFree_h := pcb.p_next p
      let pcb := pcb.setNext p none
      let pcb := pcb.setPrnt p none
      let pcb := pcb.setChild p none
      let pcb := pcb.setSib p none
      let pcb := pcb.setS p 0
      let pcb := pcb.setSemAdd p 0
      (pcb, pcbFree_h, some p)
  | none => (pcb, none, none)

end Code

/-- One pass of the `for` of `initPcbs`: the table and the moving pointer `p`. -/
def initPcbsLink (MAXPROC : ℕ) (s : PcbTable (Fin MAXPROC) × Option (Fin MAXPROC)) (i : ℕ) :
    Outcome (PcbTable (Fin MAXPROC) × Option (Fin MAXPROC)) := do
  let q ← deref s.2
  let pcb := s.1.setNext q (cell MAXPROC (i + 1))
  return (pcb, pcb.p_next q)

def initPcbs (MAXPROC : ℕ) (pcb : PcbTable (Fin MAXPROC)) :
    Outcome (PcbTable (Fin MAXPROC) × Option (Fin MAXPROC)) := do
  let pcbFree_h := cell MAXPROC 0
  let (pcb, p) ← (List.range (MAXPROC - 1)).foldlM (initPcbsLink MAXPROC) (pcb, pcbFree_h)
  let q ← deref p
  return (pcb.setNext q none, pcbFree_h)

section Spec

variable [DecidableEq P] {pcb : PcbTable P} {pcbFree_h : Option P} {l : List P} {p : P}

/-- Both branches of `freePcb` store the old head in the freed block. -/
theorem freePcb_some (pcb : PcbTable P) (pcbFree_h : Option P) (p : P) :
    freePcb pcb pcbFree_h (some p) = .ok (pcb.setNext p pcbFree_h, some p) := by
  cases pcbFree_h <;> rfl

theorem freePcb_chain (h : Chain pcb.p_next pcbFree_h l) (hp : p ∉ l) :
    Chain (pcb.setNext p pcbFree_h).p_next (some p) (p :: l) := by
  refine ⟨rfl, ?_⟩
  rw [PcbTable.setNext_p_next, Function.update_self]
  refine h.congr fun y hy => Function.update_of_ne ?_ ..
  rintro rfl
  exact hp hy

/-- The fields of `p` as `allocPcb` leaves them. -/
@[simps] def PcbTable.clear (pcb : PcbTable P) (p : P) : PcbTable P where
  p_next := update pcb.p_next p none
  p_prnt := update pcb.p_prnt p none
  p_child := update pcb.p_child p none
  p_sib := update pcb.p_sib p none
  p_s := update pcb.p_s p 0
  p_semAdd := update pcb.p_semAdd p 0

@[simp] theorem allocPcb_none (pcb : PcbTable P) : allocPcb pcb none = (pcb, none, none) := rfl

@[simp] theorem allocPcb_some (pcb : PcbTable P) (p : P) :
    allocPcb pcb (some p) = (pcb.clear p, pcb.p_next p, some p) := rfl

theorem allocPcb_chain (h : Chain pcb.p_next (some p) (p :: l)) :
    Chain (pcb.clear p).p_next (pcb.p_next p) l := by
  refine h.2.congr fun y hy => Function.update_of_ne ?_ ..
  rintro rfl
  exact (List.nodup_cons.mp h.nodup).1 hy

end Spec

section Table

variable {n i : ℕ}

theorem cell_of_lt (h : i < n) : cell n i = some ⟨i, h⟩ := dif_pos h

theorem cell_of_le (h : n ≤ i) : cell n i = none := dif_neg (Nat.not_lt.mpr h)

/-- Cells that link to their successors in the table form the list of all cells
from any index on. -/
theorem chain_cells {next : Fin n → Option (Fin n)} (k : ℕ)
    (h : ∀ j : Fin n, k ≤ j → next j = cell n (j + 1)) :
    Chain next (cell n k) ((List.finRange n).drop k) := by
  by_cases hk : k < n
  · rw [cell_of_lt hk, List.drop_eq_getElem_cons (by simpa using hk)]
    refine ⟨by simp, ?_⟩
    rw [h _ (by simp)]
    simpa using chain_cells (k + 1) fun j hj => h j (by omega)
  · have hk := Nat.not_lt.mp hk
    rw [cell_of_le hk, List.drop_eq_nil_of_le (by simpa using hk)]
    rfl
  termination_by n - k

end Table

section Init

variable {MAXPROC : ℕ}

/-- After `i` passes the first `i` cells link to their successors and `p` is at
cell `i`. -/
theorem initPcbs_links (pcb : PcbTable (Fin MAXPROC)) (i : ℕ) (hi : i < MAXPROC) :
    ∃ next, (List.range i).foldlM (initPcbsLink MAXPROC) (pcb, cell MAXPROC 0) =
        .ok ({ pcb with p_next := next }, cell MAXPROC i) ∧
      ∀ j : Fin MAXPROC, j < i → next j = cell MAXPROC (j + 1) := by
  induction i with
  | zero => exact ⟨pcb.p_next, rfl, fun j hj => absurd hj (Nat.not_lt_zero j)⟩
  | succ i ih =>
      obtain ⟨next, hFold, hLinks⟩ := ih (by omega)
      have hCell : cell MAXPROC i = some ⟨i, by omega⟩ := cell_of_lt _
      refine ⟨update next ⟨i, by omega⟩ (cell MAXPROC (i + 1)), ?_, ?_⟩
      · rw [List.range_succ, List.foldlM_append, hFold]
        simp [initPcbsLink, hCell, PcbTable.setNext]
      · intro j hj
        by_cases hji : (j : ℕ) = i
        · have hEq : j = ⟨i, by omega⟩ := Fin.ext hji
          rw [hEq, Function.update_self]
        · have hne : j ≠ ⟨i, by omega⟩ := fun hEq => hji (congrArg Fin.val hEq)
          rw [Function.update_of_ne hne]
          exact hLinks j (by omega)

/-- `initPcbs` puts every cell of the table on the free list, in index order. -/
theorem initPcbs_chain (hSize : 0 < MAXPROC) (pcb : PcbTable (Fin MAXPROC)) :
    ∃ next, initPcbs MAXPROC pcb = .ok ({ pcb with p_next := next }, cell MAXPROC 0) ∧
      Chain next (cell MAXPROC 0) (List.finRange MAXPROC) := by
  obtain ⟨next, hFold, hLinks⟩ := initPcbs_links pcb (MAXPROC - 1) (by omega)
  have hCell : cell MAXPROC (MAXPROC - 1) = some ⟨MAXPROC - 1, by omega⟩ := cell_of_lt _
  refine ⟨update next ⟨MAXPROC - 1, by omega⟩ none, ?_, ?_⟩
  · simp only [initPcbs, hFold]
    simp [hCell, PcbTable.setNext]
  · refine chain_cells 0 fun j _ => ?_
    by_cases hj : (j : ℕ) = MAXPROC - 1
    · have hEq : j = ⟨MAXPROC - 1, by omega⟩ := Fin.ext hj
      rw [hEq, Function.update_self, cell_of_le (by simp; omega)]
    · have hne : j ≠ ⟨MAXPROC - 1, by omega⟩ := fun hEq => hj (congrArg Fin.val hEq)
      rw [Function.update_of_ne hne]
      exact hLinks j (by omega)

end Init

end Nucleus
