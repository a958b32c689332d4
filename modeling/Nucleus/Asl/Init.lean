import Nucleus.Asl.Representation

/-! The tables after `initPcbs` and `initASL`: every block is free, every
descriptor but the dummy is free, and nothing is blocked. -/
namespace Nucleus

open Function (update)
open Linked Semantics

variable {P : Type} {MAXPROC : ℕ}

/-- The globals as C starts them, with every byte zero. -/
def Memory.zero (P D : Type) : Memory P D where
  pcb := ⟨fun _ => none, fun _ => none, fun _ => none, fun _ => none, fun _ => 0, fun _ => 0⟩
  pcbFree_h := none
  semd := ⟨fun _ => none, fun _ => 0, fun _ => none⟩
  semdFree_h := none
  semd_h := none

/-- The two initialisations in the order of `main`. -/
def initTables (MAXPROC : ℕ) (m : Memory (Fin MAXPROC) (Fin (MAXPROC + 1))) :
    Outcome (Memory (Fin MAXPROC) (Fin (MAXPROC + 1))) := do
  let (pcb, pcbFree_h) ← initPcbs MAXPROC m.pcb
  initASL MAXPROC { m with pcb, pcbFree_h }

/-- After `i` passes the descriptors `1` to `i` link to their successors, the
moving pointer is behind them, and the dummy is untouched. -/
theorem initASL_links (semd : SemdTable P (Fin (MAXPROC + 1))) (i : ℕ) (hi : i ≤ MAXPROC) :
    ∃ s_next, (List.range' 1 i).foldlM (initASLLink MAXPROC) (semd, cell (MAXPROC + 1) 1) =
        .ok ({ semd with s_next := s_next }, cell (MAXPROC + 1) (i + 1)) ∧
      s_next 0 = semd.s_next 0 ∧
      ∀ j : Fin (MAXPROC + 1), 1 ≤ (j : ℕ) → j ≤ i → s_next j = cell (MAXPROC + 1) (j + 1) := by
  induction i with
  | zero => exact ⟨semd.s_next, rfl, rfl, fun j hj hj' => absurd hj' (by omega)⟩
  | succ i ih =>
      obtain ⟨s_next, hFold, hDummy, hLinks⟩ := ih (by omega)
      have hCell : cell (MAXPROC + 1) (i + 1) = some ⟨i + 1, by omega⟩ := cell_of_lt _
      have hLink : (if i + 1 < MAXPROC then cell (MAXPROC + 1) (i + 1 + 1) else none) =
          cell (MAXPROC + 1) (i + 1 + 1) := by
        by_cases hLast : i + 1 < MAXPROC
        · rw [if_pos hLast]
        · rw [if_neg hLast, cell_of_le (by omega)]
      refine ⟨update s_next ⟨i + 1, by omega⟩ (cell (MAXPROC + 1) (i + 1 + 1)), ?_, ?_, ?_⟩
      · rw [List.range'_concat, List.foldlM_append, hFold]
        simp [initASLLink, Nat.add_comm 1 i, hCell, hLink, SemdTable.setNext]
      · rw [← hDummy]
        apply Function.update_of_ne
        intro hEq
        exact absurd (congrArg Fin.val hEq) (by simp)
      · intro j hj hji
        by_cases hEq : (j : ℕ) = i + 1
        · have hj : j = ⟨i + 1, by omega⟩ := Fin.ext hEq
          rw [hj, Function.update_self]
        · have hne : j ≠ ⟨i + 1, by omega⟩ := fun h => hEq (congrArg Fin.val h)
          rw [Function.update_of_ne hne]
          exact hLinks j hj (by omega)

/-- `initASL` leaves an empty active list behind the dummy, whose address is
NULL, and all other descriptors on the free list. -/
theorem initASL_rep (m : Memory P (Fin (MAXPROC + 1))) :
    ∃ semd, initASL MAXPROC m = .ok { m with semd, semdFree_h := cell (MAXPROC + 1) 1,
                                             semd_h := cell (MAXPROC + 1) 0 } ∧
      Memory.Rep { m with semd, semdFree_h := cell (MAXPROC + 1) 1,
                          semd_h := cell (MAXPROC + 1) 0 }
        0 [] ((List.finRange (MAXPROC + 1)).drop 1) (fun _ => []) ∧
      semd.s_semAdd 0 = 0 := by
  have hDummy : cell (MAXPROC + 1) 0 = some 0 := cell_of_lt (Nat.succ_pos _)
  have hAll : (List.finRange (MAXPROC + 1)) = 0 :: (List.finRange (MAXPROC + 1)).drop 1 := by
    rw [List.finRange_succ, List.drop_one, List.tail_cons]
  obtain ⟨s_next, hFold, hNext, hLinks⟩ := initASL_links
    (((m.semd.setSemAdd 0 0).setProcQ 0 none).setNext 0 none) MAXPROC le_rfl
  refine ⟨{ ((m.semd.setSemAdd 0 0).setProcQ 0 none).setNext 0 none with s_next := s_next },
    ?_, ⟨⟨⟨hDummy, ?_⟩, ?_, ?_, ?_⟩, ?_⟩, by simp⟩
  · simp only [initASL, hDummy, deref_some, Outcome.ok_bind, hFold]
    rfl
  · exact hNext.trans (by simp)
  · exact chain_cells 1 fun j hj => hLinks j hj (by omega)
  · rw [List.singleton_append, ← hAll]
    exact List.nodup_finRange _
  · intro d
    rw [List.singleton_append, ← hAll]
    exact List.mem_finRange d
  · exact ⟨List.Pairwise.nil, by simp, by simp, fun _ _ _ => List.disjoint_nil_left _⟩

/-- The tables after both initialisations. -/
theorem initTables_rep (hSize : 0 < MAXPROC) (m : Memory (Fin MAXPROC) (Fin (MAXPROC + 1))) :
    ∃ s, initTables MAXPROC m = .ok s ∧
      Chain s.pcb.p_next s.pcbFree_h (List.finRange MAXPROC) ∧
      s.Rep 0 [] ((List.finRange (MAXPROC + 1)).drop 1) (fun _ => []) ∧
      s.semd.s_semAdd 0 = 0 := by
  obtain ⟨next, hPcbs, hChain⟩ := initPcbs_chain hSize m.pcb
  obtain ⟨semd, hAsl, hRep, hBase⟩ := initASL_rep
    { m with pcb := { m.pcb with p_next := next }, pcbFree_h := cell MAXPROC 0 }
  exact ⟨_, by simp only [initTables, hPcbs, Outcome.ok_bind, hAsl], hChain, hRep, hBase⟩

end Nucleus
