import Nucleus.Kernel.Boot
import Nucleus.Kernel.Runs

/-! The way of a system call from the caller to the operation: the state that `main` puts
at the new area of the exception, and the registers that the handler reads in the old
area. `size` counts bytes, but the elements of `tmp` are words already. -/
namespace Nucleus

open Function (update)
open Linked Semantics

variable {P D : Type}

namespace Kernel

/-- The BIOS saves the registers at a `SYSCALL` in the old area. -/
def trap (k : Kernel P D) (regs : ProcState) : Kernel P D :=
  ({ k with cpu := regs } : Kernel P D).SAVE_OLD_STATE SYSBK_OLDAREA

/-- The handler gets the processor with the whole memory as its stack, and it performs
the operation of register `a1` on the argument of register `a2`. -/
structure Transfers [DecidableEq P] (sym : Symbols) (k₀ k : Kernel P D) (regs : ProcState) :
    Prop where
  pc : (k₀.vectorSetup sym).words (element SYSBK_NEWAREA 15) = sym.syscallHandler
  sp : (k₀.vectorSetup sym).words (element SYSBK_NEWAREA 13) = k₀.RAM_TOP
  performs : ∀ fuel, syscallHandler fuel (k.trap regs) =
    perform fuel (k.trap regs) (regs 0) (regs 1)

variable {k k₀ : Kernel P D} {a b : Word}

theorem setVector_words {tmp handler : Word} (hPc : a ≠ element tmp (15 * size))
    (hSp : a ≠ element tmp (13 * size)) : (k.setVector tmp handler).words a = k.words a := by
  simp [setVector, store, Function.update_of_ne hPc, Function.update_of_ne hSp]

/-- The words that `main` stores for the exceptions. -/
def vectorCells : List Word :=
  [INT_NEWAREA, TLB_NEWAREA, PGMTRAP_NEWAREA, SYSBK_NEWAREA].flatMap fun tmp =>
    [element tmp (15 * size), element tmp (13 * size)]

theorem vectorSetup_words (sym : Symbols) (k : Kernel P D) (h : a ∉ vectorCells) :
    (k.vectorSetup sym).words a = k.words a := by
  simp only [vectorCells, List.flatMap_cons, List.flatMap_nil, List.append_nil, List.mem_append,
    List.mem_cons, List.not_mem_nil, or_false, not_or] at h
  obtain ⟨hInt, hTlb, hPgmt, hSysbk⟩ := h
  simp only [vectorSetup]
  rw [setVector_words hSysbk.1 hSysbk.2, setVector_words hPgmt.1 hPgmt.2,
    setVector_words hTlb.1 hTlb.2, setVector_words hInt.1 hInt.2]

/-- The registers of the caller in the old area. -/
theorem trap_words (k : Kernel P D) (regs : ProcState) (i : Fin 22) :
    (k.trap regs).words (element SYSBK_OLDAREA i) = regs i := by
  have hInj (i j : ℕ) (hi : i < 22) (hj : j < 22)
      (h : element SYSBK_OLDAREA i = element SYSBK_OLDAREA j) : i = j :=
    Arm.word_inj (by omega) (by omega) h
  simp only [trap, SAVE_OLD_STATE]
  rw [storeAll_apply hInj i.isLt]
  simp

variable [DecidableEq P]

/-- The handler takes its argument from the fifth register, `v1`. -/
theorem syscallHandler_trap (k : Kernel P D) (regs : ProcState) (fuel : ℕ) :
    syscallHandler fuel (k.trap regs) = perform fuel (k.trap regs) (regs 0) (regs 4) := by
  have hSys := k.trap_words regs 0
  have hArg := k.trap_words regs 4
  simp only [syscallHandler, size]
  rw [← hSys, ← hArg]
  rfl

omit [DecidableEq P] in
theorem verhogen_inj (h : verhogen k a = verhogen k b) : a = b := by
  by_contra hab
  have hWord := congrFun (congrArg Kernel.words h) a
  simp only [verhogen, Function.update_self, Function.update_of_ne hab] at hWord
  exact absurd hWord (by bv_omega)

omit [DecidableEq P] in
/-- Two different semaphores make no difference only to a wait without end. -/
theorem passeren_congr_iff : (∀ fuel, passeren fuel k a = passeren fuel k b) ↔
    a = b ∨ k.words a = 0 ∧ k.words b = 0 := by
  constructor
  · intro hEqual
    by_cases ha : k.words a = 0
    · refine .inr ⟨ha, ?_⟩
      by_contra hb
      cases (passeren_zero ha 1).symm.trans ((hEqual 1).trans (passeren_pos hb 0))
    · refine .inl ?_
      by_contra hab
      have hOk := (hEqual 1).symm.trans (passeren_pos ha 0)
      obtain ⟨-, hSame⟩ := passeren_ok hOk
      have hWord := congrFun (congrArg Kernel.words hSame) a
      simp only [Function.update_self, Function.update_of_ne hab] at hWord
      exact absurd hWord (by bv_omega)
  · intro hEqual fuel
    rcases hEqual with rfl | ⟨ha, hb⟩
    · rfl
    · rw [passeren_zero ha, passeren_zero hb]

theorem perform_verhogen (fuel : ℕ) : perform fuel k VERHOGEN a = .ok (verhogen k a) := rfl

theorem perform_passeren (fuel : ℕ) : perform fuel k PASSEREN a = passeren fuel k a := rfl

/-- When an operation does the same on two arguments. The process calls use none. -/
theorem perform_congr_iff {sys : Word}
    (hCall : sys ∈ [CREATEPROCESS, TERMINATEPROCESS, VERHOGEN, PASSEREN]) :
    (∀ fuel, perform fuel k sys a = perform fuel k sys b) ↔
      sys = CREATEPROCESS ∨ sys = TERMINATEPROCESS ∨ a = b ∨
        sys = PASSEREN ∧ k.words a = 0 ∧ k.words b = 0 := by
  simp only [List.mem_cons, List.not_mem_nil, or_false] at hCall
  rcases hCall with rfl | rfl | rfl | rfl
  · exact iff_of_true (fun _ => rfl) (.inl rfl)
  · exact iff_of_true (fun _ => rfl) (.inr (.inl rfl))
  · have hOther : VERHOGEN ≠ CREATEPROCESS ∧ VERHOGEN ≠ TERMINATEPROCESS ∧ VERHOGEN ≠ PASSEREN := by
      decide
    simp only [perform_verhogen, hOther, false_or, false_and, or_false]
    constructor
    · intro hEqual
      exact verhogen_inj (Except.ok.inj (hEqual 0))
    · intro hab fuel
      rw [hab]
  · have hOther : PASSEREN ≠ CREATEPROCESS ∧ PASSEREN ≠ TERMINATEPROCESS := by decide
    simp only [perform_passeren, hOther, false_or, true_and]
    exact passeren_congr_iff

/-- A system call comes through exactly when the state at the new area was right before
`main` stored anything, and the operation does not tell `v1` from `a2`. -/
theorem transfers_iff (sym : Symbols) (k₀ k : Kernel P D) (regs : ProcState)
    (hCall : regs 0 ∈ [CREATEPROCESS, TERMINATEPROCESS, VERHOGEN, PASSEREN]) :
    Transfers sym k₀ k regs ↔
      (k₀.words (element SYSBK_NEWAREA 15) = sym.syscallHandler ∧
        k₀.words (element SYSBK_NEWAREA 13) = k₀.RAM_TOP) ∧
      (regs 0 = CREATEPROCESS ∨ regs 0 = TERMINATEPROCESS ∨ regs 4 = regs 1 ∨
        regs 0 = PASSEREN ∧
          (k.trap regs).words (regs 4) = 0 ∧ (k.trap regs).words (regs 1) = 0) := by
  have hPc := vectorSetup_words sym k₀ (by decide : element SYSBK_NEWAREA 15 ∉ vectorCells)
  have hSp := vectorSetup_words sym k₀ (by decide : element SYSBK_NEWAREA 13 ∉ vectorCells)
  rw [← perform_congr_iff hCall, ← hPc, ← hSp]
  constructor
  · intro h
    exact ⟨⟨h.pc, h.sp⟩, fun fuel => (syscallHandler_trap k regs fuel).symm.trans (h.performs fuel)⟩
  · intro h
    obtain ⟨⟨hPc', hSp'⟩, hPerform⟩ := h
    exact ⟨hPc', hSp', fun fuel => (syscallHandler_trap k regs fuel).trans (hPerform fuel)⟩

/-- The new area happens to hold the right words, and `v1` is `a2`. -/
theorem transfers_prepared :
    Transfers ⟨0, 0, 0, 0x8100, 0, 0⟩
      ((Kernel.zero (Fin 1) Unit).store (element SYSBK_NEWAREA 15) 0x8100) (.zero (Fin 1) Unit)
      (fun i => if i = 0 then VERHOGEN else 0x9000) :=
  (transfers_iff _ _ _ _ (by decide)).mpr
    ⟨⟨by decide, by decide⟩, .inr (.inr (.inl (by decide)))⟩

/-- From a memory that holds zeros the new area gets no handler, and a `VERHOGEN` of the
semaphore in `a2` goes to the address in `v1`. -/
theorem syscall_not_transferred :
    ((Kernel.zero (Fin 1) Unit).vectorSetup ⟨0, 0, 0, 0x8100, 0, 0⟩).words
        (element SYSBK_NEWAREA 15) = 0 ∧
      syscallHandler 0 ((Kernel.zero (Fin 1) Unit).trap
          fun i => if i = 0 then VERHOGEN else if i = 1 then 0x9000 else 0x9004) =
        .ok (verhogen ((Kernel.zero (Fin 1) Unit).trap
          fun i => if i = 0 then VERHOGEN else if i = 1 then 0x9000 else 0x9004) 0x9004) ∧
      ¬ Transfers ⟨0, 0, 0, 0x8100, 0, 0⟩ (Kernel.zero (Fin 1) Unit) (.zero (Fin 1) Unit)
        fun i => if i = 0 then VERHOGEN else if i = 1 then 0x9000 else 0x9004 := by
  have hNone : ((Kernel.zero (Fin 1) Unit).vectorSetup ⟨0, 0, 0, 0x8100, 0, 0⟩).words
      (element SYSBK_NEWAREA 15) = 0 :=
    vectorSetup_words _ _ (by decide)
  refine ⟨hNone, syscallHandler_trap _ _ 0, fun hTransfers => ?_⟩
  exact absurd (hNone.symm.trans hTransfers.pc) (by decide)

end Kernel

end Nucleus
