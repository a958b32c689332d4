import Nucleus.Bios.Save

/-! What `LDST` loads. A state for user or system mode is loaded by one instruction; for the
other modes the registers are loaded in the mode itself, by way of the stack. -/
namespace Nucleus.Bios

open Arm Arm.Reg

/-- The registers in the order of a state. -/
def stateRegs : List Reg := r0 :: middle ++ [pc]

/-- A state for user or system mode. -/
def UserState (psr : Word) : Prop := psr &&& 0xF#32 = 0#32 ∨ psr &&& 0xF#32 = 0xF#32

instance (psr : Word) : Decidable (UserState psr) := inferInstanceAs (Decidable (_ ∨ _))

/-- The bank whose registers a load of a state fills. -/
def filled (B : Platform) (current psr : Word) : Bank :=
  if UserState psr then B.returnBank (bank current) (bank psr) else bank psr

/-- What `LDST` leaves of the state at `a`, with the registers in bank `b`. -/
structure Loaded (m : Machine) (a : Word) (b : Bank) (u : Machine) : Prop where
  cpsr : u.cpsr = m.mem (word a 16)
  regs : ∀ i (hi : i < stateRegs.length), u.view b stateRegs[i] = m.mem (word a i)
  control : u.cp15 (1, 0) = m.mem (word a 17)
  entryHi : ∀ op2 < 2, u.cp15 (2, op2) =
    if m.mem (word a 18) = 0#32 then m.cp15 (2, op2) else m.mem (word a 18)
  cause : ∀ op2, u.cp15 (15, op2) = m.cp15 (15, op2)
  mem : ∀ x ∉ frame, u.mem x = m.mem x

variable {B : Platform} {m : Machine} {a : Word}

theorem stateRegs_nodup : stateRegs.Nodup := by decide

/-- What the coprocessor gets from the state at `a`. -/
structure SystemLoaded (m : Machine) (a : Word) (t : Machine) : Prop where
  control : t.cp15 (1, 0) = m.mem (word a 17)
  entryHi : ∀ op2 < 2, t.cp15 (2, op2) =
    if m.mem (word a 18) = 0#32 then m.cp15 (2, op2) else m.mem (word a 18)
  cause : ∀ op2, t.cp15 (15, op2) = m.cp15 (15, op2)

/-- The machine `t` between the first part of `LDST` and the load of the registers. -/
structure Prepared (m : Machine) (a : Word) (t : Machine) : Prop where
  system : SystemLoaded m a t
  mem : t.mem = m.mem
  sameBank : bank t.cpsr = bank m.cpsr
  spsr : t.spsr (bank m.cpsr) = m.mem (word a 16)
  base : t.get r0 = a
  psr : t.get r6 = m.mem (word a 16)

theorem exec_loadSystem (hr0 : m.get r0 = a) :
    let t := exec loadSystem m
    Prepared m a t ∧ zero t.cpsr = decide (m.mem (word a 16) &&& 0xF#32 = 0#32) ∧
      t.get r1 = m.mem (word a 16) &&& 0xF#32 := by
  have hPsr : a + 64#32 = word a 16 := rfl
  have hControl : word a 16 + 4#32 = word a 17 := word_word a 16 1
  have hEntryHi : word a 17 + 4#32 = word a 18 := word_word a 17 1
  simp only [Machine.get] at hr0
  intro t
  refine ⟨⟨⟨?_, fun op2 hOp => ?_, fun op2 => ?_⟩, ?_, ?_, ?_, ?_, ?_⟩, ?_, ?_⟩
  -- The proofs by `rfl` of the single steps are kept apart for the kernel.
  all_goals
    simp -implicitDefEqProofs [t, loadSystem, mov, addImm, ldrPost, mcr, cmpImm, ifNe_mcr,
      msrSpsr, andImm, Machine.get, Machine.set, hr0, PSR_OFFSET, hPsr, hControl, hEntryHi,
      Function.update_apply]
  obtain rfl | rfl : op2 = 0 ∨ op2 = 1 := by omega
  · simp
  · simp

theorem Prepared.setFlags {t : Machine} (h : Prepared m a t) (x y : Word) :
    Prepared m a (t.setCpsr (compare t.cpsr x y)) := by
  have hView (r : Reg) : (t.setCpsr (compare t.cpsr x y)).get r = t.get r := by
    rw [Machine.get, Machine.setCpsr_cpsr, bank_compare]
    rfl
  refine ⟨⟨h.system.control, h.system.entryHi, h.system.cause⟩, h.mem, ?_, h.spsr, ?_, ?_⟩
  · rw [Machine.setCpsr_cpsr, bank_compare, h.sameBank]
  · rw [hView, h.base]
  · rw [hView, h.psr]

theorem exec_loadStacked (hr0 : m.get r0 = a) :
    let t := exec loadStacked m
    t.mem = storeWords m.mem 0x7FF0#32 [m.cpsr, m.mem a, m.mem (word a 15)] ∧ t.cpsr = m.cpsr ∧
      t.spsr = m.spsr ∧ t.cp15 = m.cp15 ∧ t.get r0 = a ∧ t.get r6 = m.get r6 := by
  have hPc := offset_pc a
  simp only [Machine.get] at hr0
  simp -implicitDefEqProofs [loadStacked, movImm, mrsCpsr, stm, addImm, Machine.get, Machine.set,
    hr0, hPc, PSR_OFFSET, stack_base, subImm, ldr]

theorem exec_loadRegisters (hr0 : m.get r0 = a) {psr : Word} (hr6 : m.get r6 = psr) :
    let t := exec loadRegisters m
    t.mem = m.mem ∧ t.cpsr = reaching psr ∧ t.spsr = m.spsr ∧ t.cp15 = m.cp15 ∧
      ∀ i (hi : i < middle.length), t.get middle[i] = m.mem (word a (i + 1)) := by
  have hShared (b : Bank) : m.view b r0 = a := hr0
  have hNodup : middle.Nodup := by decide
  simp only [Machine.get] at hr6
  simp -implicitDefEqProofs [loadRegisters, andImm, cmpImm, ifEq_addImm, orrImm, msrCpsr, addImm,
    ldm, Machine.get, Machine.set, hShared, hr6, reaching, load_view hNodup, word_succ]

theorem exec_loadReturn (m : Machine) :
    let t := exec loadReturn m
    t.mem = m.mem ∧ t.cpsr = m.spsr (bank (m.mem 0x7FF0#32)) ∧ t.cp15 = m.cp15 ∧
      (∀ b, t.view b r0 = m.mem 0x7FF4#32 ∧ t.view b pc = m.mem 0x7FF8#32) ∧
      ∀ r ∈ middle, ∀ b, t.view b r = m.view b r := by
  have hNames : ∀ r ∈ middle, r ≠ r0 ∧ r ≠ pc := by decide
  have ht : exec loadReturn m = (((m.setCpsr (m.spsr (bank (m.mem 0x7FF0#32)))).setView
      (bank m.cpsr) r0 (m.mem 0x7FF0#32)).setView (bank (m.mem 0x7FF0#32)) r0
      (m.mem 0x7FF4#32)).setView (bank (m.mem 0x7FF0#32)) pc (m.mem 0x7FF8#32) := by
    simp -implicitDefEqProofs [loadReturn, movImm, addImm, ldr, msrCpsr, Machine.get, Machine.set,
      stack_base, ldmReturn, Machine.load]
  intro t
  refine ⟨?_, ?_, ?_, fun b => ⟨?_, ?_⟩, fun r hr b => ?_⟩
  · simp [t, ht]
  · simp [t, ht]
  · simp [t, ht]
  · simp [t, ht]
  · exact (congrArg (·.view b pc) ht).trans (Machine.setView_view_slot rfl)
  · simp [t, ht, hNames r hr]

theorem Prepared.loaded_user {t : Machine} (h : Prepared m a t) :
    Loaded m a (B.returnBank (bank m.cpsr) (bank (m.mem (word a 16)))) (exec (LDST_u B) t) := by
  have ht : exec (LDST_u B) t = (t.load (B.returnBank (bank m.cpsr) (bank (m.mem (word a 16)))) a
      stateRegs).setCpsr (m.mem (word a 16)) := by
    rw [← h.sameBank, ← h.spsr, ← h.sameBank, ← h.base]
    rfl
  rw [ht]
  refine ⟨rfl, fun i hi => ?_, ?_, fun op2 hOp => ?_, fun op2 => ?_, fun x _ => ?_⟩
  · rw [Machine.setCpsr_view, load_view stateRegs_nodup, h.mem]
  · rw [Machine.setCpsr_cp15, load_cp15, h.system.control]
  · rw [Machine.setCpsr_cp15, load_cp15, h.system.entryHi op2 hOp]
  · rw [Machine.setCpsr_cp15, load_cp15, h.system.cause]
  · rw [Machine.setCpsr_mem, load_mem, h.mem]

/-- In another mode the stack is written, which the state does not meet. -/
theorem Prepared.loaded_banked {t : Machine} (h : Prepared m a t) (hApart : Apart a)
    (hUser : ¬ UserState (m.mem (word a 16))) :
    Loaded m a (bank (m.mem (word a 16)))
      (exec (loadStacked ++ loadRegisters ++ loadReturn) t) := by
  obtain ⟨t₁, ht₁⟩ : ∃ t₁, t₁ = exec loadStacked t := ⟨_, rfl⟩
  obtain ⟨t₂, ht₂⟩ : ∃ t₂, t₂ = exec loadRegisters t₁ := ⟨_, rfl⟩
  obtain ⟨u, hu⟩ : ∃ u, u = exec loadReturn t₂ := ⟨_, rfl⟩
  have hExec : exec (loadStacked ++ loadRegisters ++ loadReturn) t = u := by
    rw [exec_append, exec_append, ← ht₁, ← ht₂, ← hu]
  obtain ⟨hMem₁, hCpsr₁, hSpsr₁, hCp₁, hBase₁, hr6₁⟩ := exec_loadStacked h.base
  rw [← ht₁] at hMem₁ hCpsr₁ hSpsr₁ hCp₁ hBase₁ hr6₁
  obtain ⟨hMem₂, hCpsr₂, hSpsr₂, hCp₂, hRegs₂⟩ := exec_loadRegisters hBase₁ (hr6₁.trans h.psr)
  rw [← ht₂] at hMem₂ hCpsr₂ hSpsr₂ hCp₂ hRegs₂
  obtain ⟨hMem, hCpsr, hCp, hFirst, hRegs⟩ := exec_loadReturn t₂
  rw [← hu] at hMem hCpsr hCp hFirst hRegs
  have hStack : t₂.mem = storeWords m.mem 0x7FF0#32 [t.cpsr, m.mem a, m.mem (word a 15)] := by
    rw [hMem₂, hMem₁, h.mem]
  have hBack : t₂.mem 0x7FF0#32 = t.cpsr := by rw [hStack]; rfl
  have hr0 : t₂.mem 0x7FF4#32 = m.mem a := by rw [hStack]; rfl
  have hPc : t₂.mem 0x7FF8#32 = m.mem (word a 15) := by rw [hStack]; rfl
  have hCells : ∀ j < 3, word 0x7FF0#32 j ∈ frame := by decide
  have hState (i : ℕ) (hi : i < 22) : t₁.mem (word a i) = m.mem (word a i) := by
    rw [hMem₁, h.mem]
    exact storeWords_ne fun j hj => (hApart.ne hi (List.mem_append_left _ (hCells j hj))).symm
  have hBank : bank t₂.cpsr = bank (m.mem (word a 16)) := by
    rw [hCpsr₂]
    exact bank_reaching_of_ne fun hUsr => hUser (.inl hUsr)
  rw [hExec]
  refine ⟨?_, fun i hi => ?_, ?_, fun op2 hOp => ?_, fun op2 => ?_, fun x hx => ?_⟩
  · rw [hCpsr, hBack, hSpsr₂, hSpsr₁, h.sameBank, h.spsr]
  · cases i with
    | zero => exact (hFirst _).1.trans (hr0.trans (by rw [word_zero]))
    | succ i =>
        by_cases hLast : i < middle.length
        · have hReg : stateRegs[i + 1] = middle[i] := List.getElem_append_left hLast
          rw [hReg, hRegs _ (List.getElem_mem hLast), ← hBank]
          exact (hRegs₂ i hLast).trans (hState (i + 1) (Nat.lt_of_lt_of_le hi (by decide)))
        · obtain rfl : i = 14 := by
            have hLength : stateRegs.length = 16 := rfl
            have hMiddle : middle.length = 14 := rfl
            omega
          exact (hFirst _).2.trans hPc
  · rw [hCp, hCp₂, hCp₁, h.system.control]
  · rw [hCp, hCp₂, hCp₁, h.system.entryHi op2 hOp]
  · rw [hCp, hCp₂, hCp₁, h.system.cause]
  · rw [hMem, hStack]
    exact storeWords_ne fun j hj hEq => hx (hEq ▸ hCells j hj)

theorem LDST_loaded (hApart : Apart a) (hr0 : m.get r0 = a) :
    Loaded m a (filled B m.cpsr (m.mem (word a 16))) (LDST B m) := by
  obtain ⟨h, hZero, hr1⟩ := exec_loadSystem hr0
  have hFlags := h.setFlags ((exec loadSystem m).get r1) 0xF#32
  rw [hr1] at hFlags
  simp only [LDST, hZero, decide_eq_true_eq, exec_cons, exec_nil, cmpImm, Machine.setCpsr_cpsr,
    zero_compare, hr1, BitVec.ofNat_eq_ofNat]
  by_cases hUser : UserState (m.mem (word a 16))
  · rw [filled, if_pos hUser]
    rcases hUser with hUsr | hSys
    · rw [if_pos hUsr]
      exact h.loaded_user
    · rw [if_neg (by rw [hSys]; decide), if_pos hSys]
      exact hFlags.loaded_user
  · rw [filled, if_neg hUser, if_neg fun hUsr => hUser (.inl hUsr),
      if_neg fun hSys => hUser (.inr hSys)]
    exact hFlags.loaded_banked hApart hUser

end Nucleus.Bios
