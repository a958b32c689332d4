import Nucleus.Bios.Traps

/-! What an exception comes to. All but the services of the BIOS itself end at the new area
of their kind. A `SWI` is a system call or a breakpoint, or one of these services. -/
namespace Nucleus.Bios

open Arm Arm.Reg Semantics

section Services

variable {B : Platform} {link : Word} {m t : Machine}

/-- The number of the service in the instruction in front of `link`. -/
def service (m : Machine) (link : Word) : Word := m.mem (link - 4#32) &&& 0xFFFFFF#32

/-- The machine of `SWI_H` after the comparison of the service number with `x`. -/
def compared (n x : Word) (t : Machine) : Machine := t.setCpsr (compare t.cpsr n x)

theorem bank_compared (n x : Word) (t : Machine) : bank (compared n x t).cpsr = bank t.cpsr :=
  bank_compare ..

theorem zero_compared (n x : Word) (t : Machine) : zero (compared n x t).cpsr = decide (n = x) :=
  zero_compare ..

theorem get_compared (n x : Word) (r : Reg) (t : Machine) : (compared n x t).get r = t.get r := by
  rw [Machine.get, compared, Machine.setCpsr_cpsr, bank_compare]
  rfl

/-- The code behind the frame finds the number, unless the frame is stored over it. -/
theorem Entered.exec_serviceNumber (h : Entered m link t) (hCode : link - 4#32 ∉ frame) :
    exec (pushFrame ++ serviceNumber) t = (exec pushFrame t).set r0 (service m link) := by
  have hLink : (exec pushFrame t).get lr = link := by
    rw [← h.link, exec_pushFrame]
    exact (Machine.setView_view_ne (by decide)).trans (Machine.setView_view_ne (by decide))
  have hMem : (exec pushFrame t).mem (link - 4#32) = m.mem (link - 4#32) := by
    obtain ⟨psr, -, hMem⟩ := h.framed.mem
    have hCells : ∀ j < 3, word 0x7FF0#32 j ∈ frame := by decide
    rw [hMem]
    exact storeWords_ne fun j hj hEq => hCode (hEq ▸ hCells j hj)
  rw [BitVec.sub_eq_add_neg] at hMem
  rw [exec_append, service, BitVec.sub_eq_add_neg, ← hMem, ← hLink]
  simp -implicitDefEqProofs [serviceNumber, ldr, andImm, Machine.get, Machine.set]

theorem SWI_H_eq {n : Word} {s : Machine} (hExec : exec (pushFrame ++ serviceNumber) t = s)
    (hr0 : s.get r0 = n) : SWI_H B t =
      let first := compared n B.BIOS_SRV_SYS s
      let second := compared n B.BIOS_SRV_BP first
      if n = B.BIOS_SRV_SYS then .ok (saveAndLoad B .SWI first)
      else if n = B.BIOS_SRV_BP then .ok (saveAndLoad B .SWI (exec BREAK_Cont second))
      else BIOS_SRV_EXEC B second := by
  have hFirst : exec [cmpImm r0 B.BIOS_SRV_SYS] s = compared n B.BIOS_SRV_SYS s := by
    rw [← hr0]
    rfl
  have hSecond : exec [cmpImm r0 B.BIOS_SRV_BP] (compared n B.BIOS_SRV_SYS s) =
      compared n B.BIOS_SRV_BP (compared n B.BIOS_SRV_SYS s) := by
    rw [exec_cons, exec_nil, cmpImm, get_compared, hr0]
    rfl
  simp only [SWI_H, hExec, hFirst, hSecond, zero_compared, decide_eq_true_eq, Outcome.pure_eq]

/-- The cause of a breakpoint has the code 12. -/
def breakpoint (m : Machine) : Machine :=
  m.setCp15 (15, 0) (m.cp15 (15, 0) &&& ~~~0xFFFFFF#32 ||| 12#32)

theorem Framed.exec_break (h : Framed m link t) :
    Framed (breakpoint m) link (exec BREAK_Cont t) := by
  have hExec : exec BREAK_Cont t =
      (t.setCp15 (15, 0) (t.cp15 (15, 0) &&& ~~~0xFFFFFF#32 ||| 12#32)).set r0
        (t.cp15 (15, 0) &&& ~~~0xFFFFFF#32 ||| 12#32) := by
    simp -implicitDefEqProofs [BREAK_Cont, mrc, bicImm, orrImm, mcr, Machine.get, Machine.set]
  rw [hExec, h.cp15]
  exact (h.setCause _).setR0 _

/-- Behind the frame `BIOS_SRV_EXEC` gives `r0` back to the caller. -/
theorem Framed.exec_service {n : Word} (h : Framed m link t) (hr0 : t.get r0 = n) :
    ∃ s, s.mem = t.mem ∧ s.get r0 = m.get r0 ∧ bank s.cpsr = bank t.cpsr ∧ s.cp15 = m.cp15 ∧
      BIOS_SRV_EXEC B t =
        if n = B.BIOS_SRV_HALT then .error .halt
        else if n = B.BIOS_SRV_PANIC then .error (.panic "KERNEL PANIC!")
        else if n = B.BIOS_SRV_LDST then .ok (LDST B s)
        else .error (.panic "UNKNOWN SERVICE.\nKERNEL PANIC!") := by
  obtain ⟨psr, -, hMem⟩ := h.mem
  have hStack : t.mem 0x7FF0#32 = m.get r0 := by rw [hMem]; rfl
  have hCell : ROMSTACK_TOP + ROMSTACK_OFF + 0 = 0x7FF0#32 := by decide
  obtain ⟨v, hv⟩ : ∃ v, v = exec [mov r6 r0, movImm sp ROMSTACK_TOP, addImm sp sp ROMSTACK_OFF,
      ldr r0 sp 0] t := ⟨_, rfl⟩
  have hExec : v = ((t.setView (bank t.cpsr) r6 n).setView (bank t.cpsr) sp
      0x7FF0#32).setView (bank t.cpsr) r0 (m.get r0) := by
    rw [hv, ← hr0, ← hStack]
    simp -implicitDefEqProofs [mov, movImm, addImm, ldr, Machine.get, Machine.set, stack_base]
  have hr6 : v.get r6 = n := by
    rw [hExec]
    exact (Machine.setView_view_ne (by decide)).trans
      ((Machine.setView_view_ne (by decide)).trans Machine.setView_view_self)
  have hr0' : v.get r0 = m.get r0 := by
    rw [hExec]
    exact Machine.setView_view_self
  have hCmp (x : Word) (s : Machine) (hs : s.get r6 = n) : exec [cmpImm r6 x] s =
      compared n x s := by
    rw [← hs]
    rfl
  obtain ⟨s₁, hs₁⟩ : ∃ s₁, s₁ = compared n B.BIOS_SRV_HALT v := ⟨_, rfl⟩
  obtain ⟨s₂, hs₂⟩ : ∃ s₂, s₂ = compared n B.BIOS_SRV_PANIC s₁ := ⟨_, rfl⟩
  obtain ⟨s, hs⟩ : ∃ s, s = compared n B.BIOS_SRV_LDST s₂ := ⟨_, rfl⟩
  have hGet (r : Reg) : s.get r = v.get r := by
    rw [hs, hs₂, hs₁, get_compared, get_compared, get_compared]
  have hBank : bank s.cpsr = bank t.cpsr := by
    rw [hs, hs₂, hs₁, bank_compared, bank_compared, bank_compared, hExec]
    rfl
  refine ⟨s, ?_, by rw [hGet, hr0'], hBank, ?_, ?_⟩
  · rw [hs, hs₂, hs₁, hExec]
    rfl
  · rw [hs, hs₂, hs₁, hExec]
    exact h.cp15
  · have hr6₁ : s₁.get r6 = n := by rw [hs₁, get_compared, hr6]
    have hr6₂ : s₂.get r6 = n := by rw [hs₂, get_compared, hr6₁]
    simp only [BIOS_SRV_EXEC, ← hv, hCmp _ v hr6, ← hs₁, hCmp _ s₁ hr6₁, ← hs₂, hCmp _ s₂ hr6₂,
      ← hs]
    simp only [hs₁, hs₂, hs, zero_compared, decide_eq_true_eq, Outcome.pure_eq]

end Services

section Raise

variable {B : Platform} {v : Vector} {kind : Kind} {link : Word} {m : Machine}

/-- The kind of an exception, if it does not come to a service of the BIOS itself. -/
def trapKind (B : Platform) (link : Word) (m : Machine) : Vector → Option Kind
  | .UNDEF => some .PGMT
  | .SWI =>
      if service m link = B.BIOS_SRV_SYS ∨ service m link = B.BIOS_SRV_BP then some .SWI else none
  | .PREFABT => some (faultKind (m.cp15 (15, 0)))
  | .DATAABT => some (faultKind (m.cp15 (15, 0)))
  | .IRQ => some .INT
  | .FIQ => some .INT

/-- The machine whose state is saved: a breakpoint is entered in the cause first. -/
def interrupted (B : Platform) (v : Vector) (link : Word) (m : Machine) : Machine :=
  if v = .SWI ∧ service m link ≠ B.BIOS_SRV_SYS then breakpoint m else m

theorem interrupted_mem (B : Platform) (v : Vector) (link : Word) (m : Machine) :
    (interrupted B v link m).mem = m.mem := by
  unfold interrupted
  split <;> rfl

theorem interrupted_cpsr (B : Platform) (v : Vector) (link : Word) (m : Machine) :
    (interrupted B v link m).cpsr = m.cpsr := by
  unfold interrupted
  split <;> rfl

theorem Entered.SWI_trapped {t : Machine} (h : Entered m link t) (hMode : ValidMode m.cpsr)
    (hBank : bank t.cpsr = modeBank Vector.SWI.mode) (hCode : link - 4#32 ∉ frame)
    (hKind : trapKind B link m .SWI = some kind) :
    ∃ u, SWI_H B t = .ok u ∧
      Trapped B kind Vector.SWI.mode link (interrupted B .SWI link m) u := by
  have hFramed := h.framed.setR0 (service m link)
  have hr0 := Machine.get_set (exec pushFrame t) r0 (service m link)
  have hFramedBank : bank ((exec pushFrame t).set r0 (service m link)).cpsr =
      modeBank Vector.SWI.mode := by
    rw [Machine.set_cpsr, bank_exec_pushFrame, hBank]
  rw [SWI_H_eq (h.exec_serviceNumber hCode) hr0]
  by_cases hSys : service m link = B.BIOS_SRV_SYS
  · obtain rfl : Kind.SWI = kind := by simpa [trapKind, hSys] using hKind
    refine ⟨_, if_pos hSys, ?_⟩
    rw [interrupted, if_neg fun hBreak => hBreak.2 hSys]
    exact (hFramed.setFlags _ _).trapped hMode ((bank_compared ..).trans hFramedBank) .SWI
  · have hBp : service m link = B.BIOS_SRV_BP := by
      by_contra hBp
      simp [trapKind, hSys, hBp] at hKind
    obtain rfl : Kind.SWI = kind := by simpa [trapKind, hBp] using hKind
    refine ⟨_, (if_neg hSys).trans (if_pos hBp), ?_⟩
    rw [interrupted, if_pos ⟨rfl, hSys⟩]
    have hSecond := (hFramed.setFlags (service m link) B.BIOS_SRV_SYS).setFlags
      (service m link) B.BIOS_SRV_BP
    have hSecondBank := (bank_compared (service m link) B.BIOS_SRV_BP _).trans
      ((bank_compared (service m link) B.BIOS_SRV_SYS _).trans hFramedBank)
    exact hSecond.exec_break.trapped hMode hSecondBank .SWI

/-- Every exception that is no service of the BIOS ends with the state of its new area
loaded, and the state of the interrupted program in its old area. -/
theorem raise_trapped (hMode : ValidMode m.cpsr) (hCode : v = .SWI → link - 4#32 ∉ frame)
    (hKind : trapKind B link m v = some kind) :
    ∃ t, raise B v link m = .ok t ∧
      Trapped B kind v.mode link (interrupted B v link m) t := by
  have hEntered := take_entered v.mode link m
  have hBank := bank_take v.mode link m
  have hSame (hv : v ≠ .SWI) : interrupted B v link m = m := if_neg fun hBreak => hv hBreak.1
  cases v with
  | UNDEF =>
      obtain rfl := Option.some.inj hKind
      rw [hSame (by decide)]
      exact ⟨_, rfl, hEntered.trapped hMode hBank .PGMT⟩
  | SWI => exact hEntered.SWI_trapped hMode hBank (hCode rfl) hKind
  | PREFABT =>
      obtain rfl := Option.some.inj hKind
      rw [hSame (by decide)]
      exact ⟨_, rfl, hEntered.aborted hMode hBank⟩
  | DATAABT =>
      obtain rfl := Option.some.inj hKind
      rw [hSame (by decide)]
      exact ⟨_, rfl, hEntered.aborted hMode hBank⟩
  | IRQ =>
      obtain rfl := Option.some.inj hKind
      rw [hSame (by decide)]
      exact ⟨_, rfl, hEntered.trapped hMode hBank .INT⟩
  | FIQ =>
      obtain rfl := Option.some.inj hKind
      rw [hSame (by decide)]
      exact ⟨_, rfl, hEntered.trapped hMode hBank .INT⟩

/-- What a service of the BIOS comes to. `LDST` loads the state that `r0` of the caller
points to. -/
def Served (B : Platform) (link : Word) (m : Machine) (result : Outcome Machine) : Prop :=
  if service m link = B.BIOS_SRV_HALT then result = .error .halt
  else if service m link = B.BIOS_SRV_PANIC then result = .error (.panic "KERNEL PANIC!")
  else if service m link = B.BIOS_SRV_LDST then
    ∃ t, result = .ok t ∧ Loaded m (m.get r0)
      (filled B (entryPsr m.cpsr Vector.SWI.mode) (m.mem (word (m.get r0) 16))) t
  else result = .error (.panic "UNKNOWN SERVICE.\nKERNEL PANIC!")

/-- The services are open to every mode of the caller, and save nothing. -/
theorem raise_served (hCode : link - 4#32 ∉ frame) (hNone : trapKind B link m .SWI = none)
    (hApart : service m link = B.BIOS_SRV_LDST → Apart (m.get r0)) :
    Served B link m (raise B .SWI link m) := by
  have hEntered := take_entered Vector.SWI.mode link m
  obtain ⟨t, ht⟩ : ∃ t, t = take Vector.SWI.mode link m := ⟨_, rfl⟩
  rw [← ht] at hEntered
  obtain ⟨hSys, hBp⟩ : service m link ≠ B.BIOS_SRV_SYS ∧ service m link ≠ B.BIOS_SRV_BP := by
    simpa [trapKind] using hNone
  have hr0 := Machine.get_set (exec pushFrame t) r0 (service m link)
  obtain ⟨u, hu⟩ : ∃ u, u = compared (service m link) B.BIOS_SRV_BP
      (compared (service m link) B.BIOS_SRV_SYS ((exec pushFrame t).set r0 (service m link))) :=
    ⟨_, rfl⟩
  have hFramed : Framed m link u := by
    rw [hu]
    exact ((hEntered.framed.setR0 _).setFlags _ _).setFlags _ _
  have hur0 : u.get r0 = service m link := by rw [hu, get_compared, get_compared, hr0]
  have huBank : bank u.cpsr = bank (entryPsr m.cpsr Vector.SWI.mode) := by
    rw [hu, bank_compared, bank_compared, Machine.set_cpsr, bank_exec_pushFrame, ht]
    rfl
  obtain ⟨s, hMem, hsr0, hsBank, hCp, hService⟩ := hFramed.exec_service (B := B) hur0
  have hOutside (x : Word) (hx : x ∉ frame) : s.mem x = m.mem x := by
    obtain ⟨psr, -, hFrame⟩ := hFramed.mem
    have hCells : ∀ j < 3, word 0x7FF0#32 j ∈ frame := by decide
    rw [hMem, hFrame]
    exact storeWords_ne fun j hj hEq => hx (hEq ▸ hCells j hj)
  have hRaise : raise B .SWI link m = BIOS_SRV_EXEC B u := by
    have hSWI := SWI_H_eq (B := B) (hEntered.exec_serviceNumber hCode) hr0
    rw [raise, ← ht, hSWI, hu, if_neg hSys, if_neg hBp]
  rw [Served, hRaise, hService]
  by_cases hHalt : service m link = B.BIOS_SRV_HALT
  · rw [if_pos hHalt, if_pos hHalt]
  by_cases hPanic : service m link = B.BIOS_SRV_PANIC
  · rw [if_neg hHalt, if_neg hHalt, if_pos hPanic, if_pos hPanic]
  by_cases hLDST : service m link = B.BIOS_SRV_LDST
  · rw [if_neg hHalt, if_neg hHalt, if_neg hPanic, if_neg hPanic, if_pos hLDST, if_pos hLDST]
    refine ⟨_, rfl, ?_⟩
    rw [← filled_congr (hsBank.trans huBank), ← hOutside _ ((hApart hLDST).notMem_frame (by omega))]
    exact (LDST_loaded (hApart hLDST) hsr0).congr (hApart hLDST) hOutside hCp
  · rw [if_neg hHalt, if_neg hHalt, if_neg hPanic, if_neg hPanic, if_neg hLDST, if_neg hLDST]

/-- The numbers of the services are different. -/
def Platform.Distinct (B : Platform) : Prop :=
  [B.BIOS_SRV_SYS, B.BIOS_SRV_BP, B.BIOS_SRV_HALT, B.BIOS_SRV_PANIC, B.BIOS_SRV_LDST].Nodup

theorem Platform.Distinct.ne (h : B.Distinct) : B.BIOS_SRV_LDST ≠ B.BIOS_SRV_SYS ∧
    B.BIOS_SRV_LDST ≠ B.BIOS_SRV_BP ∧ B.BIOS_SRV_LDST ≠ B.BIOS_SRV_HALT ∧
    B.BIOS_SRV_LDST ≠ B.BIOS_SRV_PANIC := by
  simp only [Platform.Distinct, List.nodup_cons, List.mem_cons, not_or] at h
  obtain ⟨hSys, hBp, hHalt, hPanic, -⟩ := h
  exact ⟨Ne.symm hSys.2.2.2.1, Ne.symm hBp.2.2.1, Ne.symm hHalt.2.1, Ne.symm hPanic.1⟩

theorem trapKind_LDST (hNumbers : B.Distinct) (hLDST : service m link = B.BIOS_SRV_LDST) :
    trapKind B link m .SWI = none := by
  obtain ⟨hSys, hBp, -, -⟩ := hNumbers.ne
  simp [trapKind, hLDST, hSys, hBp]

theorem raise_LDST (hCode : link - 4#32 ∉ frame) (hNumbers : B.Distinct)
    (hLDST : service m link = B.BIOS_SRV_LDST) (hApart : Apart (m.get r0)) :
    ∃ t, raise B .SWI link m = .ok t ∧ Loaded m (m.get r0)
      (filled B (entryPsr m.cpsr Vector.SWI.mode) (m.mem (word (m.get r0) 16))) t := by
  obtain ⟨-, -, hHalt, hPanic⟩ := hNumbers.ne
  have hServed := raise_served hCode (trapKind_LDST hNumbers hLDST) fun _ => hApart
  rw [Served, hLDST, if_neg hHalt, if_neg hPanic, if_pos rfl] at hServed
  exact hServed

/-- A user program that calls the system and then `LDST`, with the modes of the handlers in
the new areas. -/
def program : Machine where
  regs := fun _ => 0
  cpsr := 0x10
  spsr := fun _ => 0
  mem := fun a =>
    if a = 0x9000 then 0xEF000008
    else if a = 0x9004 then 0xEF000003
    else if a = word (newArea .SWI) 16 then 0x13
    else if a = word (newArea .INT) 16 then 0x12
    else 0
  cp15 := fun _ => 0

/-- The service `LDST` looks at nothing of its caller but `r0`: programs in any two modes
get the same processor from the same state, a privileged one as well. -/
theorem LDST_ignores_caller (B : Platform) (m m' : Machine) (link link' : Word)
    (hMem : ∀ x ∉ frame, m.mem x = m'.mem x) (hr0 : m.get r0 = m'.get r0)
    (hCode : link - 4#32 ∉ frame) (hCode' : link' - 4#32 ∉ frame) (hNumbers : B.Distinct)
    (hLDST : service m link = B.BIOS_SRV_LDST) (hLDST' : service m' link' = B.BIOS_SRV_LDST)
    (hApart : Apart (m.get r0)) :
    ∃ t t', raise B .SWI link m = .ok t ∧ raise B .SWI link' m' = .ok t' ∧
      t.cpsr = m.mem (word (m.get r0) 16) ∧ t'.cpsr = t.cpsr ∧
      t'.cp15 (1, 0) = t.cp15 (1, 0) ∧
      ∀ r, t'.view (filled B (entryPsr m.cpsr Vector.SWI.mode) t.cpsr) r =
        t.view (filled B (entryPsr m.cpsr Vector.SWI.mode) t.cpsr) r := by
  obtain ⟨t, hRaise, h⟩ := raise_LDST hCode hNumbers hLDST hApart
  obtain ⟨t', hRaise', h'⟩ := raise_LDST hCode' hNumbers hLDST' (hr0 ▸ hApart)
  have hState (i : ℕ) (hi : i < 22) : m'.mem (word (m.get r0) i) = m.mem (word (m.get r0) i) :=
    (hMem _ (hApart.notMem_frame hi)).symm
  have hBank : filled B (entryPsr m'.cpsr Vector.SWI.mode) (m.mem (word (m.get r0) 16)) =
      filled B (entryPsr m.cpsr Vector.SWI.mode) (m.mem (word (m.get r0) 16)) := by
    refine filled_congr ?_ _
    rw [bank, bank, mode_entryPsr, mode_entryPsr]
  rw [← hr0, hState 16 (by omega), hBank] at h'
  refine ⟨t, t', hRaise, hRaise', h.cpsr, ?_, ?_, fun r => ?_⟩
  · rw [h'.cpsr, h.cpsr, hState 16 (by omega)]
  · rw [h'.control, h.control, hState 17 (by omega)]
  · have hName : r ∈ stateRegs := by cases r <;> decide
    obtain ⟨i, hi, rfl⟩ := List.getElem_of_mem hName
    rw [h.cpsr, h'.regs i hi, h.regs i hi, hState i (Nat.lt_of_lt_of_le hi (by decide))]

/-- The state at 0, for a user program and for one in supervisor mode. -/
theorem LDST_ignores_caller_program : ∃ t t',
    raise (rom 0x300 fun _ loaded => loaded) .SWI 0x9008 program = .ok t ∧
      raise (rom 0x300 fun _ loaded => loaded) .SWI 0x9008 (program.setCpsr 0xD3) = .ok t' ∧
      t.cpsr = program.mem (word (program.get r0) 16) ∧ t'.cpsr = t.cpsr ∧
      t'.cp15 (1, 0) = t.cp15 (1, 0) ∧
      ∀ r, t'.view (filled (rom 0x300 fun _ loaded => loaded)
          (entryPsr program.cpsr Vector.SWI.mode) t.cpsr) r =
        t.view (filled (rom 0x300 fun _ loaded => loaded)
          (entryPsr program.cpsr Vector.SWI.mode) t.cpsr) r :=
  LDST_ignores_caller _ program (program.setCpsr 0xD3) 0x9008 0x9008 (fun _ _ => rfl) rfl
    (by decide) (by decide) (by unfold Platform.Distinct; decide) (by decide) (by decide)
    (by unfold Apart; decide)

end Raise

end Nucleus.Bios
