import Nucleus.Bios.Runs

/-! `STST` of `libuarm.S`, and what comes of a state that it has stored. The registers of the
coprocessor and the clock are stored from one address, since the first of the two stores does
not write the address back; in `SAVE_OLD_STATE` both do. -/
namespace Nucleus.Bios

open Arm Arm.Reg Semantics

section Code

/-- `pc` is stored as `here`, an address in `STST` itself. -/
def storeRegisters (here : Word) : Instr := fun m =>
  m.setMem (storeWords m.mem (m.get r0) ((r0 :: middle).map m.get ++ [here]))

/-- The registers that `STST` uses. -/
def used : List Reg := [r5, r6, r7, r8]

/-- The coprocessor and the clock. -/
def storeSystem : List Instr := [
  addImm r5 r0 PSR_OFFSET,
  mrsCpsr r6,
  strPost r6 r5 4,
  mrc r6 1 0,
  mrc r7 2 0,
  mrc r8 15 0,
  stm r5 [r6, r7, r8],
  movImm r6 TOD_HI_INFO,
  ldr r7 r6 0,
  movImm r6 TOD_LO_INFO,
  ldr r8 r6 0,
  stm r5 [r7, r8]]

def STST (here : Word) : List Instr :=
  [storeRegisters here, push used] ++ storeSystem ++ [pop used]

end Code

section Store

variable {m : Machine} {a here : Word}

/-- The registers in the state. -/
def registerWords (m : Machine) (here : Word) : List Word := (r0 :: middle).map m.get ++ [here]

/-- The words that `STST` leaves from the state on. The last two are not written. -/
def storedWords (m : Machine) (here : Word) : List Word :=
  registerWords m here ++ [m.cpsr, m.mem TOD_HI_INFO, m.mem TOD_LO_INFO, m.cp15 (15, 0)]

/-- Their words below the stack pointer, and where they are. -/
def usedWords (m : Machine) : List Word := used.map m.get

def stackBelow (m : Machine) : Word := m.get sp - 16#32

theorem registerWords_length : (registerWords m here).length = 16 := rfl

theorem usedWords_length : (usedWords m).length = 4 := rfl

/-- The state is apart from the stack below the stack pointer, and the clock from both. -/
structure Separate (m : Machine) (a : Word) : Prop where
  state : ∀ i < 22, ∀ j < 4, word a i ≠ word (stackBelow m) j
  clock : ∀ i < 22, word a i ∉ [TOD_HI_INFO, TOD_LO_INFO]
  clockStack : ∀ j < 4, word (stackBelow m) j ∉ [TOD_HI_INFO, TOD_LO_INFO]

/-- What the first two instructions do. -/
theorem exec_storeFirst (hr0 : m.get r0 = a) (h : Separate m a) :
    exec [storeRegisters here, push used] m =
      (m.setMem (storeWords (storeWords m.mem (stackBelow m) (usedWords m)) a
        (registerWords m here))).setView (bank m.cpsr) sp (stackBelow m) := by
  have hComm : storeWords (storeWords m.mem a (registerWords m here)) (stackBelow m) (usedWords m) =
      storeWords (storeWords m.mem (stackBelow m) (usedWords m)) a (registerWords m here) := by
    refine storeWords_comm (fun i hi j hj => ?_) m.mem
    rw [registerWords_length] at hi
    rw [usedWords_length] at hj
    exact h.state i (by omega) j hj
  rw [← hComm]
  simp only [Machine.get] at hr0
  simp -implicitDefEqProofs [storeRegisters, push, stm, used, usedWords, registerWords, Machine.get,
    Machine.set, stackBelow, hr0]

theorem exec_storeSystem (hr0 : m.get r0 = a)
    (hClock : ∀ i < 22, word a i ∉ [TOD_HI_INFO, TOD_LO_INFO]) :
    let t := exec storeSystem m
    t.mem = storeWords m.mem (word a 16)
        [m.cpsr, m.mem TOD_HI_INFO, m.mem TOD_LO_INFO, m.cp15 (15, 0)] ∧
      t.cpsr = m.cpsr ∧ t.spsr = m.spsr ∧ t.cp15 = m.cp15 ∧
      ∀ r ∉ used, ∀ b, t.view b r = m.view b r := by
  have hPsr : a + 64#32 = word a 16 := rfl
  have hNext : word a 16 + 4#32 = word a 17 := word_word a 16 1
  have hRead (x : Word) (hx : x ∈ [TOD_HI_INFO, TOD_LO_INFO]) (vs : List Word)
      (hSize : vs.length = 4) : storeWords m.mem (word a 16) vs x = m.mem x := by
    refine storeWords_ne fun i hi hEq => ?_
    rw [word_word] at hEq
    exact hClock _ (by omega) (hEq ▸ hx)
  simp only [Machine.get] at hr0
  refine ⟨?_, ?_, ?_, ?_, fun r hr b => ?_⟩
  · simp -implicitDefEqProofs [storeSystem, addImm, mrsCpsr, strPost, str, mrc, stm, movImm, ldr,
      Machine.get, Machine.set, hr0, PSR_OFFSET, hPsr, hNext]
    have hCons (vs : List Word) : storeWords (write m.mem (word a 16) m.cpsr) (word a 17) vs =
        storeWords m.mem (word a 16) (m.cpsr :: vs) := by
      rw [← hNext, storeWords_cons]
    have hOver (hi lo : Word) : storeWords (storeWords (write m.mem (word a 16) m.cpsr) (word a 17)
        ([m.cp15 (1, 0), m.cp15 (2, 0)] ++ [m.cp15 (15, 0)])) (word a 17) [hi, lo] =
        storeWords (write m.mem (word a 16) m.cpsr) (word a 17) ([hi, lo] ++ [m.cp15 (15, 0)]) := by
      apply storeWords_over
      · show 3 ≤ 2 ^ 30
        omega
      · rfl
    refine (hOver _ _).trans ?_
    rw [hCons, hCons, hRead _ (by decide) _ rfl, hRead _ (by decide) _ rfl]
    rfl
  · simp -implicitDefEqProofs [storeSystem, addImm, mrsCpsr, strPost, str, mrc, stm, movImm, ldr,
      Machine.get, Machine.set]
  · simp -implicitDefEqProofs [storeSystem, addImm, mrsCpsr, strPost, str, mrc, stm, movImm, ldr,
      Machine.get, Machine.set]
  · simp -implicitDefEqProofs [storeSystem, addImm, mrsCpsr, strPost, str, mrc, stm, movImm, ldr,
      Machine.get, Machine.set]
  · simp only [used, List.mem_cons, List.not_mem_nil, or_false, not_or] at hr
    simp -implicitDefEqProofs [storeSystem, addImm, mrsCpsr, strPost, str, mrc, stm, movImm, ldr,
      Machine.get, Machine.set, hr]

/-- `STST` changes the memory and nothing else. -/
theorem exec_STST (here : Word) (hr0 : m.get r0 = a) (h : Separate m a) :
    let t := exec (STST here) m
    t.mem = storeWords (storeWords m.mem (stackBelow m) (usedWords m)) a (storedWords m here) ∧
      t.cpsr = m.cpsr ∧ t.cp15 = m.cp15 ∧ ∀ r, t.get r = m.get r := by
  obtain ⟨m₁, hm₁⟩ : ∃ m₁, m₁ = exec [storeRegisters here, push used] m := ⟨_, rfl⟩
  obtain ⟨m₂, hm₂⟩ : ∃ m₂, m₂ = exec storeSystem m₁ := ⟨_, rfl⟩
  have hExec : exec (STST here) m = pop used m₂ := by
    rw [hm₂, hm₁, STST, exec_append, exec_append]
    rfl
  have hFirst := (hm₁.trans (exec_storeFirst hr0 h))
  have hCpsr₁ : m₁.cpsr = m.cpsr := by rw [hFirst]; rfl
  have hCp₁ : m₁.cp15 = m.cp15 := by rw [hFirst]; rfl
  have hMem₁ : m₁.mem = storeWords (storeWords m.mem (stackBelow m) (usedWords m)) a
      (registerWords m here) := by rw [hFirst]; rfl
  have hClock (x : Word) (hx : x ∈ [TOD_HI_INFO, TOD_LO_INFO]) : m₁.mem x = m.mem x := by
    rw [hMem₁, storeWords_ne fun i hi hEq => ?_, storeWords_ne fun j hj hEq => ?_]
    · exact h.clockStack j hj (hEq ▸ hx)
    · exact h.clock i (by rw [registerWords_length] at hi; omega) (hEq ▸ hx)
  have hView₁ (r : Reg) (hr : r ≠ sp) : m₁.get r = m.get r := by
    rw [Machine.get, hCpsr₁, hFirst]
    exact Machine.setView_view_ne hr
  obtain ⟨hMem₂, hCpsr₂, -, hCp₂, hView₂⟩ :=
    exec_storeSystem ((hView₁ r0 (by decide)).trans hr0) h.clock
  rw [← hm₂] at hMem₂ hCpsr₂ hCp₂ hView₂
  have hMem : m₂.mem = storeWords (storeWords m.mem (stackBelow m) (usedWords m)) a
      (storedWords m here) := by
    rw [hMem₂, hClock _ (by decide), hClock _ (by decide), hCpsr₁, hCp₁, hMem₁]
    exact storeWords_append _ a (registerWords m here) _
  have hStack : m₂.get sp = stackBelow m := by
    rw [Machine.get, hCpsr₂, hView₂ sp (by decide), hFirst]
    exact Machine.setView_view_self
  have hSaved (i : ℕ) (hi : i < 4) : m₂.mem (word (stackBelow m) i) = m.get used[i] := by
    have hApart : ∀ j < (storedWords m here).length, word a j ≠ word (stackBelow m) i :=
      fun j hj => h.state j (Nat.lt_trans hj (by show 20 < 22; omega)) i hi
    have hWords : storeWords m.mem (stackBelow m) (usedWords m) (word (stackBelow m) i) =
        (usedWords m)[i] := by
      apply storeWords_apply
      show 4 ≤ 2 ^ 30
      omega
    rw [hMem, storeWords_ne hApart, hWords]
    exact List.getElem_map ..
  have hBank : bank m₂.cpsr = bank m.cpsr := by rw [hCpsr₂, hCpsr₁]
  have hPop : pop used m₂ = (m₂.load (bank m.cpsr) (stackBelow m) used).setView (bank m.cpsr) sp
      (word (stackBelow m) 4) := by
    rw [pop, Machine.set, load_cpsr, hBank, hStack]
    rfl
  have hCpsr : (pop used m₂).cpsr = m.cpsr := by
    rw [hPop, Machine.setView_cpsr, load_cpsr, hCpsr₂, hCpsr₁]
  rw [hExec]
  refine ⟨?_, hCpsr, ?_, fun r => ?_⟩
  · rw [hPop, Machine.setView_mem, load_mem, hMem]
  · rw [hPop, Machine.setView_cp15, load_cp15, hCp₂, hCp₁]
  · rw [Machine.get, hCpsr, hPop]
    by_cases hsp : r = sp
    · rw [hsp, Machine.setView_view_self, word, stackBelow]
      exact BitVec.sub_add_cancel ..
    · rw [Machine.setView_view_ne hsp]
      by_cases hUsed : r ∈ used
      · obtain ⟨i, hi, rfl⟩ := List.getElem_of_mem hUsed
        rw [load_view (by decide), hSaved i hi]
      · rw [load_view_ne hUsed, hView₂ r hUsed, ← hView₁ r hsp, Machine.get, hCpsr₁]

end Store

section Resume

variable {B : Platform} {m u : Machine} {link : Word}

theorem exec_STST_holds (m : Machine) (here : Word) (h : Separate m (m.get r0)) :
    Holds (exec (STST here) m).mem (m.get r0) (storedWords m here) := by
  rw [(exec_STST here rfl h).1]
  apply storeWords_holds
  show 20 ≤ 2 ^ 30
  omega

theorem exec_STST_mem_ne (m : Machine) (here : Word) (h : Separate m (m.get r0)) {x : Word}
    (hState : ∀ i < 20, word (m.get r0) i ≠ x) (hStack : ∀ j < 4, word (stackBelow m) j ≠ x) :
    (exec (STST here) m).mem x = m.mem x := by
  have hArea : storeWords (storeWords m.mem (stackBelow m) (usedWords m)) (m.get r0)
      (storedWords m here) x = storeWords m.mem (stackBelow m) (usedWords m) x :=
    storeWords_ne fun i hi => hState i hi
  have hBelow : storeWords m.mem (stackBelow m) (usedWords m) x = m.mem x :=
    storeWords_ne fun j hj => hStack j hj
  rw [(exec_STST here rfl h).1, hArea, hBelow]

/-- `STST` keeps all registers. The state has the clock where `CP15_Control` and
`CP15_EntryHi` belong, and the words of the clock are not written. -/
theorem STST_stored (m : Machine) (here : Word) (h : Separate m (m.get r0)) :
    let t := exec (STST here) m
    Holds t.mem (m.get r0) (storedWords m here) ∧
      (∀ x, (∀ i < 20, word (m.get r0) i ≠ x) → (∀ j < 4, word (stackBelow m) j ≠ x) →
        t.mem x = m.mem x) ∧
      t.cpsr = m.cpsr ∧ t.cp15 = m.cp15 ∧ ∀ r, t.get r = m.get r := by
  exact ⟨exec_STST_holds m here h, fun x hState hStack => exec_STST_mem_ne m here h hState hStack,
    (exec_STST here rfl h).2⟩

/-- A user program that has `r0` at a state and calls `LDST` later. -/
def storing : Machine where
  regs := fun c => if c.2 = r0 then 0x8100 else if c.2 = .sp then 0x9F00 else 0
  cpsr := 0x10
  spsr := fun _ => 0
  mem := fun a => if a = 0x9004 then 0xEF000003 else 0
  cp15 := fun _ => 1

theorem storing_separate : Separate storing (storing.get r0) := by
  have hBase : storing.get r0 = 0x8100#32 := rfl
  have hStack : stackBelow storing = 0x9EF0#32 := by decide
  rw [hBase]
  refine ⟨?_, by decide, ?_⟩
  · rw [hStack]
    decide
  · rw [hStack]
    decide

theorem STST_stored_storing :
    let t := exec (STST 0x8208) storing
    Holds t.mem (storing.get r0) (storedWords storing 0x8208) ∧
      (∀ x, (∀ i < 20, word (storing.get r0) i ≠ x) → (∀ j < 4, word (stackBelow storing) j ≠ x) →
        t.mem x = storing.mem x) ∧
      t.cpsr = storing.cpsr ∧ t.cp15 = storing.cp15 ∧ ∀ r, t.get r = storing.get r :=
  STST_stored storing 0x8208 storing_separate

/-- What `STST` has stored is not what `LDST` loads: the program goes on in `STST`, with the
high word of the clock in `CP15_Control` and the low word in `CP15_EntryHi`. -/
theorem STST_resumed_iff (m u : Machine) (here link : Word) (h : Separate m (m.get r0))
    (hApart : Apart (m.get r0))
    (hKept : ∀ i < 20, u.mem (word (m.get r0) i) = (exec (STST here) m).mem (word (m.get r0) i))
    (hr0 : u.get r0 = m.get r0) (hCode : link - 4#32 ∉ frame) (hNumbers : B.Distinct)
    (hLDST : service u link = B.BIOS_SRV_LDST)
    (hBank : filled B (entryPsr u.cpsr Vector.SWI.mode) m.cpsr = bank m.cpsr) :
    ∃ s, raise B .SWI link u = .ok s ∧
      (Resumed m here s ↔ m.mem TOD_HI_INFO = m.cp15 (1, 0)) ∧
      ∀ op2 < 2, s.cp15 (2, op2) =
        if m.mem TOD_LO_INFO = 0#32 then u.cp15 (2, op2) else m.mem TOD_LO_INFO := by
  have hWords : Holds u.mem (m.get r0) (stateRegs.map (value m here (m.get sp) (m.get lr)) ++
      [m.cpsr, m.mem TOD_HI_INFO, m.mem TOD_LO_INFO, m.cp15 (15, 0)]) := fun i hi =>
    (hKept i hi).trans (exec_STST_holds m here h i hi)
  have hPsr : u.mem (word (m.get r0) 16) = m.cpsr := hWords.word_eq rfl
  have hHigh : u.mem (word (m.get r0) 17) = m.mem TOD_HI_INFO := hWords.word_eq rfl
  have hLow : u.mem (word (m.get r0) 18) = m.mem TOD_LO_INFO := hWords.word_eq rfl
  obtain ⟨s, hRaise, hLoaded⟩ := raise_LDST hCode hNumbers hLDST (hr0 ▸ hApart)
  rw [hr0, hPsr, hBank] at hLoaded
  have hCpsr : s.cpsr = m.cpsr := hLoaded.cpsr.trans hPsr
  have hGet (r : Reg) : s.get r = value m here (m.get sp) (m.get lr) r := by
    rw [Machine.get, hCpsr]
    exact hLoaded.value hWords r
  refine ⟨s, hRaise, ⟨fun hResumed => ?_, fun hSame => ⟨hCpsr, fun r hr => ?_, hGet pc, ?_⟩⟩,
    fun op2 hOp => ?_⟩
  · rw [← hResumed.control, hLoaded.control, hHigh]
  · rw [hGet]
    cases r with
    | pc => exact absurd rfl hr
    | _ => rfl
  · rw [hLoaded.control, hHigh, hSame]
  · rw [hLoaded.entryHi op2 hOp, hLow]

/-- With the clock at 0 the virtual memory is off after the return. -/
theorem STST_resumed_storing : ∃ s,
    raise (rom 0x300 fun _ loaded => loaded) .SWI 0x9008 (exec (STST 0x8208) storing) = .ok s ∧
      (Resumed storing 0x8208 s ↔ storing.mem TOD_HI_INFO = storing.cp15 (1, 0)) ∧
      ∀ op2 < 2, s.cp15 (2, op2) =
        if storing.mem TOD_LO_INFO = 0#32 then (exec (STST 0x8208) storing).cp15 (2, op2)
        else storing.mem TOD_LO_INFO := by
  obtain ⟨-, -, -, hRegs⟩ := exec_STST 0x8208 rfl storing_separate
  have hCode : (exec (STST 0x8208) storing).mem 0x9004#32 = 0xEF000003#32 :=
    exec_STST_mem_ne storing 0x8208 storing_separate (by decide) (by decide)
  exact STST_resumed_iff storing (exec (STST 0x8208) storing) 0x8208 0x9008 storing_separate
    (by unfold Apart; decide) (fun _ _ => rfl) (hRegs r0) (by decide)
    (by unfold Platform.Distinct; decide) (congrArg (· &&& 0xFFFFFF#32) hCode) (if_pos (by decide))

end Resume

end Nucleus.Bios
