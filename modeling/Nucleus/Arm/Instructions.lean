import Nucleus.Arm.Memory

/-! The instructions of an exception handler, each as a function on the machine, and
straight-line code as a list of them. An `Imm` in a name stands for an immediate operand. -/
namespace Arm

abbrev Instr := Machine → Machine

/-- Straight-line code. -/
def exec : List Instr → Machine → Machine
  | [], m => m
  | i :: code, m => exec code (i m)

@[simp] theorem exec_nil (m : Machine) : exec [] m = m := rfl

@[simp] theorem exec_cons (i : Instr) (code : List Instr) (m : Machine) :
    exec (i :: code) m = exec code (i m) := rfl

theorem exec_append (first second : List Instr) (m : Machine) :
    exec (first ++ second) m = exec second (exec first m) := by
  induction first generalizing m with
  | nil => rfl
  | cons i first ih => exact ih (i m)

section Data

def movImm (rd : Reg) (v : Word) : Instr := fun m => m.set rd v

def mov (rd rm : Reg) : Instr := fun m => m.set rd (m.get rm)

def addImm (rd rn : Reg) (v : Word) : Instr := fun m => m.set rd (m.get rn + v)

def subImm (rd rn : Reg) (v : Word) : Instr := fun m => m.set rd (m.get rn - v)

def andImm (rd rn : Reg) (v : Word) : Instr := fun m => m.set rd (m.get rn &&& v)

def orrImm (rd rn : Reg) (v : Word) : Instr := fun m => m.set rd (m.get rn ||| v)

def bicImm (rd rn : Reg) (v : Word) : Instr := fun m => m.set rd (m.get rn &&& ~~~v)

def orr (rd rn rm : Reg) : Instr := fun m => m.set rd (m.get rn ||| m.get rm)

def add (rd rn rm : Reg) : Instr := fun m => m.set rd (m.get rn + m.get rm)

def sub (rd rn rm : Reg) : Instr := fun m => m.set rd (m.get rn - m.get rm)

def movLsr (rd rm : Reg) (n : ℕ) : Instr := fun m => m.set rd (m.get rm >>> n)

def cmpImm (rn : Reg) (v : Word) : Instr := fun m => m.setCpsr (compare m.cpsr (m.get rn) v)

/-- A branch with link to a routine whose code follows; `ret` is the address behind it. -/
def bl (ret : Word) : Instr := fun m => m.set .lr ret

/-- `i` under the condition `eq`. -/
def ifEq (i : Instr) : Instr := fun m => if zero m.cpsr then i m else m

/-- `i` under the condition `ne`. -/
def ifNe (i : Instr) : Instr := fun m => if zero m.cpsr then m else i m

/-- A conditional instruction writes back what is there. -/
theorem ifEq_addImm (rd rn : Reg) (v : Word) : ifEq (addImm rd rn v) = fun m =>
    m.set rd (if zero m.cpsr then m.get rn + v else m.get rd) := by
  funext m
  by_cases h : zero m.cpsr
  · simp [ifEq, addImm, h]
  · simp only [ifEq, h, Machine.set, Machine.get]
    exact (Machine.setView_view ..).symm

end Data

section Status

def mrsCpsr (rd : Reg) : Instr := fun m => m.set rd m.cpsr

def mrsSpsr (rd : Reg) : Instr := fun m => m.set rd (m.spsr (bank m.cpsr))

def msrCpsr (rm : Reg) : Instr := fun m => m.setCpsr (m.get rm)

def msrSpsr (rm : Reg) : Instr := fun m => m.setSpsr (bank m.cpsr) (m.get rm)

def mrc (rd : Reg) (crn op2 : ℕ) : Instr := fun m => m.set rd (m.cp15 (crn, op2))

def mcr (rd : Reg) (crn op2 : ℕ) : Instr := fun m => m.setCp15 (crn, op2) (m.get rd)

/-- A conditional write to the coprocessor writes back what is there. -/
theorem ifNe_mcr (rd : Reg) (crn op2 : ℕ) : ifNe (mcr rd crn op2) = fun m =>
    m.setCp15 (crn, op2) (if zero m.cpsr then m.cp15 (crn, op2) else m.get rd) := by
  funext m
  by_cases h : zero m.cpsr <;> simp [ifNe, mcr, h, Machine.setCp15]

end Status

section Memory

def ldr (rd rn : Reg) (offset : Word) : Instr := fun m => m.set rd (m.mem (m.get rn + offset))

def str (rd rn : Reg) (offset : Word) : Instr := fun m =>
  m.setMem (write m.mem (m.get rn + offset) (m.get rd))

/-- The address register moves on behind the access. -/
def ldrPost (rd rn : Reg) (step : Word) : Instr := fun m =>
  let a := m.get rn
  (m.set rd (m.mem a)).set rn (a + step)

def strPost (rd rn : Reg) (step : Word) : Instr := fun m =>
  (str rd rn 0 m).set rn (m.get rn + step)

/-- The registers of a list to memory, as the current mode sees them. -/
def stm (rn : Reg) (rs : List Reg) : Instr := fun m =>
  m.setMem (storeWords m.mem (m.get rn) (rs.map m.get))

/-- With the address behind the last word written back. -/
def stmBack (rn : Reg) (rs : List Reg) : Instr := fun m =>
  (stm rn rs m).set rn (word (m.get rn) rs.length)

/-- The registers of a list from memory, as a mode with bank `b` sees them. -/
def Machine.load (m : Machine) (b : Bank) : Word → List Reg → Machine
  | _, [] => m
  | a, r :: rs => (m.setView b r (m.mem a)).load b (a + 4#32) rs

def ldm (rn : Reg) (rs : List Reg) : Instr := fun m => m.load (bank m.cpsr) (m.get rn) rs

/-- A load of a list with `^` and without `pc`: the registers of user mode. -/
def ldmUser (rn : Reg) (rs : List Reg) : Instr := fun m => m.load .usr (m.get rn) rs

/-- The registers of a list below the stack pointer. -/
def push (rs : List Reg) : Instr := fun m =>
  stm .sp rs (m.set .sp (m.get .sp - 4 * BitVec.ofNat 32 rs.length))

def pop (rs : List Reg) : Instr := fun m =>
  (m.load (bank m.cpsr) (m.get .sp) rs).set .sp (word (m.get .sp) rs.length)

section Load

variable {b : Bank}

@[simp] theorem load_cpsr (m : Machine) (b : Bank) (a : Word) (rs : List Reg) :
    (m.load b a rs).cpsr = m.cpsr := by
  induction rs generalizing m a with
  | nil => rfl
  | cons r rs ih => exact ih ..

@[simp] theorem load_spsr (m : Machine) (b : Bank) (a : Word) (rs : List Reg) :
    (m.load b a rs).spsr = m.spsr := by
  induction rs generalizing m a with
  | nil => rfl
  | cons r rs ih => exact ih ..

@[simp] theorem load_mem (m : Machine) (b : Bank) (a : Word) (rs : List Reg) :
    (m.load b a rs).mem = m.mem := by
  induction rs generalizing m a with
  | nil => rfl
  | cons r rs ih => exact ih ..

@[simp] theorem load_cp15 (m : Machine) (b : Bank) (a : Word) (rs : List Reg) :
    (m.load b a rs).cp15 = m.cp15 := by
  induction rs generalizing m a with
  | nil => rfl
  | cons r rs ih => exact ih ..

theorem load_view_ne {r : Reg} {rs : List Reg} (h : r ∉ rs) (m : Machine) (a : Word) (b' : Bank) :
    (m.load b a rs).view b' r = m.view b' r := by
  induction rs generalizing m a with
  | nil => rfl
  | cons r' rs ih =>
      rw [List.mem_cons, not_or] at h
      rw [Machine.load, ih h.2, Machine.setView_view_ne h.1]

/-- A register of the list holds the word with its index. -/
theorem load_view {rs : List Reg} (hNodup : rs.Nodup) {i : ℕ} (hi : i < rs.length) (m : Machine)
    (a : Word) : (m.load b a rs).view b rs[i] = m.mem (word a i) := by
  induction rs generalizing m a i with
  | nil => cases hi
  | cons r rs ih =>
      rw [List.nodup_cons] at hNodup
      cases i with
      | zero =>
          rw [List.getElem_cons_zero, Machine.load, load_view_ne hNodup.1,
            Machine.setView_view_self, word_zero]
      | succ i =>
          rw [List.length_cons] at hi
          rw [List.getElem_cons_succ, Machine.load, ← word_succ]
          exact ih hNodup.2 (by omega) _ _

end Load

/-- A load of a list with `pc` and `^`: the registers of bank `b` are loaded, and the status
register gets the saved one. -/
def ldmReturn (b : Bank) (rn : Reg) (rs : List Reg) : Instr := fun m =>
  (m.load b (m.get rn) rs).setCpsr (m.spsr (bank m.cpsr))

end Memory

section Branch

/-- A return with `movs`: the status register gets the saved one. -/
def movsPc (rm : Reg) : Instr := fun m =>
  (m.set .pc (m.get rm)).setCpsr (m.spsr (bank m.cpsr))

/-- The target of an unconditional branch at an address: the words between are its operand,
and `pc` is two instructions ahead. -/
def branchTarget (a instr : Word) : Option Word :=
  if instr >>> 24 = 0xEA#32 then some (a + 8#32 + (instr.setWidth 24).signExtend 32 <<< 2)
  else none

/-- The instruction with a given distance from two instructions ahead, in bytes. -/
def branch (distance : Word) : Word := 0xEA000000#32 ||| distance >>> 2

theorem branchTarget_branch {a distance : Word} (hReach : distance < 0x2000000#32)
    (hAligned : distance.toNat % 4 = 0) :
    branchTarget a (branch distance) = some (a + 8#32 + distance) := by
  have hQuotient : (distance >>> 2).toNat = distance.toNat / 4 := by
    rw [BitVec.toNat_ushiftRight, Nat.shiftRight_eq_div_pow]
  have hLess : distance.toNat < 0x2000000 := hReach
  have hInstr : (branch distance).toNat = 0xEA000000 + distance.toNat / 4 := by
    have hOr := Nat.two_pow_add_eq_or_of_lt (by omega : distance.toNat / 4 < 2 ^ 24) 0xEA
    rw [branch, BitVec.toNat_or, hQuotient]
    exact hOr.symm
  have hOpcode : branch distance >>> 24 = 0xEA#32 := by
    apply BitVec.eq_of_toNat_eq
    rw [BitVec.toNat_ushiftRight, Nat.shiftRight_eq_div_pow, hInstr]
    show _ = 0xEA
    omega
  have hOperand : ((branch distance).setWidth 24).toNat = distance.toNat / 4 := by
    rw [BitVec.toNat_setWidth, hInstr]
    omega
  have hPositive : ((branch distance).setWidth 24).msb = false := by
    rw [BitVec.msb_eq_false_iff_two_mul_lt, hOperand]
    omega
  have hDistance : ((branch distance).setWidth 24).signExtend 32 <<< 2 = distance := by
    apply BitVec.eq_of_toNat_eq
    rw [BitVec.signExtend_eq_setWidth_of_msb_false hPositive, BitVec.toNat_shiftLeft,
      BitVec.toNat_setWidth, hOperand, Nat.shiftLeft_eq]
    omega
  rw [branchTarget, if_pos hOpcode, hDistance]

end Branch

section Entry

/-- The interrupt masks that an exception sets: I, and in FIQ mode F. -/
def masks (mode : BitVec 5) : Word := if mode = 0x11 then 0xC0 else 0x80

/-- The status register after an exception that is taken in a mode, in ARM state. -/
def entryPsr (psr : Word) (md : BitVec 5) : Word :=
  (psr &&& 0xFFFFFFC0 ||| masks md) ||| md.setWidth 32

/-- What the processor does itself at an exception that is taken in a mode. -/
def take (md : BitVec 5) (link : Word) : Instr := fun m =>
  ((m.setSpsr (modeBank md) m.cpsr).setCpsr (entryPsr m.cpsr md)).set .lr link

theorem mode_entryPsr (psr : Word) (md : BitVec 5) : mode (entryPsr psr md) = md := by
  have hMasks : (masks md).setWidth 5 = 0#5 := by
    unfold masks
    split <;> rfl
  have hCleared : (0xFFFFFFC0 : Word).setWidth 5 = 0#5 := rfl
  simp only [mode, entryPsr, BitVec.setWidth_or, BitVec.setWidth_and, hMasks, hCleared]
  simp

end Entry

end Arm
