import Mathlib.Data.Nat.Notation
import Mathlib.Logic.Function.Basic
import Mathlib.Tactic.Simps.Basic

/-! A processor of the ARM family, as far as exceptions need it: registers with a bank for
each exception mode, the status registers, the system control coprocessor and a memory of
words. Control flow is that of the Lean definitions; `pc` is written by returns only. -/
namespace Arm

open Function (update)

abbrev Word := BitVec 32

inductive Reg where
  | r0 | r1 | r2 | r3 | r4 | r5 | r6 | r7 | r8 | r9 | r10 | r11 | r12 | sp | lr | pc
  deriving DecidableEq

inductive Bank where
  | usr | fiq | irq | svc | abt | und
  deriving DecidableEq

section Status

/-- The mode field of a status register. -/
def mode (psr : Word) : BitVec 5 := psr.setWidth 5

/-- User and system mode share a bank. The encodings of no mode are counted to it. -/
def modeBank (mode : BitVec 5) : Bank :=
  if mode = 0x11 then .fiq
  else if mode = 0x12 then .irq
  else if mode = 0x13 then .svc
  else if mode = 0x17 then .abt
  else if mode = 0x1B then .und
  else .usr

def bank (psr : Word) : Bank := modeBank (mode psr)

/-- The modes of the processor: user, FIQ, IRQ, supervisor, abort, undefined, system. -/
def ValidMode (psr : Word) : Prop := mode psr ∈ [0x10, 0x11, 0x12, 0x13, 0x17, 0x1B, 0x1F]

/-- The condition flags N, Z, C and V. -/
def flags (n z c v : Bool) : BitVec 4 :=
  BitVec.ofBool n ++ BitVec.ofBool z ++ BitVec.ofBool c ++ BitVec.ofBool v

/-- The status register after a comparison of `a` with `b`. The flags are its highest bits. -/
def compare (psr a b : Word) : Word :=
  (flags (a - b).msb (a = b) (b ≤ a) (BitVec.ssubOverflow a b) ++ psr.setWidth 28 : BitVec (4 + 28))

/-- The flag Z. -/
def zero (psr : Word) : Bool := psr.getLsbD 30

theorem flags_zero (n z c v : Bool) : (flags n z c v).getLsbD 2 = z := by
  cases n <;> cases z <;> cases c <;> cases v <;> rfl

theorem compare_getLsbD (psr a b : Word) (i : ℕ) : (compare psr a b).getLsbD i =
    if i < 28 then (psr.setWidth 28).getLsbD i
    else (flags (a - b).msb (a = b) (b ≤ a) (BitVec.ssubOverflow a b)).getLsbD (i - 28) :=
  BitVec.getLsbD_append

/-- The condition flags do not reach into the mode. -/
@[simp] theorem mode_compare (psr a b : Word) : mode (compare psr a b) = mode psr := by
  apply BitVec.eq_of_getLsbD_eq
  intro i hi
  have hLow : i < 28 := by omega
  simp [mode, compare_getLsbD, hi, hLow]

@[simp] theorem bank_compare (psr a b : Word) : bank (compare psr a b) = bank psr :=
  congrArg modeBank (mode_compare psr a b)

@[simp] theorem zero_compare (psr a b : Word) : zero (compare psr a b) = decide (a = b) := by
  rw [zero, compare_getLsbD, if_neg (by omega)]
  exact flags_zero ..

end Status

/-- Where a mode with bank `b` finds a register. -/
def slot (b : Bank) : Reg → Bank × Reg
  | .sp => (b, .sp)
  | .lr => (b, .lr)
  | .r8 => (if b = .fiq then .fiq else .usr, .r8)
  | .r9 => (if b = .fiq then .fiq else .usr, .r9)
  | .r10 => (if b = .fiq then .fiq else .usr, .r10)
  | .r11 => (if b = .fiq then .fiq else .usr, .r11)
  | .r12 => (if b = .fiq then .fiq else .usr, .r12)
  | r => (.usr, r)

/-- The registers of the coprocessor are named by CRn and opcode 2. -/
structure Machine where
  regs : Bank × Reg → Word
  cpsr : Word
  spsr : Bank → Word
  mem : Word → Word
  cp15 : ℕ × ℕ → Word

theorem slot_snd (b : Bank) (r : Reg) : (slot b r).2 = r := by
  cases r <;> rfl

/-- Two names never mean the same cell, in whatever modes they are used. -/
theorem slot_ne {r r' : Reg} (h : r ≠ r') (b b' : Bank) : slot b r ≠ slot b' r' := by
  intro hEq
  have hName := congrArg Prod.snd hEq
  rw [slot_snd, slot_snd] at hName
  exact h hName

namespace Machine

variable {m : Machine} {r r' : Reg} {v : Word} {b : Bank}

/-- The register that a mode with bank `b` sees under a name. -/
def view (m : Machine) (b : Bank) (r : Reg) : Word := m.regs (slot b r)

def get (m : Machine) (r : Reg) : Word := m.view (bank m.cpsr) r

@[simps -fullyApplied cpsr spsr mem cp15]
def setView (m : Machine) (b : Bank) (r : Reg) (v : Word) : Machine :=
  { m with regs := update m.regs (slot b r) v }

def set (m : Machine) (r : Reg) (v : Word) : Machine := m.setView (bank m.cpsr) r v

theorem set_cpsr (m : Machine) (r : Reg) (v : Word) : (m.set r v).cpsr = m.cpsr := rfl

@[simps -fullyApplied] def setCpsr (m : Machine) (v : Word) : Machine := { m with cpsr := v }

@[simps -fullyApplied] def setSpsr (m : Machine) (b : Bank) (v : Word) : Machine :=
  { m with spsr := update m.spsr b v }

@[simps -fullyApplied] def setMem (m : Machine) (mem : Word → Word) : Machine :=
  { m with mem := mem }

@[simps -fullyApplied] def setCp15 (m : Machine) (c : ℕ × ℕ) (v : Word) : Machine :=
  { m with cp15 := update m.cp15 c v }

section View

variable {m : Machine} {r r' : Reg} {v w : Word} {b b' : Bank} {f : Word → Word} {c : ℕ × ℕ}

@[simp] theorem setView_view_self : (m.setView b r v).view b r = v := Function.update_self ..

@[simp] theorem setView_view_ne (h : r' ≠ r) : (m.setView b r v).view b' r' = m.view b' r' :=
  Function.update_of_ne (slot_ne h _ _) ..

/-- A register that two modes share. -/
theorem setView_view_slot (h : slot b' r = slot b r) : (m.setView b r v).view b' r = v := by
  rw [view, h]
  exact Function.update_self ..

/-- `sp` and `lr` of another bank. -/
theorem setView_view_bank (h : b' ≠ b) (hr : r = .sp ∨ r = .lr) :
    (m.setView b r v).view b' r = m.view b' r := by
  refine Function.update_of_ne (fun hSlot => ?_) ..
  rcases hr with rfl | rfl
  · exact h (congrArg Prod.fst hSlot)
  · exact h (congrArg Prod.fst hSlot)

@[simp] theorem setView_view_r0 : (m.setView b .r0 v).view b' .r0 = v := setView_view_slot rfl

@[simp] theorem setCpsr_view : (m.setCpsr v).view b r = m.view b r := rfl

@[simp] theorem setSpsr_view : (m.setSpsr b' v).view b r = m.view b r := rfl

@[simp] theorem setMem_view : (m.setMem f).view b r = m.view b r := rfl

@[simp] theorem setCp15_view : (m.setCp15 c v).view b r = m.view b r := rfl

@[simp] theorem setView_setView : (m.setView b r v).setView b r w = m.setView b r w := by
  simp [setView]

theorem get_set (m : Machine) (r : Reg) (v : Word) : (m.set r v).get r = v := setView_view_self

theorem setView_view (m : Machine) (b : Bank) (r : Reg) : m.setView b r (m.view b r) = m := by
  simp [setView, view]

/-- Register writes are moved outwards, so that two of one register meet. -/
@[simp] theorem setView_setCpsr : (m.setView b r v).setCpsr w = (m.setCpsr w).setView b r v := rfl

@[simp] theorem setView_setMem : (m.setView b r v).setMem f = (m.setMem f).setView b r v := rfl

@[simp] theorem setView_setSpsr :
    (m.setView b r v).setSpsr b' w = (m.setSpsr b' w).setView b r v := rfl

@[simp] theorem setView_setCp15 :
    (m.setView b r v).setCp15 c w = (m.setCp15 c w).setView b r v := rfl

@[simp] theorem setCpsr_setCpsr : (m.setCpsr v).setCpsr w = m.setCpsr w := rfl

@[simp] theorem setMem_setMem {g : Word → Word} : (m.setMem f).setMem g = m.setMem g := rfl

end View

end Machine

end Arm
