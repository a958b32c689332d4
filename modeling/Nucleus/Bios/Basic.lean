import Mathlib.Data.BitVec
import Nucleus.Arm.Instructions
import Nucleus.Kernel.Boot

/-! The exception handlers of `BIOS.s`. They save the state of the interrupted program in
the old area of the exception and load the state of its new area. -/
namespace Nucleus.Bios

open Arm Arm.Reg Semantics

section Constants

def ROMSTACK_TOP : Word := 0x8000

def ROMSTACK_OFF : Word := -0x10

def EXCV_INT_OLD : Word := 0

def EXCV_INT_NEW : Word := STATE_T_SIZE

def EXCV_TLB_OLD : Word := 2 * STATE_T_SIZE

def EXCV_TLB_NEW : Word := 3 * STATE_T_SIZE

def EXCV_PGMT_OLD : Word := 4 * STATE_T_SIZE

def EXCV_PGMT_NEW : Word := 5 * STATE_T_SIZE

def EXCV_SWI_OLD : Word := 6 * STATE_T_SIZE

def EXCV_SWI_NEW : Word := 7 * STATE_T_SIZE

/-- The offset of `cpsr` in a state, behind the registers up to `r15`. -/
def PSR_OFFSET : Word := 64

/-- The address that `arch.h` gives as `BUS_REG_TOD_HI`. -/
def TOD_HI_INFO : Word := 0x2DC

/-- The address that `arch.h` gives as `BUS_REG_TOD_LO`. -/
def TOD_LO_INFO : Word := 0x2E0

end Constants

/-- The exceptions by the areas in which states are saved and found. -/
inductive Kind where
  | INT | TLB | PGMT | SWI
  deriving DecidableEq

def oldArea : Kind → Word
  | .INT => EXCV_BASE + EXCV_INT_OLD
  | .TLB => EXCV_BASE + EXCV_TLB_OLD
  | .PGMT => EXCV_BASE + EXCV_PGMT_OLD
  | .SWI => EXCV_BASE + EXCV_SWI_OLD

def newArea : Kind → Word
  | .INT => EXCV_BASE + EXCV_INT_NEW
  | .TLB => EXCV_BASE + EXCV_TLB_NEW
  | .PGMT => EXCV_BASE + EXCV_PGMT_NEW
  | .SWI => EXCV_BASE + EXCV_SWI_NEW

/-- What the source leaves open: the service numbers of `bios_const.h`, the address behind
the call of `SAVE_OLD_STATE` in each handler, and the bank that the processor fills when it
loads a state with `^`, given the bank of the current mode and that of the loaded one. -/
structure Platform where
  BIOS_SRV_SYS : Word
  BIOS_SRV_BP : Word
  BIOS_SRV_HALT : Word
  BIOS_SRV_PANIC : Word
  BIOS_SRV_LDST : Word
  saved : Kind → Word
  returnBank : Bank → Bank → Bank

/-- The numbers and addresses in `BIOS.rom.uarm`, when it is loaded at `base`. -/
def rom (base : Word) (returnBank : Bank → Bank → Bank) : Platform where
  BIOS_SRV_SYS := 8
  BIOS_SRV_BP := 9
  BIOS_SRV_HALT := 1
  BIOS_SRV_PANIC := 2
  BIOS_SRV_LDST := 3
  saved
    | .SWI => base + 0x1C0
    | .PGMT => base + 0x21C
    | .TLB => base + 0x270
    | .INT => base + 0x2A0
  returnBank := returnBank

section Save

/-- The registers without a bank of their own, save in FIQ mode. -/
def general : List Reg := [r1, r2, r3, r4, r5, r6, r7, r8, r9, r10, r11, r12]

/-- All registers but `r0` and `pc`. -/
def middle : List Reg := general ++ [sp, lr]

/-- The mode that the exception has left, with interrupts disabled. -/
def reachMode : List Instr := [
  mrsSpsr sp,
  andImm sp sp 0xF,
  cmpImm sp 0,
  mrsSpsr sp,
  ifEq (addImm sp sp 0xF),
  orrImm sp sp 0xC0,
  msrCpsr sp]

def saveRegisters : List Instr := [
  addImm r0 r0 4,
  stm r0 middle,
  subImm r0 r0 4]

/-- The words that the handler has put on the stack: `r0`, the return address and the
status register of the handler's mode. -/
def saveStacked : List Instr := [
  movImm sp ROMSTACK_TOP,
  addImm sp sp ROMSTACK_OFF,
  ldrPost r1 sp 4,
  str r1 r0 0,
  ldrPost r2 sp 4,
  addImm r0 r0 PSR_OFFSET,
  subImm r0 r0 4,
  strPost r2 r0 4,
  ldr r3 sp 0,
  msrCpsr r3]

def saveSystem : List Instr := [
  mrsSpsr r3,
  strPost r3 r0 4,
  mrc r6 1 0,
  mrc r7 2 0,
  mrc r9 2 1,
  mrc r8 15 0,
  mrc r10 15 1,
  orr r7 r7 r9,
  orr r8 r8 r10,
  stmBack r0 [r6, r7, r8],
  movImm r6 TOD_HI_INFO,
  ldr r7 r6 0,
  movImm r6 TOD_LO_INFO,
  ldr r8 r6 0,
  stmBack r0 [r7, r8]]

/-- `r0` holds the address of the old area. -/
def SAVE_OLD_STATE : List Instr := reachMode ++ saveRegisters ++ saveStacked ++ saveSystem

end Save

section Load

variable (B : Platform)

def LDST_u : List Instr := [
  fun m => ldmReturn (B.returnBank (bank m.cpsr) (bank (m.spsr (bank m.cpsr)))) r0
    (r0 :: middle ++ [pc]) m]

/-- The status register and the coprocessor. -/
def loadSystem : List Instr := [
  mov r12 r0,
  addImm r12 r12 PSR_OFFSET,
  ldrPost r6 r12 4,
  ldrPost r7 r12 4,
  mcr r7 1 0,
  ldrPost r7 r12 4,
  cmpImm r7 0,
  ifNe (mcr r7 2 0),
  ifNe (mcr r7 2 1),
  msrSpsr r6,
  andImm r1 r6 0xF,
  cmpImm r1 0]

/-- The status register of the handler, `r0` and `pc` of the state. -/
def loadStacked : List Instr := [
  ldr r4 r0 0,
  addImm r2 r0 PSR_OFFSET,
  subImm r2 r2 4,
  ldr r5 r2 0,
  movImm r1 ROMSTACK_TOP,
  addImm r1 r1 ROMSTACK_OFF,
  mrsCpsr r3,
  stm r1 [r3, r4, r5]]

/-- The registers of another exception mode are loaded in that mode. -/
def loadRegisters : List Instr := [
  andImm r2 r6 0xF,
  cmpImm r2 0,
  ifEq (addImm r6 r6 0xF),
  orrImm r6 r6 0xC0,
  msrCpsr r6,
  addImm r1 r0 4,
  ldm r1 middle]

/-- Back in the handler's mode, `r0` and `pc` follow, and the loaded status register. -/
def loadReturn : List Instr := [
  movImm r0 ROMSTACK_TOP,
  addImm r0 r0 ROMSTACK_OFF,
  ldr r0 r0 0,
  msrCpsr r0,
  movImm r0 ROMSTACK_TOP,
  addImm r0 r0 ROMSTACK_OFF,
  addImm r0 r0 4,
  fun m => ldmReturn (bank m.cpsr) r0 [r0, pc] m]

/-- `r0` holds the address of the state. -/
def LDST (m : Machine) : Machine :=
  let m := exec loadSystem m
  if zero m.cpsr then exec (LDST_u B) m
  else
    let m := exec [cmpImm r1 0xF] m
    if zero m.cpsr then exec (LDST_u B) m
    else exec (loadStacked ++ loadRegisters ++ loadReturn) m

end Load

section Handlers

variable (B : Platform)

/-- The first instructions of all handlers. -/
def pushFrame : List Instr := [
  movImm sp ROMSTACK_TOP,
  addImm sp sp ROMSTACK_OFF,
  strPost r0 sp 4,
  strPost lr sp 4,
  mrsCpsr r0,
  str r0 sp 0]

/-- The way from an exception to the saved state. -/
def save (kind : Kind) : List Instr := [
  movImm r0 (oldArea kind),
  bl (B.saved kind)] ++ SAVE_OLD_STATE

/-- The way from an exception to the state of its new area. -/
def saveAndLoad (kind : Kind) (m : Machine) : Machine :=
  LDST B (exec (save B kind ++ [movImm r0 (newArea kind)]) m)

def UNDEF_H (m : Machine) : Machine := saveAndLoad B .PGMT (exec pushFrame m)

def TLB_H (m : Machine) : Machine := saveAndLoad B .TLB (exec pushFrame m)

/-- `FIQ_H` is a second label of it. -/
def IRQ_H (m : Machine) : Machine := saveAndLoad B .INT (exec pushFrame m)

/-- `DATAABT_H` is a second label of it. -/
def PREFABT_H (m : Machine) : Machine :=
  let m := exec [mrc sp 15 0, andImm sp sp 0xFFFFFF, bicImm sp sp 7, cmpImm sp 0] m
  if zero m.cpsr then
    let m := exec [mrc sp 15 0, andImm sp sp 4, cmpImm sp 0] m
    if zero m.cpsr then UNDEF_H B m else TLB_H B m
  else UNDEF_H B m

/-- A breakpoint has the code 12 in the cause. -/
def BREAK_Cont : List Instr := [
  mrc r0 15 0,
  bicImm r0 r0 0xFFFFFF,
  orrImm r0 r0 12,
  mcr r0 15 0]

def serviceNumber : List Instr := [
  ldr r0 lr (-4),
  andImm r0 r0 0xFFFFFF]

/-- `r0` of the caller comes back from the stack. -/
def BIOS_SRV_EXEC (m : Machine) : Outcome Machine :=
  let m := exec [mov r6 r0, movImm sp ROMSTACK_TOP, addImm sp sp ROMSTACK_OFF, ldr r0 sp 0] m
  let m := exec [cmpImm r6 B.BIOS_SRV_HALT] m
  if zero m.cpsr then .error .halt
  else
    let m := exec [cmpImm r6 B.BIOS_SRV_PANIC] m
    if zero m.cpsr then .error (.panic "KERNEL PANIC!")
    else
      let m := exec [cmpImm r6 B.BIOS_SRV_LDST] m
      if zero m.cpsr then return LDST B m
      else .error (.panic "UNKNOWN SERVICE.\nKERNEL PANIC!")

def SWI_H (m : Machine) : Outcome Machine :=
  let m := exec (pushFrame ++ serviceNumber) m
  let m := exec [cmpImm r0 B.BIOS_SRV_SYS] m
  if zero m.cpsr then return saveAndLoad B .SWI m
  else
    let m := exec [cmpImm r0 B.BIOS_SRV_BP] m
    if zero m.cpsr then return saveAndLoad B .SWI (exec BREAK_Cont m)
    else BIOS_SRV_EXEC B m

end Handlers

section Exceptions

/-- The exceptions of the processor, by their vectors. -/
inductive Vector where
  | UNDEF | SWI | PREFABT | DATAABT | IRQ | FIQ
  deriving DecidableEq

/-- The mode in which the processor takes an exception. -/
def Vector.mode : Vector → BitVec 5
  | .UNDEF => 0x1B
  | .SWI => 0x13
  | .PREFABT => 0x17
  | .DATAABT => 0x17
  | .IRQ => 0x12
  | .FIQ => 0x11

/-- An exception of a program that goes on at `link`: the processor takes it, and the
handler at its vector runs. -/
def raise (B : Platform) (v : Vector) (link : Word) (m : Machine) : Outcome Machine :=
  let m := take v.mode link m
  match v with
  | .UNDEF => return UNDEF_H B m
  | .SWI => SWI_H B m
  | .PREFABT => return PREFABT_H B m
  | .DATAABT => return PREFABT_H B m
  | .IRQ => return IRQ_H B m
  | .FIQ => return IRQ_H B m

end Exceptions

end Nucleus.Bios
