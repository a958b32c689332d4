import Nucleus.Asl.Init
import Nucleus.Kernel.Syscall
import Nucleus.Semantics.Block

/-! `main` of `nucleusinizializaiont.c`: the vectors of the exceptions, the tables, and
the first process, to which control is passed with `LDST`. -/
namespace Nucleus

open Function (update)
open Linked Semantics

variable {P D : Type}

section Constants

/-- The constants of `uARMconst.h` and `arch.h`. -/
def INT_NEWAREA : Word := EXCV_BASE + STATE_T_SIZE

def TLB_NEWAREA : Word := EXCV_BASE + 3 * STATE_T_SIZE

def PGMTRAP_NEWAREA : Word := EXCV_BASE + 5 * STATE_T_SIZE

def SYSBK_NEWAREA : Word := EXCV_BASE + 7 * STATE_T_SIZE

def STATUS_CLEAR_MODE : Word := 0xFFFFFFF0

def STATUS_SYS_MODE : Word := 0x1F

def FRAMESIZE : Word := 1024

def BUS_REG_RAM_BASE : Word := 0x2D0

def BUS_REG_RAM_SIZE : Word := 0x2D4

end Constants

/-- The addresses that the linker and the compiler choose: the handlers, the function of
the first process, and the local variable `proc` of `main`. -/
structure Symbols where
  interruptHandler : Word
  TLBHandler : Word
  PGMTHandler : Word
  syscallHandler : Word
  test : Word
  proc : Word

namespace Kernel

def store (k : Kernel P D) (a v : Word) : Kernel P D := { k with words := update k.words a v }

def RAM_TOP (k : Kernel P D) : Word := k.words BUS_REG_RAM_BASE + k.words BUS_REG_RAM_SIZE

/-- `SAVE_OLD_STATE` of the BIOS at an exception: the whole state, in its order. -/
def SAVE_OLD_STATE (k : Kernel P D) (addr : Word) : Kernel P D :=
  { k with words :=
      storeAll (element addr) (fun i => if h : i < 22 then k.cpu ⟨i, h⟩ else 0) 22 k.words }

/-- `STST(addr)` of `libuarm.S`: the registers, then the clock over `CP15_Control` and
`CP15_EntryHi`, and the cause. The last two words are not written. -/
def STST (k : Kernel P D) (addr : Word) : Kernel P D :=
  let value : ℕ → Word := fun i =>
    if i = 17 then k.cpu 20
    else if i = 18 then k.cpu 21
    else if h : i < 22 then k.cpu ⟨i, h⟩ else 0
  { k with words := storeAll (element addr) value 20 k.words }

/-- `LDST(addr)`, which passes control to the state at `addr`. A 0 is not loaded into
`CP15_EntryHi`, and the cause and the clock are not loaded. -/
def LDST (k : Kernel P D) (addr : Word) : Kernel P D :=
  { k with cpu := fun i =>
      if (i : ℕ) < 18 ∨ (i : ℕ) = 18 ∧ k.words (element addr 18) ≠ 0 then k.words (element addr i)
      else k.cpu i }

/-- The two stores of `main` for one exception. -/
def setVector (k : Kernel P D) (tmp handler : Word) : Kernel P D :=
  let k := k.store (element tmp (15 * size)) handler
  k.store (element tmp (13 * size)) k.RAM_TOP

def vectorSetup (sym : Symbols) (k : Kernel P D) : Kernel P D :=
  let k := k.setVector INT_NEWAREA sym.interruptHandler
  let k := k.setVector TLB_NEWAREA sym.TLBHandler
  let k := k.setVector PGMTRAP_NEWAREA sym.PGMTHandler
  k.setVector SYSBK_NEWAREA sym.syscallHandler

/-- The status register is word 16 of the state. `STATUS_ALL_INT_DISABLE(status)` is an
expression whose value is not used. -/
def statusSetup (k : Kernel P D) : Kernel P D :=
  { k with cpu := update k.cpu 16 (k.cpu 16 &&& STATUS_CLEAR_MODE ||| STATUS_SYS_MODE) }

/-- The variables of the nucleus before there is a process. -/
def initVariables (k : Kernel P D) : Kernel P D :=
  { k with processCount := 0, softBlockCount := 0, readyQueue := none, currentProcess := none }

/-- The state `proc` of the first process: `STST(&proc)` and the stores of `sp` and `pc`. -/
def setProc (sym : Symbols) (k : Kernel P D) : Kernel P D :=
  let k := k.STST sym.proc
  let k := k.store (element sym.proc (13 * size)) (k.RAM_TOP - FRAMESIZE)
  k.store (element sym.proc (15 * size)) sym.test

end Kernel

variable {MAXPROC : ℕ}

/-- `main` up to `LDST(&proc)`. The result is the kernel and `process0`. -/
def mainBoot (sym : Symbols) (k : Kernel (Fin MAXPROC) (Fin (MAXPROC + 1))) :
    Outcome (Kernel (Fin MAXPROC) (Fin (MAXPROC + 1)) × Option (Fin MAXPROC)) := do
  let k := (k.vectorSetup sym).statusSetup
  let tables ← initTables MAXPROC k.toMemory
  let k := ({ k with toMemory := tables } : Kernel _ _).initVariables
  let (pcb, pcbFree_h, process0) := allocPcb k.pcb k.pcbFree_h
  let p ← deref process0
  let pcb := pcb.setS p (pcb.p_s p &&& STATUS_CLEAR_MODE ||| STATUS_SYS_MODE)
  return (({ k with pcb, pcbFree_h } : Kernel _ _).setProc sym, process0)

/-- `main` behind `LDST(&proc)`, up to the call of the scheduler. -/
def mainQueue (k : Kernel (Fin MAXPROC) (Fin (MAXPROC + 1))) (process0 : Option (Fin MAXPROC)) :
    Outcome (Kernel (Fin MAXPROC) (Fin (MAXPROC + 1))) := do
  let (pcb, readyQueue) ← insertProcQ k.pcb mkEmptyProcQ process0
  return { k with pcb, readyQueue }

namespace Kernel

/-- What `main` leaves when it passes control: the first block belongs to the first
process and has a state, the others are free, and nobody runs. -/
structure Booted (k : Kernel (Fin MAXPROC) (Fin (MAXPROC + 1))) (p : Fin MAXPROC)
    (free : List (Fin MAXPROC)) : Prop where
  current : k.currentProcess = none
  ready : k.readyQueue = none
  spare : Chain k.pcb.p_next k.pcbFree_h free
  all : List.finRange MAXPROC = p :: free
  count : k.processCount = 0
  saved : k.pcb.p_s p ≠ 0

/-- Whatever the memory holds, `main` comes to the `LDST`. -/
theorem mainBoot_booted (sym : Symbols) (hSize : 0 < MAXPROC)
    (k₀ : Kernel (Fin MAXPROC) (Fin (MAXPROC + 1))) :
    ∃ k p free, mainBoot sym k₀ = .ok (k, some p) ∧ k.Booted p free := by
  obtain ⟨tables, hTables, hChain, -⟩ :=
    initTables_rep hSize (k₀.vectorSetup sym).statusSetup.toMemory
  obtain ⟨k, hk⟩ : ∃ k, k = ({ (k₀.vectorSetup sym).statusSetup with toMemory := tables } :
      Kernel (Fin MAXPROC) (Fin (MAXPROC + 1))).initVariables := ⟨_, rfl⟩
  have hMemory : k.toMemory = tables := by rw [hk]; rfl
  have hVars : k.currentProcess = none ∧ k.readyQueue = none ∧ k.processCount = 0 := by
    rw [hk]
    exact ⟨rfl, rfl, rfl⟩
  cases hAll : List.finRange MAXPROC with
  | nil => simp at hAll; omega
  | cons p free =>
      rw [hAll, ← hMemory] at hChain
      have hHead : k.pcbFree_h = some p := hChain.1
      refine ⟨({ k with
        pcb := (k.pcb.clear p).setS p
          ((k.pcb.clear p).p_s p &&& STATUS_CLEAR_MODE ||| STATUS_SYS_MODE)
        pcbFree_h := k.pcb.p_next p } : Kernel _ _).setProc sym, p, free, ?_,
        hVars.1, hVars.2.1, allocPcb_chain (hHead ▸ hChain), hAll, hVars.2.2, ?_⟩
      · simp only [mainBoot, hTables, Outcome.ok_bind, ← hk, hHead, allocPcb_some, deref_some,
          Outcome.pure_eq]
      · have hClear : (k.pcb.clear p).p_s p = 0 := Function.update_self ..
        show update (k.pcb.clear p).p_s p _ p ≠ 0
        rw [Function.update_self, hClear]
        decide

end Kernel

end Nucleus
