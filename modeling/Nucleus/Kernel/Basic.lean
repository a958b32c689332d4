import Mathlib.Data.Int.Notation
import Nucleus.Asl.Basic
import Nucleus.Pcb.ProcessTree

/-! The nucleus: the scheduler of `ProvaScheduler.c` and the process system calls
of `syscall.c`. The saved processor states are kept apart from the table of the
blocks, so `STST` and `LDST` change no link. `Flat` has them where they lie in memory, and
does the same as long as no process is saved over another one. -/
namespace Nucleus

open Function (update)
open Linked Semantics

variable {P D : Type}

/-- `state_t` of `uARMtypes.h`: 22 words, from the register `a1` on. -/
abbrev ProcState := Fin 22 → Word

/-- The globals of the nucleus, the saved state of each process, the registers of
the processor, the words of memory outside the tables, and how often the
processor has waited for an interrupt. -/
structure Kernel (P D : Type) extends Memory P D where
  readyQueue : Option P
  currentProcess : Option P
  processCount : ℤ
  softBlockCount : ℤ
  saved : P → ProcState
  cpu : ProcState
  words : Word → Word
  waits : ℕ

/-- An address as a pointer; NULL is 0. -/
def ptr (a : Word) : Option Word := if a = 0 then none else some a

@[simp] theorem ptr_zero : ptr 0#32 = none := rfl

theorem ptr_some {a : Word} (h : a ≠ 0) : ptr a = some a := if_neg h

def error {α : Type} (strp : String) : Outcome α := .error (.panic strp)

section Scheduler

/-- The tests when the ready queue is empty. `WAIT` returns after an interrupt,
whose handler does nothing. -/
def schedulerIdle (k : Kernel P D) : Outcome (Kernel P D) :=
  match k.readyQueue with
  | none =>
      if k.processCount = 0 then
        .error .halt
      else if k.processCount > 0 ∧ k.softBlockCount = 0 then
        error "Deadlock"
      else if k.processCount > 0 ∧ k.softBlockCount > 0 then
        return { k with waits := k.waits + 1 }
      else
        return k
  | some _ => return k

variable [DecidableEq P]

/-- `STST(&(currentProcess->p_s))` -/
def saveState (k : Kernel P D) : Outcome (Kernel P D) := do
  let p ← deref k.currentProcess
  return { k with saved := update k.saved p k.cpu }

/-- `LDST(&(currentProcess->p_s))` -/
def loadState (k : Kernel P D) : Outcome (Kernel P D) := do
  let p ← deref k.currentProcess
  return { k with cpu := k.saved p }

/-- `currentProcess=removeProcQ(&readyQueue)` -/
def dispatch (k : Kernel P D) : Outcome (Kernel P D) := do
  let (pcb, readyQueue, currentProcess) ← removeProcQ k.pcb k.readyQueue
  return { k with pcb, readyQueue, currentProcess }

def scheduler (k : Kernel P D) (control : ℤ) : Outcome (Kernel P D) := do
  let k ← schedulerIdle k
  let k ← saveState k
  let k ←
    if control = 0 then do
      let (pcb, pcbFree_h) ← freePcb k.pcb k.pcbFree_h k.currentProcess
      let k ← dispatch { k with pcb, pcbFree_h }
      pure { k with processCount := k.processCount - 1 }
    else if control = 1 then do
      let (pcb, readyQueue) ← insertProcQ k.pcb k.readyQueue k.currentProcess
      dispatch { k with pcb, readyQueue }
    else if control = 9 then dispatch k
    else pure k
  loadState k

end Scheduler

section Syscall

variable [DecidableEq P]

/-- The address of `parent_state[4*size]`, with 4-byte elements and `size` 4. -/
def resultSlot (parent_state : Word) : Word := parent_state + 64

/-- The requested state is not used. -/
def createProcess (k : Kernel P D) (_proc_state : Word) : Outcome (Kernel P D) := do
  let parent := k.currentProcess
  let q ← deref parent
  let parent_state := k.pcb.p_s q
  let (pcb, pcbFree_h, new_proc) := allocPcb k.pcb k.pcbFree_h
  match new_proc with
  | none => do
      let state ← deref (ptr parent_state)
      return { k with words := update k.words (resultSlot state) (-1) }
  | some n => do
      let pcb ← insertChild pcb parent new_proc
      let pcb := pcb.setS n (pcb.p_s q)
      let (pcb, readyQueue) ← insertProcQ pcb k.readyQueue new_proc
      let state ← deref (ptr parent_state)
      return { k with
        pcb, pcbFree_h, readyQueue
        words := update k.words (resultSlot state) 0
        processCount := k.processCount + 1 }

/-- The result is the kernel and the sibling of the terminated process. -/
def terminateSingleProcess (fuel : ℕ) (k : Kernel P D) (process : Option P) :
    Outcome (Kernel P D × Option P) := do
  let q ← deref process
  let sib := k.pcb.p_sib q
  let (pcb, _) ← outChild fuel k.pcb process
  let (pcb, readyQueue, r) ← outProcQ fuel pcb k.readyQueue process
  if r = none then
    error "processo non trovato nella readyqueue"
  let (pcb, pcbFree_h) ← freePcb pcb k.pcbFree_h process
  return ({ k with pcb, pcbFree_h, readyQueue, processCount := k.processCount - 1 }, sib)

/-- One pass of the `while` of `terminateProcess` over the siblings. -/
def terminateSiblings (fuel : ℕ) (s : Kernel P D × Option P) :
    Outcome ((Kernel P D × Option P) ⊕ Kernel P D) :=
  match s.2 with
  | some _ => do return .inl (← terminateSingleProcess fuel s.1 s.2)
  | none => return .inr s.1

/-- The parameter list is empty: the recursive call passes `process->p_child`, but
every activation starts from the global `currentProcess`. Fuel bounds the depth
of the recursion and the passes of the loops. -/
def terminateProcess : ℕ → Kernel P D → Outcome (Kernel P D)
  | 0, _ => .error .outOfFuel
  | fuel + 1, k => do
      let process := k.currentProcess
      let k ←
        if (← emptyChild k.pcb process) = false then terminateProcess fuel k else pure k
      if process ≠ k.currentProcess then
        loop (terminateSiblings fuel) fuel (k, process)
      else
        let (k, _) ← terminateSingleProcess fuel k process
        return k

end Syscall

end Nucleus
