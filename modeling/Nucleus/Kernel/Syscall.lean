import Nucleus.Arm.Memory
import Nucleus.Kernel.Basic

/-! The rest of `syscall.c`: the semaphore system calls and the handler that reads the
registers of the caller from the old area of the exception. -/
namespace Nucleus

open Function (update)
open Linked Semantics

variable {P D : Type}

section Constants

/-- The constants of `uARMconst.h`. -/
def EXCV_BASE : Word := 0x7000

def STATE_T_SIZE : Word := 88

def SYSBK_OLDAREA : Word := EXCV_BASE + 6 * STATE_T_SIZE

def CREATEPROCESS : Word := 1

def TERMINATEPROCESS : Word := 2

def VERHOGEN : Word := 3

def PASSEREN : Word := 4

end Constants

/-- The `size` of `syscall.c` and `main`: `sizeof(unsigned int)`. -/
def size : ℕ := 4

/-- The address of `tmp[i]`. The `state_t` of `types.h` is a pointer, so an element of
`tmp` is one word. -/
abbrev element (tmp : Word) (i : ℕ) : Word := Arm.word tmp i

/-- `(*semaphore)++` -/
def verhogen (k : Kernel P D) (semaphore : Word) : Kernel P D :=
  { k with words := update k.words semaphore (k.words semaphore + 1) }

/-- One pass of the empty `while` of `passeren`. The value is a pointer, and pointers
are compared without a sign. -/
def passerenWait (k : Kernel P D) (semaphore : Word) (_ : Unit) : Outcome (Unit ⊕ Unit) :=
  return if k.words semaphore ≤ 0 then .inl () else .inr ()

def passeren (fuel : ℕ) (k : Kernel P D) (semaphore : Word) : Outcome (Kernel P D) := do
  loop (passerenWait k semaphore) fuel ()
  return { k with words := update k.words semaphore (k.words semaphore - 1) }

/-- The `switch` of `syscallHandler`. -/
def perform [DecidableEq P] (fuel : ℕ) (k : Kernel P D) (sys a1 : Word) : Outcome (Kernel P D) :=
  if sys = CREATEPROCESS then createProcess k a1
  else if sys = TERMINATEPROCESS then terminateProcess fuel k
  else if sys = VERHOGEN then return verhogen k a1
  else if sys = PASSEREN then passeren fuel k a1
  else return k

/-- The argument `sistype` is not used. -/
def syscallHandler [DecidableEq P] (fuel : ℕ) (k : Kernel P D) : Outcome (Kernel P D) :=
  let tmp := SYSBK_OLDAREA
  let sys := k.words (element tmp 0)
  let a1 := k.words (element tmp (1 * size))
  perform fuel k sys a1

section Passeren

variable {k : Kernel P D} {semaphore : Word}

/-- Nothing in the wait changes the value it waits for. -/
theorem passeren_zero (h : k.words semaphore = 0) (fuel : ℕ) :
    passeren fuel k semaphore = .error .outOfFuel := by
  have hAgain : passerenWait k semaphore () = .ok (.inl ()) := by simp [passerenWait, h]
  simp [passeren, loop_again hAgain fuel]

theorem passeren_pos (h : k.words semaphore ≠ 0) (fuel : ℕ) :
    passeren (fuel + 1) k semaphore =
      .ok { k with words := update k.words semaphore (k.words semaphore - 1) } := by
  have hLeave : passerenWait k semaphore () = .ok (.inr ()) := by simpa [passerenWait] using h
  simp [passeren, loop_exit hLeave]

/-- If `passeren` returns, it has taken one from a value that was there. -/
theorem passeren_ok {fuel : ℕ} {k' : Kernel P D} (h : passeren fuel k semaphore = .ok k') :
    k.words semaphore ≠ 0 ∧
      k' = { k with words := update k.words semaphore (k.words semaphore - 1) } := by
  by_cases hZero : k.words semaphore = 0
  · cases (passeren_zero hZero fuel).symm.trans h
  · cases fuel with
    | zero => cases h
    | succ fuel => exact ⟨hZero, Except.ok.inj (h.symm.trans (passeren_pos hZero fuel))⟩

end Passeren

end Nucleus
