import Nucleus.Kernel.Boot
import Nucleus.Kernel.Runs

/-! The hand-over of control to the first process. `main` loads the state of the process
before it has made the process ready and called the scheduler, and `LDST` does not
return; nothing else in the nucleus calls the scheduler. -/
namespace Nucleus

open Linked Semantics

variable {P D : Type}

/-- Process code computes on its registers and on memory outside the tables, or it enters
the kernel. -/
inductive ProcessCall where
  | compute (cpu : ProcState) (words : Word → Word)
  | syscall
  | interrupt

/-- The BIOS saves the registers of a caller in the old area. No file loads them from there
behind `syscallHandler`: that control goes back to the caller is an assumption.
`interruptHandler` does nothing. -/
def processExec [DecidableEq P] (fuel : ℕ) (k : Kernel P D) :
    ProcessCall → Outcome (Kernel P D × Unit)
  | .compute cpu words => return ({ k with cpu, words }, ())
  | .syscall => do
      let k ← syscallHandler fuel (k.SAVE_OLD_STATE SYSBK_OLDAREA)
      return (k.LDST SYSBK_OLDAREA, ())
  | .interrupt => return (k, ())

def processSystem (P D : Type) [DecidableEq P] (fuel : ℕ) :
    System (Kernel P D) ProcessCall Unit where
  Legal _ _ := True
  exec := processExec fuel

namespace Kernel

variable {k k' : Kernel P D}

/-- A process runs that is in use and not in the ready queue. -/
def ValidCaller (k : Kernel P D) : Prop :=
  ∃ c, k.currentProcess = some c ∧ k.Allocated c ∧ ¬ Reach k.pcb.p_next k.readyQueue c

theorem not_validCaller (h : k.currentProcess = none) : ¬ k.ValidCaller := by
  intro hValid
  obtain ⟨c, hCurrent, -⟩ := hValid
  rw [h] at hCurrent
  cases hCurrent

variable [DecidableEq P]

theorem createProcess_nobody (h : k.currentProcess = none) (proc_state : Word) :
    createProcess k proc_state = .error .nullDeref := by
  simp [createProcess, h]

theorem terminateProcess_nobody (h : k.currentProcess = none) (fuel : ℕ) :
    terminateProcess (fuel + 1) k = .error .nullDeref := by
  simp [terminateProcess, emptyChild, h]

theorem scheduler_nobody (h : k.currentProcess = none) (hQueue : k.readyQueue ≠ none)
    (control : ℤ) : scheduler k control = .error .nullDeref := by
  simp [scheduler, schedulerIdle_ready hQueue, saveState, h]

/-- A system call that returns when nobody runs has not made anybody run. -/
theorem perform_nobody (h : k.currentProcess = none) {fuel : ℕ} {sys a1 : Word}
    (hExec : perform fuel k sys a1 = .ok k') : k'.currentProcess = none := by
  unfold perform at hExec
  split at hExec
  · cases (createProcess_nobody h a1).symm.trans hExec
  · split at hExec
    · cases fuel with
      | zero => cases hExec
      | succ fuel => cases (terminateProcess_nobody h fuel).symm.trans hExec
    · split at hExec
      · cases hExec
        exact h
      · split at hExec
        · obtain ⟨-, rfl⟩ := passeren_ok hExec
          exact h
        · cases hExec
          exact h

theorem syscallHandler_nobody (h : k.currentProcess = none) {fuel : ℕ}
    (hExec : syscallHandler fuel k = .ok k') : k'.currentProcess = none :=
  perform_nobody h hExec

/-- Nobody ever runs for the kernel, whatever process code does. -/
theorem nobody_run (h : k.currentProcess = none) {fuel : ℕ} {trace : List (ProcessCall × Unit)}
    (run : (processSystem P D fuel).Run k trace k') : k'.currentProcess = none := by
  refine run.invariant (fun s => s.currentProcess = none)
    (fun s call t reply hs _ hExec => ?_) h
  cases call with
  | compute cpu words =>
      cases hExec
      exact hs
  | syscall =>
      have hSaved : (s.SAVE_OLD_STATE SYSBK_OLDAREA).currentProcess = none := hs
      obtain ⟨t', hHandler, hReturn⟩ := Outcome.bind_eq_ok.mp hExec
      cases hReturn
      show t'.currentProcess = none
      exact syscallHandler_nobody hSaved hHandler
  | interrupt =>
      cases hExec
      exact hs

variable {MAXPROC : ℕ}

/-- From every memory `main` passes control to process code without a running process,
and there is none at any later system call either; nor could the scheduler start one if
`LDST` returned. The `pc` that is loaded is an address in `STST`, which stored it there; the
runs allow more than the code that follows from it. -/
theorem control_without_process (sym : Symbols) (hSize : 0 < MAXPROC)
    (k₀ : Kernel (Fin MAXPROC) (Fin (MAXPROC + 1))) :
    ∃ k process0, mainBoot sym k₀ = .ok (k, process0) ∧ ¬ (k.LDST sym.proc).ValidCaller ∧
      (∀ fuel trace t, (processSystem _ _ fuel).Run (k.LDST sym.proc) trace t →
        ¬ t.ValidCaller ∧ (∀ proc_state, createProcess t proc_state = .error .nullDeref) ∧
        ∀ fuel, terminateProcess (fuel + 1) t = .error .nullDeref) ∧
      ∃ k', mainQueue k process0 = .ok k' ∧ scheduler k' 1 = .error .nullDeref := by
  obtain ⟨k, p, free, hBoot, hBooted⟩ := mainBoot_booted sym hSize k₀
  have hNobody : (k.LDST sym.proc).currentProcess = none := hBooted.current
  refine ⟨k, some p, hBoot, not_validCaller hNobody, fun fuel trace t run => ?_, ?_⟩
  · have hStill := nobody_run hNobody run
    exact ⟨not_validCaller hStill, createProcess_nobody hStill, terminateProcess_nobody hStill⟩
  · let k' := { k with pcb := k.pcb.setNext p (some p), readyQueue := some p }
    have hStill : k'.currentProcess = none := hBooted.current
    exact ⟨k', rfl, scheduler_nobody hStill (by simp [k']) 1⟩

theorem control_without_process_twenty : ∃ k process0,
    mainBoot ⟨0, 0, 0, 0, 0, 0x8000⟩ (.zero (Fin 20) (Fin 21)) = .ok (k, process0) ∧
      ¬ (k.LDST 0x8000).ValidCaller := by
  obtain ⟨k, process0, hBoot, hNot, -⟩ :=
    control_without_process ⟨0, 0, 0, 0, 0, 0x8000⟩ (by decide : 0 < 20) (.zero _ _)
  exact ⟨k, process0, hBoot, hNot⟩

/-- The first system call of the first process, a `CREATEPROCESS`, reads through NULL. -/
theorem first_syscall_nullDeref : ∃ k process0,
    mainBoot ⟨0, 0, 0, 0, 0, 0x8000⟩ (.zero (Fin 20) (Fin 21)) = .ok (k, process0) ∧
      (k.LDST 0x8000).currentProcess = none ∧ ¬ (k.LDST 0x8000).ValidCaller ∧
      perform 1 (k.LDST 0x8000) CREATEPROCESS 0 = .error .nullDeref := by
  obtain ⟨k, p, free, hBoot, hBooted⟩ :=
    mainBoot_booted ⟨0, 0, 0, 0, 0, 0x8000⟩ (by decide : 0 < 20) (.zero _ _)
  have hNobody : (k.LDST 0x8000).currentProcess = none := hBooted.current
  exact ⟨k, some p, hBoot, hNobody, not_validCaller hNobody, createProcess_nobody hNobody 0⟩

end Kernel

end Nucleus
