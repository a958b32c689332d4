import Nucleus.Asl.Init
import Nucleus.Kernel.Scheduler
import Nucleus.Semantics.System

/-! Runs of the nucleus: the running process creates processes, and the scheduler
is entered when a process has finished or when its time slice is over. -/
namespace Nucleus

open Function (update)
open Linked Semantics

variable {P D : Type}

inductive KernelCall where
  | createProcess (proc_state : Word)
  | scheduler (control : ℤ)

/-- The globals as C starts them, and registers and words that hold zero. -/
def Kernel.zero (P D : Type) : Kernel P D where
  toMemory := .zero P D
  readyQueue := none
  currentProcess := none
  processCount := 0
  softBlockCount := 0
  saved _ _ := 0
  cpu _ := 0
  words _ := 0
  waits := 0

variable [DecidableEq P]

def kernelExec (k : Kernel P D) : KernelCall → Outcome (Kernel P D × Unit)
  | .createProcess proc_state => do
      let k ← createProcess k proc_state
      return (k, ())
  | .scheduler control => do
      let k ← scheduler k control
      return (k, ())

/-- The scheduler is entered with `control` 0 or 1. -/
def kernelSystem (P D : Type) [DecidableEq P] : System (Kernel P D) KernelCall Unit where
  Legal _
    | .createProcess _ => True
    | .scheduler control => control = 0 ∨ control = 1
  exec := kernelExec

namespace Kernel

variable {k k' : Kernel P D} {c : P} {free ready : List P}

theorem exec_createProcess {proc_state : Word} {reply : Unit} :
    kernelExec k (.createProcess proc_state) = .ok (k', reply) ↔
      createProcess k proc_state = .ok k' := by
  simp [kernelExec, Outcome.bind_eq_ok]

theorem exec_scheduler {control : ℤ} {reply : Unit} :
    kernelExec k (.scheduler control) = .ok (k', reply) ↔ scheduler k control = .ok k' := by
  simp [kernelExec, Outcome.bind_eq_ok]

namespace View

/-- Every call keeps the running process out of all lists. -/
theorem step (h : k.View c free ready) {call : KernelCall} (legal : (kernelSystem P D).Legal k call)
    (hExec : kernelExec k call = .ok (k', ())) : ∃ c' free' ready', k'.View c' free' ready' := by
  cases call with
  | createProcess proc_state =>
      rcases h.create_ok (exec_createProcess.mp hExec) with ⟨-, -, hView⟩ | hCreated
      · exact ⟨c, free, ready, hView⟩
      · obtain ⟨n, spare, pcb, next, -, -, -, -, hView⟩ := hCreated
        exact ⟨c, spare, ready ++ [n], hView⟩
  | scheduler control =>
      rw [exec_scheduler] at hExec
      rcases legal with rfl | rfl
      · obtain ⟨x, rest, next, -, -, -, hView⟩ := h.finish_ok hExec
        exact ⟨x, c :: free, rest, hView⟩
      · obtain ⟨x, rest, next, -, -, -, hView⟩ := h.slice_ok hExec
        exact ⟨x, free, rest, hView⟩

/-- After every run the running process is in no list. -/
theorem run (h : k.View c free ready) {trace : List (KernelCall × Unit)}
    (run : (kernelSystem P D).Run k trace k') : ∃ c' free' ready', k'.View c' free' ready' := by
  refine run.invariant (fun s => ∃ c free ready, s.View c free ready)
    (fun s call t reply hs legal hExec => ?_) ⟨c, free, ready, h⟩
  obtain ⟨c, free, ready, hs⟩ := hs
  exact hs.step legal hExec

end View

/-- One process is running and one is ready. -/
def oneReady (running ready : P) : Kernel P D :=
  { Kernel.zero P D with
    pcb := { (Kernel.zero P D).pcb with p_next := some }
    readyQueue := some ready
    currentProcess := some running
    processCount := 2 }

theorem oneReady_view : (oneReady 0 1 : Kernel (Fin 2) Unit).View 0 [] [1] where
  current := rfl
  spare := rfl
  ring := Ring.singleton rfl
  nodup := by decide

end Kernel

end Nucleus
