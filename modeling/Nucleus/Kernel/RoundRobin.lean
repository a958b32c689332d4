import Mathlib.Data.List.Rotate
import Nucleus.Kernel.Runs

/-! Time slices. The scheduler puts the preempted process behind the ready queue and
runs the first process of it, so the running process and the ready queue turn as one
ring. -/
namespace Nucleus

open Function (update)
open Linked Semantics

variable {P D : Type} [DecidableEq P]

/-- The scheduler at the end of each of `n` successive time slices. -/
def slices : ℕ → Kernel P D → Outcome (Kernel P D)
  | 0, k => return k
  | n + 1, k => do
      let k ← slices n k
      scheduler k 1

namespace Kernel

variable {k : Kernel P D} {c x : P} {ready rest : List P}

/-- The state in which each process goes on. That of the running one is in the processor. -/
def states (k : Kernel P D) (c : P) : P → ProcState := update k.saved c k.cpu

@[simp] theorem states_self (k : Kernel P D) (c : P) : k.states c c = k.cpu :=
  Function.update_self ..

namespace Round

/-- With a process ready the end of a time slice is one turn of the ring. The processor has
the state of the new running process, and no state has changed. -/
theorem turn (h : k.Round c (x :: rest)) :
    ∃ k', scheduler k 1 = .ok k' ∧ k'.waits = k.waits ∧ k'.Round x (rest ++ [c]) ∧
      k'.cpu = k.states c x ∧ k'.states x = k.states c := by
  obtain ⟨next, tail, hSlice, hRing, -⟩ := h.slice rfl (schedulerIdle_cons h.ring)
  have hx : x ∉ rest := (List.nodup_cons.mp h.ring.nodup).1
  have hxc : x ≠ c := fun hEq => h.apart (hEq ▸ List.mem_cons_self ..)
  exact ⟨_, hSlice, rfl, ⟨rfl, hRing, by simp [hx, hxc]⟩, rfl, Function.update_eq_self ..⟩

end Round

/-- After `i` time slices the running process and the ready queue have made `i`
turns, so no process is lost or doubled on the way, and every process has its state. -/
theorem Round.turns (h : k.Round c ready) (hReady : ready ≠ []) (i : ℕ) :
    ∃ k' x rest, slices i k = .ok k' ∧ k'.Round x rest ∧ x :: rest = (c :: ready).rotate i ∧
      k'.cpu = k.states c x ∧ k'.states x = k.states c := by
  induction i with
  | zero =>
      exact ⟨k, c, ready, rfl, h, (List.rotate_zero _).symm, (k.states_self c).symm, rfl⟩
  | succ i ih =>
      obtain ⟨k', x, rest, hSlices, hRound, hTurn, -, hStates⟩ := ih
      cases rest with
      | nil =>
          have hLength := congrArg List.length hTurn
          simp [hReady] at hLength
      | cons y rest =>
          obtain ⟨k'', hExec, -, hRound', hCpu, hStates'⟩ := hRound.turn
          rw [hStates] at hCpu hStates'
          refine ⟨k'', y, rest ++ [x], ?_, hRound', ?_, hCpu, hStates'⟩
          · simp [slices, hSlices, hExec]
          · rw [← List.rotate_rotate, ← hTurn, List.rotate_cons_succ, List.rotate_zero]
            rfl

/-- Round robin: every process gets one of `n + 1` time slices, in the order of the
ready queue and then the first again, and the queue is then as it was. In each of them the
processor has the state of the process: the saved one, or for the first that of the start. -/
theorem round_robin (h : k.Round c ready) (hReady : ready ≠ []) :
    (∀ i, ∃ k' x rest, slices i k = .ok k' ∧ k'.Round x rest ∧ (x :: rest).Perm (c :: ready) ∧
      k'.cpu = k.states c x) ∧
      (∀ i (hi : i < (ready ++ [c]).length), ∃ k', slices (i + 1) k = .ok k' ∧
        k'.currentProcess = some (ready ++ [c])[i] ∧ k'.cpu = k.states c (ready ++ [c])[i]) ∧
      ∃ k', slices (ready.length + 1) k = .ok k' ∧ k'.Round c ready ∧ k'.cpu = k.cpu := by
  refine ⟨fun i => ?_, fun i hi => ?_, ?_⟩
  · obtain ⟨k', x, rest, hSlices, hRound, hTurn, hCpu, -⟩ := h.turns hReady i
    exact ⟨k', x, rest, hSlices, hRound, hTurn ▸ List.rotate_perm .., hCpu⟩
  · obtain ⟨k', x, rest, hSlices, hRound, hTurn, hCpu, -⟩ := h.turns hReady (i + 1)
    have hHead := congrArg List.head? hTurn
    rw [List.rotate_cons_succ, List.head?_rotate hi, List.getElem?_eq_getElem hi] at hHead
    obtain rfl : x = (ready ++ [c])[i] := Option.some.inj hHead
    exact ⟨k', hSlices, hRound.current, hCpu⟩
  · obtain ⟨k', x, rest, hSlices, hRound, hTurn, hCpu, -⟩ := h.turns hReady (ready.length + 1)
    have hLength : ready.length + 1 = (c :: ready).length := rfl
    rw [hLength, List.rotate_length] at hTurn
    cases hTurn
    exact ⟨k', hSlices, hRound, hCpu.trans (k.states_self c)⟩

theorem round_robin_one : ∃ k', slices 2 (oneReady 0 1 : Kernel (Fin 2) Unit) = .ok k' ∧
    k'.Round 0 [1] ∧ k'.cpu = (oneReady 0 1 : Kernel (Fin 2) Unit).cpu :=
  (round_robin oneReady_view.round (by decide)).2.2

end Kernel

end Nucleus
