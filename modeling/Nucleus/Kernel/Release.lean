import Nucleus.Kernel.Termination
import Nucleus.Pcb.Removal

/-! The end of the running process. `terminateProcess` frees its block and counts it
out, but leaves it the running process, and the scheduler then frees it once more or
puts it back into the ready queue. -/
namespace Nucleus

open Function (update)
open Linked Semantics

variable {P D : Type}

/-- The blocks that `n` successive calls of `allocPcb` return. -/
def allocs [DecidableEq P] : ℕ → PcbTable P → Option P → List P
  | 0, _, _ => []
  | n + 1, pcb, pcbFree_h =>
      match allocPcb pcb pcbFree_h with
      | (pcb, pcbFree_h, some p) => p :: allocs n pcb pcbFree_h
      | (_, _, none) => []

namespace Kernel

variable {k k' : Kernel P D} {c x : P} {free ready rest : List P} {fuel : ℕ}

/-- The running process `c` is itself in the ready queue. -/
structure SelfReady (k : Kernel P D) (c : P) (free ready : List P) : Prop where
  current : k.currentProcess = some c
  spare : Chain k.pcb.p_next k.pcbFree_h free
  ring : Ring k.pcb.p_next k.readyQueue ready
  apart : (ready ++ free).Nodup
  queued : c ∈ ready

/-- Between `k`, before its end, and `k'` the block `c` has been given back once: it is
on a well-formed free list, nowhere else, and no block can be allocated twice. -/
structure ReleasedOnce [DecidableEq P] (k k' : Kernel P D) (c : P) : Prop where
  lists : ∃ free ready, Chain k'.pcb.p_next k'.pcbFree_h free ∧
    Ring k'.pcb.p_next k'.readyQueue ready ∧ free.Disjoint ready ∧ c ∈ free
  gone : k'.currentProcess ≠ some c
  count : k'.processCount = k.processCount - 1
  alloc : ∀ n, (allocs n k'.pcb k'.pcbFree_h).Nodup

variable [DecidableEq P]

theorem allocs_succ {pcb : PcbTable P} (n : ℕ) (p : P) :
    allocs (n + 1) pcb (some p) = p :: allocs n (pcb.clear p) (pcb.p_next p) := rfl

/-- What a return of `terminateSingleProcess` leaves: the block is the first free one,
whatever its fuel was. -/
theorem SelfReady.terminateSingleProcess (h : k.SelfReady c free ready) {sib : Option P}
    (hExec : terminateSingleProcess fuel k (some c) = .ok (k', sib)) :
    k'.currentProcess = some c ∧ k'.pcbFree_h = some c ∧
      k'.processCount = k.processCount - 1 ∧
      (k'.readyQueue ≠ none → Ring k'.pcb.p_next k'.readyQueue (ready.erase c)) := by
  simp only [Nucleus.terminateSingleProcess, deref_some, Outcome.ok_bind] at hExec
  obtain ⟨⟨pcb, r⟩, hChild, hExec⟩ := Outcome.bind_eq_ok.mp hExec
  obtain ⟨⟨pcb', tail, r'⟩, hOut, hExec⟩ := Outcome.bind_eq_ok.mp hExec
  split at hExec
  · simp [error] at hExec
  simp only [freePcb_some, Outcome.ok_bind] at hExec
  cases hExec
  refine ⟨h.current, rfl, rfl, fun hQueue => ?_⟩
  have hRing := h.ring
  rw [← outChild_p_next hChild] at hRing
  have hMore := outProcQ_mono hOut (Nat.le_add_right fuel ready.length)
  cases hTail : k.readyQueue with
  | none =>
      rw [hTail] at hRing
      exact absurd (Ring.none_iff.mp hRing) (List.ne_nil_of_mem h.queued)
  | some t =>
      rw [hTail] at hRing hMore
      by_cases hct : c = t
      · -- the queue was emptied with its tail
        subst hct
        cases (outProcQ_tail hRing (Nat.le_add_left ..)).symm.trans hMore
        exact absurd rfl hQueue
      · obtain ⟨next, hInner, hErase, -, -⟩ :=
          outProcQ_inner hRing h.queued hct (Nat.le_add_left ..)
        cases hInner.symm.trans hMore
        refine hErase.congr fun y hy => Function.update_of_ne ?_ ..
        exact (hRing.nodup.mem_erase_iff.mp hy).1

/-- A childless process that has been terminated is still the running one. -/
theorem SelfReady.terminated (h : k.SelfReady c free ready) (hLeaf : k.pcb.p_child c = none)
    (hExec : terminateProcess fuel k = .ok k') (hQueue : k'.readyQueue ≠ none) :
    k'.Round c (ready.erase c) ∧ k'.pcbFree_h = some c ∧
      k'.processCount = k.processCount - 1 := by
  cases fuel with
  | zero => cases hExec
  | succ fuel =>
      rw [terminateProcess_leaf h.current hLeaf] at hExec
      obtain ⟨⟨k₁, sib⟩, hSingle, hExec⟩ := Outcome.bind_eq_ok.mp hExec
      cases hExec
      obtain ⟨hCurrent, hFree, hCount, hRing⟩ := h.terminateSingleProcess hSingle
      have hGone : c ∉ ready.erase c := h.ring.nodup.not_mem_erase
      exact ⟨⟨hCurrent, hRing hQueue, hGone⟩, hFree, hCount⟩

/-- A free block that links to itself is returned twice. -/
theorem allocs_self {pcb : PcbTable P} (h : pcb.p_next c = some c) :
    allocs 2 pcb (some c) = [c, c] := by
  rw [allocs_succ, h, allocs_succ]
  rfl

/-- As a finished process its block is freed again, so that it links to itself on the
free list, and it is counted out twice. -/
theorem Round.finish_freed (h : k.Round c ready) (hFree : k.pcbFree_h = some c)
    (hReady : k.readyQueue ≠ none) :
    ∃ k', scheduler k 0 = .ok k' ∧ allocs 2 k'.pcb k'.pcbFree_h = [c, c] ∧
      k'.processCount = k.processCount - 1 := by
  obtain ⟨x, rest, rfl⟩ := h.ring.exists_cons hReady
  obtain ⟨next, tail, hFinish, -, hKeep⟩ := h.finish
  have hSelf : next c = some c := by
    rw [hKeep c fun hc => h.apart (List.mem_cons_of_mem _ hc), hFree]
    exact Function.update_self ..
  exact ⟨_, hFinish, allocs_self hSelf, rfl⟩

/-- As a preempted process it goes back to the ready queue while it is the first free
block. -/
theorem Round.slice_freed (h : k.Round c ready) (hFree : k.pcbFree_h = some c)
    (hReady : k.readyQueue ≠ none) :
    ∃ k', scheduler k 1 = .ok k' ∧ k'.pcbFree_h = some c ∧
      Reach k'.pcb.p_next k'.readyQueue c := by
  obtain ⟨x, rest, rfl⟩ := h.ring.exists_cons hReady
  obtain ⟨next, tail, hSlice, hRing, -⟩ := h.slice rfl (schedulerIdle_cons h.ring)
  exact ⟨_, hSlice, hFree, hRing.reach_iff.mpr (by simp)⟩

/-- Whichever way the scheduler is entered after `terminateProcess` has returned, the
terminated process is released twice or becomes ready again. -/
theorem terminated_not_released_once (h : k.SelfReady c free ready)
    (hLeaf : k.pcb.p_child c = none) (hExec : terminateProcess fuel k = .ok k')
    (hQueue : k'.readyQueue ≠ none) {control : ℤ} (hControl : control = 0 ∨ control = 1) :
    ∃ k'', scheduler k' control = .ok k'' ∧ ¬ k.ReleasedOnce k'' c ∧
      (control = 0 → allocs 2 k''.pcb k''.pcbFree_h = [c, c] ∧
        k''.processCount = k.processCount - 2) ∧
      (control = 1 → k''.pcbFree_h = some c ∧ Reach k''.pcb.p_next k''.readyQueue c) := by
  obtain ⟨hRound, hFree, hCount⟩ := h.terminated hLeaf hExec hQueue
  rcases hControl with rfl | rfl
  · obtain ⟨k'', hFinish, hTwice, hCount'⟩ := hRound.finish_freed hFree hQueue
    refine ⟨k'', hFinish, fun hOnce => ?_, fun _ => ⟨hTwice, by omega⟩, nofun⟩
    have hNodup := hOnce.alloc 2
    rw [hTwice] at hNodup
    simp at hNodup
  · obtain ⟨k'', hSlice, hFirst, hReach⟩ := hRound.slice_freed hFree hQueue
    refine ⟨k'', hSlice, fun hOnce => ?_, nofun, fun _ => ⟨hFirst, hReach⟩⟩
    obtain ⟨free'', ready'', -, hRing, hApart, hMem⟩ := hOnce.lists
    exact hApart hMem (hRing.reach_iff.mp hReach)

/-- The running process is ready too, in front of another one. -/
def selfReady (running other : P) : Kernel P D :=
  { Kernel.zero P D with
    pcb := twoQueued running other
    readyQueue := some other
    currentProcess := some running
    processCount := 2 }

theorem selfReady_selfReady : (selfReady 0 1 : Kernel (Fin 2) Unit).SelfReady 0 [] [0, 1] where
  current := rfl
  spare := rfl
  ring := twoQueued_ring (by decide)
  apart := by decide
  queued := by decide

theorem terminated_not_released_once_two : ∃ k' k'' : Kernel (Fin 2) Unit,
    terminateProcess 3 (selfReady 0 1 : Kernel (Fin 2) Unit) = .ok k' ∧
      scheduler k' 1 = .ok k'' ∧ ¬ (selfReady 0 1).ReleasedOnce k'' 0 := by
  obtain ⟨k', hExec, hQueue⟩ : ∃ k', terminateProcess 3 (selfReady 0 1 : Kernel (Fin 2) Unit) =
      .ok k' ∧ k'.readyQueue = some 1 := ⟨_, rfl, rfl⟩
  obtain ⟨k'', hSlice, hNot, -⟩ := terminated_not_released_once selfReady_selfReady rfl hExec
    (by simp [hQueue]) (.inr rfl)
  exact ⟨k', k'', hExec, hSlice, hNot⟩

/-- The terminated process finishes, and its block is then handed out twice. -/
theorem terminated_allocated_twice : ∃ k' k'' : Kernel (Fin 2) Unit,
    (selfReady 0 1 : Kernel (Fin 2) Unit).SelfReady 0 [] [0, 1] ∧
      (selfReady 0 1 : Kernel (Fin 2) Unit).pcb.p_child 0 = none ∧
      terminateProcess 3 (selfReady 0 1 : Kernel (Fin 2) Unit) = .ok k' ∧
      k'.readyQueue ≠ none ∧ scheduler k' 0 = .ok k'' ∧
      allocs 2 k''.pcb k''.pcbFree_h = [0, 0] ∧ ¬ (selfReady 0 1).ReleasedOnce k'' 0 := by
  refine ⟨_, _, selfReady_selfReady, rfl, rfl, by decide, rfl, rfl, fun hOnce => ?_⟩
  exact absurd (hOnce.alloc 2) (by decide)

end Kernel

end Nucleus
