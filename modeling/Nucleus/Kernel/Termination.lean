import Mathlib.Data.List.Perm.Basic
import Mathlib.Tactic.FinCases
import Nucleus.Kernel.Runs

/-! `terminateProcess`. It passes the first child of a process to itself, but it
has no parameters, and every activation starts again from `currentProcess`. It
also looks for the running process in the ready queue, where the scheduler does
not keep it. -/
namespace Nucleus

open Function (update)
open Linked Semantics

variable {P D : Type}

namespace Kernel

/-- The running process `c` and its descendants, which `sub` lists, are all in the
ready queue. -/
structure ReadySubtree (k : Kernel P D) (c : P) (free ready sub : List P)
    (children : P → List P) : Prop where
  current : k.currentProcess = some c
  spare : Chain k.pcb.p_next k.pcbFree_h free
  ring : Ring k.pcb.p_next k.readyQueue ready
  apart : (ready ++ free).Nodup
  tree : k.pcb.Tree k.Allocated children
  nodup : sub.Nodup
  mem_iff : ∀ p, p ∈ sub ↔ k.Allocated p ∧ Reach k.pcb.p_prnt (some p) c
  running : c ∈ sub
  queued : ∀ p ∈ sub, p ∈ ready

/-- What the end of `c` with the processes of `sub` leaves behind: they are free,
each once, and every other process has its place in the ready queue, its parent
and its children other than `c`. -/
structure Terminated [DecidableEq P] (k k' : Kernel P D) (c : P) (free ready sub : List P)
    (children : P → List P) : Prop where
  spare : ∃ free', Chain k'.pcb.p_next k'.pcbFree_h free' ∧ free'.Perm (sub ++ free)
  ring : Ring k'.pcb.p_next k'.readyQueue (ready.filter (· ∉ sub))
  prnt : ∀ p, k.Allocated p → p ∉ sub → k'.pcb.p_prnt p = k.pcb.p_prnt p
  chain : ∀ q, k.Allocated q → q ∉ sub →
    Chain k'.pcb.p_sib (k'.pcb.p_child q) ((children q).erase c)
  count : k'.processCount = k.processCount - sub.length

variable {k k' : Kernel P D} {c : P} {free ready sub : List P} {children : P → List P} {fuel : ℕ}

namespace ReadySubtree

theorem live (h : k.ReadySubtree c free ready sub children) : k.Allocated c :=
  ((h.mem_iff c).mp h.running).1

theorem not_free (h : k.ReadySubtree c free ready sub children) : c ∉ free := fun hFree =>
  (List.nodup_append.mp h.apart).2.2 c (h.queued c h.running) c hFree rfl

/-- A childless process is its whole subtree. -/
theorem eq_singleton (h : k.ReadySubtree c free ready sub children)
    (hLeaf : k.pcb.p_child c = none) : sub = [c] := by
  have hNil : children c = [] := (h.tree.children_eq_nil_iff h.live).mpr hLeaf
  have hOnly (p : P) (hp : p ∈ sub) : p = c := by
    obtain ⟨hLive, hReach⟩ := (h.mem_iff p).mp hp
    rcases hReach.eq_or_link with hEq | ⟨y, hUp, hLink⟩
    · exact Option.some.inj hEq
    · have hMem := (h.tree.mem_iff c h.live y).mpr ⟨h.tree.live_of_reach hLive hUp, hLink⟩
      rw [hNil] at hMem
      cases hMem
  refine List.perm_singleton.mp
    ((List.perm_ext_iff_of_nodup h.nodup (List.nodup_singleton c)).mpr fun p => ?_)
  rw [List.mem_singleton]
  constructor
  · exact hOnly p
  · rintro rfl
    exact h.running

/-- Fuel for the searches of `outChild` and `outProcQ`. -/
structure Enough (k : Kernel P D) (c : P) (ready : List P) (children : P → List P)
    (fuel : ℕ) : Prop where
  queue : ready.length ≤ fuel
  siblings : ∀ q, k.pcb.p_prnt c = some q → (children q).length ≤ fuel

theorem exists_enough (k : Kernel P D) (c : P) (ready : List P) (children : P → List P) :
    ∃ bound, ∀ fuel, bound ≤ fuel → Enough k c ready children fuel := by
  cases hParent : k.pcb.p_prnt c with
  | none =>
      refine ⟨ready.length, fun fuel hFuel => ⟨hFuel, fun q hq => ?_⟩⟩
      rw [hParent] at hq
      cases hq
  | some r =>
      refine ⟨ready.length + (children r).length, fun fuel hFuel => ⟨by omega, fun q hq => ?_⟩⟩
      rw [hParent] at hq
      cases hq
      omega

end ReadySubtree

variable [DecidableEq P]

/-- A process with a child calls itself for ever. -/
theorem terminateProcess_child (hCurrent : k.currentProcess = some c)
    (hChild : k.pcb.p_child c ≠ none) (fuel : ℕ) :
    terminateProcess fuel k = .error .outOfFuel := by
  induction fuel with
  | zero => rfl
  | succ fuel ih => simp [terminateProcess, hCurrent, emptyChild_some, hChild, ih]

theorem terminateProcess_leaf (hCurrent : k.currentProcess = some c)
    (hLeaf : k.pcb.p_child c = none) (fuel : ℕ) :
    terminateProcess (fuel + 1) k =
      (do let (k, _) ← terminateSingleProcess fuel k (some c); return k) := by
  simp [terminateProcess, hCurrent, emptyChild_some, hLeaf]

theorem terminateSingleProcess_ok {pcb pcb' : PcbTable P} {tail r : Option P}
    (hChild : outChild fuel k.pcb (some c) = .ok (pcb, r))
    (hOut : outProcQ fuel pcb k.readyQueue (some c) = .ok (pcb', tail, some c)) :
    terminateSingleProcess fuel k (some c) = .ok ({ k with
      pcb := pcb'.setNext c k.pcbFree_h, pcbFree_h := some c, readyQueue := tail,
      processCount := k.processCount - 1 }, k.pcb.p_sib c) := by
  simp [terminateSingleProcess, hChild, hOut, freePcb_some]

theorem terminateProcess_ok {pcb pcb' : PcbTable P} {tail r : Option P}
    (hCurrent : k.currentProcess = some c) (hLeaf : k.pcb.p_child c = none)
    (hChild : outChild fuel k.pcb (some c) = .ok (pcb, r))
    (hOut : outProcQ fuel pcb k.readyQueue (some c) = .ok (pcb', tail, some c)) :
    terminateProcess (fuel + 1) k = .ok { k with
      pcb := pcb'.setNext c k.pcbFree_h, pcbFree_h := some c, readyQueue := tail,
      processCount := k.processCount - 1 } := by
  rw [terminateProcess_leaf hCurrent hLeaf, terminateSingleProcess_ok hChild hOut]
  rfl

/-- A process that is not in the ready queue is never terminated. -/
theorem terminateSingleProcess_not_ready (hRing : Ring k.pcb.p_next k.readyQueue ready)
    (hReady : c ∉ ready) (result : Kernel P D × Option P) :
    terminateSingleProcess fuel k (some c) ≠ .ok result := by
  intro hExec
  simp only [terminateSingleProcess, deref_some, Outcome.ok_bind] at hExec
  obtain ⟨⟨pcb, r⟩, hChild, hExec⟩ := Outcome.bind_eq_ok.mp hExec
  obtain ⟨⟨pcb', tail, r'⟩, hOut, hExec⟩ := Outcome.bind_eq_ok.mp hExec
  have hRing' : Ring pcb.p_next k.readyQueue ready := by
    rw [outChild_p_next hChild]
    exact hRing
  have hNone : r' = none := outProcQ_not_mem hRing' hReady hOut
  simp [hNone, error] at hExec

/-- A return has found the process in the ready queue and has taken it out. -/
theorem terminateSingleProcess_dequeues (hRing : Ring k.pcb.p_next k.readyQueue ready)
    {result : Kernel P D × Option P} (hExec : terminateSingleProcess fuel k (some c) = .ok result) :
    ¬Ring result.1.pcb.p_next result.1.readyQueue ready := by
  intro hAfter
  have hReady : c ∈ ready := by
    by_contra hReady
    exact terminateSingleProcess_not_ready hRing hReady result hExec
  simp only [terminateSingleProcess, deref_some, Outcome.ok_bind] at hExec
  obtain ⟨⟨pcb, r⟩, hChild, hExec⟩ := Outcome.bind_eq_ok.mp hExec
  obtain ⟨⟨pcb', tail, r'⟩, hOut, hExec⟩ := Outcome.bind_eq_ok.mp hExec
  have hMore := outProcQ_mono hOut (Nat.le_add_right fuel ready.length)
  rw [← outChild_p_next hChild] at hRing
  cases hQueue : k.readyQueue with
  | none =>
      rw [hQueue, Ring.none_iff] at hRing
      exact List.ne_nil_of_mem hReady hRing
  | some t =>
      rw [hQueue] at hRing hMore
      by_cases hct : c = t
      · subst hct
        cases (outProcQ_tail hRing (Nat.le_add_left ..)).symm.trans hMore
        simp only [reduceCtorEq, if_false, freePcb_some, Outcome.pure_eq, Outcome.ok_bind] at hExec
        cases hExec
        exact List.ne_nil_of_mem hReady (Ring.none_iff.mp hAfter)
      · obtain ⟨next, hInner, hErase, -, -⟩ :=
          outProcQ_inner hRing hReady hct (Nat.le_add_left ..)
        cases hInner.symm.trans hMore
        simp only [reduceCtorEq, if_false, freePcb_some, Outcome.pure_eq, Outcome.ok_bind] at hExec
        cases hExec
        have hGone : c ∉ ready.erase c := hRing.nodup.not_mem_erase
        have hLeft : Ring (update next c k.pcbFree_h) (some t) (ready.erase c) :=
          hErase.congr fun q hq => Function.update_of_ne (ne_of_mem_of_not_mem hq hGone) ..
        exact hGone (hLeft.reach_iff.mp (hAfter.reach_iff.mpr hReady))

namespace ReadySubtree

/-- Once `c` is out of the tree and of the ready queue, `freePcb` completes its end. -/
theorem terminated (h : k.ReadySubtree c free ready [c] children) {pcb : PcbTable P}
    {tail : Option P} (hRing : Ring pcb.p_next tail (ready.erase c))
    (hKeep : ∀ q, q ∉ ready → pcb.p_next q = k.pcb.p_next q)
    (hPrnt : ∀ p, p ≠ c → pcb.p_prnt p = k.pcb.p_prnt p)
    (hChain : ∀ q, k.Allocated q → Chain pcb.p_sib (pcb.p_child q) ((children q).erase c)) :
    k.Terminated { k with
      pcb := pcb.setNext c k.pcbFree_h, pcbFree_h := some c, readyQueue := tail,
      processCount := k.processCount - 1 } c free ready [c] children where
  spare := by
    refine ⟨c :: free, freePcb_chain (h.spare.congr fun q hq => hKeep q fun hReady => ?_)
      h.not_free, List.Perm.refl _⟩
    exact (List.nodup_append.mp h.apart).2.2 q hReady q hq rfl
  ring := by
    have hNodup := h.ring.nodup
    have hErase : ready.filter (· ∉ [c]) = ready.erase c := by
      rw [hNodup.erase_eq_filter]
      refine List.filter_congr fun x _ => ?_
      by_cases hx : x = c <;> simp [hx]
    rw [hErase]
    refine hRing.congr fun y hy => Function.update_of_ne ?_ ..
    exact (hNodup.mem_erase_iff.mp hy).1
  prnt p _ hp := hPrnt p fun hEq => hp (List.mem_singleton.mpr hEq)
  chain q hq _ := hChain q hq
  count := by simp

/-- If the childless process is the tail, the queue is empty afterwards. -/
theorem terminate_tail (h : k.ReadySubtree c free ready [c] children)
    (hFuel : Enough k c ready children fuel) (hLeaf : k.pcb.p_child c = none)
    (hTail : k.readyQueue = some c) :
    ∃ k', terminateProcess (fuel + 1) k = .ok k' ∧ k'.readyQueue = none ∧
      (ready = [c] → k.Terminated k' c free ready [c] children) := by
  obtain ⟨pcb, r, hChild, hPrnt, hChain⟩ := outChild_leave h.tree.toFamily h.live hFuel.siblings
  have hNext : pcb.p_next = k.pcb.p_next := outChild_p_next hChild
  have hOut : outProcQ fuel pcb k.readyQueue (some c) = .ok (pcb.setNext c none, none, some c) := by
    have hRing := h.ring
    rw [← hNext, hTail] at hRing
    rw [hTail]
    exact outProcQ_tail hRing hFuel.queue
  refine ⟨_, terminateProcess_ok h.current hLeaf hChild hOut, rfl, fun hOne =>
    h.terminated ?_ (fun q hq => ?_) hPrnt hChain⟩
  · simp [hOne]
  · have hqc : q ≠ c := fun hEq => hq (hEq ▸ h.queued c h.running)
    rw [PcbTable.setNext_p_next, Function.update_of_ne hqc, hNext]

/-- A childless process elsewhere in the queue is terminated as it should be. -/
theorem terminate_inner (h : k.ReadySubtree c free ready [c] children)
    (hFuel : Enough k c ready children fuel) (hLeaf : k.pcb.p_child c = none)
    (hTail : k.readyQueue ≠ some c) :
    ∃ k', terminateProcess (fuel + 1) k = .ok k' ∧ k.Terminated k' c free ready [c] children := by
  have hReady : c ∈ ready := h.queued c h.running
  obtain ⟨pcb, r, hChild, hPrnt, hChain⟩ := outChild_leave h.tree.toFamily h.live hFuel.siblings
  have hNext : pcb.p_next = k.pcb.p_next := outChild_p_next hChild
  have hRing := h.ring
  rw [← hNext] at hRing
  cases hQueue : k.readyQueue with
  | none =>
      rw [hQueue] at hRing
      rw [Ring.none_iff.mp hRing] at hReady
      cases hReady
  | some t =>
      rw [hQueue] at hRing hTail
      have hct : c ≠ t := fun hEq => hTail (hEq ▸ rfl)
      obtain ⟨next, hOut, hRing', -, hKeep⟩ := outProcQ_inner hRing hReady hct hFuel.queue
      rw [← hQueue] at hOut
      refine ⟨_, terminateProcess_ok h.current hLeaf hChild hOut,
        h.terminated ?_ (fun q hq => ?_) hPrnt hChain⟩
      · rw [hQueue]
        exact hRing'
      · exact (hKeep q hq).trans (congrFun hNext q)

end ReadySubtree

/-- `terminateProcess` ends the subtree of the running process exactly when that
process has no children and is not the tail of a longer ready queue. -/
theorem subtree_terminated_iff (h : k.ReadySubtree c free ready sub children) :
    Returns (fun fuel => terminateProcess fuel k)
        (fun k' => k.Terminated k' c free ready sub children) ↔
      k.pcb.p_child c = none ∧ (k.readyQueue = some c → k.pcb.p_next c = some c) := by
  obtain ⟨bound, hEnough⟩ := ReadySubtree.exists_enough k c ready children
  constructor
  · intro hReturns
    have hLeaf : k.pcb.p_child c = none := by
      by_contra hChild
      obtain ⟨fuel, k', hExec, -⟩ := hReturns.exists_ok
      rw [terminateProcess_child h.current hChild] at hExec
      cases hExec
    refine ⟨hLeaf, fun hTail => ?_⟩
    cases h.eq_singleton hLeaf
    obtain ⟨least, hReturn⟩ := hReturns
    obtain ⟨k', hExec, hPost⟩ := hReturn (bound + least + 1) (by omega)
    obtain ⟨k'', hExec', hEmpty, -⟩ :=
      h.terminate_tail (hEnough (bound + least) (by omega)) hLeaf hTail
    cases hExec.symm.trans hExec'
    have hRing := hPost.ring
    rw [hEmpty, Ring.none_iff] at hRing
    have hQueue := h.ring
    rw [hTail] at hQueue
    have hHead := hQueue.next_tail
    cases ready with
    | nil => exact absurd hQueue.tail_mem List.not_mem_nil
    | cons y rest =>
        have hy : y = c := by simpa using List.filter_eq_nil_iff.mp hRing y (List.mem_cons_self ..)
        rw [hHead, hy]
        rfl
  · rintro ⟨hLeaf, hTail⟩
    cases h.eq_singleton hLeaf
    refine ⟨bound + 1, fun fuel hFuel => ?_⟩
    obtain ⟨spare, rfl⟩ : ∃ spare, fuel = spare + 1 := ⟨fuel - 1, by omega⟩
    have hSpare := hEnough spare (by omega)
    by_cases hEq : k.readyQueue = some c
    · have hQueue := h.ring
      rw [hEq] at hQueue
      obtain ⟨k', hExec, -, hPost⟩ := h.terminate_tail hSpare hLeaf hEq
      exact ⟨k', hExec, hPost (hQueue.eq_singleton (hTail hEq))⟩
    · exact h.terminate_inner hSpare hLeaf hEq

/-- A parent and its only child, both in the ready queue. -/
def parentAndChild (parent child currentProcess tail : P) : Kernel P D :=
  { Kernel.zero P D with
    pcb := { (Kernel.zero P D).pcb with
      p_next := update (fun _ => some parent) parent (some child)
      p_prnt := update (fun _ => none) child (some parent)
      p_child := update (fun _ => none) parent (some child) }
    readyQueue := some tail
    currentProcess := some currentProcess
    processCount := 2 }

section Pair

variable {parent child currentProcess tail : P}

theorem parentAndChild_allocated (p : P) :
    (parentAndChild parent child currentProcess tail : Kernel P D).Allocated p :=
  fun hReach => nomatch hReach

theorem parentAndChild_tree (hne : parent ≠ child) :
    (parentAndChild parent child currentProcess tail : Kernel P D).pcb.Tree
      (parentAndChild parent child currentProcess tail : Kernel P D).Allocated
      (update (fun _ => []) parent [child]) := by
  have hApart : Forest (parentAndChild parent child currentProcess tail : Kernel P D).Allocated
      (fun _ => none) (fun _ => none) (fun _ => none) (fun _ => []) :=
    .roots (fun _ _ => rfl) (fun _ _ => rfl) fun _ _ => rfl
  have hAlone : Chain (fun _ : P => none) (some parent) [parent] := ⟨rfl, rfl⟩
  have hTree := hApart.attach (parentAndChild_allocated child) (parentAndChild_allocated parent) rfl
    (by simpa [hAlone.reach_iff] using Ne.symm hne)
  rwa [Function.update_eq_self] at hTree

end Pair

theorem subtree_terminated_child :
    Returns (fun fuel => terminateProcess fuel (parentAndChild 0 1 1 0 : Kernel (Fin 2) Unit))
      fun k' => Terminated (parentAndChild 0 1 1 0) k' 1 [] [1, 0] [1]
        (update (fun _ => []) 0 [1]) := by
  have hSub : (parentAndChild 0 1 1 0 : Kernel (Fin 2) Unit).ReadySubtree 1 [] [1, 0] [1]
      (update (fun _ => []) 0 [1]) := by
    refine ⟨rfl, ?_, ⟨[1], rfl, ⟨rfl, rfl, rfl⟩, by decide⟩, by decide,
      parentAndChild_tree (by decide), by decide, fun p => ?_, by decide, by decide⟩
    · rfl
    · rw [and_iff_right (parentAndChild_allocated p)]
      fin_cases p
      · let k : Kernel (Fin 2) Unit := parentAndChild 0 1 1 0
        have hAlone : Chain k.pcb.p_prnt (some 0) [0] := ⟨rfl, rfl⟩
        simpa using fun hReach => absurd (hAlone.reach_iff.mp hReach) (by decide)
      · simpa using Reach.here 1
  exact (subtree_terminated_iff hSub).mpr ⟨rfl, by decide⟩

/-- A parent whose only child is ready behind it. -/
theorem parent_never_terminated :
    (parentAndChild 0 1 0 1 : Kernel (Fin 2) Unit).ReadySubtree 0 [] [0, 1] [0, 1]
        (update (fun _ => []) 0 [1]) ∧
      ∀ fuel, terminateProcess fuel (parentAndChild 0 1 0 1 : Kernel (Fin 2) Unit) =
        .error .outOfFuel := by
  refine ⟨⟨rfl, ?_, ⟨[0], rfl, ⟨rfl, rfl, rfl⟩, by decide⟩, by decide,
    parentAndChild_tree (by decide), by decide, fun p => ?_, by decide, by decide⟩,
    terminateProcess_child rfl (by decide)⟩
  · rfl
  · rw [and_iff_right (parentAndChild_allocated p)]
    have hPath : Chain (parentAndChild 0 1 0 1 : Kernel (Fin 2) Unit).pcb.p_prnt (some 1) [1, 0] :=
      ⟨rfl, rfl, rfl⟩
    fin_cases p
    · simpa using Reach.here 0
    · simpa using hPath.reach_iff.mpr (by decide)

/-- The scheduler takes the process it dispatches off the ready queue, so
`terminateProcess` never returns after a dispatch. If a block in use was on the free list, a
return is possible, but none that leaves the ready queue as it was. -/
theorem dispatched_not_terminated {trace : List (KernelCall × Unit)} {control : ℤ}
    (run : (kernelSystem P D).Run k (trace ++ [(.scheduler control, ())]) k') {c' : P}
    (hCurrent : k'.currentProcess = some c') (hLeaf : k'.pcb.p_child c' = none) (fuel : ℕ)
    (k'' : Kernel P D) :
    (∀ c free ready, k.View c free ready → terminateProcess fuel k' ≠ .ok k'') ∧
      ∀ ready, Ring k'.pcb.p_next k'.readyQueue ready → terminateProcess fuel k' = .ok k'' →
        ¬Ring k''.pcb.p_next k''.readyQueue ready := by
  cases fuel with
  | zero => exact ⟨fun c free ready h => nofun, fun ready hRing => nofun⟩
  | succ fuel =>
      rw [terminateProcess_leaf hCurrent hLeaf]
      constructor
      · intro c free ready h hExec
        obtain ⟨result, hSingle, -⟩ := Outcome.bind_eq_ok.mp hExec
        obtain ⟨x, free', ready', hView⟩ := h.run run
        cases hView.current.symm.trans hCurrent
        exact terminateSingleProcess_not_ready hView.ring hView.not_mem_ready result hSingle
      · intro ready hRing hExec
        obtain ⟨result, hSingle, hEq⟩ := Outcome.bind_eq_ok.mp hExec
        cases hEq
        exact terminateSingleProcess_dequeues hRing hSingle

theorem dispatched_not_terminated_one : ∃ k : Kernel (Fin 2) Unit,
    (kernelSystem (Fin 2) Unit).Run (oneReady 0 1) [(.scheduler 1, ())] k ∧
      ∀ fuel k', terminateProcess fuel k ≠ .ok k' := by
  obtain ⟨k, run, hCurrent, hLeaf⟩ : ∃ k,
      (kernelSystem (Fin 2) Unit).Run (oneReady 0 1) ([] ++ [(.scheduler 1, ())]) k ∧
      k.currentProcess = some 1 ∧ k.pcb.p_child 1 = none :=
    ⟨_, .cons (Or.inr rfl : (1 : ℤ) = 0 ∨ (1 : ℤ) = 1) rfl (.nil _), rfl, rfl⟩
  exact ⟨k, run, fun fuel k' =>
    (dispatched_not_terminated run hCurrent hLeaf fuel k').1 0 [] [1] oneReady_view⟩

/-- The running process 0 is the free list, and process 1 is ready. -/
example : (do
      let k : Kernel (Fin 4) Unit := { oneReady 0 1 with
        pcb := ⟨fun p => if p = 1 then some 1 else if p = 2 then some 3 else some 2,
          fun _ => none, fun _ => none, fun _ => none, fun _ => 0x8000, fun _ => 0⟩
        pcbFree_h := some 0 }
      let k ← createProcess k 0
      let k ← scheduler k 0
      let k' ← terminateProcess 9 k
      return (k.currentProcess, k'.pcbFree_h)) = .ok (some 2, some 2) := rfl

/-- The process that got the processor is not where `terminateSingleProcess` looks. -/
theorem dispatched_panics : ∃ k : Kernel (Fin 2) Unit,
    (oneReady 0 1 : Kernel (Fin 2) Unit).View 0 [] [1] ∧
      (kernelSystem (Fin 2) Unit).Run (oneReady 0 1) [(.scheduler 1, ())] k ∧
      k.currentProcess = some 1 ∧ k.pcb.p_child 1 = none ∧
      ∀ fuel, terminateProcess (fuel + 2) k =
        .error (.panic "processo non trovato nella readyqueue") :=
  ⟨_, oneReady_view, .cons (.inr rfl) rfl (.nil _), rfl, rfl, fun _ => rfl⟩

end Kernel

end Nucleus
