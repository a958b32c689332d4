import Mathlib.Data.Fin.Basic
import Nucleus.Kernel.Runs

/-! The process tree along runs of the nucleus. `createProcess` grows the tree and
the end of a time slice does not touch it. A process that has finished goes to
the free list with its tree links as they were. -/
namespace Nucleus

open Function (update)
open Linked Semantics

variable {P D : Type}

namespace Kernel

/-- The child chains list exactly the live blocks below each live block, no live
block has a free parent, and climbing from a live block ends. A block is live if
it is not on the free list. -/
def WellFormedTree (k : Kernel P D) : Prop :=
  ∃ children : P → List P, Family k.Allocated k.pcb.p_prnt k.pcb.p_child k.pcb.p_sib children ∧
    ∀ p, k.Allocated p → ∃ l, Chain k.pcb.p_prnt (some p) l

/-- All live blocks are in the tree of `root`. -/
abbrev Tree (k : Kernel P D) (children : P → List P) (root : P) : Prop :=
  Linked.Tree k.Allocated k.pcb.p_prnt k.pcb.p_child k.pcb.p_sib children root

/-- `c` is running, is childless and is the only block that is not free. -/
structure Single (k : Kernel P D) (c : P) (free : List P) : Prop extends k.View c free [] where
  only : ∀ p, p = c ∨ p ∈ free
  prnt : k.pcb.p_prnt c = none
  child : k.pcb.p_child c = none

variable {k k' : Kernel P D} {c root : P} {free ready : List P} {children : P → List P}

theorem Tree.wellFormed (h : k.Tree children root) : k.WellFormedTree :=
  ⟨children, h.toFamily, fun _ hp => h.rooted hp⟩

theorem Single.tree (h : k.Single c free) : k.Tree (fun _ => []) c := by
  have hLive (p : P) (hp : k.Allocated p) : p = c :=
    (h.only p).resolve_right (h.allocated_iff.mp hp)
  refine ⟨.roots (fun p hp => ?_) (fun p hp => ?_), h.prnt, fun p hp => ?_⟩
  · rw [hLive p hp]
    exact h.prnt
  · rw [hLive p hp]
    exact h.child
  · rw [hLive p hp]
    exact .here c

variable [DecidableEq P]

namespace View

theorem tree_create (h : k.View c free ready) (hTree : k.Tree children root) {proc_state : Word}
    (hExec : createProcess k proc_state = .ok k') :
    ∃ free' ready' children', k'.View c free' ready' ∧ k'.Tree children' root := by
  rcases h.create_ok hExec with ⟨hSame, -, hView⟩ | hCreated
  · refine ⟨free, ready, children, hView, ?_⟩
    rw [Tree, hSame]
    exact hTree
  · obtain ⟨n, spare, pcb, next, rfl, hChild, hPcb, -, hView⟩ := hCreated
    cases hChild
    have hNew : ¬k.Allocated n := h.lists.not_allocated (List.mem_cons_self ..)
    have hc : k.Allocated c := h.allocated_iff.mpr h.not_mem_free
    have hGrown := (hTree.sprout hNew hc).of_iff fun _ => h.lists.allocated_create hView.lists
    exact ⟨spare, ready ++ [n], _, hView, by rw [Tree, hPcb]; exact hGrown⟩

theorem tree_slice (h : k.View c free ready) (hTree : k.Tree children root)
    (hExec : scheduler k 1 = .ok k') :
    ∃ c' ready', k'.View c' free ready' ∧ k'.Tree children root := by
  obtain ⟨x, rest, next, -, hPcb, -, hView⟩ := h.slice_ok hExec
  refine ⟨x, rest, hView, ?_⟩
  rw [Tree, hPcb]
  refine hTree.of_iff fun p => ?_
  rw [hView.allocated_iff, h.allocated_iff]

/-- The finished process is still linked in the tree when its block is free. -/
theorem tree_finish (h : k.View c free ready) (hTree : k.Tree children root)
    (hExec : scheduler k 0 = .ok k') : ¬k'.WellFormedTree := by
  obtain ⟨x, rest, next, rfl, hPcb, -, hView⟩ := h.finish_ok hExec
  have hx : x ∉ free := fun hFree => h.not_ready_of_free hFree (List.mem_cons_self ..)
  have hxc : x ≠ c := by
    rintro rfl
    exact h.not_mem_ready (List.mem_cons_self ..)
  rintro ⟨children', hFamily, -⟩
  rw [hPcb] at hFamily
  refine hTree.not_family_without (h.allocated_iff.mpr h.not_mem_free)
    (h.allocated_iff.mpr hx) hxc (hFamily.of_iff fun p => ?_)
  rw [hView.allocated_iff, h.allocated_iff, List.mem_cons, not_or]

end View

/-- The scheduler is entered only while some process is ready. -/
def Dispatchable (k : Kernel P D) : KernelCall → Prop
  | .createProcess _ => True
  | .scheduler _ => k.readyQueue ≠ none

theorem tree_run (h : k.Single c free) {trace : List (KernelCall × Unit)}
    (run : ((kernelSystem P D).restrict Dispatchable).Run k trace k')
    (hTrace : (.scheduler 0, ()) ∉ trace) :
    ∃ c' free' ready' children', k'.View c' free' ready' ∧ k'.Tree children' c := by
  refine run.invariant_on
    (fun s => ∃ c' free' ready' children', s.View c' free' ready' ∧ s.Tree children' c)
    (· ≠ (.scheduler 0, ())) (fun s call t reply hs legal hEntry hExec => ?_)
    ⟨c, free, [], _, h.toView, h.tree⟩ fun entry hMem => by
      rintro rfl
      exact hTrace hMem
  obtain ⟨c', free', ready', children', hView, hTree⟩ := hs
  cases call with
  | createProcess proc_state =>
      exact ⟨c', hView.tree_create hTree (exec_createProcess.mp hExec)⟩
  | scheduler control =>
      rcases legal.1 with rfl | rfl
      · exact absurd rfl hEntry
      · obtain ⟨x, rest, hView', hTree'⟩ := hView.tree_slice hTree (exec_scheduler.mp hExec)
        exact ⟨x, free', rest, children', hView', hTree'⟩

/-- The tree is well formed in every state of a run from a single process exactly
when no process finishes through the scheduler. -/
theorem kernelTree_run (h : k.Single c free) {trace : List (KernelCall × Unit)}
    (run : ((kernelSystem P D).restrict Dispatchable).Run k trace k') :
    (∀ first s, first <+: trace → ((kernelSystem P D).restrict Dispatchable).Run k first s →
      s.WellFormedTree) ↔ (.scheduler 0, ()) ∉ trace := by
  constructor
  · intro hAll hMem
    obtain ⟨first, rest, rfl, hFirst⟩ := List.eq_append_cons_of_mem hMem
    obtain ⟨s, runFirst, runRest⟩ := run.split
    obtain ⟨c', free', ready', children', hView, hTree⟩ := tree_run h runFirst hFirst
    cases runRest with
    | @cons _ t _ _ _ _ legal hExec _ =>
        refine hView.tree_finish hTree (exec_scheduler.mp hExec) ?_
        apply hAll (first ++ [(.scheduler 0, ())]) t
        · exact ⟨rest, by simp⟩
        · exact runFirst.trans (.cons legal hExec (.nil t))
  · intro hNone first s hPrefix runFirst
    obtain ⟨c', free', ready', children', -, hTree⟩ :=
      tree_run h runFirst fun hMem => hNone (hPrefix.subset hMem)
    exact hTree.wellFormed

/-- One block is running, with its saved state at 0x8000, and one is free. -/
def oneFree (running free : P) : Kernel P D :=
  { Kernel.zero P D with
    pcb := (Kernel.zero P D).pcb.setS running 0x8000
    pcbFree_h := some free
    currentProcess := some running
    processCount := 1 }

theorem oneFree_single : (oneFree 0 1 : Kernel (Fin 2) Unit).Single 0 [1] where
  current := rfl
  spare := ⟨rfl, rfl⟩
  ring := rfl
  nodup := by decide
  only := by decide
  prnt := rfl
  child := rfl

theorem kernelTree_run_two : ∃ k : Kernel (Fin 2) Unit,
    ((kernelSystem (Fin 2) Unit).restrict Dispatchable).Run (oneFree 0 1)
      [(.createProcess 0, ()), (.scheduler 1, ())] k ∧ k.WellFormedTree := by
  obtain ⟨k, run⟩ : ∃ k, ((kernelSystem (Fin 2) Unit).restrict Dispatchable).Run (oneFree 0 1)
      [(.createProcess 0, ()), (.scheduler 1, ())] k :=
    ⟨_, .cons ⟨trivial, trivial⟩ rfl <| .cons ⟨.inr rfl, nofun⟩ rfl <| .nil _⟩
  exact ⟨k, run, (kernelTree_run oneFree_single run).mpr (by simp) _ k List.prefix_rfl run⟩

/-- The parent of the only process left is on the free list. -/
theorem finishedParent_malformed : ∃ k : Kernel (Fin 2) Unit,
    (oneFree 0 1 : Kernel (Fin 2) Unit).Single 0 [1] ∧
    ((kernelSystem (Fin 2) Unit).restrict Dispatchable).Run (oneFree 0 1)
      [(.createProcess 0, ()), (.scheduler 0, ())] k ∧
    k.currentProcess = some 1 ∧ k.pcb.p_prnt 1 = some 0 ∧ k.pcbFree_h = some 0 ∧
    ¬k.WellFormedTree := by
  obtain ⟨k, run, hCurrent, hParent, hFree, hNext⟩ : ∃ k,
      ((kernelSystem (Fin 2) Unit).restrict Dispatchable).Run (oneFree 0 1)
        [(.createProcess 0, ()), (.scheduler 0, ())] k ∧ k.currentProcess = some 1 ∧
      k.pcb.p_prnt 1 = some 0 ∧ k.pcbFree_h = some 0 ∧ k.pcb.p_next 0 = none :=
    ⟨_, .cons ⟨trivial, trivial⟩ rfl <| .cons ⟨.inl rfl, nofun⟩ rfl <| .nil _, rfl, rfl, rfl, rfl⟩
  have hSpare : Chain k.pcb.p_next k.pcbFree_h [0] := ⟨hFree, hNext⟩
  have hLive (p : Fin 2) : k.Allocated p ↔ p ≠ 0 := by
    rw [Memory.allocated_iff hSpare, List.mem_singleton]
  refine ⟨k, oneFree_single, run, hCurrent, hParent, hFree, ?_⟩
  rintro ⟨children, hFamily, -⟩
  have hClosed := hFamily.closed 1 0 ((hLive 1).mpr (by decide)) hParent
  exact (hLive 0).mp hClosed rfl

end Kernel

end Nucleus
