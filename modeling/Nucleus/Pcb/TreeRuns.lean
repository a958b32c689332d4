import Nucleus.Pcb.ProcessTree
import Nucleus.Semantics.System

/-! Runs of the process tree functions over freshly allocated blocks. A caller
inserts only a parentless block, under a block outside its own subtree. -/
namespace Nucleus

open Function (update)
open Linked Semantics

variable {P : Type}

inductive TreeCall (P : Type) where
  | insertChild (prnt p : P)
  | removeChild (p : P)
  | outChild (p : P)

namespace PcbTable

/-- The tree links as `allocPcb` leaves them. -/
structure FreshTree (pcb : PcbTable P) : Prop where
  prnt : ∀ p, pcb.p_prnt p = none
  child : ∀ p, pcb.p_child p = none
  sib : ∀ p, pcb.p_sib p = none

/-- Blocks in a tree: every block takes part. -/
abbrev WholeTree (pcb : PcbTable P) (children : P → List P) : Prop :=
  pcb.Tree (fun _ => True) children

theorem FreshTree.tree {pcb : PcbTable P} (h : pcb.FreshTree) : pcb.WholeTree fun _ => [] :=
  .roots (fun p _ => h.prnt p) (fun p _ => h.child p) fun p _ => h.sib p

variable [DecidableEq P]

def treeExec (fuel : ℕ) (pcb : PcbTable P) : TreeCall P → Outcome (PcbTable P × Reply P)
  | .insertChild prnt p => do
      let pcb ← insertChild pcb (some prnt) (some p)
      return (pcb, .done)
  | .removeChild p => do
      let (pcb, r) ← removeChild pcb (some p)
      return (pcb, .pcb r)
  | .outChild p => do
      let (pcb, r) ← outChild fuel pcb (some p)
      return (pcb, .pcb r)

/-- Climbing from `prnt` must not meet `p`: `prnt` is neither `p` nor below it. -/
def treeSystem (fuel : ℕ) : System (PcbTable P) (TreeCall P) (Reply P) where
  Legal pcb
    | .insertChild prnt p => pcb.p_prnt p = none ∧ ¬Reach pcb.p_prnt (some prnt) p
    | _ => True
  exec := treeExec fuel

variable {pcb : PcbTable P} {children : P → List P} {fuel : ℕ}

/-- One legal call on a forest completes and leaves a forest. -/
theorem WholeTree.step [Fintype P] (h : pcb.WholeTree children) (hFuel : Fintype.card P ≤ fuel)
    {call : TreeCall P} (legal : (treeSystem fuel).Legal pcb call) :
    ∃ pcb' reply children', treeExec fuel pcb call = .ok (pcb', reply) ∧
      pcb'.WholeTree children' := by
  cases call with
  | insertChild prnt p =>
      obtain ⟨pcb', hExec, hTree⟩ := insertChild_attach h trivial trivial legal.1 legal.2
      exact ⟨pcb', .done, _, by simp [treeExec, hExec], hTree⟩
  | removeChild q =>
      cases hList : children q with
      | nil =>
          have hChild : pcb.p_child q = none := (h.children_eq_nil_iff trivial).mp hList
          exact ⟨pcb, .pcb none, children, by simp [treeExec, removeChild_none hChild], h⟩
      | cons p rest =>
          have hMem : p ∈ children q := hList ▸ List.mem_cons_self ..
          have hParent : pcb.p_prnt p = some q := ((h.mem_iff q trivial p).mp hMem).2
          obtain ⟨pcb', hExec, hOut⟩ := removeChild_leaves h.toFamily trivial hList
          exact ⟨pcb', .pcb (some p), _, by simp [treeExec, hExec],
            hOut.tree h trivial hParent hList⟩
  | outChild p =>
      cases hParent : pcb.p_prnt p with
      | none => exact ⟨pcb, .pcb none, children, by simp [treeExec, outChild_root fuel hParent], h⟩
      | some q =>
          have hMem : p ∈ children q := (h.mem_iff q trivial p).mpr ⟨trivial, hParent⟩
          obtain ⟨pre, post, hList⟩ := List.append_of_mem hMem
          have hLength : (children q).length ≤ fuel :=
            (h.chain q trivial).nodup.length_le_card.trans hFuel
          obtain ⟨pcb', hExec, hOut⟩ := outChild_leaves h.toFamily trivial hParent hList hLength
          exact ⟨pcb', .pcb (some p), _, by rw [treeExec, hExec]; rfl,
            hOut.tree h trivial hParent hList⟩

/-- In every run over freshly allocated blocks the links form a forest, and every
call that the contract allows next completes. -/
theorem processTree_run [Fintype P] (hFuel : Fintype.card P ≤ fuel) {start : PcbTable P}
    (hStart : start.FreshTree) {trace : List (TreeCall P × Reply P)}
    (run : (treeSystem fuel).Run start trace pcb) :
    ∃ children : P → List P,
      (∀ q, Chain pcb.p_sib (pcb.p_child q) (children q) ∧ (children q).Nodup ∧
        ∀ p, p ∈ children q ↔ pcb.p_prnt p = some q) ∧
      (∀ p, pcb.p_prnt p = none → pcb.p_sib p = none ∧ ∀ q, p ∉ children q) ∧
      (∀ p, ∃ l, Chain pcb.p_prnt (some p) l) ∧
      ∀ call, (treeSystem fuel).Legal pcb call →
        ∃ pcb' reply, (treeSystem fuel).exec pcb call = .ok (pcb', reply) := by
  have hInv : ∃ children, pcb.WholeTree children := by
    refine run.invariant (fun s => ∃ children, s.WholeTree children)
      (fun s call t reply hs legal hExec => ?_) ⟨_, hStart.tree⟩
    obtain ⟨children, h⟩ := hs
    obtain ⟨t', reply', children', hExec', hTree⟩ := WholeTree.step h hFuel legal
    cases hExec.symm.trans hExec'
    exact ⟨children', hTree⟩
  obtain ⟨children, h⟩ := hInv
  refine ⟨children, fun q => ⟨h.chain q trivial, (h.chain q trivial).nodup, ?_⟩, ?_, ?_, ?_⟩
  · intro p
    simpa using h.mem_iff q trivial p
  · intro p hRoot
    exact ⟨h.orphan p trivial hRoot, fun q => h.not_mem_of_root trivial hRoot⟩
  · intro p
    exact h.rooted p trivial
  · intro call legal
    obtain ⟨pcb', reply, -, hExec, -⟩ := WholeTree.step h hFuel legal
    exact ⟨pcb', reply, hExec⟩

/-- Two children of one block, the older of which is then taken out. -/
theorem processTree_run_three :
    ∃ (pcb : PcbTable (Fin 3)) (children : Fin 3 → List (Fin 3)),
      Chain pcb.p_sib (pcb.p_child 0) (children 0) ∧ children 0 = [2] ∧ pcb.p_prnt 1 = none := by
  let fresh : PcbTable (Fin 3) := ⟨fun _ => none, fun _ => none, fun _ => none, fun _ => none,
    fun _ => 0, fun _ => 0⟩
  have hRoot (pcb : PcbTable (Fin 3)) (h : pcb.p_prnt 0 = none) (p : Fin 3) (hp : p ≠ 0) :
      ¬Reach pcb.p_prnt (some 0) p := by
    rw [Chain.reach_iff (l := [0]) ⟨rfl, h⟩]
    simpa using hp
  obtain ⟨pcb, run, hChild, hSib, hParent⟩ : ∃ pcb, (treeSystem 3).Run fresh
      [(.insertChild 0 1, .done), (.insertChild 0 2, .done), (.outChild 1, .pcb (some 1))] pcb ∧
      pcb.p_child 0 = some 2 ∧ pcb.p_sib 2 = none ∧ pcb.p_prnt 1 = none :=
    ⟨_, .cons ⟨rfl, hRoot _ rfl 1 (by decide)⟩ rfl <|
      .cons ⟨rfl, hRoot _ rfl 2 (by decide)⟩ rfl <| .cons trivial rfl (.nil _), rfl, rfl, rfl⟩
  obtain ⟨children, hForest, -⟩ := processTree_run (by decide) ⟨fun _ => rfl, fun _ => rfl,
    fun _ => rfl⟩ run
  have hTwo : Chain pcb.p_sib (pcb.p_child 0) [2] := ⟨hChild, hSib⟩
  exact ⟨pcb, children, (hForest 0).1, (hForest 0).1.unique hTwo, hParent⟩

end PcbTable

end Nucleus
