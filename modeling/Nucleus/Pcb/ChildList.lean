import Nucleus.Pcb.TreeRuns

/-! The children of a block as a list, the last inserted first. What `insertChild`
puts in front, `removeChild` takes from there and `outChild` from anywhere. -/
namespace Nucleus

open Function (update)
open Linked Semantics

variable {P : Type} [DecidableEq P]

/-- A sequence of calls of `insertChild` for one parent. -/
def insertChildren (pcb : PcbTable P) (prnt : Option P) (l : List P) : Outcome (PcbTable P) :=
  l.foldlM (fun pcb p => insertChild pcb prnt (some p)) pcb

namespace PcbTable

/-- `p` has left its place between `pre` and `post` among the children of `q` and has
kept its own children. The other blocks are still a forest. -/
structure Taken (pcb : PcbTable P) (live : P → Prop) (children : P → List P) (q p : P)
    (pre post : List P) (pcb' : PcbTable P) : Prop extends ChildOut pcb q p pre post pcb' where
  tree : pcb'.Tree live (update children q (pre ++ post))
  first : pcb'.p_child p = pcb.p_child p
  own : Chain pcb'.p_sib (pcb'.p_child p) (children p)

/-- What every function does to the list of the children of `q`. Only parentless blocks
are inserted, so those inserted one after the other are distinct. -/
structure ListBehaves (pcb : PcbTable P) (live : P → Prop) (children : P → List P) (q : P) :
    Prop where
  inserts : ∀ p, live p → pcb.p_prnt p = none →
    ∃ pcb', insertChild pcb (some q) (some p) = .ok pcb' ∧
      pcb'.Kin live (update children q (p :: children q)) ∧
      (¬Reach pcb.p_prnt (some q) p → pcb'.Tree live (update children q (p :: children q)))
  empty : removeChild pcb (some q) = .ok (pcb, none) ↔ children q = []
  removes : ∀ p rest, children q = p :: rest →
    ∃ pcb', removeChild pcb (some q) = .ok (pcb', some p) ∧
      Taken pcb live children q p [] rest pcb'
  takes : ∀ pre p post, children q = pre ++ p :: post →
    Returns (fun fuel => outChild fuel pcb (some p)) fun r =>
      r.2 = some p ∧ Taken pcb live children q p pre post r.1
  forgets : ∀ p l, (p :: l).Nodup → (∀ r ∈ p :: l, live r ∧ pcb.p_prnt r = none) →
    ∃ pcb', insertChildren pcb (some q) l = .ok pcb' ∧
      pcb'.Kin live (update children q (l.reverse ++ children q)) ∧
      Returns (fun fuel => do
          let pcb ← insertChildren pcb (some q) (p :: l)
          outChild fuel pcb (some p)) fun r =>
        r.2 = some p ∧ r.1.Kin live (update children q (l.reverse ++ children q))

variable {pcb : PcbTable P} {live : P → Prop} {children : P → List P} {p q : P}
  {pre post l : List P}

theorem Tree.taken {pcb' : PcbTable P} (h : pcb.Tree live children) (hq : live q)
    (hList : children q = pre ++ p :: post) (hOut : ChildOut pcb q p pre post pcb') :
    Taken pcb live children q p pre post pcb' := by
  obtain ⟨hp, hParent⟩ := (h.mem_iff q hq p).mp (by simp [hList])
  have hpq : p ≠ q := h.parent_ne hp hParent
  have hTree := hOut.tree h hp hParent hList
  refine ⟨hOut, hTree, hOut.p_child p (.inl hpq), ?_⟩
  have hChain := hTree.chain p hp
  rwa [Function.update_of_ne hpq] at hChain

/-- Each insertion puts a block in front of those inserted before it. -/
theorem insertChildren_kin (h : pcb.Kin live children) (hq : live q) (hNodup : l.Nodup)
    (hRoots : ∀ r ∈ l, live r ∧ pcb.p_prnt r = none) :
    ∃ pcb', insertChildren pcb (some q) l = .ok pcb' ∧
      pcb'.Kin live (update children q (l.reverse ++ children q)) := by
  induction l generalizing pcb children with
  | nil => exact ⟨pcb, rfl, by simpa using h⟩
  | cons p l ih =>
      obtain ⟨hNot, hRest⟩ := List.nodup_cons.mp hNodup
      obtain ⟨hp, hRoot⟩ := hRoots p (List.mem_cons_self ..)
      obtain ⟨pcb₁, hFirst, hKin, hParent⟩ := insertChild_kin h hp hq hRoot
      have hLater (r : P) (hr : r ∈ l) : live r ∧ pcb₁.p_prnt r = none := by
        rw [hParent, Function.update_of_ne (ne_of_mem_of_not_mem hr hNot)]
        exact hRoots r (List.mem_cons_of_mem _ hr)
      obtain ⟨pcb', hExec, hAll⟩ := ih hKin hRest hLater
      refine ⟨pcb', ?_, ?_⟩
      · simp only [insertChildren, List.foldlM_cons, hFirst, Outcome.ok_bind]
        exact hExec
      · simpa using hAll

/-- Taking out a block that was inserted earlier gives the lists without it. -/
theorem outChild_forgets (h : pcb.Kin live children) (hq : live q) (hNodup : (p :: l).Nodup)
    (hRoots : ∀ r ∈ p :: l, live r ∧ pcb.p_prnt r = none) :
    Returns (fun fuel => do
        let pcb ← insertChildren pcb (some q) (p :: l)
        outChild fuel pcb (some p)) fun r =>
      r.2 = some p ∧ r.1.Kin live (update children q (l.reverse ++ children q)) := by
  obtain ⟨u, hInsert, hKin⟩ := insertChildren_kin h hq hNodup hRoots
  have hList : update children q ((p :: l).reverse ++ children q) q =
      l.reverse ++ p :: children q := by simp
  obtain ⟨hp, hParent⟩ := (hKin.mem_iff q hq p).mp (by simp)
  refine ⟨(l.reverse ++ p :: children q).length, fun fuel hFuel => ?_⟩
  obtain ⟨pcb', hExec, hOut⟩ := outChild_leaves hKin hq hParent hList (hList ▸ hFuel)
  refine ⟨(pcb', some p), by simp only [hInsert, Outcome.ok_bind, hExec], rfl, ?_⟩
  simpa using hOut.kin hKin hp hParent hList

/-- The children of every block behave as a list with the last inserted first, and
a parentless block is in none of the lists. -/
theorem children_behave (h : pcb.Tree live children) :
    (∀ q, live q → pcb.ListBehaves live children q) ∧
      ∀ p, pcb.p_prnt p = none →
        Returns (fun fuel => outChild fuel pcb (some p)) fun r => r = (pcb, none) := by
  refine ⟨fun q hq => ⟨?_, ?_, ?_, ?_, ?_⟩, ?_⟩
  · intro p hp hRoot
    obtain ⟨pcb', hExec, hKin, -⟩ := insertChild_kin h.toFamily hp hq hRoot
    refine ⟨pcb', hExec, hKin, fun hAcyclic => ?_⟩
    obtain ⟨t, hSame, hTree⟩ := insertChild_attach h hp hq hRoot hAcyclic
    cases hSame.symm.trans hExec
    exact hTree
  · rw [h.children_eq_nil_iff hq]
    constructor
    · intro hExec
      cases hChild : pcb.p_child q with
      | none => rfl
      | some c => simp [removeChild_some hChild] at hExec
    · exact removeChild_none
  · intro p rest hList
    obtain ⟨pcb', hExec, hOut⟩ := removeChild_leaves h.toFamily hq hList
    exact ⟨pcb', hExec, h.taken hq hList hOut⟩
  · intro pre p post hList
    have hParent := ((h.mem_iff q hq p).mp (by simp [hList])).2
    refine ⟨(children q).length, fun fuel hFuel => ?_⟩
    obtain ⟨pcb', hExec, hOut⟩ := outChild_leaves h.toFamily hq hParent hList hFuel
    exact ⟨_, hExec, rfl, h.taken hq hList hOut⟩
  · intro p l hNodup hRoots
    have hRest (r : P) (hr : r ∈ l) := hRoots r (List.mem_cons_of_mem _ hr)
    obtain ⟨pcb', hExec, hKin⟩ :=
      insertChildren_kin h.toFamily hq (List.nodup_cons.mp hNodup).2 hRest
    exact ⟨pcb', hExec, hKin, outChild_forgets h.toFamily hq hNodup hRoots⟩
  · intro p hRoot
    exact ⟨0, fun fuel _ => ⟨_, outChild_root fuel hRoot, rfl⟩⟩

/-- Two children of one block. -/
theorem children_behave_two :
    ∃ (pcb : PcbTable (Fin 3)) (children : Fin 3 → List (Fin 3)), pcb.WholeTree children ∧
      children 0 = [2, 1] ∧ pcb.ListBehaves (fun _ => True) children 0 := by
  let fresh : PcbTable (Fin 3) := ⟨fun _ => none, fun _ => none, fun _ => none, fun _ => none,
    fun _ => 0, fun _ => 0⟩
  have hFresh : fresh.FreshTree := ⟨fun _ => rfl, fun _ => rfl, fun _ => rfl⟩
  have hAbove (prnt : Fin 3 → Option (Fin 3)) (h : prnt 0 = none) (p : Fin 3) (hp : p ≠ 0) :
      ¬Reach prnt (some 0) p := by
    rw [Chain.reach_iff (l := [0]) ⟨rfl, h⟩]
    simpa using hp
  have hOne := hFresh.tree.attach (p := 1) (q := 0) trivial trivial rfl
    (hAbove _ rfl 1 (by decide))
  have hTwo := hOne.attach (p := 2) (q := 0) trivial trivial rfl (hAbove _ rfl 2 (by decide))
  have hTree : WholeTree ⟨fresh.p_next, _, _, _, fresh.p_s, fresh.p_semAdd⟩ _ := hTwo
  exact ⟨_, _, hTree, rfl, (children_behave hTree).1 0 trivial⟩

end PcbTable

end Nucleus
