import Nucleus.Linked.Forest
import Nucleus.Pcb.Basic

/-! Process trees: the functions of `pcb.c` on parent, first-child and sibling
links, and what each of them does to a well-formed forest. -/
namespace Nucleus

open Function (update)
open Linked Semantics

variable {P : Type}

def emptyChild (pcb : PcbTable P) (p : Option P) : Outcome Bool := do
  let q ← deref p
  match pcb.p_child q with
  | none => return true
  | some _ => return false

section Code

variable [DecidableEq P]

def insertChild (pcb : PcbTable P) (prnt p : Option P) : Outcome (PcbTable P) := do
  let q ← deref p
  let r ← deref prnt
  let pcb := pcb.setSib q (pcb.p_child r)
  let pcb := pcb.setChild r p
  let pcb := pcb.setPrnt q prnt
  return pcb

/-- The result is the table and the returned pointer. -/
def removeChild (pcb : PcbTable P) (p : Option P) : Outcome (PcbTable P × Option P) := do
  if !(← emptyChild pcb p) then
    let q ← deref p
    let temp := pcb.p_child q
    let t ← deref temp
    let pcb := pcb.setChild q (pcb.p_sib t)
    let pcb := pcb.setPrnt t none
    let pcb := pcb.setSib t none
    return (pcb, temp)
  else
    return (pcb, none)

/-- One pass of the `while` of `outChild`. -/
def outChildSearch (pcb : PcbTable P) (p tmp : Option P) : Outcome (Option P ⊕ P) := do
  let t ← deref tmp
  if pcb.p_sib t ≠ p then
    return .inl (pcb.p_sib t)
  else
    return .inr t

def outChild (fuel : ℕ) (pcb : PcbTable P) (p : Option P) :
    Outcome (PcbTable P × Option P) := do
  let q ← deref p
  match pcb.p_prnt q with
  | none => return (pcb, none)
  | some r =>
      if pcb.p_child r = p then
        removeChild pcb (pcb.p_prnt q)
      else
        let tmp ← loop (outChildSearch pcb p) fuel (pcb.p_child r)
        let pcb := pcb.setSib tmp (pcb.p_sib q)
        let pcb := pcb.setPrnt q none
        let pcb := pcb.setSib q none
        return (pcb, p)

end Code

/-- The tree links of the live blocks agree with these lists of children. -/
abbrev PcbTable.Kin (pcb : PcbTable P) (live : P → Prop) (children : P → List P) : Prop :=
  Family live pcb.p_prnt pcb.p_child pcb.p_sib children

/-- The tree links of the live blocks form a forest with these children. -/
abbrev PcbTable.Tree (pcb : PcbTable P) (live : P → Prop) (children : P → List P) : Prop :=
  Forest live pcb.p_prnt pcb.p_child pcb.p_sib children

section Spec

variable {pcb : PcbTable P} {live : P → Prop} {children : P → List P} {p q : P}

theorem emptyChild_some (pcb : PcbTable P) (p : P) :
    emptyChild pcb (some p) = .ok (pcb.p_child p).isNone := by
  cases hChild : pcb.p_child p <;> simp [emptyChild, hChild]

variable [DecidableEq P]

theorem insertChild_kin (h : pcb.Kin live children) (hp : live p) (hq : live q)
    (hRoot : pcb.p_prnt p = none) :
    ∃ pcb', insertChild pcb (some q) (some p) = .ok pcb' ∧
      pcb'.Kin live (update children q (p :: children q)) ∧
      pcb'.p_prnt = update pcb.p_prnt p (some q) :=
  ⟨_, rfl, h.attach hp hq hRoot, rfl⟩

theorem insertChild_attach (h : pcb.Tree live children) (hp : live p) (hq : live q)
    (hRoot : pcb.p_prnt p = none) (hAcyclic : ¬Reach pcb.p_prnt (some q) p) :
    ∃ pcb', insertChild pcb (some q) (some p) = .ok pcb' ∧
      pcb'.Tree live (update children q (p :: children q)) :=
  ⟨_, rfl, h.attach hp hq hRoot hAcyclic⟩

theorem removeChild_none (h : pcb.p_child q = none) :
    removeChild pcb (some q) = .ok (pcb, none) := by
  simp [removeChild, emptyChild, h]

theorem removeChild_some (h : pcb.p_child q = some p) :
    removeChild pcb (some q) =
      .ok (((pcb.setChild q (pcb.p_sib p)).setPrnt p none).setSib p none, some p) := by
  simp [removeChild, emptyChild, h]

/-- `p` is no longer between `pre` and `post` among the children of `q`. Of the links
of the others only the one that led to `p` has changed. -/
structure ChildOut (pcb : PcbTable P) (q p : P) (pre post : List P) (pcb' : PcbTable P) :
    Prop where
  chain : Chain pcb'.p_sib (pcb'.p_child q) (pre ++ post)
  p_prnt : pcb'.p_prnt = update pcb.p_prnt p none
  p_child : ∀ r, r ≠ q ∨ pre ≠ [] → pcb'.p_child r = pcb.p_child r
  p_sib : pcb'.p_sib p = none
  sib : ∀ x, x ≠ p → pre.getLast? ≠ some x → pcb'.p_sib x = pcb.p_sib x
  rest : pcb' = { pcb with
    p_prnt := pcb'.p_prnt, p_child := pcb'.p_child, p_sib := pcb'.p_sib }

namespace ChildOut

variable {pcb' : PcbTable P} {pre post : List P}

theorem sib_outside (h : ChildOut pcb q p pre post pcb') (hList : children q = pre ++ p :: post)
    {x : P} (hx : x ∉ children q) : pcb'.p_sib x = pcb.p_sib x := by
  apply h.sib x
  · rintro rfl
    exact hx (by simp [hList])
  · intro hLast
    exact hx (by simp [hList, List.mem_of_getLast? hLast])

theorem kin (h : ChildOut pcb q p pre post pcb') (hKin : pcb.Kin live children) (hp : live p)
    (hParent : pcb.p_prnt p = some q) (hList : children q = pre ++ p :: post) :
    pcb'.Kin live (update children q (pre ++ post)) := by
  have hErase := hKin.erase_child (hKin.closed p q hp hParent) hList
  rw [PcbTable.Kin, h.p_prnt, ← hErase]
  apply hKin.detach hp hParent (hErase ▸ h.chain)
  · exact fun r hr => h.p_child r (.inl hr)
  · exact fun x hx => h.sib_outside hList hx

theorem tree (h : ChildOut pcb q p pre post pcb') (hTree : pcb.Tree live children) (hp : live p)
    (hParent : pcb.p_prnt p = some q) (hList : children q = pre ++ p :: post) :
    pcb'.Tree live (update children q (pre ++ post)) := by
  have hErase := hTree.erase_child (hTree.closed p q hp hParent) hList
  rw [PcbTable.Tree, h.p_prnt, ← hErase]
  apply hTree.detach hp hParent h.p_sib (hErase ▸ h.chain)
  · exact fun r hr => h.p_child r (.inl hr)
  · exact fun x hx => h.sib_outside hList hx

end ChildOut

/-- The first child leaves through the link of its parent. -/
theorem removeChild_leaves {rest : List P} (h : pcb.Kin live children) (hq : live q)
    (hList : children q = p :: rest) :
    ∃ pcb', removeChild pcb (some q) = .ok (pcb', some p) ∧ ChildOut pcb q p [] rest pcb' := by
  have hChain := h.chain q hq
  rw [hList] at hChain
  have hp : p ∉ rest := (List.nodup_cons.mp hChain.nodup).1
  obtain ⟨hFirst, hRest⟩ := hChain
  refine ⟨_, removeChild_some hFirst, ?_, ?_, ?_, ?_, ?_, rfl⟩
  · simp only [PcbTable.setSib_p_child, PcbTable.setPrnt_p_child, PcbTable.setChild_p_child,
      Function.update_self, List.nil_append]
    refine hRest.congr fun y hy => ?_
    exact Function.update_of_ne (ne_of_mem_of_not_mem hy hp) ..
  · rfl
  · intro r hr
    have hrq : r ≠ q := hr.resolve_right fun hNil => hNil rfl
    exact Function.update_of_ne hrq ..
  · exact Function.update_self ..
  · intro x hx _
    exact Function.update_of_ne hx ..

theorem outChildSearch_pass {w w' : P} (hSib : pcb.p_sib w = some w') (hp : w' ≠ p) :
    outChildSearch pcb (some p) (some w) = .ok (.inl (some w')) := by
  simp [outChildSearch, hSib, hp]

/-- The search of `outChild` has no test for NULL. It stops because `p` is on the
chain of its parent. -/
theorem outChild_search {u : P} {pre post : List P}
    (h : Chain pcb.p_sib (pcb.p_child q) (u :: (pre ++ p :: post))) {fuel : ℕ}
    (hFuel : pre.length < fuel) :
    ∃ l v, u :: pre = l ++ [v] ∧
      loop (outChildSearch pcb (some p)) fuel (pcb.p_child q) = .ok v := by
  have hpPre : p ∉ pre := Chain.not_mem_prefix h.2
  have hPass (w w' : P) (hw' : w' ∈ pre) (hNext : pcb.p_sib w = some w') :
      outChildSearch pcb (some p) (some w) = .ok (.inl (some w')) := by
    apply outChildSearch_pass hNext
    rintro rfl
    exact hpPre hw'
  obtain ⟨l, v, hList, -, hLoop⟩ := Seg.search some id h hPass
    (fun w hw => by simp [outChildSearch, hw.1]) fuel hFuel
  refine ⟨l, v, hList, ?_⟩
  rw [h.1]
  exact hLoop

/-- Any other child leaves through the link of the sibling before it. -/
theorem outChild_inner {u : P} {pre post : List P}
    (h : Chain pcb.p_sib (pcb.p_child q) (u :: pre ++ p :: post))
    (hParent : pcb.p_prnt p = some q) {fuel : ℕ} (hFuel : pre.length < fuel) :
    ∃ pcb', outChild fuel pcb (some p) = .ok (pcb', some p) ∧
      ChildOut pcb q p (u :: pre) post pcb' := by
  obtain ⟨l, v, hSplit, hLoop⟩ := outChild_search h hFuel
  have hFirst : pcb.p_child q ≠ some p := by
    rw [h.1]
    rintro hEq
    exact Chain.not_mem_prefix h (by simp [Option.some.inj hEq])
  rw [hSplit] at h ⊢
  have hPath : Chain pcb.p_sib (pcb.p_child q) (l ++ v :: p :: post) := by simpa using h
  have hNodup := hPath.nodup
  have hvp : v ≠ p := by
    rintro rfl
    exact Chain.not_mem_prefix h (by simp)
  refine ⟨((pcb.setSib v (pcb.p_sib p)).setPrnt p none).setSib p none, ?_, ?_, rfl, ?_, ?_, ?_,
    rfl⟩
  · simp [outChild, hParent, hFirst, hLoop]
  · rw [List.append_assoc]
    apply hPath.unlink
    · simp [Function.update_of_ne hvp]
    · intro y hy
      obtain ⟨hyv, hyp⟩ := ne_of_mem_around hNodup hy
      simp [Function.update_of_ne hyv, Function.update_of_ne hyp]
  · exact fun r _ => rfl
  · exact Function.update_self ..
  · intro x hx hLast
    have hxv : x ≠ v := by
      rintro rfl
      simp at hLast
    simp [Function.update_of_ne hx, Function.update_of_ne hxv]

/-- `outChild` takes a block out of the children of its parent, by either path. -/
theorem outChild_leaves {pre post : List P} (h : pcb.Kin live children) (hq : live q)
    (hParent : pcb.p_prnt p = some q) (hList : children q = pre ++ p :: post) {fuel : ℕ}
    (hFuel : (children q).length ≤ fuel) :
    ∃ pcb', outChild fuel pcb (some p) = .ok (pcb', some p) ∧
      ChildOut pcb q p pre post pcb' := by
  have hChain := h.chain q hq
  cases pre with
  | nil =>
      obtain ⟨pcb', hExec, hOut⟩ := removeChild_leaves h hq hList
      rw [hList] at hChain
      have hFirst : pcb.p_child q = some p := hChain.1
      refine ⟨pcb', ?_, hOut⟩
      simp [outChild, hParent, hFirst, hExec]
  | cons u pre =>
      rw [hList] at hChain
      exact outChild_inner hChain hParent (by simp [hList] at hFuel; omega)

/-- Tree functions leave the queue links alone. -/
theorem removeChild_p_next {q : Option P} {result : PcbTable P × Option P}
    (h : removeChild pcb q = .ok result) : result.1.p_next = pcb.p_next := by
  cases q with
  | none => cases h
  | some q =>
      cases hChild : pcb.p_child q with
      | none =>
          rw [removeChild_none hChild] at h
          cases h
          rfl
      | some c =>
          rw [removeChild_some hChild] at h
          cases h
          rfl

theorem outChild_p_next {p : Option P} {result : PcbTable P × Option P} {fuel : ℕ}
    (h : outChild fuel pcb p = .ok result) : result.1.p_next = pcb.p_next := by
  obtain ⟨q, -, h⟩ := Outcome.bind_eq_ok.mp h
  cases hParent : pcb.p_prnt q with
  | none =>
      simp only [hParent] at h
      cases h
      rfl
  | some r =>
      simp only [hParent] at h
      split at h
      · exact removeChild_p_next h
      · obtain ⟨tmp, -, h⟩ := Outcome.bind_eq_ok.mp h
        cases h
        rfl

theorem outChild_root (fuel : ℕ) (h : pcb.p_prnt p = none) :
    outChild fuel pcb (some p) = .ok (pcb, none) := by
  simp [outChild, h]

/-- After `outChild` the block is nobody's child, and no other block has lost a
child or its parent. -/
theorem outChild_leave (h : pcb.Kin live children) (hp : live p) {fuel : ℕ}
    (hFuel : ∀ q, pcb.p_prnt p = some q → (children q).length ≤ fuel) :
    ∃ pcb' r, outChild fuel pcb (some p) = .ok (pcb', r) ∧
      (∀ x, x ≠ p → pcb'.p_prnt x = pcb.p_prnt x) ∧
      ∀ q, live q → Chain pcb'.p_sib (pcb'.p_child q) ((children q).erase p) := by
  cases hParent : pcb.p_prnt p with
  | none =>
      refine ⟨pcb, none, outChild_root fuel hParent, fun _ _ => rfl, fun q hq => ?_⟩
      rw [List.erase_of_not_mem (h.not_mem_of_root hq hParent)]
      exact h.chain q hq
  | some r =>
      have hr := h.closed p r hp hParent
      obtain ⟨pre, post, hList⟩ := List.append_of_mem ((h.mem_iff r hr p).mpr ⟨hp, hParent⟩)
      obtain ⟨pcb', hExec, hOut⟩ := outChild_leaves h hr hParent hList (hFuel r hParent)
      have hKin := hOut.kin h hp hParent hList
      refine ⟨pcb', some p, hExec, fun x hx => ?_, fun q hq => ?_⟩
      · rw [hOut.p_prnt, Function.update_of_ne hx]
      · have hChain := hKin.chain q hq
        by_cases hqr : q = r
        · subst hqr
          rwa [h.erase_child hq hList, ← Function.update_self q (pre ++ post) children]
        · have hNot : p ∉ children q := by
            rw [h.mem_iff q hq, hParent]
            rintro ⟨-, hEq⟩
            exact hqr (Option.some.inj hEq).symm
          rw [Function.update_of_ne hqr] at hChain
          rwa [List.erase_of_not_mem hNot]

end Spec

end Nucleus
