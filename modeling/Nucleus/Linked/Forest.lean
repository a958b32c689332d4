import Mathlib.Logic.Function.Basic
import Nucleus.Linked.Segment

/-! Forests in the first-child, next-sibling representation with parent links.
The parent links and the child chains say the same thing twice. The cells that
take part are those of `live`; the links of the others are left unspecified. -/
namespace Linked

open Function (update)

variable {α : Type*} {live : α → Prop} {parent child sib : α → Option α}
  {children : α → List α} {p q : α}

/-- The chain that starts at the first child of `q` and goes on through the
sibling links lists exactly the live cells whose parent is `q`, and a live cell
has a live parent. -/
structure Family (live : α → Prop) (parent child sib : α → Option α)
    (children : α → List α) : Prop where
  chain : ∀ q, live q → Chain sib (child q) (children q)
  mem_iff : ∀ q, live q → ∀ p, p ∈ children q ↔ live p ∧ parent p = some q
  closed : ∀ p q, live p → parent p = some q → live q

/-- A family whose roots have no siblings and in which climbing from any cell
comes to an end. -/
structure Forest (live : α → Prop) (parent child sib : α → Option α)
    (children : α → List α) : Prop extends Family live parent child sib children where
  orphan : ∀ p, live p → parent p = none → sib p = none
  rooted : ∀ p, live p → ∃ l, Chain parent (some p) l

/-- A family in which climbing from any cell comes to the same root. -/
structure Tree (live : α → Prop) (parent child sib : α → Option α)
    (children : α → List α) (root : α) : Prop extends Family live parent child sib children where
  top : parent root = none
  climb : ∀ p, live p → Reach parent (some p) root

namespace Family

theorem of_iff {live' : α → Prop} (h : Family live parent child sib children)
    (hLive : ∀ p, live' p ↔ live p) : Family live' parent child sib children := by
  have hEq : live' = live := funext fun p => propext (hLive p)
  rw [hEq]
  exact h

theorem children_eq_nil_iff (h : Family live parent child sib children) (hq : live q) :
    children q = [] ↔ child q = none :=
  (h.chain q hq).eq_nil_iff

theorem not_mem_of_root (h : Family live parent child sib children) (hq : live q)
    (hRoot : parent p = none) : p ∉ children q := by
  intro hp
  have hParent := ((h.mem_iff q hq p).mp hp).2
  rw [hRoot] at hParent
  cases hParent

theorem live_of_reach (h : Family live parent child sib children) (hp : live p)
    (hReach : Reach parent (some p) q) : live q :=
  hReach.invariant (fun _ hy => Option.some.inj hy ▸ hp) fun y z => h.closed y z

/-- Cells without parent and child are roots. -/
theorem roots (hParent : ∀ p, live p → parent p = none) (hChild : ∀ p, live p → child p = none) :
    Family live parent child sib fun _ => [] where
  chain q hq := hChild q hq
  mem_iff q _ p := by
    constructor
    · intro hp
      cases hp
    · intro hp
      cases (hParent p hp.1).symm.trans hp.2
  closed p _ hp hLink := by cases (hParent p hp).symm.trans hLink

section Update

variable [DecidableEq α]

theorem erase_child {pre post : List α} (h : Family live parent child sib children) (hq : live q)
    (hList : children q = pre ++ p :: post) : (children q).erase p = pre ++ post := by
  have hChain := h.chain q hq
  rw [hList] at hChain ⊢
  exact hChain.erase_middle

/-- A root becomes the first child of a cell. -/
theorem attach (h : Family live parent child sib children) (hp : live p) (hq : live q)
    (hRoot : parent p = none) :
    Family live (update parent p (some q)) (update child q (some p)) (update sib p (child q))
      (update children q (p :: children q)) := by
  have hSib (r : α) (hr : live r) : Chain (update sib p (child q)) (child r) (children r) := by
    refine (h.chain r hr).congr fun y hy => ?_
    apply Function.update_of_ne
    rintro rfl
    exact h.not_mem_of_root hr hRoot hy
  refine ⟨?_, ?_, ?_⟩
  · intro r hr
    by_cases hrq : r = q
    · subst hrq
      simp only [Function.update_self]
      exact ⟨rfl, by simpa using hSib r hr⟩
    · simpa [Function.update_of_ne hrq] using hSib r hr
  · intro r hr x
    by_cases hxp : x = p
    · subst hxp
      by_cases hrq : r = q
      · subst hrq
        simp [hp]
      · simp [Function.update_of_ne hrq, h.not_mem_of_root hr hRoot, Ne.symm hrq]
    · by_cases hrq : r = q
      · subst hrq
        simp [hxp, h.mem_iff r hr x]
      · simp [Function.update_of_ne hrq, Function.update_of_ne hxp, h.mem_iff r hr x]
  · intro x r hx hParent
    by_cases hxp : x = p
    · subst hxp
      rw [Function.update_self] at hParent
      exact Option.some.inj hParent ▸ hq
    · rw [Function.update_of_ne hxp] at hParent
      exact h.closed x r hx hParent

/-- A child leaves its parent: its parent link is cleared and the sibling chain of
the parent closes over it. -/
theorem detach {child' sib' : α → Option α} (h : Family live parent child sib children)
    (hp : live p) (hParent : parent p = some q)
    (hChain : Chain sib' (child' q) ((children q).erase p))
    (hChild : ∀ r, r ≠ q → child' r = child r)
    (hSib : ∀ x, x ∉ children q → sib' x = sib x) :
    Family live (update parent p none) child' sib'
      (update children q ((children q).erase p)) := by
  have hq : live q := h.closed p q hp hParent
  have hNodup : (children q).Nodup := (h.chain q hq).nodup
  refine ⟨?_, ?_, ?_⟩
  · intro r hr
    by_cases hrq : r = q
    · subst hrq
      simpa using hChain
    · rw [Function.update_of_ne hrq, hChild r hrq]
      refine (h.chain r hr).congr fun y hy => hSib y fun hyq => ?_
      have hr' := ((h.mem_iff r hr y).mp hy).2
      rw [((h.mem_iff q hq y).mp hyq).2] at hr'
      exact hrq (Option.some.inj hr').symm
  · intro r hr x
    by_cases hxp : x = p
    · subst hxp
      by_cases hrq : r = q
      · subst hrq
        simp [hNodup.mem_erase_iff]
      · have hNot : x ∉ children r := by
          rw [h.mem_iff r hr, hParent]
          rintro ⟨-, hEq⟩
          exact hrq (Option.some.inj hEq).symm
        simp [Function.update_of_ne hrq, hNot]
    · by_cases hrq : r = q
      · subst hrq
        simp [hNodup.mem_erase_iff, hxp, h.mem_iff r hr x]
      · simp [Function.update_of_ne hrq, Function.update_of_ne hxp, h.mem_iff r hr x]
  · intro x r hx hxr
    by_cases hxp : x = p
    · subst hxp
      simp at hxr
    · rw [Function.update_of_ne hxp] at hxr
      exact h.closed x r hx hxr

/-- A new cell with cleared links enters as a root without children. -/
theorem grow (h : Family live parent child sib children) (hNew : ¬live p) :
    Family (fun x => x = p ∨ live x) (update parent p none) (update child p none)
      (update sib p none) (update children p []) := by
  have hne (x : α) (hx : live x) : x ≠ p := by
    rintro rfl
    exact hNew hx
  refine ⟨?_, ?_, ?_⟩
  · rintro r (rfl | hr)
    · simp
    · rw [Function.update_of_ne (hne r hr), Function.update_of_ne (hne r hr)]
      refine (h.chain r hr).congr fun y hy => ?_
      exact Function.update_of_ne (hne y ((h.mem_iff r hr y).mp hy).1) ..
  · intro r hr x
    by_cases hxp : x = p
    · subst hxp
      by_cases hrp : r = x
      · simp [hrp]
      · have hNot : x ∉ children r := by
          rw [h.mem_iff r (hr.resolve_left hrp)]
          exact fun hx => hNew hx.1
        simp [Function.update_of_ne hrp, hNot]
    · by_cases hrp : r = p
      · subst hrp
        have hNot : ¬(live x ∧ parent x = some r) := fun hx => hNew (h.closed x r hx.1 hx.2)
        simpa [Function.update_of_ne hxp, hxp] using hNot
      · rw [Function.update_of_ne hrp, Function.update_of_ne hxp,
          h.mem_iff r (hr.resolve_left hrp)]
        simp [hxp]
  · rintro x r (rfl | hx) hParent
    · simp at hParent
    · rw [Function.update_of_ne (hne x hx)] at hParent
      exact .inr (h.closed x r hx hParent)

end Update

end Family

namespace Forest

/-- Cells without links are roots. -/
theorem roots (hParent : ∀ p, live p → parent p = none) (hChild : ∀ p, live p → child p = none)
    (hSib : ∀ p, live p → sib p = none) : Forest live parent child sib fun _ => [] where
  toFamily := .roots hParent hChild
  orphan p hp _ := hSib p hp
  rooted p hp := ⟨[p], rfl, hParent p hp⟩

/-- No cell is its own parent. -/
theorem parent_ne (h : Forest live parent child sib children) (hp : live p)
    (hParent : parent p = some q) : p ≠ q := by
  rintro rfl
  obtain ⟨l, hl⟩ := h.rooted p hp
  cases l with
  | nil => cases hl
  | cons x l =>
      cases Option.some.inj hl.1
      have hRest := hl.2
      rw [hParent] at hRest
      have hSame : l = p :: l := Chain.unique hRest hl
      simpa using congrArg List.length hSame

section Update

variable [DecidableEq α]

/-- A root becomes the first child of a cell outside its own tree. -/
theorem attach (h : Forest live parent child sib children) (hp : live p) (hq : live q)
    (hRoot : parent p = none) (hAcyclic : ¬Reach parent (some q) p) :
    Forest live (update parent p (some q)) (update child q (some p)) (update sib p (child q))
      (update children q (p :: children q)) := by
  have hClimb (x : α) (l : List α) (hl : Chain parent (some x) l) (hNot : p ∉ l) :
      Chain (update parent p (some q)) (some x) l := by
    refine hl.congr fun y hy => ?_
    apply Function.update_of_ne
    rintro rfl
    exact hNot hy
  refine ⟨h.toFamily.attach hp hq hRoot, ?_, ?_⟩
  · intro x hx hParent
    by_cases hxp : x = p
    · subst hxp
      simp at hParent
    · rw [Function.update_of_ne hxp] at hParent ⊢
      exact h.orphan x hx hParent
  · intro x hx
    obtain ⟨l, hl⟩ := h.rooted x hx
    by_cases hpl : p ∈ l
    · obtain ⟨l₁, l₂, rfl⟩ := List.append_of_mem hpl
      obtain ⟨hUp, hTop⟩ := seg_append_cons.mp hl
      obtain ⟨above, hAbove⟩ := h.rooted q hq
      have hBelow : p ∉ l₁ := hl.not_mem_prefix
      have hNotAbove : p ∉ above := fun hm => hAcyclic (hAbove.reach hm)
      refine ⟨l₁ ++ p :: above, seg_append_cons.mpr ⟨?_, ?_⟩⟩
      · refine hUp.congr fun y hy => ?_
        apply Function.update_of_ne
        rintro rfl
        exact hBelow hy
      · rw [Function.update_self]
        exact hClimb q above hAbove hNotAbove
    · exact ⟨l, hClimb x l hl hpl⟩

/-- A child leaves its parent and keeps its own subtree. -/
theorem detach {child' sib' : α → Option α} (h : Forest live parent child sib children)
    (hp : live p) (hParent : parent p = some q) (hSelf : sib' p = none)
    (hChain : Chain sib' (child' q) ((children q).erase p))
    (hChild : ∀ r, r ≠ q → child' r = child r)
    (hSib : ∀ x, x ∉ children q → sib' x = sib x) :
    Forest live (update parent p none) child' sib'
      (update children q ((children q).erase p)) := by
  have hq : live q := h.closed p q hp hParent
  refine ⟨h.toFamily.detach hp hParent hChain hChild hSib, ?_, ?_⟩
  · intro x hx hRoot
    by_cases hxp : x = p
    · subst hxp
      exact hSelf
    · rw [Function.update_of_ne hxp] at hRoot
      rw [hSib x (h.not_mem_of_root hq hRoot)]
      exact h.orphan x hx hRoot
  · intro x hx
    obtain ⟨l, hl⟩ := h.rooted x hx
    by_cases hpl : p ∈ l
    · obtain ⟨l₁, l₂, rfl⟩ := List.append_of_mem hpl
      have hBelow : p ∉ l₁ := hl.not_mem_prefix
      refine ⟨l₁ ++ [p], seg_append_cons.mpr ⟨?_, Function.update_self ..⟩⟩
      refine (seg_append_cons.mp hl).1.congr fun y hy => ?_
      apply Function.update_of_ne
      rintro rfl
      exact hBelow hy
    · refine ⟨l, hl.congr fun y hy => ?_⟩
      apply Function.update_of_ne
      rintro rfl
      exact hpl hy

end Update

end Forest

namespace Tree

variable {root : α}

theorem of_iff {live' : α → Prop} (h : Tree live parent child sib children root)
    (hLive : ∀ p, live' p ↔ live p) : Tree live' parent child sib children root :=
  ⟨h.toFamily.of_iff hLive, h.top, fun p hp => h.climb p ((hLive p).mp hp)⟩

theorem rooted (h : Tree live parent child sib children root) (hp : live p) :
    ∃ l, Chain parent (some p) l :=
  (h.climb p hp).exists_chain h.top

/-- Without one of its cells, and with the links left as they are, a tree of more
than one cell is no family: the cell is still on the chain of its parent, or it
is the root and some other cell still names it as its parent. -/
theorem not_family_without {children' : α → List α} {x : α}
    (h : Tree live parent child sib children root) (hp : live p) (hx : live x) (hne : x ≠ p) :
    ¬Family (fun y => y ≠ p ∧ live y) parent child sib children' := by
  intro hLess
  cases hParent : parent p with
  | some q =>
      have hq := h.closed p q hp hParent
      have hqp : q ≠ p := by
        intro hEq
        have hRoot : root = p := (h.climb p hp).invariant
          (fun y hy => (Option.some.inj hy).symm) fun y z hy hz => by
            rw [hy, hParent, hEq] at hz
            exact (Option.some.inj hz).symm
        have hTop := h.top
        rw [hRoot, hParent] at hTop
        cases hTop
      have hSame : children' q = children q :=
        (hLess.chain q ⟨hqp, hq⟩).unique (h.chain q hq)
      have hMem : p ∈ children' q := hSame ▸ (h.mem_iff q hq p).mpr ⟨hp, hParent⟩
      exact ((hLess.mem_iff q ⟨hqp, hq⟩ p).mp hMem).1.1 rfl
  | none =>
      have hRoot : root = p := by
        have hAlone : Chain parent (some p) [p] := ⟨rfl, hParent⟩
        simpa using hAlone.reach_iff.mp (h.climb p hp)
      have hClimb : Reach parent (some x) p := hRoot ▸ h.climb x hx
      obtain ⟨y, hReach, hLink⟩ := hClimb.eq_or_link.resolve_left
        fun hEq => hne (Option.some.inj hEq)
      have hyp : y ≠ p := by
        rintro rfl
        rw [hParent] at hLink
        cases hLink
      exact (hLess.closed y p ⟨hyp, h.live_of_reach hx hReach⟩ hLink).1 rfl

/-- A new cell with cleared links becomes the first child of a cell. -/
theorem sprout [DecidableEq α] (h : Tree live parent child sib children root) (hNew : ¬live p)
    (hq : live q) :
    Tree (fun x => x = p ∨ live x) (update (update parent p none) p (some q))
      (update (update child p none) q (some p))
      (update (update sib p none) p (update child p none q))
      (update (update children p []) q (p :: update children p [] q)) root := by
  have hne (x : α) (hx : live x) : x ≠ p := by
    rintro rfl
    exact hNew hx
  have hClimb (x : α) (hx : live x) :
      Reach (update (update parent p none) p (some q)) (some x) root := by
    refine (h.climb x hx).congr fun y hy => ?_
    have hyp := hne y (h.live_of_reach hx hy)
    rw [Function.update_of_ne hyp, Function.update_of_ne hyp]
  have hTop : root ≠ p := hne root (h.live_of_reach hq (h.climb q hq))
  refine ⟨(h.toFamily.grow hNew).attach (.inl rfl) (.inr hq) (Function.update_self ..), ?_, ?_⟩
  · rw [Function.update_of_ne hTop, Function.update_of_ne hTop]
    exact h.top
  · rintro x (rfl | hx)
    · refine .there ?_
      rw [Function.update_self]
      exact hClimb q hq
    · exact hClimb x hx

end Tree

end Linked
