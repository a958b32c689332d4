import Mathlib.Logic.Function.Basic
import Nucleus.Linked.Segment

/-! Circular queues reached through their last cell. The tail links to the head,
so the same pointer gives both ends; the empty queue is the NULL pointer. -/
namespace Linked

variable {α : Type*} {next next' : α → Option α} {tail : Option α} {l : List α} {t x y : α}

/-- `tail` is the tail pointer of a ring that holds `l`, head first. -/
def Ring (next : α → Option α) : Option α → List α → Prop
  | none, l => l = []
  | some t, l => ∃ m, l = m ++ [t] ∧ Seg next (some t) (t :: m) (some t) ∧ l.Nodup

namespace Ring

@[simp] theorem none_iff : Ring next none l ↔ l = [] := Iff.rfl

theorem nodup (h : Ring next tail l) : l.Nodup := by
  cases tail with
  | none => simp [none_iff.mp h]
  | some t =>
      obtain ⟨m, -, -, hNodup⟩ := h
      exact hNodup

theorem tail_eq (h : Ring next tail l) : tail = l.getLast? := by
  cases tail with
  | none => simp [none_iff.mp h]
  | some t =>
      obtain ⟨m, rfl, -, -⟩ := h
      simp

theorem eq_nil_iff (h : Ring next tail l) : l = [] ↔ tail = none := by
  rw [h.tail_eq, List.getLast?_eq_none_iff]

theorem exists_cons (h : Ring next tail l) (hTail : tail ≠ none) : ∃ x rest, l = x :: rest :=
  List.exists_cons_of_ne_nil fun hNil => hTail (h.eq_nil_iff.mp hNil)

theorem tail_mem (h : Ring next (some t) l) : t ∈ l :=
  List.mem_of_getLast? h.tail_eq.symm

theorem congr (h : Ring next tail l) (hKeep : ∀ y ∈ l, next' y = next y) : Ring next' tail l := by
  cases tail with
  | none => exact h
  | some t =>
      obtain ⟨m, rfl, hSeg, hNodup⟩ := h
      exact ⟨m, rfl, hSeg.congr fun y hy => hKeep y (by simpa [or_comm] using hy), hNodup⟩

/-- The tail links to the head. -/
theorem next_tail (h : Ring next (some t) l) : next t = l.head? := by
  obtain ⟨m, rfl, hSeg, -⟩ := h
  cases m with
  | nil => exact hSeg.2
  | cons y m => exact hSeg.2.1

/-- The head links to the cell behind it. -/
theorem next_head (h : Ring next tail (x :: l)) (hl : l ≠ []) : next x = l.head? := by
  cases tail with
  | none => cases none_iff.mp h
  | some t =>
      obtain ⟨m, hEq, hSeg, -⟩ := h
      cases m with
      | nil =>
          cases hEq
          exact absurd rfl hl
      | cons y m =>
          obtain ⟨rfl, rfl⟩ := List.cons.inj hEq
          have hRest : Seg next (next x) m (some t) := hSeg.2.2
          cases m with
          | nil => exact hRest
          | cons z m => exact hRest.1

/-- Two cells next to each other in the queue are linked. -/
theorem next_eq {m : List α} (h : Ring next tail (l ++ x :: y :: m)) : next x = some y := by
  cases tail with
  | none => exact absurd (none_iff.mp h) (by simp)
  | some t =>
      obtain ⟨rest, hList, hSeg, -⟩ := h
      have hTurn : Seg next (next t) (rest ++ [t]) (next t) :=
        seg_append.mpr ⟨some t, hSeg.2, rfl, rfl⟩
      rw [← hList] at hTurn
      exact hTurn.next_eq

/-- The ring seen from its tail: one turn visits the tail and then the queue in
order, and comes back to the tail. -/
theorem turn (h : Ring next (some t) l) :
    ∃ m, l = m ++ [t] ∧ Seg next (some t) (t :: m) (some t) ∧ (t :: m).Nodup := by
  obtain ⟨m, rfl, hSeg, hNodup⟩ := h
  exact ⟨m, rfl, hSeg, (List.perm_append_singleton t m).nodup_iff.mp hNodup⟩

/-- The cells of a ring are those met from its tail. -/
theorem reach_iff (h : Ring next tail l) : Reach next tail x ↔ x ∈ l := by
  cases tail with
  | none =>
      rw [none_iff.mp h]
      constructor
      · intro hReach
        cases hReach
      · intro hx
        cases hx
  | some t =>
      obtain ⟨m, rfl, hSeg, -⟩ := h
      constructor
      · intro hReach
        have hx : x ∈ t :: m := by
          refine hReach.invariant (S := (· ∈ t :: m)) (fun y hy => ?_) fun y z hy hz => ?_
          · exact Option.some.inj hy ▸ List.mem_cons_self ..
          · rcases hSeg.next_mem hy hz with hm | hEnd
            · exact hm
            · exact Option.some.inj hEnd ▸ List.mem_cons_self ..
        simpa [or_comm] using hx
      · intro hx
        exact hSeg.reach (by simpa [or_comm] using hx)

/-- A cell linked to itself is a queue of one. -/
theorem singleton (h : next x = some x) : Ring next (some x) [x] :=
  ⟨[], rfl, ⟨rfl, h⟩, List.nodup_singleton x⟩

/-- Only the tail of a queue of one links to itself. -/
theorem eq_singleton (h : Ring next (some t) l) (hSelf : next t = some t) : l = [t] := by
  obtain ⟨m, rfl, hSeg, hNodup⟩ := h
  cases m with
  | nil => rfl
  | cons y m =>
      have hHead := hSeg.2.1
      rw [hSelf] at hHead
      cases Option.some.inj hHead
      simp at hNodup

/-- A new cell is linked between the tail and the head and becomes the tail. -/
theorem enqueue (h : Ring next (some t) l) (hFresh : x ∉ l) (hLink : next' t = some x)
    (hNew : next' x = next t) (hKeep : ∀ y ∈ l, y ≠ t → next' y = next y) :
    Ring next' (some x) (l ++ [x]) := by
  obtain ⟨m, rfl, hSeg, hNodup⟩ := h
  have hm : t ∉ m := by
    have := (List.perm_append_singleton t m).nodup_iff.mp hNodup
    exact (List.nodup_cons.mp this).1
  have hPath : Seg next' (next t) m (some t) := by
    refine hSeg.2.congr fun y hy => hKeep y (List.mem_append_left _ hy) ?_
    rintro rfl
    exact hm hy
  refine ⟨m ++ [t], rfl, ⟨rfl, ?_⟩, ?_⟩
  · rw [hNew]
    exact seg_append_cons.mpr ⟨hPath, hLink⟩
  · exact List.nodup_append.mpr ⟨hNodup, List.nodup_singleton x, by
      intro a ha b hb hab
      rw [List.mem_singleton] at hb
      exact hFresh (hb ▸ hab ▸ ha)⟩

/-- Any cell other than the tail leaves by redirecting the link before it. The
cell before the head is the tail. -/
theorem exists_pred (h : Ring next (some t) l) (hx : x ∈ l) (hTail : x ≠ t) :
    ∃ pre v post l₁, l = pre ++ x :: post ∧ t ∉ pre ∧ t :: pre = l₁ ++ [v] ∧
      Seg next (some t) (t :: pre) (next v) ∧ next v = some x ∧
      (∀ next' : α → Option α, next' v = next x → (∀ y ∈ l, y ≠ v → y ≠ x → next' y = next y) →
        Ring next' (some t) (pre ++ post)) := by
  obtain ⟨m, rfl, hSeg, hNodup⟩ := h.turn
  have hxm : x ∈ m := by simpa [hTail] using hx
  obtain ⟨pre, post, rfl⟩ := List.append_of_mem hxm
  obtain ⟨l₁, v, hList, hPre, hPath, -⟩ := hSeg.split_last
  have hEq : l₁ ++ v :: x :: post = t :: (pre ++ x :: post) := by
    rw [← List.cons_append, hList]
    simp
  have ht : t ∉ pre := fun ht => (List.nodup_cons.mp hNodup).1 (List.mem_append_left _ ht)
  refine ⟨pre, v, post ++ [t], l₁, by simp, ht, hList, hPre, hPath.next_eq, ?_⟩
  intro next' hLink hKeep
  refine ⟨pre ++ post, (List.append_assoc ..).symm, ?_, ?_⟩
  · have hAround : (l₁ ++ v :: x :: post).Nodup := hEq ▸ hNodup
    have hOut : Seg next' (some t) (l₁ ++ v :: post) (some t) := by
      refine hPath.unlink hLink fun y hy => ?_
      have hOld : y ∈ t :: (pre ++ x :: post) := by
        rw [← hEq]
        rcases List.mem_append.mp hy with hy | hy <;> simp [hy]
      obtain ⟨hv, hx⟩ := ne_of_mem_around hAround hy
      exact hKeep y (by simpa [or_comm, or_assoc, or_left_comm] using hOld) hv hx
    have hEq' : l₁ ++ v :: post = t :: (pre ++ post) := by
      rw [← List.cons_append, hList]
      simp
    rwa [hEq'] at hOut
  · have hAll : (pre ++ x :: (post ++ [t])).Nodup := by simpa using h.nodup
    exact (List.nodup_cons.mp (List.nodup_middle.mp hAll)).2

/-- The head leaves by redirecting the link of the tail. -/
theorem dequeue (h : Ring next (some t) (y :: l)) (hTail : y ≠ t) (hLink : next' t = next y)
    (hKeep : ∀ z ∈ l, z ≠ t → next' z = next z) : Ring next' (some t) l := by
  obtain ⟨m, hEq, hSeg, hNodup⟩ := h
  cases m with
  | nil => simp_all
  | cons z m =>
      obtain ⟨rfl, rfl⟩ := List.cons.inj hEq
      have hPath : Seg next (next y) m (some t) := hSeg.2.2
      refine ⟨m, rfl, ⟨rfl, ?_⟩, (List.nodup_cons.mp hNodup).2⟩
      rw [hLink]
      refine hPath.congr fun w hw => hKeep w (List.mem_append_left _ hw) ?_
      rintro rfl
      have hSplit := (List.nodup_append.mp (List.nodup_cons.mp hNodup).2).2.2
      exact hSplit w hw w (List.mem_singleton_self w) rfl

end Ring

section Apart

variable {K : Type*} {q : K → List α}

/-- No cell is in two lists of the family. -/
def Apart (q : K → List α) : Prop := ∀ i j, i ≠ j → (q i).Disjoint (q j)

/-- Replacing one list by cells that were in it or in no list keeps the family
apart. -/
theorem Apart.update [DecidableEq K] (h : Apart q) {i : K} {l : List α}
    (hl : ∀ p ∈ l, p ∈ q i ∨ ∀ j, p ∉ q j) : Apart (Function.update q i l) := by
  have hOther (k : K) (hk : k ≠ i) : l.Disjoint (q k) := by
    intro p hp hpk
    rcases hl p hp with hi | hNone
    · exact h i k hk.symm hi hpk
    · exact hNone k hpk
  intro j k hjk
  by_cases hj : j = i
  · subst hj
    simpa [Function.update_of_ne hjk.symm] using hOther k hjk.symm
  · by_cases hk : k = i
    · subst hk
      simpa [Function.update_of_ne hj] using (hOther j hj).symm
    · simpa [Function.update_of_ne hj, Function.update_of_ne hk] using h j k hjk

end Apart

end Linked
