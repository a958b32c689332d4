import Nucleus.Linked.Segment

/-! A pool of cells on two NULL-terminated lists: one in use, one free. The
lists share the successor function and together hold every cell once, so a cell
moves between them by a few links and no other cell is touched. -/
namespace Linked

variable {α : Type*} {next next' : α → Option α} {a f : Option α} {l m F : List α} {v x y : α}

structure Pool (next : α → Option α) (a f : Option α) (used free : List α) : Prop where
  inUse : Chain next a used
  spare : Chain next f free
  nodup : (used ++ free).Nodup
  total : ∀ x, x ∈ used ++ free

namespace Pool

/-- The first free cell moves behind `v`. -/
theorem take (h : Pool next a f (l ++ v :: m) (x :: F)) (hLink : next' v = some x)
    (hNew : next' x = next v) (hKeep : ∀ y, y ≠ v → y ≠ x → next' y = next y) :
    Pool next' a (next x) (l ++ v :: x :: m) F := by
  have hPerm : ((l ++ v :: x :: m) ++ F).Perm ((l ++ v :: m) ++ x :: F) := by
    simpa using List.perm_middle.symm.append_left (l ++ [v])
  have hNodup := hPerm.nodup_iff.mpr h.nodup
  have hAround := List.nodup_append.mp hNodup
  constructor
  · apply h.inUse.link hLink hNew
    intro y hy
    obtain ⟨hv, hx⟩ := ne_of_mem_around hAround.1 hy
    exact hKeep y hv hx
  · refine h.spare.2.congr fun y hy => hKeep y ?_ ?_
    · rintro rfl
      exact hAround.2.2 y (by simp) y hy rfl
    · rintro rfl
      exact hAround.2.2 y (by simp) y hy rfl
  · exact hNodup
  · intro y
    exact hPerm.mem_iff.mpr (h.total y)

/-- A cell behind `v` moves to the front of the free list. -/
theorem putFront (h : Pool next a f (l ++ v :: x :: m) F) (hLink : next' v = next x)
    (hNew : next' x = f) (hKeep : ∀ y, y ≠ v → y ≠ x → next' y = next y) :
    Pool next' a (some x) (l ++ v :: m) (x :: F) := by
  have hPerm : ((l ++ v :: x :: m) ++ F).Perm ((l ++ v :: m) ++ x :: F) := by
    simpa using List.perm_middle.symm.append_left (l ++ [v])
  have hAround := List.nodup_append.mp h.nodup
  constructor
  · apply h.inUse.unlink hLink
    intro y hy
    obtain ⟨hv, hx⟩ := ne_of_mem_around hAround.1 hy
    exact hKeep y hv hx
  · refine ⟨rfl, ?_⟩
    rw [hNew]
    refine h.spare.congr fun y hy => hKeep y ?_ ?_
    · rintro rfl
      exact hAround.2.2 y (by simp) y hy rfl
    · rintro rfl
      exact hAround.2.2 y (by simp) y hy rfl
  · exact hPerm.nodup_iff.mp h.nodup
  · intro y
    exact hPerm.mem_iff.mp (h.total y)

/-- A cell behind `v` moves behind the first free cell `y`. -/
theorem putSecond (h : Pool next a f (l ++ v :: x :: m) (y :: F)) (hLink : next' v = next x)
    (hNew : next' x = next y) (hFirst : next' y = some x)
    (hKeep : ∀ z, z ≠ v → z ≠ x → z ≠ y → next' z = next z) :
    Pool next' a f (l ++ v :: m) (y :: x :: F) := by
  have hPerm : ((l ++ v :: x :: m) ++ y :: F).Perm ((l ++ v :: m) ++ y :: x :: F) := by
    have hSwap : ((l ++ v :: m) ++ x :: y :: F).Perm ((l ++ v :: m) ++ y :: x :: F) :=
      (List.Perm.swap y x F).append_left _
    refine List.Perm.trans ?_ hSwap
    simpa using List.perm_middle.symm.append_left (l ++ [v])
  have hAround := List.nodup_append.mp h.nodup
  have hFree := List.nodup_cons.mp hAround.2.1
  constructor
  · apply h.inUse.unlink hLink
    intro z hz
    obtain ⟨hv, hx⟩ := ne_of_mem_around hAround.1 hz
    refine hKeep z hv hx ?_
    rintro rfl
    refine hAround.2.2 z ?_ z (by simp) rfl
    rcases List.mem_append.mp hz with hz | hz <;> simp [hz]
  · refine ⟨h.spare.1, hFirst, ?_⟩
    rw [hNew]
    refine h.spare.2.congr fun z hz => hKeep z ?_ ?_ ?_
    · rintro rfl
      exact hAround.2.2 z (by simp) z (by simp [hz]) rfl
    · rintro rfl
      exact hAround.2.2 z (by simp) z (by simp [hz]) rfl
    · rintro rfl
      exact hFree.1 hz
  · exact hPerm.nodup_iff.mp h.nodup
  · intro z
    exact hPerm.mem_iff.mp (h.total z)

theorem length_add_length [Fintype α] (h : Pool next a f l F) :
    l.length + F.length = Fintype.card α := by
  classical
  have hAll : (l ++ F).toFinset = Finset.univ :=
    Finset.eq_univ_of_forall fun x => List.mem_toFinset.mpr (h.total x)
  rw [← List.length_append, ← List.toFinset_card_of_nodup h.nodup, hAll, Finset.card_univ]

end Pool

end Linked
