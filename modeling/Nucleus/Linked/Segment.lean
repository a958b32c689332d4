import Mathlib.Data.List.Nodup
import Mathlib.Data.Fintype.Card
import Nucleus.Semantics.Outcome

/-! Singly linked structures over a successor function. A path is described by
the list of cells it visits, so an update of the successor function is justified
by naming the cells whose link changed and the cells whose link was kept. -/
namespace Linked

variable {α : Type*} {next next' : α → Option α} {a b c : Option α} {l m : List α} {x y : α}

/-- Following `next` from `a` visits exactly the cells of `l`, in order, and
then arrives at `b`. -/
def Seg (next : α → Option α) : Option α → List α → Option α → Prop
  | a, [], b => a = b
  | a, x :: l, b => a = some x ∧ Seg next (next x) l b

@[simp] theorem seg_nil : Seg next a [] b ↔ a = b := Iff.rfl

@[simp] theorem seg_cons : Seg next a (x :: l) b ↔ a = some x ∧ Seg next (next x) l b := Iff.rfl

/-- A NULL-terminated list. -/
abbrev Chain (next : α → Option α) (a : Option α) (l : List α) : Prop := Seg next a l none

theorem seg_append : Seg next a (l ++ m) b ↔ ∃ c, Seg next a l c ∧ Seg next c m b := by
  induction l generalizing a with
  | nil => simp
  | cons x l ih => simp [ih, and_assoc]

theorem seg_append_cons : Seg next a (l ++ x :: m) b ↔
    Seg next a l (some x) ∧ Seg next (next x) m b := by
  rw [seg_append]
  constructor
  · rintro ⟨c, hLeft, rfl, hRight⟩
    exact ⟨hLeft, hRight⟩
  · rintro ⟨hLeft, hRight⟩
    exact ⟨some x, hLeft, rfl, hRight⟩

/-- Only the links of the visited cells matter. -/
theorem Seg.congr (h : Seg next a l b) (hKeep : ∀ y ∈ l, next' y = next y) :
    Seg next' a l b := by
  induction l generalizing a with
  | nil => exact h
  | cons x l ih =>
      obtain ⟨hHead, hTail⟩ := h
      refine ⟨hHead, ?_⟩
      rw [hKeep x (List.mem_cons_self ..)]
      exact ih hTail fun y hy => hKeep y (List.mem_cons_of_mem _ hy)

/-- Unlinking the successor `x` of `v` by redirecting the link of `v` alone. -/
theorem Seg.unlink {v : α} (h : Seg next a (l ++ v :: x :: m) b) (hLink : next' v = next x)
    (hKeep : ∀ y ∈ l ++ m, next' y = next y) : Seg next' a (l ++ v :: m) b := by
  obtain ⟨hLeft, -, hRight⟩ := seg_append_cons.mp h
  refine seg_append_cons.mpr ⟨hLeft.congr fun y hy => hKeep y (List.mem_append_left _ hy), ?_⟩
  rw [hLink]
  exact hRight.congr fun y hy => hKeep y (List.mem_append_right _ hy)

/-- Linking a new cell `x` between `v` and its successor. -/
theorem Seg.link {v : α} (h : Seg next a (l ++ v :: m) b) (hLink : next' v = some x)
    (hNew : next' x = next v) (hKeep : ∀ y ∈ l ++ m, next' y = next y) :
    Seg next' a (l ++ v :: x :: m) b := by
  obtain ⟨hLeft, hRight⟩ := seg_append_cons.mp h
  refine seg_append_cons.mpr ⟨hLeft.congr fun y hy => hKeep y (List.mem_append_left _ hy), ?_⟩
  refine ⟨hLink, ?_⟩
  rw [hNew]
  exact hRight.congr fun y hy => hKeep y (List.mem_append_right _ hy)

/-- Between two cells of a path there is a link. -/
theorem Seg.next_eq {v : α} (h : Seg next a (l ++ v :: x :: m) b) : next v = some x :=
  (seg_append_cons.mp h).2.1

/-- A link of a visited cell leads to a visited cell or to the end of the path. -/
theorem Seg.next_mem (h : Seg next a l b) (hx : x ∈ l) (hLink : next x = some y) :
    y ∈ l ∨ b = some y := by
  obtain ⟨l₁, l₂, rfl⟩ := List.append_of_mem hx
  have hRest := (seg_append_cons.mp h).2
  rw [hLink] at hRest
  cases l₂ with
  | nil => exact .inr hRest.symm
  | cons z l₂ =>
      cases Option.some.inj hRest.1
      exact .inl (by simp)

/-- Cells around two neighbours `v` and `x` of a path are neither of them. -/
theorem ne_of_mem_around {v : α} (h : (l ++ v :: x :: m).Nodup) (hy : y ∈ l ++ m) :
    y ≠ v ∧ y ≠ x := by
  have hv := (List.nodup_cons.mp (List.nodup_middle.mp h)).1
  have hx := (List.nodup_cons.mp (List.nodup_middle.mp
    (List.nodup_cons.mp (List.nodup_middle.mp h)).2)).1
  constructor
  · rintro rfl
    exact hv (by rcases List.mem_append.mp hy with hy | hy <;> simp [hy])
  · rintro rfl
    exact hx hy

namespace Chain

theorem head_eq (h : Chain next a l) : a = l.head? := by
  cases l with
  | nil => exact h
  | cons x l => exact h.1

theorem eq_nil_iff (h : Chain next a l) : l = [] ↔ a = none := by
  cases l with
  | nil => simpa using h
  | cons x l => simp [h.1]

/-- The cells of a NULL-terminated list are determined by its first pointer. -/
theorem unique (h : Chain next a l) (h' : Chain next a m) : l = m := by
  induction l generalizing a m with
  | nil => exact ((eq_nil_iff h').mpr h).symm
  | cons x l ih =>
      cases m with
      | nil => exact nomatch h.1.symm.trans h'
      | cons y m =>
          obtain ⟨rfl, hl⟩ := h
          obtain ⟨hEq, hm⟩ := h'
          cases Option.some.inj hEq
          rw [ih hl hm]

/-- A NULL-terminated list has no cycle: a cell met twice would have two
different tails. -/
theorem nodup (h : Chain next a l) : l.Nodup := by
  induction l generalizing a with
  | nil => exact List.nodup_nil
  | cons x l ih =>
      refine List.nodup_cons.mpr ⟨?_, ih h.2⟩
      intro hx
      obtain ⟨l₁, l₂, rfl⟩ := List.append_of_mem hx
      have hAgain : Chain next (next x) l₂ := (seg_append_cons.mp h.2).2
      have hEq := congrArg List.length (unique h.2 hAgain)
      simp at hEq
      omega

theorem not_mem_prefix (h : Chain next a (l ++ x :: m)) : x ∉ l := by
  have hNodup := nodup h
  rw [List.nodup_middle, List.nodup_cons] at hNodup
  exact fun hx => hNodup.1 (List.mem_append_left _ hx)

theorem erase_middle [DecidableEq α] (h : Chain next a (l ++ x :: m)) :
    (l ++ x :: m).erase x = l ++ m := by
  have hx : x ∉ l := not_mem_prefix h
  rw [List.erase_append_right _ hx, List.erase_cons_head]

end Chain

/-- `x` is met by following `next` from `a`. -/
inductive Reach (next : α → Option α) : Option α → α → Prop where
  | here (x : α) : Reach next (some x) x
  | there {x y : α} (later : Reach next (next x) y) : Reach next (some x) y

/-- Whatever holds of the first cell and passes along links holds of every cell
met. -/
theorem Reach.invariant (h : Reach next a x) {S : α → Prop} (hStart : ∀ y, a = some y → S y)
    (hStep : ∀ y z, S y → next y = some z → S z) : S x := by
  induction h with
  | here x => exact hStart x rfl
  | @there x y _ ih => exact ih fun z hz => hStep x z (hStart x rfl) hz

/-- A cell met later than the first is met through a link. -/
theorem Reach.eq_or_link (h : Reach next a x) :
    a = some x ∨ ∃ y, Reach next a y ∧ next y = some x := by
  induction h with
  | here x => exact .inl rfl
  | @there y x _ ih =>
      rcases ih with hNext | ⟨z, hReach, hLink⟩
      · exact .inr ⟨y, .here y, hNext⟩
      · exact .inr ⟨z, .there hReach, hLink⟩

theorem Reach.exists_chain (h : Reach next a x) (hEnd : next x = none) :
    ∃ l, Chain next a l := by
  induction h with
  | here x => exact ⟨[x], rfl, hEnd⟩
  | @there y x _ ih =>
      obtain ⟨l, hl⟩ := ih hEnd
      exact ⟨y :: l, rfl, hl⟩

theorem Seg.reach (h : Seg next a l b) (hx : x ∈ l) : Reach next a x := by
  induction l generalizing a with
  | nil => cases hx
  | cons y l ih =>
      obtain ⟨rfl, hTail⟩ := h
      rcases List.mem_cons.mp hx with rfl | hx
      · exact .here x
      · exact .there (ih hTail hx)

theorem Chain.reach_iff (h : Chain next a l) : Reach next a x ↔ x ∈ l := by
  refine ⟨fun hReach => ?_, Seg.reach h⟩
  induction hReach generalizing l with
  | here x =>
      cases l with
      | nil => cases h
      | cons y l =>
          cases Option.some.inj h.1
          exact List.mem_cons_self ..
  | there _ ih =>
      cases l with
      | nil => cases h
      | cons y l =>
          obtain ⟨hEq, hTail⟩ := h
          cases Option.some.inj hEq
          exact List.mem_cons_of_mem _ (ih hTail)

theorem Reach.congr (h : Reach next a x) (hKeep : ∀ y, Reach next a y → next' y = next y) :
    Reach next' a x := by
  induction h with
  | here x => exact .here x
  | @there x y _ ih =>
      refine .there ?_
      rw [hKeep x (.here x)]
      exact ih fun z hz => hKeep z (.there hz)

/-- The list up to its cell `x`, continued. -/
theorem cons_append_of_eq {pre : List α} (h : y :: pre = l ++ [x]) (rest : List α) :
    y :: (pre ++ rest) = l ++ x :: rest := by
  rw [← List.cons_append, h, List.append_assoc, List.singleton_append]

/-- A nonempty prefix `u :: pre` of a path ends in a cell `v`, from which the
rest of the path starts. This is where a search that stops after `pre` stands. -/
theorem Seg.split_last {u : α} {pre post : List α} (h : Seg next a (u :: (pre ++ post)) b) :
    ∃ l v, u :: pre = l ++ [v] ∧ Seg next a (u :: pre) (next v) ∧
      Seg next a (l ++ v :: post) b ∧ Seg next (next v) post b := by
  obtain ⟨l, v, hEq⟩ := (List.eq_nil_or_concat' (u :: pre)).resolve_left (by simp)
  rw [← List.cons_append, hEq] at h
  have hPath : Seg next a (l ++ v :: post) b := by simpa using h
  obtain ⟨hLeft, hRight⟩ := seg_append_cons.mp hPath
  refine ⟨l, v, hEq, ?_, hPath, hRight⟩
  rw [hEq]
  exact seg_append_cons.mpr ⟨hLeft, rfl⟩

/-- A search loop walks down a path as long as its test lets it pass to the next
cell. The loop variables at cell `w` are `vars w`. -/
theorem loop_walk {σ ρ : Type} {body : σ → Semantics.Outcome (σ ⊕ ρ)} (vars : α → σ)
    {u v : α} {pre : List α} (hPath : Seg next (some u) (u :: pre) c)
    (hList : u :: pre = l ++ [v])
    (hPass : ∀ w, ∀ w' ∈ pre, next w = some w' → body (vars w) = .ok (.inl (vars w')))
    (fuel : ℕ) :
    Semantics.loop body (pre.length + fuel) (vars u) = Semantics.loop body fuel (vars v) := by
  induction pre generalizing u l with
  | nil =>
      have hLast : u = v := by simpa using congrArg List.getLast? hList
      simp [hLast]
  | cons w pre ih =>
      obtain ⟨-, hNext, hRest⟩ := hPath
      cases l with
      | nil => simp at hList
      | cons w₀ l =>
          have hBody := hPass u w (List.mem_cons_self ..) hNext
          rw [List.length_cons, Nat.add_right_comm, Semantics.loop_next hBody]
          exact ih ⟨rfl, hRest⟩ (List.cons.inj hList).2
            fun w₁ w₂ hw => hPass w₁ w₂ (List.mem_cons_of_mem _ hw)

/-- A search loop that passes the cells of `pre` and leaves at the cell before
`post` returns there. -/
theorem Seg.search {σ ρ : Type} {body : σ → Semantics.Outcome (σ ⊕ ρ)} (vars : α → σ)
    (result : α → ρ) {u : α} {pre post : List α} (h : Seg next a (u :: (pre ++ post)) b)
    (hPass : ∀ w, ∀ w' ∈ pre, next w = some w' → body (vars w) = .ok (.inl (vars w')))
    (hStop : ∀ w, Seg next (next w) post b → body (vars w) = .ok (.inr (result w)))
    (fuel : ℕ) (hFuel : pre.length < fuel) :
    ∃ l v, u :: pre = l ++ [v] ∧ Seg next (next v) post b ∧
      Semantics.loop body fuel (vars u) = .ok (result v) := by
  obtain ⟨l, v, hList, hPath, -, hRest⟩ := h.split_last
  have hHead : a = some u := h.1
  rw [hHead] at hPath
  obtain ⟨spare, rfl⟩ : ∃ spare, fuel = pre.length + (spare + 1) :=
    ⟨fuel - pre.length - 1, by omega⟩
  refine ⟨l, v, hList, hRest, ?_⟩
  rw [loop_walk vars hPath hList hPass, Semantics.loop_exit (hStop v hRest)]

end Linked
