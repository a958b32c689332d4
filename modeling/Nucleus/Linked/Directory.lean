import Mathlib.Algebra.BigOperators.Group.List.Basic
import Nucleus.Linked.Ring

/-! A finite map from ordered keys to nonempty queues, kept as a sorted list of
entries. Each entry carries its key and the tail pointer of a ring, and all the
rings run through one successor function. -/
namespace Linked

open Function (update)

variable {α ε K : Type*} {next next' : α → Option α} {key key' : ε → K}
  {tail tail' : ε → Option α} {entries pre post : List ε} {q : K → List α} {a : K} {d e : ε}

/-- The entries are sorted by key, every entry holds the queue of its key, and a
key has an entry exactly when its queue is not empty. -/
structure Directory [LT K] (next : α → Option α) (key : ε → K) (tail : ε → Option α)
    (entries : List ε) (q : K → List α) : Prop where
  sorted : entries.Pairwise fun d e => key d < key e
  ring : ∀ d ∈ entries, Ring next (tail d) (q (key d))
  entry : ∀ a, q a ≠ [] ↔ ∃ d ∈ entries, key d = a
  apart : Apart q

/-- A sorted list splits before the first key that is not below `a`. -/
theorem exists_split [LinearOrder K] (h : entries.Pairwise fun d e => key d < key e) (a : K) :
    ∃ pre post, entries = pre ++ post ∧ (∀ d ∈ pre, key d < a) ∧ ∀ d ∈ post, a ≤ key d := by
  induction h with
  | nil => exact ⟨[], [], rfl, by simp, by simp⟩
  | @cons d l hd _ ih =>
      by_cases hKey : key d < a
      · obtain ⟨pre, post, rfl, hPre, hPost⟩ := ih
        refine ⟨d :: pre, post, rfl, ?_, hPost⟩
        intro e he
        rcases List.mem_cons.mp he with rfl | he
        · exact hKey
        · exact hPre e he
      · have hd' := not_lt.mp hKey
        refine ⟨[], d :: l, rfl, by simp, ?_⟩
        intro e he
        rcases List.mem_cons.mp he with rfl | he
        · exact hd'
        · exact hd'.trans (hd e he).le

namespace Directory

section Order

variable [LinearOrder K]

theorem key_inj (h : Directory next key tail entries q) (hd : d ∈ entries) (he : e ∈ entries)
    (hKey : key d = key e) : d = e := by
  have hNodup : (entries.map key).Nodup := List.pairwise_map.mpr (h.sorted.imp fun hlt => hlt.ne)
  exact List.inj_on_of_nodup_map hNodup hd he hKey

/-- Where a key with a queue stands. -/
theorem entry_split (h : Directory next key tail entries q) (ha : q a ≠ []) :
    ∃ pre d post, entries = pre ++ d :: post ∧ key d = a ∧ (∀ e ∈ pre, key e < a) := by
  obtain ⟨pre, post, hSplit, hPre, hPost⟩ := exists_split h.sorted a
  obtain ⟨d, hd, hKey⟩ := (h.entry a).mp ha
  rw [hSplit, List.mem_append] at hd
  have hd := hd.resolve_left fun hm => (hPre d hm).ne hKey
  cases post with
  | nil => cases hd
  | cons e post =>
      refine ⟨pre, e, post, hSplit, ?_, hPre⟩
      rcases List.mem_cons.mp hd with rfl | hd
      · exact hKey
      · have hSorted := (List.pairwise_append.mp (hSplit ▸ h.sorted)).2.1
        have hlt := List.rel_of_pairwise_cons hSorted hd
        rw [hKey] at hlt
        exact absurd hlt (not_lt.mpr (hPost e (List.mem_cons_self ..)))

/-- Where a key without a queue would stand. -/
theorem gap_split (h : Directory next key tail entries q) (ha : q a = []) :
    ∃ pre post, entries = pre ++ post ∧ (∀ e ∈ pre, key e < a) ∧ ∀ e ∈ post, a < key e := by
  obtain ⟨pre, post, hSplit, hPre, hPost⟩ := exists_split h.sorted a
  refine ⟨pre, post, hSplit, hPre, fun e he => lt_of_le_of_ne (hPost e he) ?_⟩
  rintro rfl
  exact (h.entry (key e)).mpr ⟨e, hSplit ▸ List.mem_append_right _ he, rfl⟩ ha

end Order

theorem ne_nil [LT K] (h : Directory next key tail entries q) (hd : d ∈ entries) :
    q (key d) ≠ [] :=
  (h.entry _).mpr ⟨d, hd, rfl⟩

theorem congr [LT K] (h : Directory next key tail entries q)
    (hKeep : ∀ a, ∀ x ∈ q a, next' x = next x) : Directory next' key tail entries q :=
  ⟨h.sorted, fun d hd => (h.ring d hd).congr (hKeep _), h.entry, h.apart⟩

section Update

variable [LinearOrder K] {l : List α}

/-- The queue of one entry changes and stays nonempty. -/
theorem set (h : Directory next key tail entries q) (hd : d ∈ entries) (hl : l ≠ [])
    (hRing : Ring next' (tail' d) l) (hFrom : ∀ x ∈ l, x ∈ q (key d) ∨ ∀ b, x ∉ q b)
    (hTail : ∀ e ∈ entries, e ≠ d → tail' e = tail e)
    (hKeep : ∀ b, b ≠ key d → ∀ x ∈ q b, next' x = next x) :
    Directory next' key tail' entries (update q (key d) l) where
  sorted := h.sorted
  ring e he := by
    by_cases hed : e = d
    · subst hed
      rwa [Function.update_self]
    · have hKey : key e ≠ key d := fun hEq => hed (h.key_inj he hd hEq)
      rw [Function.update_of_ne hKey, hTail e he hed]
      exact (h.ring e he).congr (hKeep _ hKey)
  entry b := by
    by_cases hb : b = key d
    · subst hb
      simp only [Function.update_self]
      exact iff_of_true hl ⟨d, hd, rfl⟩
    · rw [Function.update_of_ne hb]
      exact h.entry b
  apart := h.apart.update hFrom

/-- A new entry in the gap of its key. -/
theorem add (h : Directory next key tail (pre ++ post) q) (hl : l ≠ [])
    (hPre : ∀ e ∈ pre, key e < a) (hPost : ∀ e ∈ post, a < key e) (hKey : key' d = a)
    (hRing : Ring next' (tail' d) l) (hFrom : ∀ x ∈ l, ∀ b, x ∉ q b)
    (hSame : ∀ e ∈ pre ++ post, key' e = key e ∧ tail' e = tail e)
    (hKeep : ∀ b, ∀ x ∈ q b, next' x = next x) :
    Directory next' key' tail' (pre ++ d :: post) (update q a l) := by
  have hOther (e : ε) (he : e ∈ pre ++ post) : key e ≠ a := by
    rcases List.mem_append.mp he with he | he
    · exact (hPre e he).ne
    · exact (hPost e he).ne'
  constructor
  · obtain ⟨hLeft, hRight, hAcross⟩ := List.pairwise_append.mp h.sorted
    have hKeyOf (e : ε) (he : e ∈ pre ++ post) : key' e = key e := (hSame e he).1
    refine List.pairwise_append.mpr ⟨?_, List.pairwise_cons.mpr ⟨?_, ?_⟩, ?_⟩
    · refine hLeft.imp_of_mem fun hx hy hlt => ?_
      rwa [hKeyOf _ (List.mem_append_left _ hx), hKeyOf _ (List.mem_append_left _ hy)]
    · intro e he
      rw [hKey, hKeyOf e (List.mem_append_right _ he)]
      exact hPost e he
    · refine hRight.imp_of_mem fun hx hy hlt => ?_
      rwa [hKeyOf _ (List.mem_append_right _ hx), hKeyOf _ (List.mem_append_right _ hy)]
    · intro x hx y hy
      rw [hKeyOf x (List.mem_append_left _ hx)]
      rcases List.mem_cons.mp hy with rfl | hy
      · rw [hKey]
        exact hPre x hx
      · rw [hKeyOf y (List.mem_append_right _ hy)]
        exact hAcross x hx y hy
  · intro e he
    have he : e = d ∨ e ∈ pre ++ post := by simpa [or_left_comm] using he
    rcases he with rfl | he
    · rwa [hKey, Function.update_self]
    · rw [(hSame e he).1, (hSame e he).2, Function.update_of_ne (hOther e he)]
      exact (h.ring e he).congr (hKeep _)
  · intro b
    by_cases hb : b = a
    · subst hb
      rw [Function.update_self]
      exact iff_of_true hl ⟨d, by simp, hKey⟩
    · rw [Function.update_of_ne hb, h.entry b]
      constructor
      · rintro ⟨e, he, rfl⟩
        exact ⟨e, by simpa using (List.mem_append.mp he).imp_right .inr, (hSame e he).1⟩
      · rintro ⟨e, he, rfl⟩
        have he : e = d ∨ e ∈ pre ++ post := by simpa [or_left_comm] using he
        rcases he with rfl | he
        · exact absurd hKey hb
        · exact ⟨e, he, (hSame e he).1.symm⟩
  · exact h.apart.update fun x hx => .inr (hFrom x hx)

/-- An entry leaves together with its queue. -/
theorem remove (h : Directory next key tail (pre ++ d :: post) q)
    (hTail : ∀ e ∈ pre ++ post, tail' e = tail e)
    (hKeep : ∀ b, b ≠ key d → ∀ x ∈ q b, next' x = next x) :
    Directory next' key tail' (pre ++ post) (update q (key d) []) := by
  have hSub (e : ε) (he : e ∈ pre ++ post) : e ∈ pre ++ d :: post := by
    simpa using (List.mem_append.mp he).imp_right .inr
  have hOther (e : ε) (he : e ∈ pre ++ post) : key e ≠ key d := by
    obtain ⟨-, hRight, hAcross⟩ := List.pairwise_append.mp h.sorted
    rcases List.mem_append.mp he with he | he
    · exact (hAcross e he d (List.mem_cons_self ..)).ne
    · exact (List.rel_of_pairwise_cons hRight he).ne'
  constructor
  · exact h.sorted.sublist ((List.sublist_cons_self d post).append_left pre)
  · intro e he
    rw [hTail e he, Function.update_of_ne (hOther e he)]
    exact (h.ring e (hSub e he)).congr (hKeep _ (hOther e he))
  · intro b
    by_cases hb : b = key d
    · subst hb
      rw [Function.update_self]
      refine iff_of_false (by simp) ?_
      rintro ⟨e, he, hKey⟩
      exact hOther e he hKey
    · rw [Function.update_of_ne hb, h.entry b]
      constructor
      · rintro ⟨e, he, rfl⟩
        have he : e = d ∨ e ∈ pre ++ post := by simpa [or_left_comm] using he
        exact ⟨e, he.resolve_left fun hed => hb (hed ▸ rfl), rfl⟩
      · rintro ⟨e, he, rfl⟩
        exact ⟨e, hSub e he, rfl⟩
  · exact h.apart.update fun x hx => absurd hx List.not_mem_nil

/-- The queues are nonempty and apart, so a cell that is in none of them leaves
fewer entries than there are cells. -/
theorem length_lt_card [Fintype α] (h : Directory next key tail entries q) {x : α}
    (hx : ∀ a, x ∉ q a) : entries.length < Fintype.card α := by
  have hNodup : (x :: entries.flatMap fun d => q (key d)).Nodup := by
    refine List.nodup_cons.mpr ⟨by simp [hx], List.nodup_flatMap.mpr ⟨?_, ?_⟩⟩
    · intro d hd
      exact (h.ring d hd).nodup
    · exact h.sorted.imp fun hlt => h.apart _ _ hlt.ne
  have hLength : entries.length ≤ (entries.flatMap fun d => q (key d)).length := by
    rw [List.length_flatMap]
    have hOne : ∀ n ∈ entries.map (fun d => (q (key d)).length), 1 ≤ n := by
      intro n hn
      obtain ⟨d, hd, rfl⟩ := List.mem_map.mp hn
      exact List.length_pos_iff.mpr (h.ne_nil hd)
    simpa using List.length_le_sum_of_one_le _ hOne
  have hCard := hNodup.length_le_card
  rw [List.length_cons] at hCard
  omega

end Update

end Directory

end Linked
