import Nucleus.Asl.Refinement

/-! `outBlocked` against what it is for: one process stops waiting, and nobody else
does. The tail of a queue is lost with the rest of its queue, and the emptied
descriptor is recycled through the head of the free list even if there is none. -/
namespace Nucleus

open Function (update)
open Linked Semantics

variable {P D : Type}

namespace Memory

variable {s t : Memory P D} {m : Addr → List P} {a : Addr} {p : P} {l : List P} {dummy : D}
  {active free : List D} {fuel : ℕ}

/-- Only the last process of a queue that is alone there links to itself. -/
theorem Rep.alone_iff (h : s.Rep dummy active free m) (hTail : (m a).getLast? = some p) :
    s.pcb.p_next p = some p ↔ m a = [p] := by
  obtain ⟨d, hd, rfl⟩ := (h.directory.entry a).mp (List.ne_nil_of_mem (List.mem_of_getLast? hTail))
  have hRing := h.directory.ring d hd
  rw [hRing.tail_eq, hTail] at hRing
  constructor
  · exact hRing.eq_singleton
  · intro hOne
    rw [hRing.next_tail, hOne]
    rfl

theorem Rep.lastBlocked_name_iff (h : s.Rep dummy active free m) (hp : p ∈ m a) :
    s.LastBlocked p ↔ (m a).getLast? = some p := by
  rw [h.lastBlocked_iff]
  constructor
  · intro hLast
    obtain ⟨b, hb⟩ := hLast
    by_contra hNot
    have hab : b ≠ a := fun hEq => hNot (hEq ▸ hb)
    exact h.directory.apart b a hab (List.mem_of_getLast? hb) hp
  · exact fun hTail => ⟨a, hTail⟩

variable [DecidableEq P] [DecidableEq D] [Fintype D]

/-- `p` waits for `a` no more. The others that do are still waiting in their former
order, as the calls of `removeBlocked` find them, and so is everybody else. -/
structure Unblocked (s : Memory P D) (m : Addr → List P) (a : Addr) (p : P)
    (t : Memory P D) : Prop where
  stands : t.Stands (update m a ((m a).erase p))
  entry : t.HasEntry a ↔ m a ≠ [p]
  released : ∀ fuel, Fintype.card D ≤ fuel → ∃ u,
    (aslSystem fuel).Run t (((m a).erase p).map fun q => (.removeBlocked a, .pcb (some q))) u ∧
      aslExec fuel u (.removeBlocked a) = .ok (u, .pcb none)
  frame : ∀ q, q ∉ m a → t.pcb.p_next q = s.pcb.p_next q

/-- The calls of `removeBlocked` return the whole queue in its order, and then NULL. -/
theorem Stands.drain (h : t.Stands m) (hFuel : Fintype.card D ≤ fuel) (a : Addr) :
    ∃ u, (aslSystem fuel).Run t ((m a).map fun q => (.removeBlocked a, .pcb (some q))) u ∧
      aslExec fuel u (.removeBlocked a) = .ok (u, .pcb none) := by
  induction hList : m a generalizing t m with
  | nil =>
      obtain ⟨u, hExec, -, -, hSame⟩ := h.removeBlocked hFuel a
      cases hSame hList
      rw [hList] at hExec
      exact ⟨t, .nil t, hExec⟩
  | cons q l ih =>
      obtain ⟨v, hExec, hStands, -, -⟩ := h.removeBlocked hFuel a
      rw [hList] at hExec hStands
      obtain ⟨u, run, hEnd⟩ := ih hStands (Function.update_self ..)
      exact ⟨u, .cons trivial hExec run, hEnd⟩

theorem Stands.unblocked (h : t.Stands (update m a ((m a).erase p))) (hp : p ∈ m a)
    (hKeep : ∀ q, q ∉ m a → t.pcb.p_next q = s.pcb.p_next q) : s.Unblocked m a p t := by
  refine ⟨h, ?_, fun fuel hFuel => ?_, hKeep⟩
  · rw [h.hasEntry_iff, Function.update_self, not_iff_not, List.erase_eq_nil_iff]
    exact or_iff_right (List.ne_nil_of_mem hp)
  · have hDrain := h.drain hFuel a
    rwa [Function.update_self] at hDrain

section Out

variable [Fintype P]

/-- When the last process of a queue is taken out as it should be, it was alone. -/
theorem Rep.tail_unblocked (h : s.Rep dummy active free m)
    (hTail : (m (s.pcb.p_semAdd p)).getLast? = some p) (hFuel : Fintype.card D ≤ fuel)
    (hFuelP : Fintype.card P ≤ fuel) (hExec : outBlocked fuel s (some p) = .ok (t, some p))
    (hOut : s.Unblocked m (s.pcb.p_semAdd p) p t) :
    s.pcb.p_next p = some p ∧ s.semdFree_h ≠ none := by
  cases free with
  | nil => cases (h.outBlocked_tail_full hTail rfl hFuel hFuelP).symm.trans hExec
  | cons f free =>
      obtain ⟨active', d, semd, hTaken, hRep, -⟩ := h.outBlocked_tail hTail rfl hFuel hFuelP
      cases hTaken.symm.trans hExec
      have hFree : s.semdFree_h = some f := h.pool.spare.1
      -- the queue is empty now, so nobody else can have been in it
      have hEntry := Stands.hasEntry_iff ⟨_, _, _, hRep⟩ (s.pcb.p_semAdd p)
      rw [Function.update_self, hOut.entry] at hEntry
      exact ⟨(h.alone_iff hTail).mpr (by simpa using hEntry), by simp [hFree]⟩

/-- A process that is alone in its queue leaves it empty. -/
theorem Rep.outBlocked_alone (h : s.Rep dummy active free m)
    (hOne : m (s.pcb.p_semAdd p) = [p]) (hFree : s.semdFree_h ≠ none)
    (hFuel : Fintype.card D ≤ fuel) (hFuelP : Fintype.card P ≤ fuel) :
    ∃ t, outBlocked fuel s (some p) = .ok (t, some p) ∧
      s.Unblocked m (s.pcb.p_semAdd p) p t := by
  have hp : p ∈ m (s.pcb.p_semAdd p) := hOne ▸ List.mem_singleton_self p
  have hTail : (m (s.pcb.p_semAdd p)).getLast? = some p := hOne ▸ rfl
  have hErase : (m (s.pcb.p_semAdd p)).erase p = [] :=
    List.erase_eq_nil_iff.mpr (.inr hOne)
  cases free with
  | nil => exact absurd h.pool.spare hFree
  | cons f free =>
      obtain ⟨active', d, semd, hExec, hRep, -⟩ := h.outBlocked_tail hTail rfl hFuel hFuelP
      refine ⟨_, hExec, Stands.unblocked ?_ hp fun q hq => ?_⟩
      · rw [hErase]
        exact ⟨_, _, _, hRep⟩
      · exact Function.update_of_ne (ne_of_mem_of_not_mem hp hq).symm ..

/-- `outBlocked` takes its process, and only that one, out of the queue exactly when
the process is not the last of its queue, or it is alone there and some descriptor
is free. -/
theorem outBlocked_unblocks_iff (h : s.Rep dummy active free m)
    (hp : p ∈ m (s.pcb.p_semAdd p)) :
    Returns (fun fuel => outBlocked fuel s (some p))
        (fun r => r.2 = some p ∧ s.Unblocked m (s.pcb.p_semAdd p) p r.1) ↔
      (s.LastBlocked p → s.pcb.p_next p = some p ∧ s.semdFree_h ≠ none) := by
  rw [h.lastBlocked_name_iff hp]
  constructor
  · intro hReturns hTail
    obtain ⟨bound, hReturn⟩ := hReturns
    obtain ⟨⟨t, r⟩, hExec, rfl, hOut⟩ :=
      hReturn (bound + (Fintype.card D + Fintype.card P)) (by omega)
    exact h.tail_unblocked hTail (by omega) (by omega) hExec hOut
  · intro hAlone
    refine ⟨Fintype.card D + Fintype.card P, fun fuel hFuel => ?_⟩
    by_cases hTail : (m (s.pcb.p_semAdd p)).getLast? = some p
    · obtain ⟨hSelf, hFree⟩ := hAlone hTail
      obtain ⟨t, hExec, hOut⟩ := h.outBlocked_alone ((h.alone_iff hTail).mp hSelf) hFree
        (by omega : Fintype.card D ≤ fuel) (by omega)
      exact ⟨_, hExec, rfl, hOut⟩
    · obtain ⟨next, hExec, hRep, -, hKeep⟩ := h.outBlocked_inner hp rfl hTail
        (by omega : Fintype.card D ≤ fuel) (by omega)
      exact ⟨_, hExec, rfl, Stands.unblocked ⟨_, _, _, hRep⟩ hp hKeep⟩

end Out

/-- Two processes wait for the same semaphore, and one descriptor is free. -/
theorem exists_two_blocked : ∃ (s : Memory (Fin 2) (Fin 3)) (active : List (Fin 3))
    (m : Addr → List (Fin 2)), s.Rep 0 active [2] m ∧ m 4 = [0, 1] ∧ ∀ p, s.pcb.p_semAdd p = 4 := by
  let m₀ : Addr → List (Fin 2) := fun _ => []
  have hFuel : Fintype.card (Fin 3) ≤ 3 := by simp
  obtain ⟨start, -, -, hStart, -⟩ := initTables_rep (by decide : 0 < 2) (.zero _ _)
  have hFirst : start.Rep 0 [] (1 :: [2]) m₀ := hStart
  have hp₀ (b : Addr) : (0 : Fin 2) ∉ m₀ b := List.not_mem_nil
  obtain ⟨active, semd, -, hSecond, -⟩ := hFirst.insertBlocked_new (rfl : m₀ 4 = []) hp₀ hFuel
  have hp₁ (b : Addr) : (1 : Fin 2) ∉ update m₀ 4 [0] b := by
    by_cases hb : b = 4 <;> simp [m₀, hb]
  have hOne : update m₀ 4 [0] 4 ≠ [] := by simp
  obtain ⟨next, procQ, -, hTwo, -⟩ := hSecond.insertBlocked_append hOne hp₁ hFuel
  exact ⟨_, active, _, hTwo, by simp, Fin.forall_fin_two.mpr ⟨rfl, rfl⟩⟩

theorem outBlocked_unblocks_head : ∃ (s : Memory (Fin 2) (Fin 3)) (m : Addr → List (Fin 2)),
    s.Stands m ∧ m 4 = [0, 1] ∧ Returns (fun fuel => outBlocked fuel s (some 0))
      fun r => r.2 = some 0 ∧ s.Unblocked m (s.pcb.p_semAdd 0) 0 r.1 := by
  obtain ⟨s, active, m, hRep, hQueue, hName⟩ := exists_two_blocked
  have hList : m (s.pcb.p_semAdd 0) = [0, 1] := by rw [hName, hQueue]
  have hp : 0 ∈ m (s.pcb.p_semAdd 0) := by simp [hList]
  refine ⟨s, m, ⟨_, _, _, hRep⟩, hQueue, (outBlocked_unblocks_iff hRep hp).mpr fun hLast => ?_⟩
  rw [hRep.lastBlocked_name_iff hp, hList] at hLast
  simp at hLast

/-- Taking out the second of two waiting processes loses the first. -/
theorem outBlocked_tail_loses_head : ∃ (s : Memory (Fin 2) (Fin 3)) (m : Addr → List (Fin 2)),
    s.Stands m ∧ m 4 = [0, 1] ∧ s.pcb.p_semAdd 1 = 4 ∧ ∀ fuel, 3 ≤ fuel → ∃ t,
      outBlocked fuel s (some 1) = .ok (t, some 1) ∧ removeBlocked fuel t 4 = .ok (t, none) ∧
      ¬ s.Unblocked m 4 1 t := by
  obtain ⟨s, active, m, hRep, hQueue, hName⟩ := exists_two_blocked
  refine ⟨s, m, ⟨_, _, _, hRep⟩, hQueue, hName 1, fun fuel hFuel => ?_⟩
  have hFuelD : Fintype.card (Fin 3) ≤ fuel := by simpa using hFuel
  have hTail : (m 4).getLast? = some 1 := by rw [hQueue]; rfl
  obtain ⟨active', d, semd, hExec, hLost, -⟩ :=
    hRep.outBlocked_tail hTail (hName 1) hFuelD (by simp; omega)
  have hEmpty : update m 4 [] 4 = [] := Function.update_self ..
  refine ⟨_, hExec, hLost.removeBlocked_none hEmpty hFuelD, fun hOut => ?_⟩
  have hEntry := Stands.hasEntry_iff ⟨_, _, _, hLost⟩ 4
  rw [hEmpty, hOut.entry, hQueue] at hEntry
  simp at hEntry

end Memory

end Nucleus
