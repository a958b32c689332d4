import Nucleus.Asl.Removal

/-! The calls that have nothing to do: `insertBlocked` when the descriptors have run
out, and `outBlocked` of a process that is not blocked. -/
namespace Nucleus

open Function (update)
open Linked Semantics

variable {P D : Type} [DecidableEq P] [DecidableEq D] [Fintype D]

namespace Memory

variable {s : Memory P D} {m : Addr → List P} {a : Addr} {p : P} {dummy : D}
  {active free : List D} {fuel : ℕ}

section Insert

/-- `insertBlocked` refuses exactly when the semaphore has no descriptor and none is
free, and then it has changed nothing. -/
theorem insertBlocked_refuses_iff (h : s.Stands m) (a : Addr) (p : P) :
    Returns (fun fuel => insertBlocked fuel s a (some p)) fun r =>
      (r.2 = true ↔ ¬s.HasEntry a ∧ s.semdFree_h = none) ∧ (r.2 = true → r.1 = s) := by
  refine ⟨Fintype.card D, fun fuel hFuel => ?_⟩
  rw [h.hasEntry_iff, not_not]
  obtain ⟨dummy, active, free, hRep⟩ := h
  rw [← Chain.eq_nil_iff hRep.pool.spare]
  by_cases hRoom : m a ≠ [] ∨ free ≠ []
  · obtain ⟨t, hExec⟩ := hRep.insertBlocked_accepts hRoom hFuel p
    refine ⟨_, hExec, ?_, ?_⟩
    · simpa [imp_iff_not_or] using hRoom
    · intro hTrue
      cases hTrue
  · have hFull : m a = [] ∧ free = [] := by simpa [not_or] using hRoom
    obtain ⟨ha, rfl⟩ := hFull
    exact ⟨_, hRep.insertBlocked_full ha hFuel (some p), by simp [ha], fun _ => rfl⟩

/-- A process that is blocked already, and a semaphore without descriptor while one is
free. -/
theorem insertBlocked_refuses_queued : ∃ (s : Memory (Fin 2) (Fin 3)) (m : Addr → List (Fin 2)),
    s.Stands m ∧ s.BlockedOn 4 0 ∧ Returns (fun fuel => insertBlocked fuel s 8 (some 0)) fun r =>
      (r.2 = true ↔ ¬s.HasEntry 8 ∧ s.semdFree_h = none) ∧ (r.2 = true → r.1 = s) := by
  obtain ⟨s, active, m, hRep, hQueue, -⟩ := exists_two_blocked
  have hStands : s.Stands m := ⟨_, _, _, hRep⟩
  refine ⟨s, m, hStands, hRep.blockedOn_iff.mpr ?_, insertBlocked_refuses_iff hStands 8 0⟩
  rw [hQueue]
  exact List.mem_cons_self ..

end Insert

section Out

omit [DecidableEq P] [DecidableEq D] in
/-- The search of `outBlocked` for a semaphore without descriptor goes on behind the
last one, where its condition reads through NULL. -/
theorem Rep.outBlockedSearch_misses (h : s.Rep dummy active free m) (ha : m a = [])
    (hFuel : Fintype.card D ≤ fuel) :
    loop (outBlockedSearch s.semd a) fuel (some dummy, s.semd.s_next dummy) =
      .error .nullDeref := by
  have hSize := h.pool.length_add_length
  have hUsed := h.pool.inUse
  rw [← List.append_nil active, h.head] at hUsed
  obtain ⟨l, v, hList, hPath, -, hEnd⟩ := hUsed.split_last
  obtain ⟨spare, rfl⟩ : ∃ spare, fuel = active.length + (spare + 1) :=
    ⟨fuel - active.length - 1, by simp at hSize; omega⟩
  have hPass (w w' : D) (hw' : w' ∈ active) (hNext : s.semd.s_next w = some w') :
      outBlockedSearch s.semd a (some w, s.semd.s_next w) =
        .ok (.inl (some w', s.semd.s_next w')) := by
    simp [outBlockedSearch, hNext, h.key_ne ha hw']
  have hStop : outBlockedSearch s.semd a (some v, s.semd.s_next v) = .error .nullDeref := by
    have hNone : s.semd.s_next v = none := hEnd
    simp [outBlockedSearch, hNone]
  rw [loop_walk (fun w => (some w, s.semd.s_next w)) hPath hList hPass, loop_stop hStop]

theorem Rep.outBlocked_misses (h : s.Rep dummy active free m) (ha : m (s.pcb.p_semAdd p) = [])
    (hFuel : Fintype.card D ≤ fuel) : outBlocked fuel s (some p) = .error .nullDeref := by
  simp [outBlocked, h.head, h.outBlockedSearch_misses ha hFuel]

/-- When others are blocked on the semaphore that the process names, their queue is
searched and left as it is. -/
theorem Rep.outBlocked_stale (h : s.Rep dummy active free m)
    (ha : m (s.pcb.p_semAdd p) ≠ []) (hp : p ∉ m (s.pcb.p_semAdd p))
    (hFuel : Fintype.card D ≤ fuel) (hFuelQ : (m (s.pcb.p_semAdd p)).length ≤ fuel) :
    outBlocked fuel s (some p) = .ok (s, none) := by
  obtain ⟨-, d, -, -, v, -, -, -, hRing, hLoop⟩ := h.outBlocked_search ha hFuel
  cases hTail : s.semd.s_procQ d with
  | none => exact absurd (hRing.eq_nil_iff.mpr hTail) ha
  | some t =>
      rw [hTail] at hRing
      have hExec := outProcQ_absent hRing hp hFuelQ
      have hSame := SemdTable.setProcQ_eq_self hTail
      have hHead : deref s.semd_h = .ok dummy := by rw [h.head, deref_some]
      rw [← h.head] at hLoop
      simp [outBlocked, hHead, hLoop, hTail, hExec, hSame, emptyProcQ]

/-- `outBlocked` of a process that is not blocked returns NULL and changes nothing
exactly when some other process is blocked on the semaphore that it names. -/
theorem outBlocked_absent_iff (h : s.Stands m) (hp : ¬s.Blocked p) :
    Returns (fun fuel => outBlocked fuel s (some p)) (fun r => r = (s, none)) ↔
      s.HasEntry (s.pcb.p_semAdd p) := by
  have hAbsent := h.blocked_iff.mp hp
  rw [h.hasEntry_iff]
  obtain ⟨dummy, active, free, hRep⟩ := h
  constructor
  · intro hReturns ha
    obtain ⟨bound, hReturn⟩ := hReturns
    obtain ⟨r, hExec, -⟩ := hReturn (bound + Fintype.card D) (Nat.le_add_right ..)
    cases (hRep.outBlocked_misses ha (Nat.le_add_left ..)).symm.trans hExec
  · intro ha
    refine ⟨Fintype.card D + (m (s.pcb.p_semAdd p)).length, fun fuel hFuel => ?_⟩
    exact ⟨_, hRep.outBlocked_stale ha (hAbsent _) (by omega) (by omega), rfl⟩

/-- The first of two waiting processes is released and still names its semaphore, on
which the other one is blocked. -/
theorem outBlocked_absent_released : ∃ (s : Memory (Fin 2) (Fin 3)) (m : Addr → List (Fin 2)),
    s.Stands m ∧ ¬s.Blocked 0 ∧ s.BlockedOn 4 1 ∧ s.pcb.p_semAdd 0 = 4 ∧
      Returns (fun fuel => outBlocked fuel s (some 0)) fun r => r = (s, none) := by
  obtain ⟨s, active, m, hRep, hQueue, hName⟩ := exists_two_blocked
  have hTwo : Apart m := hRep.directory.apart
  obtain ⟨t, -, hEffect, -⟩ := hRep.exec_removeBlocked (by simp : Fintype.card (Fin 3) ≤ 3) 4
  have hStands : t.Stands (update m 4 [1]) := by
    have hRest : (m 4).tail = [1] := by rw [hQueue]; rfl
    exact ⟨0, hRest ▸ hEffect.rep⟩
  have hAddr : t.pcb.p_semAdd 0 = 4 := (congrFun hEffect.p_semAdd 0).trans (hName 0)
  have hFree : ¬t.Blocked 0 := by
    refine hStands.blocked_iff.mpr fun b => ?_
    by_cases hb : b = 4
    · simp [hb]
    · rw [Function.update_of_ne hb]
      exact fun hm => hTwo b 4 hb hm (hQueue ▸ List.mem_cons_self ..)
  have hOther : t.BlockedOn 4 1 := by
    obtain ⟨_, _, _, hRep'⟩ := hStands
    rw [hRep'.blockedOn_iff, Function.update_self]
    exact List.mem_singleton_self 1
  refine ⟨t, _, hStands, hFree, hOther, hAddr, (outBlocked_absent_iff hStands hFree).mpr ?_⟩
  rw [hAddr, hStands.hasEntry_iff, Function.update_self]
  simp

/-- Right after the initialisation no semaphore has a descriptor. -/
theorem outBlocked_empty_stops : ∃ start : Memory (Fin 2) (Fin 3),
    initTables 2 (.zero _ _) = .ok start ∧ start.Stands (fun _ => []) ∧ ¬start.Blocked 0 ∧
      ∀ fuel, 3 ≤ fuel → outBlocked fuel start (some 0) = .error .nullDeref := by
  obtain ⟨start, hStart, -, hRep, -⟩ := initTables_rep (by decide : 0 < 2) (.zero _ _)
  refine ⟨start, hStart, ⟨_, _, _, hRep⟩, ?_, fun fuel hFuel => ?_⟩
  · exact hRep.not_blocked_iff.mpr fun _ => List.not_mem_nil
  · exact hRep.outBlocked_misses rfl (by simpa using hFuel)

end Out

end Memory

end Nucleus
