import Nucleus.Asl.Init
import Nucleus.Asl.Runs
import Nucleus.Semantics.Fifo

/-! The active semaphore list refines a finite map from semaphore addresses to
lists of processes, each of which is first in, first out. -/
namespace Nucleus

open Function (update)
open Linked Semantics

variable {P D : Type}

/-- What a completed call did, seen as a step of a family of lists. A call that
found no free descriptor did nothing. -/
def aslEvent : AslCall P → Reply P → Fifo.Event Addr P
  | .insertBlocked semAdd p, .flag false => .put semAdd p
  | .removeBlocked semAdd, .pcb r => .take semAdd r
  | .headBlocked semAdd, .pcb r => .peek semAdd r
  | _, _ => .idle

def aslEvents (trace : List (AslCall P × Reply P)) : List (Fifo.Event Addr P) :=
  trace.map fun entry => aslEvent entry.1 entry.2

namespace Memory

/-- The list is well formed and its queues hold the lists of `m`. -/
def Stands (s : Memory P D) (m : Addr → List P) : Prop :=
  ∃ dummy active free, s.Rep dummy active free m

/-- Some active descriptor is for `semAdd`. -/
def HasEntry (s : Memory P D) (semAdd : Addr) : Prop :=
  ∃ d, s.Active d ∧ s.semd.s_semAdd d = semAdd

/-- What every operation does when the queues hold the lists of `m`. -/
structure MapBehaves [DecidableEq P] [DecidableEq D] (fuel : ℕ) (s : Memory P D)
    (m : Addr → List P) : Prop where
  entry : ∀ a, s.HasEntry a ↔ m a ≠ []
  insertBlocked : ∀ a p, (∀ b, p ∉ m b) → ∃ t full,
    aslExec fuel s (.insertBlocked a p) = .ok (t, .flag full) ∧ (full = true → t = s) ∧
      (full = false → t.Stands (update m a (m a ++ [p])) ∧ t.HasEntry a ∧ t.pcb.p_semAdd p = a)
  removeBlocked : ∀ a, ∃ t, aslExec fuel s (.removeBlocked a) = .ok (t, .pcb (m a).head?) ∧
    t.Stands (update m a (m a).tail) ∧ (t.HasEntry a ↔ (m a).tail ≠ []) ∧ (m a = [] → t = s)
  headBlocked : ∀ a, aslExec fuel s (.headBlocked a) = .ok (s, .pcb (m a).head?)

variable {s t : Memory P D} {m : Addr → List P} {fuel : ℕ}

theorem Stands.hasEntry_iff (h : s.Stands m) (a : Addr) : s.HasEntry a ↔ m a ≠ [] := by
  obtain ⟨dummy, active, free, hRep⟩ := h
  rw [hRep.directory.entry]
  simp only [HasEntry, hRep.active_iff]

theorem Stands.blocked_iff (h : s.Stands m) {p : P} : ¬s.Blocked p ↔ ∀ a, p ∉ m a := by
  obtain ⟨dummy, active, free, hRep⟩ := h
  exact hRep.not_blocked_iff

variable [DecidableEq P] [DecidableEq D] [Fintype D]

theorem Stands.insertBlocked (h : s.Stands m) (hFuel : Fintype.card D ≤ fuel) (a : Addr) (p : P)
    (hp : ∀ b, p ∉ m b) : ∃ t full,
      aslExec fuel s (.insertBlocked a p) = .ok (t, .flag full) ∧ (full = true → t = s) ∧
      (full = false → t.Stands (update m a (m a ++ [p])) ∧ t.HasEntry a ∧
        t.pcb.p_semAdd p = a) := by
  obtain ⟨dummy, active, free, hRep⟩ := h
  obtain ⟨t, full, hExec, hFull, hPut⟩ := hRep.exec_insertBlocked hp hFuel a
  refine ⟨t, full, hExec, fun hTrue => (hFull hTrue).1, fun hFalse => ?_⟩
  have hEffect := hPut hFalse
  have hStands : t.Stands (update m a (m a ++ [p])) := ⟨dummy, hEffect.rep⟩
  refine ⟨hStands, ?_, ?_⟩
  · rw [hStands.hasEntry_iff, Function.update_self]
    simp
  · rw [hEffect.p_semAdd, Function.update_self]

theorem Stands.removeBlocked (h : s.Stands m) (hFuel : Fintype.card D ≤ fuel) (a : Addr) :
    ∃ t, aslExec fuel s (.removeBlocked a) = .ok (t, .pcb (m a).head?) ∧
      t.Stands (update m a (m a).tail) ∧ (t.HasEntry a ↔ (m a).tail ≠ []) ∧
      (m a = [] → t = s) := by
  obtain ⟨dummy, active, free, hRep⟩ := h
  obtain ⟨t, hExec, hEffect, hNone⟩ := hRep.exec_removeBlocked hFuel a
  have hStands : t.Stands (update m a (m a).tail) := ⟨dummy, hEffect.rep⟩
  refine ⟨t, hExec, hStands, ?_, hNone⟩
  rw [hStands.hasEntry_iff, Function.update_self]

theorem Stands.headBlocked (h : s.Stands m) (hFuel : Fintype.card D ≤ fuel) (a : Addr) :
    aslExec fuel s (.headBlocked a) = .ok (s, .pcb (m a).head?) := by
  obtain ⟨dummy, active, free, hRep⟩ := h
  exact hRep.exec_headBlocked hFuel a

theorem Stands.behaves (h : s.Stands m) (hFuel : Fintype.card D ≤ fuel) :
    s.MapBehaves fuel m :=
  ⟨h.hasEntry_iff, h.insertBlocked hFuel, h.removeBlocked hFuel, h.headBlocked hFuel⟩

/-- Every legal call on the list is a step of the family of lists. -/
theorem asl_refines (hFuel : Fintype.card D ≤ fuel) :
    Refines (blockSystem (P := P) (D := D) fuel) Fifo.Step aslEvent Stands := by
  intro s m call h hLegal
  cases call with
  | insertBlocked a p =>
      obtain ⟨t, full, hExec, hFull, hPut⟩ :=
        h.insertBlocked hFuel a p (h.blocked_iff.mp hLegal.1)
      cases full with
      | true => exact ⟨t, _, m, hExec, rfl, hFull rfl ▸ h⟩
      | false => exact ⟨t, _, _, hExec, rfl, (hPut rfl).1⟩
  | removeBlocked a =>
      obtain ⟨t, hExec, hStands, -⟩ := h.removeBlocked hFuel a
      exact ⟨t, _, _, hExec, ⟨rfl, rfl⟩, hStands⟩
  | outBlocked p => exact absurd rfl (hLegal.2 p)
  | headBlocked a => exact ⟨s, _, m, h.headBlocked hFuel a, ⟨rfl, rfl⟩, h⟩

/-- In every run from a well-formed list, the list stands for a map on which
every operation acts as on first-in, first-out lists, and the processes of one
semaphore come out in the order in which they went in. -/
theorem asl_run_fifo (hFuel : Fintype.card D ≤ fuel) (h : s.Stands m)
    {trace : List (AslCall P × Reply P)} (run : (blockSystem fuel).Run s trace t) :
    ∃ m', t.Stands m' ∧ t.MapBehaves fuel m' ∧ ∀ a,
      m a ++ Fifo.puts a (aslEvents trace) = Fifo.takes a (aslEvents trace) ++ m' a := by
  obtain ⟨m', hSteps, hStands⟩ := (asl_refines hFuel).run run h
  exact ⟨m', hStands, hStands.behaves hFuel, Fifo.conservation hSteps⟩

/-- A run of one `insertBlocked` with room for it. -/
theorem Rep.run_put {dummy : D} {active free : List D} {a : Addr} {p : P}
    (h : s.Rep dummy active free m) (hp : ∀ b, p ∉ m b) (hRoom : m a ≠ [] ∨ free ≠ [])
    (hFuel : Fintype.card D ≤ fuel) :
    ∃ t active' free', (blockSystem fuel).Run s [(.insertBlocked a p, .flag false)] t ∧
      t.Rep dummy active' free' (update m a (m a ++ [p])) := by
  obtain ⟨active', free', _, _, _, hExec, hRep, -⟩ := h.insertBlocked_put hp hRoom hFuel
  have legal : (blockSystem fuel).Legal s (.insertBlocked a p) :=
    ⟨h.not_blocked_iff.mpr hp, by simp⟩
  refine ⟨_, active', free', .cons legal ?_ (.nil _), hRep⟩
  simp only [blockSystem, System.restrict, aslSystem, aslExec, hExec]
  rfl

/-- Two processes blocked on one semaphore, the first of which is released. -/
theorem asl_run_fifo_two :
    ∃ (s : Memory (Fin 2) (Fin 3)) (m : Addr → List (Fin 2)),
      s.Stands m ∧ s.MapBehaves 3 m ∧ m 4 = [1] := by
  let m₀ : Addr → List (Fin 2) := fun _ => []
  let m₁ := update m₀ 4 [0]
  have hFuel : Fintype.card (Fin 3) ≤ 3 := by simp
  obtain ⟨start, -, -, hStart, -⟩ := initTables_rep (by decide : 0 < 2) (.zero _ _)
  have hp₀ (b : Addr) : (0 : Fin 2) ∉ m₀ b := List.not_mem_nil
  have hRoom₀ : m₀ 4 ≠ [] ∨ (List.finRange 3).drop 1 ≠ [] := .inr (by decide)
  obtain ⟨_, _, free, run₁, r₁⟩ := hStart.run_put hp₀ hRoom₀ hFuel
  have hp₁ (b : Addr) : (1 : Fin 2) ∉ m₁ b := by
    by_cases hb : b = 4 <;> simp [m₁, m₀, hb]
  have hRoom₁ : m₁ 4 ≠ [] ∨ free ≠ [] := .inl (by simp [m₁])
  obtain ⟨u, _, _, run₂, r₂⟩ := r₁.run_put hp₁ hRoom₁ hFuel
  obtain ⟨s, hTake, -⟩ := Stands.removeBlocked ⟨_, _, _, r₂⟩ hFuel 4
  have legal : (blockSystem 3).Legal u (.removeBlocked 4) := ⟨trivial, by simp⟩
  have run := (run₁.trans run₂).trans (.cons legal hTake (.nil s))
  obtain ⟨m, hStands, hBehaves, hFifo⟩ := asl_run_fifo hFuel ⟨_, _, _, hStart⟩ run
  refine ⟨s, m, hStands, hBehaves, ?_⟩
  simpa [aslEvents, aslEvent, Fifo.puts, Fifo.takes, Fifo.Event.put?, Fifo.Event.taken?] using
    (hFifo 4).symm

end Memory

end Nucleus
