import Nucleus.Asl.Operations
import Nucleus.Semantics.System

/-! Runs of the operations of the active semaphore list. A caller blocks only
processes that are in no semaphore queue and takes out only blocked ones. -/
namespace Nucleus

open Function (update)
open Linked Semantics

variable {P D : Type}

inductive AslCall (P : Type) where
  | insertBlocked (semAdd : Addr) (p : P)
  | removeBlocked (semAdd : Addr)
  | outBlocked (p : P)
  | headBlocked (semAdd : Addr)

def aslExec [DecidableEq P] [DecidableEq D] (fuel : ℕ) (s : Memory P D) :
    AslCall P → Outcome (Memory P D × Reply P)
  | .insertBlocked semAdd p => do
      let (s, full) ← insertBlocked fuel s semAdd (some p)
      return (s, .flag full)
  | .removeBlocked semAdd => do
      let (s, r) ← removeBlocked fuel s semAdd
      return (s, .pcb r)
  | .outBlocked p => do
      let (s, r) ← outBlocked fuel s (some p)
      return (s, .pcb r)
  | .headBlocked semAdd => do
      let r ← headBlocked fuel s semAdd
      return (s, .pcb r)

def aslSystem [DecidableEq P] [DecidableEq D] (fuel : ℕ) :
    System (Memory P D) (AslCall P) (Reply P) where
  Legal s
    | .insertBlocked _ p => ¬s.Blocked p
    | .outBlocked p => s.Blocked p
    | _ => True
  exec := aslExec fuel

/-- The same operations without `outBlocked`. -/
def blockSystem [DecidableEq P] [DecidableEq D] (fuel : ℕ) :
    System (Memory P D) (AslCall P) (Reply P) :=
  (aslSystem fuel).restrict fun _ call => ∀ p, call ≠ .outBlocked p

namespace Memory

/-- `p` is the last process of the queue of an active descriptor. -/
def LastBlocked (s : Memory P D) (p : P) : Prop := ∃ d, s.Active d ∧ s.semd.s_procQ d = some p

/-- The call takes out the last process of a queue while every descriptor is in
use. -/
def Overrun (s : Memory P D) : AslCall P → Prop
  | .outBlocked p => s.semdFree_h = none ∧ s.LastBlocked p
  | _ => False

/-- The call gets a descriptor for NULL, the address of the dummy. -/
def BlocksNull (s : Memory P D) : AslCall P → Prop
  | .insertBlocked semAdd _ => semAdd = 0 ∧ s.semdFree_h ≠ none
  | _ => False

/-- The calls that read through NULL, or after which two descriptors of the list from the
dummy on are for one address. -/
def Breaks (s : Memory P D) (call : AslCall P) : Prop := s.Overrun call ∨ s.BlocksNull call

/-- Every process names the semaphore it is blocked on. -/
def Named (s : Memory P D) (m : Addr → List P) : Prop := ∀ a, ∀ p ∈ m a, s.pcb.p_semAdd p = a

variable {s : Memory P D} {m : Addr → List P} {semAdd : Addr} {p : P}

/-- What an operation did: the lists it left behind, the blocks whose link it may
have changed, and the semaphores that the blocks name now. -/
structure Effect (s t : Memory P D) (dummy : D) (m' : Addr → List P) (cells : List P)
    (names : P → Addr) : Prop where
  rep : ∃ active free, t.Rep dummy active free m'
  p_next : ∀ q, q ∉ cells → t.pcb.p_next q = s.pcb.p_next q
  p_semAdd : t.pcb.p_semAdd = names
  pcbFree_h : t.pcbFree_h = s.pcbFree_h
  base : t.semd.s_semAdd dummy = s.semd.s_semAdd dummy

theorem Rep.lastBlocked_iff {dummy : D} {active free : List D}
    (h : s.Rep dummy active free m) : s.LastBlocked p ↔ ∃ a, (m a).getLast? = some p := by
  constructor
  · intro hp
    obtain ⟨d, hd, hTail⟩ := hp
    have hRing := h.directory.ring d (h.active_iff.mp hd)
    exact ⟨_, hRing.tail_eq.symm.trans hTail⟩
  · intro hp
    obtain ⟨a, hLast⟩ := hp
    obtain ⟨d, hd, rfl⟩ := (h.directory.entry a).mp
      (List.ne_nil_of_mem (List.mem_of_getLast? hLast))
    exact ⟨d, h.active_iff.mpr hd, (h.directory.ring d hd).tail_eq.trans hLast⟩

section Exec

variable [DecidableEq P] [DecidableEq D] [Fintype D] {dummy : D} {active free : List D} {fuel : ℕ}

theorem Rep.exec_insertBlocked (h : s.Rep dummy active free m) (hp : ∀ b, p ∉ m b)
    (hFuel : Fintype.card D ≤ fuel) (semAdd : Addr) :
    ∃ t full, aslExec fuel s (.insertBlocked semAdd p) = .ok (t, .flag full) ∧
      (full = true → t = s ∧ m semAdd = [] ∧ free = []) ∧
      (full = false → Effect s t dummy (update m semAdd (m semAdd ++ [p])) (p :: m semAdd)
        (update s.pcb.p_semAdd p semAdd)) := by
  by_cases hRoom : m semAdd ≠ [] ∨ free ≠ []
  · obtain ⟨_, _, next, semd, f, hExec, hRep, hDummy, hKeep⟩ :=
      h.insertBlocked_put hp hRoom hFuel
    exact ⟨_, false, by simp only [aslExec, hExec]; rfl, by simp,
      fun _ => ⟨⟨_, _, hRep⟩, hKeep, rfl, rfl, hDummy⟩⟩
  · have hFull : m semAdd = [] ∧ free = [] := by simpa [not_or] using hRoom
    obtain ⟨ha, rfl⟩ := hFull
    have hExec := h.insertBlocked_full ha hFuel (some p)
    exact ⟨s, true, by simp only [aslExec, hExec]; rfl, fun _ => ⟨rfl, ha, rfl⟩, by simp⟩

theorem Rep.exec_removeBlocked (h : s.Rep dummy active free m) (hFuel : Fintype.card D ≤ fuel)
    (semAdd : Addr) :
    ∃ t, aslExec fuel s (.removeBlocked semAdd) = .ok (t, .pcb (m semAdd).head?) ∧
      Effect s t dummy (update m semAdd (m semAdd).tail) (m semAdd).tail s.pcb.p_semAdd ∧
      (m semAdd = [] → t = s) := by
  cases ha : m semAdd with
  | nil =>
      have hExec := h.removeBlocked_none ha hFuel
      have hSame : update m semAdd [] = m := by rw [← ha, Function.update_eq_self]
      refine ⟨s, by simp only [aslExec, hExec]; rfl, ?_, fun _ => rfl⟩
      rw [List.tail_nil, hSame]
      exact ⟨⟨_, _, h⟩, fun _ _ => rfl, rfl, rfl, rfl⟩
  | cons p l =>
      obtain ⟨_, _, next, s_next, f, hExec, hRep, hKeep⟩ := h.removeBlocked_take ha hFuel
      exact ⟨_, by simp only [aslExec, hExec]; rfl, ⟨⟨_, _, hRep⟩, hKeep, rfl, rfl, rfl⟩, by simp⟩

theorem Rep.exec_headBlocked (h : s.Rep dummy active free m) (hFuel : Fintype.card D ≤ fuel)
    (semAdd : Addr) :
    aslExec fuel s (.headBlocked semAdd) = .ok (s, .pcb (m semAdd).head?) := by
  simp only [aslExec, h.headBlocked_eq semAdd hFuel]
  rfl

/-- `outBlocked` takes out one process, but with the last one of a queue it drops
the whole queue. -/
theorem Rep.exec_outBlocked [Fintype P] (h : s.Rep dummy active free m) (hp : p ∈ m semAdd)
    (hName : s.pcb.p_semAdd p = semAdd) (hFits : ¬s.Overrun (.outBlocked p))
    (hFuel : Fintype.card D ≤ fuel) (hFuelP : Fintype.card P ≤ fuel) :
    ∃ t l, aslExec fuel s (.outBlocked p) = .ok (t, .pcb (some p)) ∧
      Effect s t dummy (update m semAdd l) (m semAdd) s.pcb.p_semAdd ∧
      ((m semAdd).getLast? ≠ some p → l = (m semAdd).erase p) ∧
      ((m semAdd).getLast? = some p → l = []) := by
  by_cases hTail : (m semAdd).getLast? = some p
  · cases free with
    | nil => exact absurd ⟨h.pool.spare, h.lastBlocked_iff.mpr ⟨semAdd, hTail⟩⟩ hFits
    | cons f free =>
        obtain ⟨active', d, semd, hExec, hRep, hKey⟩ :=
          h.outBlocked_tail hTail hName hFuel hFuelP
        refine ⟨_, [], by simp only [aslExec, hExec]; rfl,
          ⟨⟨_, _, hRep⟩, ?_, rfl, rfl, congrFun hKey dummy⟩, ?_, fun _ => rfl⟩
        · intro q hq
          exact Function.update_of_ne (ne_of_mem_of_not_mem hp hq).symm ..
        · exact fun hNot => absurd hTail hNot
  · obtain ⟨next, hExec, hRep, -, hKeep⟩ := h.outBlocked_inner hp hName hTail hFuel hFuelP
    exact ⟨_, _, by simp only [aslExec, hExec]; rfl, ⟨⟨_, _, hRep⟩, hKeep, rfl, rfl, rfl⟩,
      fun _ => rfl, fun hLast => absurd hLast hTail⟩

end Exec

theorem Named.put [DecidableEq P] {t : Memory P D} (h : s.Named m) (hp : ∀ b, p ∉ m b)
    (hNames : t.pcb.p_semAdd = update s.pcb.p_semAdd p semAdd) :
    t.Named (update m semAdd (m semAdd ++ [p])) := by
  have hOld (a : Addr) (q : P) (hq : q ∈ m a) : t.pcb.p_semAdd q = a := by
    rw [hNames, Function.update_of_ne (ne_of_mem_of_not_mem hq (hp a))]
    exact h a q hq
  intro a q hq
  by_cases ha : a = semAdd
  · subst ha
    rw [Function.update_self, List.mem_append] at hq
    rcases hq with hq | hq
    · exact hOld a q hq
    · rw [List.mem_singleton.mp hq, hNames, Function.update_self]
  · rw [Function.update_of_ne ha] at hq
    exact hOld a q hq

/-- Taking processes out of a queue keeps the names of the others. -/
theorem Named.drop {t : Memory P D} {l : List P} (h : s.Named m) (hl : l ⊆ m semAdd)
    (hNames : t.pcb.p_semAdd = s.pcb.p_semAdd) : t.Named (update m semAdd l) := by
  intro a q hq
  rw [hNames]
  by_cases ha : a = semAdd
  · subst ha
    rw [Function.update_self] at hq
    exact h a q (hl hq)
  · rw [Function.update_of_ne ha] at hq
    exact h a q hq

/-- A list that is empty is still empty when one of the lists has become shorter. -/
theorem update_subset_nil {l : List P} (hl : l ⊆ m semAdd) {b : Addr} (hb : m b = []) :
    update m semAdd l b = [] := by
  by_cases hEq : b = semAdd
  · subst hEq
    rw [Function.update_self]
    exact List.eq_nil_of_subset_nil (hb ▸ hl)
  · rw [Function.update_of_ne hEq, hb]

/-- What every run of the operations keeps. -/
structure Sound (s : Memory P D) (dummy : D) (m : Addr → List P) : Prop where
  rep : ∃ active free, s.Rep dummy active free m
  named : s.Named m
  base : s.semd.s_semAdd dummy = 0

section Step

variable {dummy : D} {t : Memory P D} {cells : List P}

theorem Sound.put [DecidableEq P] (h : s.Sound dummy m) (hp : ∀ b, p ∉ m b)
    (hEffect : Effect s t dummy (update m semAdd (m semAdd ++ [p])) cells
      (update s.pcb.p_semAdd p semAdd)) :
    t.Sound dummy (update m semAdd (m semAdd ++ [p])) :=
  ⟨hEffect.rep, h.named.put hp hEffect.p_semAdd, hEffect.base.trans h.base⟩

theorem Sound.drop {l : List P} (h : s.Sound dummy m) (hl : l ⊆ m semAdd)
    (hEffect : Effect s t dummy (update m semAdd l) cells s.pcb.p_semAdd) :
    t.Sound dummy (update m semAdd l) :=
  ⟨hEffect.rep, h.named.drop hl hEffect.p_semAdd, hEffect.base.trans h.base⟩

variable [DecidableEq P] [DecidableEq D] [Fintype P] [Fintype D] {fuel : ℕ}

/-- A legal call that does not overrun the free list completes and keeps the list sound.
Nobody waits for NULL afterwards if nobody did before, unless the call made him wait. -/
theorem Sound.step (h : s.Sound dummy m) {call : AslCall P}
    (legal : (aslSystem fuel).Legal s call) (hFits : ¬s.Overrun call)
    (hFuel : Fintype.card D ≤ fuel) (hFuelP : Fintype.card P ≤ fuel) :
    ∃ t reply m', aslExec fuel s call = .ok (t, reply) ∧ t.Sound dummy m' ∧
      (m 0 = [] → (m' 0 = [] ↔ ¬s.BlocksNull call)) := by
  obtain ⟨active, free, hRep⟩ := h.rep
  cases call with
  | insertBlocked a p =>
      have hp := hRep.not_blocked_iff.mp legal
      obtain ⟨t, full, hExec, hFull, hPut⟩ := hRep.exec_insertBlocked hp hFuel a
      cases full with
      | true =>
          obtain ⟨rfl, -, hNone⟩ := hFull rfl
          have hFree : t.semdFree_h = none := (Chain.eq_nil_iff hRep.pool.spare).mp hNone
          exact ⟨t, _, m, hExec, h, fun hNull => iff_of_true hNull fun hCall => hCall.2 hFree⟩
      | false =>
          refine ⟨t, _, _, hExec, h.put hp (hPut rfl), fun hNull => ?_⟩
          by_cases ha : a = 0
          · subst ha
            have hFree : s.semdFree_h ≠ none := fun hNone => by
              obtain rfl := (Chain.eq_nil_iff hRep.pool.spare).mpr hNone
              have hRefused := hRep.insertBlocked_full hNull hFuel (some p)
              simp [aslExec, hRefused] at hExec
            simp [BlocksNull, hFree]
          · rw [Function.update_of_ne (Ne.symm ha)]
            exact iff_of_true hNull fun hCall => ha hCall.1
  | removeBlocked a =>
      obtain ⟨t, hExec, hEffect, -⟩ := hRep.exec_removeBlocked hFuel a
      have hl := List.tail_subset (m a)
      exact ⟨t, _, _, hExec, h.drop hl hEffect, fun hNull =>
        iff_of_true (update_subset_nil hl hNull) not_false⟩
  | outBlocked p =>
      obtain ⟨a, hBlocked⟩ := legal
      have hp := hRep.blockedOn_iff.mp hBlocked
      obtain ⟨t, l, hExec, hEffect, hInner, hTail⟩ :=
        hRep.exec_outBlocked hp (h.named a p hp) hFits hFuel hFuelP
      have hl : l ⊆ m a := by
        by_cases hLast : (m a).getLast? = some p
        · rw [hTail hLast]
          exact List.nil_subset _
        · rw [hInner hLast]
          exact List.erase_subset
      exact ⟨t, _, _, hExec, h.drop hl hEffect, fun hNull =>
        iff_of_true (update_subset_nil hl hNull) not_false⟩
  | headBlocked a =>
      exact ⟨s, _, m, hRep.exec_headBlocked hFuel a, h, fun hNull => iff_of_true hNull not_false⟩

/-- A call that overruns the free list reads through NULL. -/
theorem Sound.overrun (h : s.Sound dummy m) {call : AslCall P}
    (hOver : s.Overrun call) (hFuel : Fintype.card D ≤ fuel) (hFuelP : Fintype.card P ≤ fuel) :
    aslExec fuel s call = .error .nullDeref := by
  obtain ⟨active, free, hRep⟩ := h.rep
  cases call with
  | outBlocked p =>
      obtain ⟨hFree, hLast⟩ := hOver
      obtain ⟨a, hTail⟩ := hRep.lastBlocked_iff.mp hLast
      have hEmpty : free = [] := Chain.eq_nil_iff hRep.pool.spare |>.mpr hFree
      subst hEmpty
      have hExec := hRep.outBlocked_tail_full hTail
        (h.named a p (List.mem_of_getLast? hTail)) hFuel hFuelP
      simp [aslExec, hExec]
  | insertBlocked | removeBlocked | headBlocked => exact hOver.elim

end Step

end Memory

end Nucleus
