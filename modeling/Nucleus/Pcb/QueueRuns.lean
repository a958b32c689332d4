import Nucleus.Pcb.ProcessQueue
import Nucleus.Semantics.Fifo

/-! Any number of process queues over one table of blocks. A caller names a queue
by an index of any type `ι` and inserts only blocks that are in no queue. -/
namespace Nucleus

open Function (update)
open Linked Semantics

variable {ι P : Type}

/-- The table and the tail pointer variable of each queue. -/
structure Queues (ι P : Type) where
  pcb : PcbTable P
  tp : ι → Option P

inductive QueueCall (ι P : Type) where
  | insertProcQ (i : ι) (p : P)
  | removeProcQ (i : ι)
  | headProcQ (i : ι)
  | emptyProcQ (i : ι)

namespace Queues

/-- Every queue variable holds `mkEmptyProcQ()`; the blocks hold anything. -/
def start (pcb : PcbTable P) : Queues ι P := ⟨pcb, fun _ => mkEmptyProcQ⟩

def exec [DecidableEq ι] [DecidableEq P] (s : Queues ι P) :
    QueueCall ι P → Outcome (Queues ι P × Reply P)
  | .insertProcQ i p => do
      let (pcb, tp) ← insertProcQ s.pcb (s.tp i) (some p)
      return (⟨pcb, update s.tp i tp⟩, .done)
  | .removeProcQ i => do
      let (pcb, tp, r) ← removeProcQ s.pcb (s.tp i)
      return (⟨pcb, update s.tp i tp⟩, .pcb r)
  | .headProcQ i => return (s, .pcb (headProcQ s.pcb (s.tp i)))
  | .emptyProcQ i => return (s, .flag (emptyProcQ (s.tp i)))

/-- `p` is met from the tail pointer of no queue. -/
def Unqueued (s : Queues ι P) (p : P) : Prop := ∀ i, ¬Reach s.pcb.p_next (s.tp i) p

def system [DecidableEq ι] [DecidableEq P] : System (Queues ι P) (QueueCall ι P) (Reply P) where
  Legal s
    | .insertProcQ _ p => s.Unqueued p
    | _ => True
  exec := exec

/-- What a completed call did, seen as a step of a family of lists. -/
def event : QueueCall ι P → Reply P → Fifo.Event ι P
  | .insertProcQ i p, _ => .put i p
  | .removeProcQ i, .pcb r => .take i r
  | .headProcQ i, .pcb r => .peek i r
  | .emptyProcQ i, .flag b => .test i b
  | _, _ => .idle

def events (trace : List (QueueCall ι P × Reply P)) : List (Fifo.Event ι P) :=
  trace.map fun entry => event entry.1 entry.2

/-- Each queue is a ring that holds its list, and no block is in two lists. -/
structure Rep (s : Queues ι P) (q : ι → List P) : Prop where
  ring : ∀ i, Ring s.pcb.p_next (s.tp i) (q i)
  apart : Apart q

/-- What every operation does when the queues hold the lists `q`. -/
structure Behaves [DecidableEq ι] [DecidableEq P] (s : Queues ι P) (q : ι → List P) : Prop where
  insertProcQ : ∀ i p, (∀ j, p ∉ q j) → ∃ t,
    s.exec (.insertProcQ i p) = .ok (t, .done) ∧ t.Rep (update q i (q i ++ [p]))
  removeProcQ : ∀ i, ∃ t, s.exec (.removeProcQ i) = .ok (t, .pcb (q i).head?) ∧
    t.Rep (update q i (q i).tail) ∧ (q i = [] → t = s)
  headProcQ : ∀ i, s.exec (.headProcQ i) = .ok (s, .pcb (q i).head?)
  emptyProcQ : ∀ i, s.exec (.emptyProcQ i) = .ok (s, .flag (decide (q i = [])))

variable {s : Queues ι P} {q : ι → List P}

theorem rep_start (pcb : PcbTable P) : (start pcb : Queues ι P).Rep fun _ => [] :=
  ⟨fun _ => rfl, fun _ _ _ => List.disjoint_nil_left _⟩

theorem Rep.unqueued_iff (h : s.Rep q) {p : P} : s.Unqueued p ↔ ∀ i, p ∉ q i := by
  simp only [Unqueued, (h.ring _).reach_iff]

variable [DecidableEq ι]

/-- An operation on queue `i` that changes links only among its own cells and
cells in no queue leaves every other queue as it was. -/
theorem Rep.set (h : s.Rep q) {i : ι} {l : List P} {next : P → Option P} {tp : Option P}
    (hRing : Ring next tp l) (hl : ∀ p ∈ l, p ∈ q i ∨ ∀ j, p ∉ q j)
    (hKeep : ∀ j, j ≠ i → ∀ p ∈ q j, next p = s.pcb.p_next p) :
    (⟨{ s.pcb with p_next := next }, update s.tp i tp⟩ : Queues ι P).Rep (update q i l) := by
  refine ⟨fun j => ?_, h.apart.update hl⟩
  by_cases hj : j = i
  · subst hj
    simpa using hRing
  · simpa [Function.update_of_ne hj] using (h.ring j).congr (hKeep j hj)

variable [DecidableEq P]

theorem Rep.behaves (h : s.Rep q) : s.Behaves q where
  insertProcQ i p hp := by
    obtain ⟨next, hExec, hRing, hKeep⟩ := insertProcQ_append (h.ring i) (hp i)
    refine ⟨_, by simp only [exec, hExec]; rfl, h.set hRing ?_ ?_⟩
    · intro y hy
      rcases List.mem_append.mp hy with hy | hy
      · exact .inl hy
      · exact .inr (List.mem_singleton.mp hy ▸ hp)
    · intro j hj y hy
      apply hKeep
      intro hm
      rcases List.mem_cons.mp hm with rfl | hm
      · exact hp j hy
      · exact h.apart i j hj.symm hm hy
  removeProcQ i := by
    cases hq : q i with
    | nil =>
        have hTail : s.tp i = none := (h.ring i).eq_nil_iff.mp hq
        have hSame : (⟨s.pcb, update s.tp i none⟩ : Queues ι P) = s := by
          rw [← hTail, Function.update_eq_self]
        refine ⟨s, ?_, ?_, fun _ => rfl⟩
        · simp [exec, hTail, hSame]
        · rw [List.tail_nil, ← hq, Function.update_eq_self]
          exact h
    | cons p l =>
        have hRing := h.ring i
        rw [hq] at hRing
        obtain ⟨next, tp, hExec, hRest, hKeep⟩ := removeProcQ_head hRing
        refine ⟨_, by simp only [exec, hExec]; rfl, h.set hRest ?_ ?_, by simp⟩
        · intro y hy
          exact .inl (hq ▸ List.mem_cons_of_mem _ hy)
        · intro j hj y hy
          apply hKeep
          intro hm
          exact h.apart i j hj.symm (hq ▸ List.mem_cons_of_mem _ hm) hy
  headProcQ i := by
    simp only [exec, headProcQ_eq (h.ring i)]
    rfl
  emptyProcQ i := by
    have hFlag : emptyProcQ (s.tp i) = decide (q i = []) := by
      rw [Bool.eq_iff_iff, emptyProcQ_iff (h.ring i), decide_eq_true_iff]
    simp only [exec, hFlag]
    rfl

/-- Every legal call on the queues is a step of the family of lists. -/
theorem refines : Refines (system (ι := ι) (P := P)) Fifo.Step event Rep := by
  intro s q call h hLegal
  cases call with
  | insertProcQ i p =>
      obtain ⟨t, hExec, hRep⟩ := h.behaves.insertProcQ i p (h.unqueued_iff.mp hLegal)
      exact ⟨t, _, _, hExec, rfl, hRep⟩
  | removeProcQ i =>
      obtain ⟨t, hExec, hRep, -⟩ := h.behaves.removeProcQ i
      exact ⟨t, _, _, hExec, ⟨rfl, rfl⟩, hRep⟩
  | headProcQ i => exact ⟨s, _, _, h.behaves.headProcQ i, ⟨rfl, rfl⟩, h⟩
  | emptyProcQ i => exact ⟨s, _, _, h.behaves.emptyProcQ i, ⟨by simp, rfl⟩, h⟩

/-- In every run from empty queues, each queue holds the blocks inserted into it
and not yet removed, in insertion order, and every operation acts on it as on
that list. -/
theorem run_fifo (pcb : PcbTable P) {trace : List (QueueCall ι P × Reply P)}
    (run : system.Run (start pcb) trace s) :
    ∃ q : ι → List P, s.Rep q ∧ s.Behaves q ∧
      ∀ i, Fifo.puts i (events trace) = Fifo.takes i (events trace) ++ q i := by
  obtain ⟨q, hSteps, hRep⟩ := refines.run run (rep_start pcb)
  exact ⟨q, hRep, hRep.behaves, fun i => by simpa [events] using Fifo.conservation hSteps i⟩

/-- Two queues over three blocks, with the first block of one queue removed. -/
theorem run_fifo_two_queues :
    ∃ (s : Queues (Fin 2) (Fin 3)) (q : Fin 2 → List (Fin 3)),
      s.Rep q ∧ s.Behaves q ∧ q 0 = [2] ∧ q 1 = [1] := by
  let pcb : PcbTable (Fin 3) := ⟨fun _ => none, fun _ => none, fun _ => none, fun _ => none,
    fun _ => 0, fun _ => 0⟩
  obtain ⟨s₁, h₁, r₁⟩ := (rep_start pcb).behaves.insertProcQ (0 : Fin 2) 0 (by simp)
  obtain ⟨s₂, h₂, r₂⟩ := r₁.behaves.insertProcQ 1 1 (by decide)
  obtain ⟨s₃, h₃, r₃⟩ := r₂.behaves.insertProcQ 0 2 (by decide)
  obtain ⟨s₄, h₄, -⟩ := r₃.behaves.removeProcQ 0
  have run : system.Run (start pcb) [(.insertProcQ 0 0, .done), (.insertProcQ 1 1, .done),
      (.insertProcQ 0 2, .done), (.removeProcQ 0, .pcb (some 0))] s₄ :=
    .cons ((rep_start pcb).unqueued_iff.mpr (by simp)) h₁ <|
    .cons (r₁.unqueued_iff.mpr (by decide)) h₂ <|
    .cons (r₂.unqueued_iff.mpr (by decide)) h₃ <| .cons trivial h₄ (.nil s₄)
  obtain ⟨q, hRep, hBehaves, hFifo⟩ := run_fifo pcb run
  refine ⟨s₄, q, hRep, hBehaves, ?_, ?_⟩
  · simpa [events, event, Fifo.puts, Fifo.takes, Fifo.Event.put?, Fifo.Event.taken?] using
      (hFifo 0).symm
  · simpa [events, event, Fifo.puts, Fifo.takes, Fifo.Event.put?, Fifo.Event.taken?] using
      (hFifo 1).symm

end Queues

end Nucleus
