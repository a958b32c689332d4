import Nucleus.Asl.Init
import Nucleus.Asl.Runs

/-! The process blocks under all the functions that move them: the free list, the
process queues and the semaphore queues, which share the field `p_next`. -/
namespace Nucleus

open Function (update)
open Linked Semantics

variable {ι P D : Type}

/-- The globals, the tail pointers of the callers' process queues, and the blocks
that are in the callers' hands: handed out by a call and not given back since. -/
structure Tables (ι P D : Type) where
  mem : Memory P D
  tp : ι → Option P
  held : List P

inductive TableCall (ι P : Type) where
  | allocPcb
  | freePcb (p : P)
  | insertProcQ (i : ι) (p : P)
  | removeProcQ (i : ι)
  | asl (call : AslCall P)

/-- The blocks in the callers' hands after a call on the semaphore list. -/
def heldAfter [DecidableEq P] (held : List P) : AslCall P → Reply P → List P
  | .insertBlocked _ p, .flag false => held.erase p
  | .removeBlocked _, .pcb r => r.toList ++ held
  | .outBlocked _, .pcb r => r.toList ++ held
  | _, _ => held

def tableExec [DecidableEq ι] [DecidableEq P] [DecidableEq D] (fuel : ℕ) (s : Tables ι P D) :
    TableCall ι P → Outcome (Tables ι P D × Reply P)
  | .allocPcb => do
      let (pcb, pcbFree_h, r) := allocPcb s.mem.pcb s.mem.pcbFree_h
      return ({ s with mem := { s.mem with pcb, pcbFree_h }, held := r.toList ++ s.held }, .pcb r)
  | .freePcb p => do
      let (pcb, pcbFree_h) ← freePcb s.mem.pcb s.mem.pcbFree_h (some p)
      return ({ s with mem := { s.mem with pcb, pcbFree_h }, held := s.held.erase p }, .done)
  | .insertProcQ i p => do
      let (pcb, tp) ← insertProcQ s.mem.pcb (s.tp i) (some p)
      return (⟨{ s.mem with pcb }, update s.tp i tp, s.held.erase p⟩, .done)
  | .removeProcQ i => do
      let (pcb, tp, r) ← removeProcQ s.mem.pcb (s.tp i)
      return (⟨{ s.mem with pcb }, update s.tp i tp, r.toList ++ s.held⟩, .pcb r)
  | .asl call => do
      let (mem, reply) ← aslExec fuel s.mem call
      return ({ s with mem, held := heldAfter s.held call reply }, reply)

/-- A caller inserts, blocks or frees only blocks in its hands. -/
def tableSystem [DecidableEq ι] [DecidableEq P] [DecidableEq D] (fuel : ℕ) :
    System (Tables ι P D) (TableCall ι P) (Reply P) where
  Legal s
    | .freePcb p => p ∈ s.held
    | .insertProcQ _ p => p ∈ s.held
    | .asl (.insertBlocked _ p) => p ∈ s.held
    | .asl (.outBlocked _) => False
    | _ => True
  exec := tableExec fuel

/-- The tables after both initialisations, with all process queues empty. -/
def bootTables (MAXPROC : ℕ) (m : Memory (Fin MAXPROC) (Fin (MAXPROC + 1))) :
    Outcome (Tables ι (Fin MAXPROC) (Fin (MAXPROC + 1))) := do
  let mem ← initTables MAXPROC m
  return ⟨mem, fun _ => mkEmptyProcQ, []⟩

/-- At the start every block and every descriptor but the dummy is free. -/
theorem bootTables_rep {MAXPROC : ℕ} {m₀ : Memory (Fin MAXPROC) (Fin (MAXPROC + 1))}
    {start : Tables ι (Fin MAXPROC) (Fin (MAXPROC + 1))}
    (hStart : bootTables MAXPROC m₀ = .ok start) :
    start.tp = (fun _ => none) ∧ start.held = [] ∧
      Chain start.mem.pcb.p_next start.mem.pcbFree_h (List.finRange MAXPROC) ∧
      start.mem.Rep 0 [] ((List.finRange (MAXPROC + 1)).drop 1) (fun _ => []) ∧
      start.mem.semd.s_semAdd 0 = 0 := by
  obtain ⟨mem, hTables, hEq⟩ := Outcome.bind_eq_ok.mp hStart
  cases hEq
  have hSize : 0 < MAXPROC := by
    apply Nat.pos_of_ne_zero
    rintro rfl
    cases hTables
  obtain ⟨mem', hTables', hChain, hRep, hBase⟩ := initTables_rep hSize m₀
  cases hTables.symm.trans hTables'
  exact ⟨rfl, rfl, hChain, hRep, hBase⟩

end Nucleus
