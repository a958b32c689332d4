import Nucleus.Pcb.FreeList
import Nucleus.Pcb.ProcessQueue

/-! The active semaphore list: the functions of `asl.c`. A descriptor of the
table is a value of type `D`; the active list starts behind the dummy descriptor
`semd_h`, which belongs to no semaphore. -/
namespace Nucleus

open Function (update)
open Linked Semantics

variable {P D : Type}

/-- `semd_t`, for every descriptor at once. -/
structure SemdTable (P D : Type) where
  s_next : D → Option D
  s_semAdd : D → Addr
  s_procQ : D → Option P

namespace SemdTable

variable [DecidableEq D]

@[simps] def setNext (semd : SemdTable P D) (d : D) (v : Option D) : SemdTable P D :=
  { semd with s_next := update semd.s_next d v }

@[simps] def setSemAdd (semd : SemdTable P D) (d : D) (v : Addr) : SemdTable P D :=
  { semd with s_semAdd := update semd.s_semAdd d v }

@[simps] def setProcQ (semd : SemdTable P D) (d : D) (v : Option P) : SemdTable P D :=
  { semd with s_procQ := update semd.s_procQ d v }

theorem setProcQ_eq_self {semd : SemdTable P D} {d : D} {v : Option P}
    (h : semd.s_procQ d = v) : semd.setProcQ d v = semd := by
  rw [setProcQ, ← h, Function.update_eq_self]

end SemdTable

/-- The globals of `pcb.c` and `asl.c`. -/
structure Memory (P D : Type) where
  pcb : PcbTable P
  pcbFree_h : Option P
  semd : SemdTable P D
  semdFree_h : Option D
  semd_h : Option D

/-- `p` is not on the list of free blocks. -/
def Memory.Allocated (s : Memory P D) (p : P) : Prop := ¬Reach s.pcb.p_next s.pcbFree_h p

theorem Memory.allocated_iff {s : Memory P D} {free : List P} {p : P}
    (h : Chain s.pcb.p_next s.pcbFree_h free) : s.Allocated p ↔ p ∉ free := by
  rw [Memory.Allocated, Chain.reach_iff h]

/-- One pass of the search loop of `insertBlocked` and `removeBlocked`, which go
on while the next descriptor exists and its address passes the test. -/
def semdSearch (semd : SemdTable P D) (pass : Addr → Bool) (tmp : Option D) :
    Outcome (Option D ⊕ D) := do
  let t ← deref tmp
  match semd.s_next t with
  | some d => return if pass (semd.s_semAdd d) then .inl (some d) else .inr t
  | none => return .inr t

/-- The test of `insertBlocked` for an address without descriptor. -/
def noDescriptor (semd : SemdTable P D) (tmp : D) (semAdd : Addr) : Bool :=
  match semd.s_next tmp with
  | some d => decide (semd.s_semAdd d > semAdd)
  | none => true

/-- The result is the memory and whether the call ran out of descriptors. -/
def insertBlocked [DecidableEq P] [DecidableEq D] (fuel : ℕ) (m : Memory P D) (semAdd : Addr)
    (p : Option P) : Outcome (Memory P D × Bool) := do
  let tmp ← loop (semdSearch m.semd (· < semAdd)) fuel m.semd_h
  if noDescriptor m.semd tmp semAdd then
    match m.semdFree_h with
    | none => return (m, true)
    | some add =>
        let semdFree_h := m.semd.s_next add
        let semd := m.semd.setNext add (m.semd.s_next tmp)
        let semd := semd.setNext tmp (some add)
        let semd := semd.setSemAdd add semAdd
        let semd := semd.setProcQ add mkEmptyProcQ
        let semd := semd.setProcQ add p
        let q ← deref p
        let pcb := m.pcb.setNext q p
        let pcb := pcb.setSemAdd q semAdd
        return ({ m with pcb, semd, semdFree_h }, false)
  else
    let d ← deref (m.semd.s_next tmp)
    let (pcb, tp) ←
      if m.semd.s_semAdd d = semAdd then insertProcQ m.pcb (m.semd.s_procQ d) p
      else pure (m.pcb, m.semd.s_procQ d)
    let q ← deref p
    return ({ m with pcb := pcb.setSemAdd q semAdd, semd := m.semd.setProcQ d tp }, false)

/-- The result is the memory and the returned pointer. `removeProcQ` works on a
local copy of the tail pointer. -/
def removeBlocked [DecidableEq P] [DecidableEq D] (fuel : ℕ) (m : Memory P D) (semAdd : Addr) :
    Outcome (Memory P D × Option P) := do
  let prec ← loop (semdSearch m.semd (· ≠ semAdd)) fuel m.semd_h
  match m.semd.s_next prec with
  | none => return (m, none)
  | some tmp =>
      if m.semd.s_semAdd tmp = semAdd then
        let (pcb, tp, ris) ← removeProcQ m.pcb (m.semd.s_procQ tmp)
        if !emptyProcQ tp then
          return ({ m with pcb }, ris)
        else
          let semd := m.semd.setNext prec (m.semd.s_next tmp)
          let semd := semd.setNext tmp m.semdFree_h
          return ({ m with pcb, semd, semdFree_h := some tmp }, ris)
      else
        return (m, none)

/-- One pass of the `while` of `outBlocked` over `(prec, tmp)`. Its condition
reads `tmp->s_semAdd` before it compares `tmp` with NULL. -/
def outBlockedSearch (semd : SemdTable P D) (semAdd : Addr) (vars : Option D × Option D) :
    Outcome ((Option D × Option D) ⊕ (Option D × Option D)) := do
  let t ← deref vars.2
  if semd.s_semAdd t ≠ semAdd ∧ vars.2.isSome then
    return .inl (vars.2, semd.s_next t)
  else
    return .inr vars

def outBlocked [DecidableEq P] [DecidableEq D] (fuel : ℕ) (m : Memory P D) (p : Option P) :
    Outcome (Memory P D × Option P) := do
  let h ← deref m.semd_h
  let q ← deref p
  let (prec, tmp) ← loop (outBlockedSearch m.semd (m.pcb.p_semAdd q)) fuel
    (m.semd_h, m.semd.s_next h)
  match tmp with
  | none => return (m, none)
  | some t =>
      let (pcb, tq, tp) ← outProcQ fuel m.pcb (m.semd.s_procQ t) p
      let semd := m.semd.setProcQ t tq
      if emptyProcQ (semd.s_procQ t) then
        let v ← deref prec
        let semd := semd.setNext v (semd.s_next t)
        let f ← deref m.semdFree_h
        let semd := semd.setNext t (semd.s_next f)
        let semd := semd.setNext f (some t)
        return ({ m with pcb, semd }, tp)
      else
        return ({ m with pcb, semd }, tp)

/-- One pass of the `while` of `headBlocked`. -/
def headBlockedSearch (semd : SemdTable P D) (semAdd : Addr) (tmp : Option D) :
    Outcome (Option D ⊕ Option D) :=
  match tmp with
  | some d => return if semd.s_semAdd d ≠ semAdd then .inl (semd.s_next d) else .inr tmp
  | none => return .inr none

def headBlocked (fuel : ℕ) (m : Memory P D) (semAdd : Addr) : Outcome (Option P) := do
  let h ← deref m.semd_h
  match ← loop (headBlockedSearch m.semd semAdd) fuel (m.semd.s_next h) with
  | some d =>
      match m.semd.s_procQ d with
      | some t => return m.pcb.p_next t
      | none => return none
  | none => return none

/-- One pass of the `for` of `initASL`: the table and the moving pointer `p`. -/
def initASLLink (MAXPROC : ℕ) (s : SemdTable P (Fin (MAXPROC + 1)) × Option (Fin (MAXPROC + 1)))
    (i : ℕ) : Outcome (SemdTable P (Fin (MAXPROC + 1)) × Option (Fin (MAXPROC + 1))) := do
  let d ← deref s.2
  let semd := s.1.setNext d (if i < MAXPROC then cell (MAXPROC + 1) (i + 1) else none)
  return (semd, semd.s_next d)

def initASL (MAXPROC : ℕ) (m : Memory P (Fin (MAXPROC + 1))) :
    Outcome (Memory P (Fin (MAXPROC + 1))) := do
  let semdFree_h := cell (MAXPROC + 1) 1
  let semd_h := cell (MAXPROC + 1) 0
  let dummy ← deref semd_h
  let semd := m.semd.setSemAdd dummy 0
  let semd := semd.setProcQ dummy none
  let semd := semd.setNext dummy none
  let (semd, _) ← (List.range' 1 MAXPROC).foldlM (initASLLink MAXPROC) (semd, semdFree_h)
  return { m with semd, semdFree_h, semd_h }

end Nucleus
