import Mathlib.Logic.Function.Basic
import Mathlib.Tactic.Simps.Basic
import Nucleus.Semantics.Outcome

/-! The process control blocks. Pointers are nullable references of type
`Option P`, where `P` is the type of the blocks; the fields of all blocks are kept
as one map for each field. -/
namespace Nucleus

open Function (update)

/-- An `int *` of a caller, compared and stored but never followed; NULL is 0. -/
abbrev Addr := ℕ

abbrev Word := BitVec 32

/-- `pcb_t`, for every block at once. `p_s` is a `state_t`, which `types.h`
defines as a pointer-sized word. -/
structure PcbTable (P : Type) where
  p_next : P → Option P
  p_prnt : P → Option P
  p_child : P → Option P
  p_sib : P → Option P
  p_s : P → Word
  p_semAdd : P → Addr

namespace PcbTable

variable {P : Type} [DecidableEq P]

@[simps] def setNext (pcb : PcbTable P) (p : P) (v : Option P) : PcbTable P :=
  { pcb with p_next := update pcb.p_next p v }

@[simps] def setPrnt (pcb : PcbTable P) (p : P) (v : Option P) : PcbTable P :=
  { pcb with p_prnt := update pcb.p_prnt p v }

@[simps] def setChild (pcb : PcbTable P) (p : P) (v : Option P) : PcbTable P :=
  { pcb with p_child := update pcb.p_child p v }

@[simps] def setSib (pcb : PcbTable P) (p : P) (v : Option P) : PcbTable P :=
  { pcb with p_sib := update pcb.p_sib p v }

@[simps] def setS (pcb : PcbTable P) (p : P) (v : Word) : PcbTable P :=
  { pcb with p_s := update pcb.p_s p v }

@[simps] def setSemAdd (pcb : PcbTable P) (p : P) (v : Addr) : PcbTable P :=
  { pcb with p_semAdd := update pcb.p_semAdd p v }

end PcbTable

/-- What a call hands back to its caller. -/
inductive Reply (P : Type) where
  | done
  | pcb (r : Option P)
  | flag (b : Bool)
  deriving DecidableEq

/-- `&table[i]` for an index of the table. -/
def cell (n i : ℕ) : Option (Fin n) :=
  if h : i < n then some ⟨i, h⟩ else none

end Nucleus
