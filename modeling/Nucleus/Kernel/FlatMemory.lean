import Nucleus.Kernel.Syscall
import Nucleus.Pcb.ProcessQueue
import Nucleus.Semantics.Block

/-! The blocks as they lie in memory. A pointer is an address, and `STST` and `LDST` work
on the words from `p_s` on, of which the block has only one. -/
namespace Nucleus.Flat

open Function (update)
open Linked Semantics

/-- The words of the memory by their addresses. -/
abbrev Words := Word → Word

section Layout

/-- Where the linker has put `array`, and how many words a processor state has: the
registers `a1` to `pc`, `cpsr`, and what else the machine saves. -/
structure Layout where
  array : Word
  MAXPROC : ℕ
  words : ℕ
  aligned : array.toNat % 4 = 0
  nonzero : array ≠ 0
  fits : array.toNat + 24 * MAXPROC ≤ 2 ^ 32
  enough : 17 ≤ words
  bounded : 16 + 4 * words ≤ 2 ^ 32

/-- `&array[i]`, with blocks of six words. -/
def Layout.block (L : Layout) (i : ℕ) : Word := L.array + 24 * BitVec.ofNat 32 i

def Layout.InTable (L : Layout) (p : Word) : Prop := ∃ i < L.MAXPROC, p = L.block i

/-- The addresses of `p_next`, `p_prnt`, `p_child`, `p_sib` and `p_semAdd`. -/
def linkFields (p : Word) : List Word := [p, p + 4, p + 8, p + 12, p + 20]

/-- `&(p->p_s)` -/
def p_s (p : Word) : Word := p + 16

end Layout

section Code

/-- `STST(addr)` -/
def STST (words : ℕ) (mem : Words) (addr : Word) (regs : ℕ → Word) : Words :=
  storeAll (element addr) regs words mem

/-- `LDST(addr)` -/
def LDST (mem : Words) (addr : Word) : ℕ → Word := fun i => mem (element addr i)

/-- The result is the memory and the new value of `*tp`. -/
def insertProcQ (mem : Words) (tp p : Word) : Outcome (Words × Word) :=
  match ptr tp with
  | none => do
      let q ← deref (ptr p)
      return (update mem q p, p)
  | some t => do
      let q ← deref (ptr p)
      let mem := update mem q (mem t)
      let mem := update mem t p
      return (mem, p)

/-- The result is the memory, the new value of `*tp` and the returned pointer. -/
def removeProcQ (mem : Words) (tp : Word) : Outcome (Words × Word × Word) :=
  match ptr tp with
  | none => return (mem, 0, 0)
  | some t => do
      let p := mem t
      if tp = p then
        return (mem, 0, p)
      let q ← deref (ptr p)
      return (update mem t (mem q), tp, p)

/-- Both branches store the old value of `pcbFree_h`. The result is the memory and the new
value. -/
def freePcb (mem : Words) (pcbFree_h p : Word) : Outcome (Words × Word) :=
  match ptr pcbFree_h with
  | some _ => do
      let q ← deref (ptr p)
      return (update mem q pcbFree_h, p)
  | none => do
      let q ← deref (ptr p)
      return (update mem q 0, p)

/-- The memory, the globals that `scheduler` uses, and how often the processor has waited
for an interrupt. -/
structure Machine where
  mem : Words
  pcbFree_h : Word
  readyQueue : Word
  currentProcess : Word
  processCount : ℤ
  softBlockCount : ℤ
  waits : ℕ

/-- The tests when the ready queue is empty. -/
def schedulerIdle (m : Machine) : Outcome Machine :=
  match ptr m.readyQueue with
  | none =>
      if m.processCount = 0 then
        .error .halt
      else if m.processCount > 0 ∧ m.softBlockCount = 0 then
        error "Deadlock"
      else if m.processCount > 0 ∧ m.softBlockCount > 0 then
        return { m with waits := m.waits + 1 }
      else
        return m
  | some _ => return m

/-- `currentProcess=removeProcQ(&readyQueue)` -/
def dispatch (m : Machine) : Outcome Machine := do
  let (mem, readyQueue, currentProcess) ← removeProcQ m.mem m.readyQueue
  return { m with mem, readyQueue, currentProcess }

/-- Which process a call stops, which one goes on, and with which state. -/
structure Switch where
  preempted : Word
  dispatched : Word
  loaded : ℕ → Word

/-- `regs` is the state of the processor at the call, as `STST` stores it. -/
def scheduler (words : ℕ) (m : Machine) (regs : ℕ → Word) (control : ℤ) :
    Outcome (Machine × Switch) := do
  let m ← schedulerIdle m
  let c ← deref (ptr m.currentProcess)
  let m := { m with mem := STST words m.mem (p_s c) regs }
  let m ←
    if control = 0 then do
      let (mem, pcbFree_h) ← freePcb m.mem m.pcbFree_h m.currentProcess
      let m ← dispatch { m with mem, pcbFree_h }
      pure { m with processCount := m.processCount - 1 }
    else if control = 1 then do
      let (mem, readyQueue) ← insertProcQ m.mem m.readyQueue m.currentProcess
      dispatch { m with mem, readyQueue }
    else if control = 9 then dispatch m
    else pure m
  let x ← deref (ptr m.currentProcess)
  return (m, ⟨c, x, LDST m.mem (p_s x)⟩)

end Code

section Pointers

variable {a b p v : Word} {mem : Words}

theorem ptr_inj : ptr a = ptr b ↔ a = b := by
  unfold ptr
  grind

theorem ptr_eq_some (h : ptr a = some b) : a = b ∧ b ≠ 0 := by
  unfold ptr at h
  split at h
  · cases h
  · next hNonzero =>
      cases h
      exact ⟨rfl, hNonzero⟩

/-- A pointer that has been followed is the address itself. -/
theorem deref_ptr_ok (h : deref (ptr a) = .ok b) : b = a := by
  cases hPtr : ptr a with
  | none => simp [hPtr] at h
  | some q =>
      rw [hPtr] at h
      cases h
      exact (ptr_eq_some hPtr).1.symm

/-- The link of the block at an address. -/
def link (mem : Words) (p : Word) : Option Word := ptr (mem p)

theorem link_update : link (update mem p v) = update (link mem) p (ptr v) := by
  funext q
  by_cases hq : q = p
  · subst hq
    simp [link]
  · simp [link, Function.update_of_ne hq]

/-- The memory as a table of blocks in which only the queue links count. -/
def table (mem : Words) : PcbTable Word :=
  ⟨link mem, fun _ => none, fun _ => none, fun _ => none, fun _ => 0, fun _ => 0⟩

theorem table_setNext : (table mem).setNext p (ptr v) = table (update mem p v) := by
  simp [table, PcbTable.setNext, link_update]

end Pointers

section Queue

variable {mem : Words} {tp p x : Word} {l : List Word}

/-- On addresses `insertProcQ` does what it does on the table of the blocks. -/
theorem insertProcQ_table (mem : Words) (tp p : Word) :
    Nucleus.insertProcQ (table mem) (ptr tp) (ptr p) =
      (insertProcQ mem tp p).map fun r => (table r.1, ptr r.2) := by
  cases hTail : ptr tp with
  | none =>
      cases hNew : ptr p with
      | none => simp [Nucleus.insertProcQ, insertProcQ, hTail, hNew, Except.map]
      | some q =>
          simp only [Nucleus.insertProcQ, insertProcQ, hTail, hNew, deref_some, Outcome.ok_bind,
            Outcome.pure_eq, Except.map]
          rw [← hNew, table_setNext]
  | some t =>
      cases hNew : ptr p with
      | none => simp [Nucleus.insertProcQ, insertProcQ, hTail, hNew, Except.map]
      | some q =>
          have hLink : (table mem).p_next t = ptr (mem t) := rfl
          simp only [Nucleus.insertProcQ, insertProcQ, hTail, hNew, deref_some, Outcome.ok_bind,
            Outcome.pure_eq, Except.map]
          rw [← hNew, hLink, table_setNext, table_setNext]

theorem removeProcQ_table (mem : Words) (tp : Word) :
    Nucleus.removeProcQ (table mem) (ptr tp) =
      (removeProcQ mem tp).map fun r => (table r.1, ptr r.2.1, ptr r.2.2) := by
  cases hTail : ptr tp with
  | none => simp [Nucleus.removeProcQ, removeProcQ, hTail, Except.map]
  | some t =>
      have hLink (q : Word) : (table mem).p_next q = ptr (mem q) := rfl
      simp only [Nucleus.removeProcQ, removeProcQ, hTail, hLink]
      rw [← hTail]
      simp only [ptr_inj]
      by_cases hLone : tp = mem t
      · simp [hLone, Except.map]
      · cases hHead : ptr (mem t) with
        | none => simp [hLone, Except.map]
        | some q =>
            simp only [hLone, if_false, deref_some, Outcome.ok_bind, Outcome.pure_eq, Except.map,
              table_setNext, hHead]

theorem insertProcQ_frame (mem : Words) (tp : Word) (hp : p ≠ 0) :
    ∃ mem', insertProcQ mem tp p = .ok (mem', p) ∧ (tp ≠ 0 → mem' tp = p) ∧
      ∀ a, a ≠ p → (tp ≠ 0 → a ≠ tp) → mem' a = mem a := by
  cases hTail : ptr tp with
  | none =>
      refine ⟨update mem p p, by simp [insertProcQ, hTail, ptr_some hp], fun hSome => ?_,
        fun a hap _ => Function.update_of_ne hap ..⟩
      rw [ptr_some hSome] at hTail
      cases hTail
  | some t =>
      obtain ⟨rfl, hSome⟩ := ptr_eq_some hTail
      refine ⟨update (update mem p (mem tp)) tp p, by simp [insertProcQ, hTail, ptr_some hp],
        fun _ => Function.update_self .., fun a hap hat => ?_⟩
      rw [Function.update_of_ne (hat hSome), Function.update_of_ne hap]

theorem removeProcQ_frame {mem' : Words} {tp' a : Word}
    (h : removeProcQ mem tp = .ok (mem', tp', x)) (ha : a ≠ tp) : mem' a = mem a := by
  cases hTail : ptr tp with
  | none =>
      simp only [removeProcQ, hTail, Outcome.pure_eq] at h
      cases h
      rfl
  | some t =>
      obtain ⟨rfl, -⟩ := ptr_eq_some hTail
      simp only [removeProcQ, hTail] at h
      split at h
      · cases h
        rfl
      · obtain ⟨q, -, hWrite⟩ := Outcome.bind_eq_ok.mp h
        cases hWrite
        exact Function.update_of_ne ha ..

/-- `insertProcQ` appends: it links the new block behind the old tail, and no word but the
links of these two changes. -/
theorem insertProcQ_append (h : Ring (link mem) (ptr tp) l) (hp : p ≠ 0) (hFresh : p ∉ l) :
    ∃ mem', insertProcQ mem tp p = .ok (mem', p) ∧ Ring (link mem') (ptr p) (l ++ [p]) ∧
      (tp ≠ 0 → mem' tp = p) ∧ ∀ a, a ≠ p → (tp ≠ 0 → a ≠ tp) → mem' a = mem a := by
  have hTable : Ring (table mem).p_next (ptr tp) l := h
  obtain ⟨next, hInsert, hRing, -⟩ := Nucleus.insertProcQ_append hTable hFresh
  obtain ⟨mem', hFlat, hFrame⟩ := insertProcQ_frame mem tp hp
  rw [← ptr_some hp, insertProcQ_table, hFlat] at hInsert
  have hNext : link mem' = next := congrArg (fun r => r.1.p_next) (Except.ok.inj hInsert)
  refine ⟨mem', hFlat, ?_, hFrame⟩
  rw [hNext, ptr_some hp]
  exact hRing

/-- `removeProcQ` returns the head, and writes only to the tail. -/
theorem removeProcQ_head (h : Ring (link mem) (ptr tp) (x :: l)) :
    ∃ mem' tp', removeProcQ mem tp = .ok (mem', tp', x) ∧ Ring (link mem') (ptr tp') l ∧
      ∀ a, a ≠ tp → mem' a = mem a := by
  have hTable : Ring (table mem).p_next (ptr tp) (x :: l) := h
  obtain ⟨next, tail, hRemove, hRing, -⟩ := Nucleus.removeProcQ_head hTable
  rw [removeProcQ_table] at hRemove
  cases hFlat : removeProcQ mem tp with
  | error stop => simp [hFlat, Except.map] at hRemove
  | ok r =>
      obtain ⟨mem', tp', y⟩ := r
      rw [hFlat] at hRemove
      have hResult := Except.ok.inj hRemove
      have hNext : link mem' = next := congrArg (fun r => r.1.p_next) hResult
      have hTail : ptr tp' = tail := congrArg (fun r => r.2.1) hResult
      have hHead : ptr y = some x := congrArg (fun r => r.2.2) hResult
      obtain ⟨rfl, -⟩ := ptr_eq_some hHead
      refine ⟨mem', tp', rfl, ?_, fun a ha => removeProcQ_frame hFlat ha⟩
      rw [hNext, hTail]
      exact hRing

end Queue

end Nucleus.Flat
