import Nucleus.Asl.Init
import Nucleus.Kernel.Preemption
import Nucleus.Kernel.Scheduler
import Nucleus.Semantics.Agreement

/-! The two schedulers. As long as the save areas of the processes are apart from their links
and from each other, the scheduler on the memory does what it does with the states kept
outside of it. The free list may lie anywhere. -/
namespace Nucleus.Flat

open Function (update)
open Linked Semantics

variable {D : Type}

section Relation

/-- A save area of a block of the list holds no link of such a block, and no word of another
save area. -/
structure Spread (L : Layout) (blocks : List Word) : Prop where
  links : ∀ p ∈ blocks, ∀ q ∈ blocks, ∀ i < L.words, element (p_s p) i ≠ q
  areas : ∀ p ∈ blocks, ∀ q ∈ blocks, p ≠ q → ∀ i < L.words, ∀ j < L.words,
    element (p_s p) i ≠ element (p_s q) j

/-- A link of the blocks, or a word of their save areas. -/
def Owned (L : Layout) (blocks : List Word) (a : Word) : Prop :=
  a ∈ blocks ∨ ∃ p ∈ blocks, ∃ i < L.words, a = element (p_s p) i

/-- The kernel and the machine have the same ready queue and the same globals, the states of
the processes in `stored`, and the other words of the memory. -/
structure Alike (L : Layout) (blocks ready stored : List Word) (k : Kernel Word D) (m : Machine) :
    Prop where
  queue : Ring k.pcb.p_next k.readyQueue ready
  ring : Ring (link m.mem) (ptr m.readyQueue) ready
  readyStored : ∀ p ∈ ready, p ∈ stored
  within : ∀ p ∈ stored, p ∈ blocks
  current : ptr m.currentProcess = k.currentProcess
  free : ptr m.pcbFree_h = k.pcbFree_h
  processCount : m.processCount = k.processCount
  softBlockCount : m.softBlockCount = k.softBlockCount
  waits : m.waits = k.waits
  saved : ∀ p ∈ stored, ∀ i : Fin 22, i < L.words → m.mem (element (p_s p) i) = k.saved p i
  words : ∀ a, ¬Owned L blocks a → m.mem a = k.words a

/-- What holds while a process runs. Its own state is in the processor. -/
def Mirrors (L : Layout) (blocks : List Word) (k : Kernel Word D) (m : Machine) : Prop :=
  ∃ c ready, k.currentProcess = some c ∧ c ∈ blocks ∧ c ∉ ready ∧ Alike L blocks ready ready k m

/-- The same process goes on, with the same state in the processor. -/
def Resumes (L : Layout) (running : Option Word × ProcState) (r : Switch) : Prop :=
  running.1 = some r.dispatched ∧ ∀ i : Fin 22, i < L.words → r.loaded i = running.2 i

end Relation

section Steps

variable {L : Layout} {blocks ready stored : List Word} {k : Kernel Word D} {m : Machine} {c : Word}

theorem Alike.readyQueue (h : Alike L blocks ready stored k m) :
    ptr m.readyQueue = k.readyQueue := h.ring.tail_eq.trans h.queue.tail_eq.symm

theorem Alike.readyWithin (h : Alike L blocks ready stored k m) {p : Word} (hp : p ∈ ready) :
    p ∈ blocks := h.within p (h.readyStored p hp)

/-- The tests look at what is the same on both sides, and count the waiting on both. -/
theorem Alike.idle (h : Alike L blocks ready stored k m) :
    Agree (fun k' m' => ∃ waits, k' = { k with waits } ∧ m' = { m with waits })
      (Nucleus.schedulerIdle k) (schedulerIdle m) := by
  obtain ⟨mem, pcbFree_h, readyQueue, currentProcess, processCount, softBlockCount, waits⟩ := m
  obtain rfl : processCount = k.processCount := h.processCount
  obtain rfl : softBlockCount = k.softBlockCount := h.softBlockCount
  obtain rfl : waits = k.waits := h.waits
  obtain hQueue | ⟨t, hQueue⟩ := k.readyQueue.eq_none_or_eq_some
  · have hFlat : ptr readyQueue = none := h.readyQueue.trans hQueue
    by_cases hNone : k.processCount = 0
    · have hLeft : Nucleus.schedulerIdle k = .error .halt := by
        simp [Nucleus.schedulerIdle, hQueue, hNone]
      simp only [hLeft, schedulerIdle, hFlat, hNone, if_true]
      exact .error .halt
    by_cases hStuck : k.processCount > 0 ∧ k.softBlockCount = 0
    · have hLeft : Nucleus.schedulerIdle k = error "Deadlock" := by
        simp [Nucleus.schedulerIdle, hQueue, hNone, hStuck]
      simp only [hLeft, schedulerIdle, hFlat, hNone, if_false]
      rw [if_pos hStuck]
      exact .error (.panic "Deadlock")
    by_cases hWait : k.processCount > 0 ∧ k.softBlockCount > 0
    · have hSoft : k.softBlockCount ≠ 0 := by omega
      have hLeft : Nucleus.schedulerIdle k = .ok { k with waits := k.waits + 1 } := by
        simp [Nucleus.schedulerIdle, hQueue, hNone, hWait, hSoft]
      simp only [hLeft, schedulerIdle, hFlat, hNone, if_false]
      rw [if_neg hStuck, if_pos hWait]
      exact .ok ⟨k.waits + 1, rfl, rfl⟩
    · have hLeft : Nucleus.schedulerIdle k = .ok k := by
        simp [Nucleus.schedulerIdle, hQueue, hNone, hStuck, hWait]
      simp only [hLeft, schedulerIdle, hFlat, hNone, if_false]
      rw [if_neg hStuck, if_neg hWait]
      exact .ok ⟨k.waits, rfl, rfl⟩
  · have hFlat : ptr readyQueue = some t := h.readyQueue.trans hQueue
    rw [Kernel.schedulerIdle_ready (by simp [hQueue])]
    simp only [schedulerIdle, hFlat]
    exact .ok ⟨k.waits, rfl, rfl⟩

/-- Words outside the links stay where only links are written. -/
theorem Alike.frame (hSpread : Spread L blocks) (h : Alike L blocks ready stored k m) {mem : Words}
    (hFrame : ∀ a, a ∉ blocks → mem a = m.mem a) :
    (∀ p ∈ stored, ∀ i : Fin 22, i < L.words → mem (element (p_s p) i) = k.saved p i) ∧
      ∀ a, ¬Owned L blocks a → mem a = k.words a := by
  refine ⟨fun p hp i hi => ?_, fun a ha => ?_⟩
  · have hArea : element (p_s p) i ∉ blocks := fun hMem =>
      hSpread.links p (h.within p hp) _ hMem i hi rfl
    rw [hFrame _ hArea]
    exact h.saved p hp i hi
  · rw [hFrame a fun hMem => ha (.inl hMem)]
    exact h.words a ha

/-- `STST` writes to the save area of the running process only. -/
theorem Alike.save (hSpread : Spread L blocks) (h : Alike L blocks ready stored k m)
    (hc : c ∈ blocks) {regs : ℕ → Word} (hRegs : ∀ i : Fin 22, i < L.words → regs i = k.cpu i) :
    Alike L blocks ready (c :: stored) { k with saved := update k.saved c k.cpu }
      { m with mem := STST L.words m.mem (p_s c) regs } := by
  refine { h with ring := ?_, readyStored := ?_, within := ?_, saved := ?_, words := ?_ }
  · refine h.ring.congr fun q hq => congrArg ptr ?_
    exact storeAll_same fun i hi hEq => absurd hEq (hSpread.links c hc q (h.readyWithin hq) i hi)
  · exact fun p hp => List.mem_cons_of_mem _ (h.readyStored p hp)
  · intro p hp
    rcases List.mem_cons.mp hp with rfl | hp
    · exact hc
    · exact h.within p hp
  · intro p hp i hi
    by_cases hpc : p = c
    · subst hpc
      change _ = update k.saved p k.cpu p i
      rw [Function.update_self, ← hRegs i hi]
      exact L.STST_element hi
    · have hStored : p ∈ stored := (List.mem_cons.mp hp).resolve_left hpc
      change _ = update k.saved c k.cpu p i
      rw [Function.update_of_ne hpc, ← h.saved p hStored i hi]
      exact storeAll_same fun j hj hEq =>
        absurd hEq (hSpread.areas c hc p (h.within p hStored) (Ne.symm hpc) j hj i hi)
  · intro a ha
    rw [← h.words a ha]
    exact storeAll_same fun i hi hEq => absurd (.inr ⟨c, hc, i, hi, hEq.symm⟩) ha

/-- Both put the running process behind the ready queue. -/
theorem Alike.insert (hSpread : Spread L blocks) (h : Alike L blocks ready stored k m)
    (hCurrent : k.currentProcess = some c) (hc : c ∈ stored) (hFresh : c ∉ ready) :
    Agree (fun x y => Alike L blocks (ready ++ [c]) stored
        { k with pcb := x.1, readyQueue := x.2 } { m with mem := y.1, readyQueue := y.2 })
      (Nucleus.insertProcQ k.pcb k.readyQueue k.currentProcess)
      (insertProcQ m.mem m.readyQueue m.currentProcess) := by
  obtain ⟨rfl, hNonzero⟩ := ptr_eq_some (h.current.trans hCurrent)
  obtain ⟨next, hInsert, hQueue, -⟩ := Nucleus.insertProcQ_append h.queue hFresh
  obtain ⟨mem, hFlat, hRing, -, hFrame⟩ := insertProcQ_append h.ring hNonzero hFresh
  have hLinks (a : Word) (ha : a ∉ blocks) : mem a = m.mem a := by
    refine hFrame a (fun hEq => ha (hEq ▸ h.within _ hc)) fun hSome hEq => ha ?_
    have hRing := h.ring
    rw [ptr_some hSome] at hRing
    exact hEq ▸ h.readyWithin hRing.tail_mem
  obtain ⟨hSaved, hWords⟩ := h.frame hSpread hLinks
  rw [← hCurrent] at hInsert hQueue
  rw [hInsert, hFlat]
  refine .ok { h with
    queue := hQueue
    ring := hRing
    readyStored := ?_
    saved := hSaved
    words := hWords }
  intro p hp
  rcases List.mem_append.mp hp with hp | hp
  · exact h.readyStored p hp
  · rwa [List.mem_singleton.mp hp]

/-- Both take the first process out of the ready queue, and it is not there any more. -/
theorem Alike.dispatch (hSpread : Spread L blocks) (h : Alike L blocks ready stored k m) :
    Agree (fun k' m' => Alike L blocks ready.tail stored k' m' ∧
        ∀ x, k'.currentProcess = some x → x ∈ stored ∧ x ∉ ready.tail)
      (Nucleus.dispatch k) (dispatch m) := by
  cases ready with
  | nil =>
      have hQueue : k.readyQueue = none := h.queue.eq_nil_iff.mp rfl
      have hFlat : ptr m.readyQueue = none := h.ring.eq_nil_iff.mp rfl
      simp only [Nucleus.dispatch, dispatch, Nucleus.removeProcQ, removeProcQ, hQueue, hFlat,
        Outcome.pure_eq, Outcome.ok_bind]
      exact .ok ⟨{ h with
        queue := Ring.none_iff.mpr rfl
        ring := Ring.none_iff.mpr rfl
        current := rfl }, fun x hx => by cases hx⟩
  | cons x rest =>
      obtain ⟨next, tail, hRemove, hQueue, -⟩ := Nucleus.removeProcQ_head h.queue
      obtain ⟨mem, tp, hFlat, hRing, hFrame⟩ := removeProcQ_head h.ring
      have hSome : ptr m.readyQueue ≠ none := fun hNone =>
        List.cons_ne_nil x rest (h.ring.eq_nil_iff.mpr hNone)
      obtain ⟨t, hTail⟩ := Option.ne_none_iff_exists'.mp hSome
      have hOld := h.ring
      rw [hTail] at hOld
      obtain ⟨rfl, -⟩ := ptr_eq_some hTail
      obtain ⟨-, hx⟩ := ptr_eq_some hOld.next_tail
      obtain ⟨hSaved, hWords⟩ := h.frame hSpread fun a ha =>
        hFrame a fun hEq => ha (hEq ▸ h.readyWithin hOld.tail_mem)
      simp only [Nucleus.dispatch, dispatch, hRemove, hFlat, Outcome.pure_eq, Outcome.ok_bind]
      refine .ok ⟨{ h with
        queue := hQueue
        ring := hRing
        saved := hSaved
        words := hWords
        current := ptr_some hx
        readyStored := fun p hp => h.readyStored p (List.mem_cons_of_mem _ hp) }, ?_⟩
      rintro x' ⟨⟩
      exact ⟨h.readyStored x (List.mem_cons_self ..), (List.nodup_cons.mp h.queue.nodup).1⟩

/-- Both put the running process on the free list. -/
theorem Alike.release (hSpread : Spread L blocks) (h : Alike L blocks ready stored k m)
    (hCurrent : k.currentProcess = some c) (hc : c ∈ blocks) (hFresh : c ∉ ready) :
    Agree (fun x y => Alike L blocks ready stored
        { k with pcb := x.1, pcbFree_h := x.2 } { m with mem := y.1, pcbFree_h := y.2 })
      (Nucleus.freePcb k.pcb k.pcbFree_h k.currentProcess)
      (freePcb m.mem m.pcbFree_h m.currentProcess) := by
  obtain ⟨rfl, hNonzero⟩ := ptr_eq_some (h.current.trans hCurrent)
  have hFree : Nucleus.freePcb k.pcb k.pcbFree_h k.currentProcess =
      .ok (k.pcb.setNext m.currentProcess k.pcbFree_h, k.currentProcess) := by
    rw [hCurrent, freePcb_some]
  have hFlat : freePcb m.mem m.pcbFree_h m.currentProcess =
      .ok (update m.mem m.currentProcess m.pcbFree_h, m.currentProcess) := by
    cases hHead : ptr m.pcbFree_h with
    | some p => simp [freePcb, hHead, ptr_some hNonzero]
    | none =>
        have hZero : m.pcbFree_h = 0 := by
          by_contra hSome
          rw [ptr_some hSome] at hHead
          cases hHead
        simp [freePcb, ptr_some hNonzero, hZero]
  have hKeep (q : Word) (hq : q ∈ ready) : q ≠ m.currentProcess := ne_of_mem_of_not_mem hq hFresh
  have hLinks (a : Word) (ha : a ∉ blocks) :
      update m.mem m.currentProcess m.pcbFree_h a = m.mem a :=
    Function.update_of_ne (fun hEq : a = m.currentProcess => ha (hEq ▸ hc)) ..
  obtain ⟨hSaved, hWords⟩ := h.frame hSpread hLinks
  rw [hFree, hFlat]
  exact .ok { h with
    queue := h.queue.congr fun q hq => Function.update_of_ne (hKeep q hq) ..
    ring := h.ring.congr fun q hq => congrArg ptr (Function.update_of_ne (hKeep q hq) ..)
    free := h.current
    saved := hSaved
    words := hWords }

/-- Both load the state of the process that runs next, if there is one. -/
theorem Alike.load (h : Alike L blocks ready stored k m)
    (hNext : ∀ x, k.currentProcess = some x → x ∈ stored ∧ x ∉ ready) :
    Agree (fun k' r => Mirrors L blocks k' r.1 ∧ Resumes L (k'.currentProcess, k'.cpu) r.2)
      (loadState k) (do
        let x ← deref (ptr m.currentProcess)
        return (m, ⟨c, x, LDST m.mem (p_s x)⟩)) := by
  rw [h.current]
  refine (deref_agree k.currentProcess).bind ?_
  rintro x x' ⟨hCurrent, rfl⟩
  obtain ⟨hx, hFresh⟩ := hNext x' hCurrent
  refine .ok ⟨⟨x', ready, hCurrent, h.within x' hx, hFresh, ?_⟩, hCurrent, h.saved x' hx⟩
  exact { h with
    readyStored := fun p hp => hp
    within := fun p hp => h.readyWithin hp
    saved := fun p hp => h.saved p (h.readyStored p hp) }

/-- With the same state in the processor both schedulers stop for the same reason, or run the
same process with the same state. -/
theorem scheduler_agree (hSpread : Spread L blocks) (h : Mirrors L blocks k m) {regs : ℕ → Word}
    (hRegs : ∀ i : Fin 22, i < L.words → regs i = k.cpu i) (control : ℤ) :
    Agree (fun k' r => Mirrors L blocks k' r.1 ∧ Resumes L (k'.currentProcess, k'.cpu) r.2)
      (Nucleus.scheduler k control) (scheduler L.words m regs control) := by
  obtain ⟨c, ready, hCurrent, hc, hFresh, h⟩ := h
  obtain ⟨rfl, hNonzero⟩ := ptr_eq_some (h.current.trans hCurrent)
  refine h.idle.bind ?_
  rintro k' m' ⟨waits, rfl, rfl⟩
  have hWaits : Alike L blocks ready ready { k with waits } { m with waits } :=
    { h with waits := rfl }
  have hSaved := hWaits.save hSpread hc hRegs
  have hSave : saveState { k with waits } =
      .ok { k with waits, saved := update k.saved m.currentProcess k.cpu } := by
    simp [saveState, hCurrent]
  have hDeref : deref (ptr m.currentProcess) = .ok m.currentProcess := by
    rw [ptr_some hNonzero, deref_some]
  rw [hSave, Outcome.ok_bind, hDeref, Outcome.ok_bind]
  have hStored : m.currentProcess ∈ m.currentProcess :: ready := List.mem_cons_self ..
  by_cases hFinish : control = 0
  · simp only [hFinish, if_true]
    refine (hSaved.release hSpread hCurrent hc hFresh).bind ?_
    intro x y hFree
    refine (hFree.dispatch hSpread).bind ?_
    rintro k' m' ⟨hAfter, hNext⟩
    have hCount : Alike L blocks ready.tail (m.currentProcess :: ready)
        { k' with processCount := k'.processCount - 1 }
        { m' with processCount := m'.processCount - 1 } :=
      { hAfter with processCount := congrArg (· - 1) hAfter.processCount }
    exact hCount.load hNext
  by_cases hSlice : control = 1
  · simp only [hSlice, one_ne_zero, if_false, if_true]
    refine (hSaved.insert hSpread hCurrent hStored hFresh).bind ?_
    intro x y hInsert
    refine (hInsert.dispatch hSpread).bind ?_
    rintro k' m' ⟨hAfter, hNext⟩
    exact hAfter.load hNext
  by_cases hBlock : control = 9
  · simp only [hBlock, Int.reduceEq, if_false, if_true]
    refine (hSaved.dispatch hSpread).bind ?_
    rintro k' m' ⟨hAfter, hNext⟩
    exact hAfter.load hNext
  · simp only [hFinish, hSlice, hBlock, if_false]
    refine hSaved.load fun x hx => ?_
    cases hCurrent.symm.trans hx
    exact ⟨hStored, hFresh⟩

end Steps

section Runs

/-- What a process does until the scheduler is called: the words it stores, and the registers
it leaves. -/
structure Slice where
  stores : List (Word × Word)
  regs : ℕ → Word
  control : ℤ

def compute (mem : Words) (stores : List (Word × Word)) : Words :=
  stores.foldl (fun mem store => update mem store.1 store.2) mem

def Slice.Outside (L : Layout) (blocks : List Word) (call : Slice) : Prop :=
  ∀ store ∈ call.stores, ¬Owned L blocks store.1

/-- The processes store outside their blocks. The reply is the process that goes on and the
processor with which it does. -/
def apartSystem (D : Type) (L : Layout) (blocks : List Word) :
    System (Kernel Word D) Slice (Option Word × ProcState) where
  Legal _ call := call.Outside L blocks
  exec k call := do
    let k := { k with words := compute k.words call.stores, cpu := fun i => call.regs i }
    let k ← Nucleus.scheduler k call.control
    return (k, k.currentProcess, k.cpu)

def flatSystem (L : Layout) (blocks : List Word) : System Machine Slice Switch where
  Legal _ call := call.Outside L blocks
  exec m call :=
    scheduler L.words { m with mem := compute m.mem call.stores } call.regs call.control

variable {L : Layout} {blocks : List Word} {k : Kernel Word D} {m m' : Machine}
  {trace : List (Slice × Switch)}

/-- Stores leave the other words as they were, and are the same in two memories that had the
same words there. -/
theorem compute_of_not_mem {stores : List (Word × Word)} {a : Word} {mem : Words}
    (h : ∀ store ∈ stores, store.1 ≠ a) : compute mem stores a = mem a := by
  induction stores generalizing mem with
  | nil => rfl
  | cons store stores ih =>
      have hFirst := h store (List.mem_cons_self ..)
      have hRest (next : Word × Word) (hNext : next ∈ stores) : next.1 ≠ a :=
        h next (List.mem_cons_of_mem _ hNext)
      calc compute mem (store :: stores) a
          = update mem store.1 store.2 a := ih hRest
        _ = mem a := Function.update_of_ne (Ne.symm hFirst) ..

theorem compute_congr {stores : List (Word × Word)} {a : Word} {mem mem' : Words}
    (h : mem a = mem' a) : compute mem stores a = compute mem' stores a := by
  induction stores generalizing mem mem' with
  | nil => exact h
  | cons store stores ih =>
      refine ih ?_
      change update mem store.1 store.2 a = update mem' store.1 store.2 a
      by_cases ha : a = store.1
      · rw [ha, Function.update_self, Function.update_self]
      · rw [Function.update_of_ne ha, Function.update_of_ne ha, h]

/-- The scheduler finds the blocks as it has left them. -/
theorem Mirrors.compute (h : Mirrors L blocks k m) {call : Slice} (legal : call.Outside L blocks) :
    Mirrors L blocks
      { k with words := compute k.words call.stores, cpu := fun i => call.regs i }
      { m with mem := compute m.mem call.stores } := by
  obtain ⟨c, ready, hCurrent, hc, hFresh, h⟩ := h
  have hKeep (a : Word) (ha : Owned L blocks a) : Flat.compute m.mem call.stores a = m.mem a :=
    compute_of_not_mem fun store hStore hEq => legal store hStore (hEq ▸ ha)
  refine ⟨c, ready, hCurrent, hc, hFresh, { h with ring := ?_, saved := ?_, words := ?_ }⟩
  · exact h.ring.congr fun q hq => congrArg ptr (hKeep q (.inl (h.readyWithin hq)))
  · intro p hp i hi
    exact (hKeep _ (.inr ⟨p, h.within p hp, i, hi, rfl⟩)).trans (h.saved p hp i hi)
  · exact fun a ha => compute_congr (h.words a ha)

/-- Every call of the scheduler agrees, whatever the process has done before. -/
theorem flat_agrees (hSpread : Spread L blocks) : System.Agrees (apartSystem D L blocks)
    (flatSystem L blocks) (Mirrors L blocks) (Resumes L) := by
  intro k m call h legal
  refine ⟨legal, ?_⟩
  have hAgree := scheduler_agree hSpread (h.compute legal) (fun _ _ => rfl) call.control
  exact hAgree.bind_ok fun k' r hBoth => hBoth

/-- In every run on the memory, with the processes storing what they will outside their
blocks, the schedulers make the same choices: the run is one of the kernel with the states kept
apart, with the same calls, and every process goes on in both with the same registers. After the
run the next call agrees too, also where it stops the machine. -/
theorem flat_run (hSpread : Spread L blocks) (h : Mirrors L blocks k m)
    (run : (flatSystem L blocks).Run m trace m') :
    ∃ trace' k', (apartSystem D L blocks).Run k trace' k' ∧ Mirrors L blocks k' m' ∧
      List.Forall₂ (fun e e' => e.1 = e'.1 ∧ Resumes L e.2 e'.2) trace' trace ∧
      ∀ call : Slice, call.Outside L blocks →
        Agree (fun x y => Mirrors L blocks x.1 y.1 ∧ Resumes L x.2 y.2)
          ((apartSystem D L blocks).exec k' call) ((flatSystem L blocks).exec m' call) := by
  obtain ⟨trace', k', hRun, hMirrors, hTrace⟩ := (flat_agrees hSpread).run run h
  exact ⟨trace', k', hRun, hMirrors, hTrace, fun call legal =>
    (flat_agrees hSpread k' m' call hMirrors legal).2⟩

end Runs

section Distance

variable {L : Layout} {indices : List ℕ} {i n : ℕ}

theorem Layout.element_toNat (hRoom : L.array.toNat + 24 * L.MAXPROC + 16 + 4 * L.words ≤ 2 ^ 32)
    (hn : n < L.MAXPROC) (hi : i < L.words) :
    (element (p_s (L.block n)) i).toNat = L.array.toNat + 24 * n + 16 + 4 * i := by
  have hBlock := L.block_toNat hn
  have hFour : (4 : Word).toNat = 4 := rfl
  have hSixteen : (16 : Word).toNat = 16 := rfl
  simp only [element, Arm.word, p_s, BitVec.toNat_add, BitVec.toNat_mul, BitVec.toNat_ofNat, hBlock,
    hFour, hSixteen]
  omega

/-- It is enough that the blocks are as far from each other as a save area reaches. -/
theorem Layout.spread (hRoom : L.array.toNat + 24 * L.MAXPROC + 16 + 4 * L.words ≤ 2 ^ 32)
    (hTable : ∀ n ∈ indices, n < L.MAXPROC)
    (hFar : ∀ n ∈ indices, ∀ n' ∈ indices, n < n' → 16 + 4 * L.words ≤ 24 * (n' - n)) :
    Spread L (indices.map L.block) := by
  constructor
  · intro p hp q hq i hi hEq
    obtain ⟨n, hn, rfl⟩ := List.mem_map.mp hp
    obtain ⟨n', hn', rfl⟩ := List.mem_map.mp hq
    have hAddress := congrArg BitVec.toNat hEq
    rw [L.element_toNat hRoom (hTable n hn) hi, L.block_toNat (hTable n' hn')] at hAddress
    have hDistance := hFar n hn n' hn'
    omega
  · intro p hp q hq hpq i hi j hj hEq
    obtain ⟨n, hn, rfl⟩ := List.mem_map.mp hp
    obtain ⟨n', hn', rfl⟩ := List.mem_map.mp hq
    have hne : n ≠ n' := fun hSame => hpq (congrArg L.block hSame)
    have hAddress := congrArg BitVec.toNat hEq
    rw [L.element_toNat hRoom (hTable n hn) hi,
      L.element_toNat hRoom (hTable n' hn') hj] at hAddress
    have hForward := hFar n hn n' hn'
    have hBackward := hFar n' hn' n hn
    omega

/-- The memory below the table is free for everything else. -/
theorem Layout.not_owned_below {a : Word}
    (hRoom : L.array.toNat + 24 * L.MAXPROC + 16 + 4 * L.words ≤ 2 ^ 32)
    (hTable : ∀ n ∈ indices, n < L.MAXPROC) (ha : a.toNat < L.array.toNat) :
    ¬Owned L (indices.map L.block) a := by
  rintro (hMem | ⟨p, hp, i, hi, rfl⟩)
  · obtain ⟨n, hn, rfl⟩ := List.mem_map.mp hMem
    rw [L.block_toNat (hTable n hn)] at ha
    omega
  · obtain ⟨n, hn, rfl⟩ := List.mem_map.mp hp
    rw [L.element_toNat hRoom (hTable n hn) hi] at ha
    omega

end Distance

section Start

variable {L : Layout} {blocks ready rest : List Word} {m : Machine} {c x : Word} {call : Slice}

/-- The kernel with the same lists and globals as the machine, and with the states that are in
the save areas. `s` has the other tables. -/
def Machine.apart (m : Machine) (s : Memory Word D) : Kernel Word D where
  toMemory := { s with pcb := table m.mem, pcbFree_h := ptr m.pcbFree_h }
  readyQueue := ptr m.readyQueue
  currentProcess := ptr m.currentProcess
  processCount := m.processCount
  softBlockCount := m.softBlockCount
  saved p i := m.mem (element (p_s p) i)
  cpu _ := 0
  words := m.mem
  waits := m.waits

/-- Every machine with its processes on spread blocks has such a kernel. -/
theorem Processes.mirrors (h : Processes L m c ready) (hBlocks : ∀ p ∈ c :: ready, p ∈ blocks)
    (s : Memory Word D) : Mirrors L blocks (m.apart s) m := by
  have hCurrent : (m.apart s).currentProcess = some c := by
    rw [Machine.apart, h.current, ptr_some (h.inTable c (List.mem_cons_self ..)).ne_zero]
  refine ⟨c, ready, hCurrent, hBlocks c (List.mem_cons_self ..), h.apart, ?_⟩
  exact {
    queue := h.ring
    ring := h.ring
    readyStored := fun p hp => hp
    within := fun p hp => hBlocks p (List.mem_cons_of_mem _ hp)
    current := rfl
    free := rfl
    processCount := rfl
    softBlockCount := rfl
    waits := rfl
    saved := fun p hp i hi => rfl
    words := fun a ha => rfl }

/-- The end of a time slice on spread blocks, after a process that has stored outside them. -/
theorem Processes.slice (h : Processes L m c (x :: rest)) (hSpread : Spread L blocks)
    (hBlocks : ∀ p ∈ c :: x :: rest, p ∈ blocks) (legal : call.Outside L blocks)
    (hControl : call.control = 1) : ∃ m',
      (flatSystem L blocks).exec m call = .ok (m', ⟨c, x, LDST m'.mem (p_s x)⟩) ∧
      Processes L m' x (rest ++ [c]) ∧
      ∀ a ∉ blocks, m'.mem a = STST L.words (compute m.mem call.stores) (p_s c) call.regs a := by
  have hc : c ∈ blocks := hBlocks c (List.mem_cons_self ..)
  have hKeep (q : Word) (hq : q ∈ x :: rest) : compute m.mem call.stores q = m.mem q :=
    compute_of_not_mem fun store hStore hEq =>
      legal store hStore (.inl (hEq ▸ hBlocks q (List.mem_cons_of_mem _ hq)))
  have hBefore : Processes L { m with mem := compute m.mem call.stores } c (x :: rest) :=
    ⟨h.current, h.ring.congr fun q hq => congrArg ptr (hKeep q hq), h.apart, h.inTable⟩
  have hLinks (q : Word) (hq : q ∈ x :: rest) : STST L.words (compute m.mem call.stores) (p_s c)
      call.regs q = compute m.mem call.stores q :=
    storeAll_same fun i hi hEq => absurd hEq (hSpread.links c hc q
      (hBlocks q (List.mem_cons_of_mem _ hq)) i hi)
  obtain ⟨m', hExec, -, hAfter, -, -, hFrame⟩ := hBefore.switch hLinks
  have hTail : m.readyQueue ∈ blocks := hBlocks _ (List.mem_cons_of_mem _ h.tail.2)
  rw [← hControl] at hExec
  exact ⟨m', hExec, hAfter, fun a ha => hFrame a (fun hEq => ha (hEq ▸ hc))
    fun hEq => ha (hEq ▸ hTail)⟩

end Start

section Examples

/-- Every fourth block of the table. -/
def fourths : List Word := [0, 4, 8, 12, 16].map ramBase.block

theorem fourths_spread : Spread ramBase fourths :=
  Layout.spread (by decide) (by decide) (by decide)

/-- A word is stored below the table and left in all registers, and the slice is over. -/
def storing (v : Word) : Slice := ⟨[(0x7000, v)], fun _ => v, 1⟩

theorem storing_outside (v : Word) : (storing v).Outside ramBase fourths := by
  have hBelow : (0x7000 : Word).toNat < ramBase.array.toNat := by decide
  intro store hStore
  obtain rfl : store = (0x7000, v) := List.mem_singleton.mp hStore
  exact Layout.not_owned_below (by decide) (by decide) hBelow

theorem block_fourths {n : ℕ} (hn : n ∈ [0, 4, 8, 12, 16]) : ramBase.block n ∈ fourths :=
  List.mem_map_of_mem hn

/-- Two processes take turns on blocks 0 and 4, and store in between. -/
theorem flat_run_two : ∃ m' r r',
    (flatSystem ramBase fourths).Run (running (ramBase.block 0) (ramBase.block 4))
      [(storing 1, r), (storing 2, r')] m' ∧
    r.preempted = ramBase.block 0 ∧ r'.preempted = ramBase.block 4 ∧
    ∃ trace' k', (apartSystem Unit ramBase fourths).Run
        ((running (ramBase.block 0) (ramBase.block 4)).apart (.zero Word Unit)) trace' k' ∧
      Mirrors ramBase fourths k' m' ∧
      List.Forall₂ (fun e e' => e.1 = e'.1 ∧ Resumes ramBase e.2 e'.2) trace'
        [(storing 1, r), (storing 2, r')] := by
  have hStart := running_processes (L := ramBase) ⟨0, by decide, rfl⟩ ⟨4, by decide, rfl⟩
    (by decide : ramBase.block 0 ≠ ramBase.block 4)
  have hZero : ramBase.block 0 ∈ fourths := block_fourths (by decide)
  have hFour : ramBase.block 4 ∈ fourths := block_fourths (by decide)
  have hBlocks : ∀ p ∈ [ramBase.block 0, ramBase.block 4], p ∈ fourths := by simp [hZero, hFour]
  have hTurned : ∀ p ∈ [ramBase.block 4, ramBase.block 0], p ∈ fourths := by simp [hZero, hFour]
  obtain ⟨m₁, hFirst, hNext, -⟩ :=
    hStart.slice fourths_spread hBlocks (storing_outside 1) rfl
  obtain ⟨m₂, hSecond, -⟩ :=
    hNext.slice fourths_spread hTurned (storing_outside 2) rfl
  have hRun : (flatSystem ramBase fourths).Run (running (ramBase.block 0) (ramBase.block 4))
      [(storing 1, _), (storing 2, _)] m₂ :=
    .cons (storing_outside 1) hFirst (.cons (storing_outside 2) hSecond (.nil _))
  obtain ⟨trace', k', hApart, hMirrors, hTrace, -⟩ :=
    flat_run fourths_spread (hStart.mirrors hBlocks (.zero Word Unit)) hRun
  exact ⟨m₂, _, _, hRun, rfl, rfl, trace', k', hApart, hMirrors, hTrace⟩

end Examples

end Nucleus.Flat
