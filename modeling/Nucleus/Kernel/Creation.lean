import Nucleus.Kernel.Syscall
import Nucleus.Kernel.Runs

/-! What `createProcess` leaves to the parent and to the child. The new process enters
the tree, the ready queue and the count as it should, but its saved state is its
parent's, and the result of the call goes into the wrong register of it. -/
namespace Nucleus

open Function (update)
open Linked Semantics

variable {P D : Type}

/-- The result goes to word 16 of the saved state, the `cpsr`. -/
theorem resultSlot_eq (parent_state : Word) : resultSlot parent_state = element parent_state 16 :=
  rfl

namespace Kernel

/-- Word `i` of the state that `createProcess` reaches through the `p_s` of `x`. `STST`
and `LDST` are given the address of `p_s` instead, as `saved` has it. -/
def stateWord (k : Kernel P D) (x : P) (i : ℕ) : Word := k.words (element (k.pcb.p_s x) i)

variable {k k' : Kernel P D} {c n : P} {free ready : List P} {S : Word}

/-- `running` runs and has its saved state at `state`, and at most one block is free. -/
def started [DecidableEq P] (running : P) (free : Option P) (state : Word) (words : Word → Word) :
    Kernel P D :=
  { Kernel.zero P D with
    pcb := (Kernel.zero P D).pcb.setS running state
    pcbFree_h := free
    currentProcess := some running
    processCount := 1
    words }

section Refused

/-- A failed creation has changed nothing but the `a1` that the parent gets as its
result: no list, no count, no block, and no other word of the saved state. -/
structure Refused (k : Kernel P D) (c : P) (k' : Kernel P D) : Prop where
  a1 : k'.stateWord c 0 = -1
  others : ∀ a, a ≠ element (k.pcb.p_s c) 0 → k'.words a = k.words a
  rest : k' = { k with words := k'.words }

variable [DecidableEq P]

/-- Without a free block `createProcess` fails as it should exactly when the parent has a
saved state, in which `a1` and `cpsr` are -1 already. -/
theorem create_refused_iff (hCurrent : k.currentProcess = some c) (hFree : k.pcbFree_h = none)
    (S : Word) :
    (∃ k', createProcess k S = .ok k' ∧ k.Refused c k') ↔
      k.pcb.p_s c ≠ 0 ∧ k.stateWord c 0 = -1 ∧ k.stateWord c 16 = -1 := by
  by_cases hState : k.pcb.p_s c = 0
  · refine iff_of_false (fun hRefused => ?_) fun hSome => hSome.1 hState
    obtain ⟨k', hExec, -⟩ := hRefused
    exact createProcess_ok_state hCurrent hExec hState
  rw [and_iff_right hState]
  have hExec := createProcess_full hCurrent hFree hState S
  have hSlot : element (k.pcb.p_s c) 16 ≠ element (k.pcb.p_s c) 0 := by
    intro hEq
    cases Arm.word_inj (by decide) (by decide) hEq
  rw [resultSlot_eq] at hExec
  constructor
  · intro hRefused
    obtain ⟨k', hExec', hOut⟩ := hRefused
    cases hExec.symm.trans hExec'
    have hA1 := hOut.a1
    have hCpsr := hOut.others _ hSlot
    simp only [stateWord, Function.update_of_ne hSlot.symm] at hA1
    simp only [Function.update_self] at hCpsr
    exact ⟨hA1, hCpsr.symm⟩
  · intro hAlready
    obtain ⟨hA1, hCpsr⟩ := hAlready
    have hSame : update k.words (element (k.pcb.p_s c) 16) (-1) = k.words := by
      rw [← hCpsr, stateWord, Function.update_eq_self]
    rw [hSame] at hExec
    exact ⟨k, hExec, hA1, fun _ _ => rfl, rfl⟩

theorem create_refused_ones : ∃ k',
    createProcess (started 0 none 0x8000 fun _ => -1 : Kernel (Fin 1) Unit) 0x9000 = .ok k' ∧
      (started 0 none 0x8000 fun _ => -1).Refused 0 k' :=
  (create_refused_iff (k := started 0 none 0x8000 fun _ => -1) rfl rfl 0x9000).mpr
    ⟨by decide, rfl, rfl⟩

/-- With a state of zeros the parent is told that the call has succeeded, and is resumed
with -1 in its `cpsr`. -/
theorem create_refused_cpsr : ∃ k',
    createProcess (started 0 none 0x8000 fun _ => 0 : Kernel (Fin 1) Unit) 0x9000 = .ok k' ∧
      k'.stateWord 0 0 = 0 ∧ k'.stateWord 0 16 = -1 ∧
      ¬(started 0 none 0x8000 fun _ => 0).Refused 0 k' := by
  refine ⟨_, rfl, by decide, by decide, fun hOut => ?_⟩
  exact absurd hOut.a1 (by decide)

end Refused

section Created

variable [DecidableEq P]

/-- The first free block `n` is the first child of `c`, before the children that `c`
has, the last of the ready processes, and counted. -/
structure Enrolled (k : Kernel P D) (c n : P) (free ready : List P) (k' : Kernel P D) : Prop where
  lists : k'.Lists c free (ready ++ [n])
  allocated : ∀ x, k'.Allocated x ↔ x = n ∨ k.Allocated x
  tree : ∀ children, k.pcb.Kin k.Allocated children →
    k'.pcb.Kin k'.Allocated (update (update children n []) c (n :: children c))
  count : k'.processCount = k.processCount + 1

/-- As long as no process finishes, what `c` or `n` gets as the result of a creation
does not change the saved state of the other. -/
def Separate (k : Kernel P D) (c n : P) : Prop :=
  ∀ trace k₁, (kernelSystem P D).Run k trace k₁ → (.scheduler 0, ()) ∉ trace →
    ∀ x y, (x = c ∧ y = n ∨ x = n ∧ y = c) → k₁.currentProcess = some x →
      ∀ S k₂, createProcess k₁ S = .ok k₂ → ∀ i < 22, k₂.stateWord y i = k₁.stateWord y i

/-- The new process starts from the requested state, which lies at `S`, and shares it
with nobody. -/
structure Created (k : Kernel P D) (c n : P) (free ready : List P) (S : Word)
    (k' : Kernel P D) : Prop extends Enrolled k c n free ready k' where
  state : ∀ i < 22, k'.stateWord n i = k.words (element S i)
  separate : k'.Separate c n

theorem Lists.enrolled (h : k.Lists c (n :: free) ready) (hSaved : k.pcb.p_s c ≠ 0) (S : Word) :
    ∃ k', createProcess k S = .ok k' ∧ k.Enrolled c n free ready k' ∧
      k'.pcb.p_s = update k.pcb.p_s n (k.pcb.p_s c) ∧
      k'.words = update k.words (resultSlot (k.pcb.p_s c)) 0 := by
  obtain ⟨pcb, next, hChild, hExec, hLists⟩ := h.create hSaved S
  cases hChild
  have hcn : c ≠ n := List.ne_of_not_mem_cons h.running
  have hNew : ¬k.Allocated n := h.not_allocated (List.mem_cons_self ..)
  have hc : k.Allocated c := h.allocated_iff.mpr h.running
  have hLive (x : P) := h.allocated_create hLists (x := x)
  refine ⟨_, hExec, ⟨hLists, hLive, fun children hKin => ?_, rfl⟩, ?_, rfl⟩
  · have hGrown := (hKin.grow hNew).attach (.inl rfl) (.inr hc) (Function.update_self ..)
    have hOld : update children n [] c = children c := Function.update_of_ne hcn ..
    rw [hOld] at hGrown
    exact hGrown.of_iff hLive
  · show update (update k.pcb.p_s n 0) n (k.pcb.p_s c) = _
    rw [Function.update_idem]

/-- The running process can create others until no block is free. The last of these
calls that succeeds leaves 0 as its result. -/
theorem Lists.exhaust (h : k.Lists c free ready) (hSaved : k.pcb.p_s c ≠ 0)
    (hZero : k.words (resultSlot (k.pcb.p_s c)) = 0) (S : Word) :
    ∃ k' ready', (kernelSystem P D).Run k (free.map fun _ => (.createProcess S, ())) k' ∧
      k'.Lists c [] ready' ∧ k'.words (resultSlot (k.pcb.p_s c)) = 0 ∧
      ∀ x, x ∉ free → k'.pcb.p_s x = k.pcb.p_s x := by
  induction free generalizing k ready with
  | nil => exact ⟨k, ready, .nil k, h, hZero, fun _ _ => rfl⟩
  | cons n free ih =>
      obtain ⟨k₁, hExec, hEnrolled, hState, hWords⟩ := h.enrolled hSaved S
      have hKeep (x : P) (hx : x ≠ n) : k₁.pcb.p_s x = k.pcb.p_s x := by
        rw [hState, Function.update_of_ne hx]
      have hcn : c ≠ n := List.ne_of_not_mem_cons h.running
      have hZero₁ : k₁.words (resultSlot (k₁.pcb.p_s c)) = 0 := by
        rw [hKeep c hcn, hWords, Function.update_self]
      have hSaved₁ : k₁.pcb.p_s c ≠ 0 := by rwa [hKeep c hcn]
      obtain ⟨k', ready', run, hLists, hZero', hKeep'⟩ := ih hEnrolled.lists hSaved₁ hZero₁
      rw [hKeep c hcn] at hZero'
      refine ⟨k', ready', .cons trivial (exec_createProcess.mpr hExec) run, hLists, hZero',
        fun x hx => ?_⟩
      rw [List.mem_cons, not_or] at hx
      rw [hKeep' x hx.2, hKeep x hx.1]

/-- Two processes with one saved state do not stay separate: the first creation that
fails stores -1 over the 0 in the state of both. -/
theorem Lists.not_separate (h : k.Lists c free ready) (hSaved : k.pcb.p_s c ≠ 0)
    (hZero : k.words (resultSlot (k.pcb.p_s c)) = 0) (hn : n ∉ free)
    (hShared : k.pcb.p_s n = k.pcb.p_s c) : ¬k.Separate c n := by
  intro hSeparate
  obtain ⟨k₁, ready₁, run, hLists, hZero₁, hKeep⟩ := h.exhaust hSaved hZero 0
  have hSaved₁ : k₁.pcb.p_s c ≠ 0 := by rwa [hKeep c h.running]
  have hFail := createProcess_full hLists.current hLists.spare hSaved₁ 0
  have hNone : (KernelCall.scheduler 0, ()) ∉ free.map fun _ => (KernelCall.createProcess 0, ()) :=
    by simp
  have hSame := hSeparate _ k₁ run hNone c n (.inl ⟨rfl, rfl⟩) hLists.current 0 _ hFail 16
    (by decide)
  simp only [stateWord, hKeep n hn, hKeep c h.running, hShared] at hSame
  rw [← resultSlot_eq, Function.update_self, hZero₁] at hSame
  exact absurd hSame (by decide)

/-- In every kernel with a free block a `createProcess` that returns enrols the new process
and gives it the saved state of its parent, so the two are never separate. It returns if the
parent has a saved state. -/
theorem created_never (h : k.Lists c (n :: free) ready) (S : Word) :
    (∀ k', createProcess k S = .ok k' → k.Enrolled c n free ready k' ∧
      k'.pcb.p_s n = k'.pcb.p_s c ∧ ¬k'.Separate c n ∧ ¬k.Created c n free ready S k') ∧
    ((∃ k', createProcess k S = .ok k') ↔ k.pcb.p_s c ≠ 0) := by
  constructor
  · intro k' hDone
    have hSaved := createProcess_ok_state h.current hDone
    obtain ⟨k₁, hExec, hEnrolled, hState, hWords⟩ := h.enrolled hSaved S
    cases hExec.symm.trans hDone
    have hcn : c ≠ n := List.ne_of_not_mem_cons h.running
    have hParent : k'.pcb.p_s c = k.pcb.p_s c := by rw [hState, Function.update_of_ne hcn]
    have hShared : k'.pcb.p_s n = k'.pcb.p_s c := by rw [hParent, hState, Function.update_self]
    have hZero : k'.words (resultSlot (k'.pcb.p_s c)) = 0 := by
      rw [hParent, hWords, Function.update_self]
    have hn : n ∉ free := (List.nodup_cons.mp h.spare.nodup).1
    have hNot := hEnrolled.lists.not_separate (by rwa [hParent]) hZero hn hShared
    exact ⟨hEnrolled, hShared, hNot, fun hCreated => hNot hCreated.separate⟩
  · constructor
    · intro hDone
      obtain ⟨k', hExec⟩ := hDone
      exact createProcess_ok_state h.current hExec
    · intro hSaved
      obtain ⟨k', hExec, -⟩ := h.enrolled hSaved S
      exact ⟨k', hExec⟩

theorem started_lists {state : Word} {words : Word → Word} :
    (started 0 (some 1) state words : Kernel (Fin 2) Unit).Lists 0 [1] [] where
  current := rfl
  spare := ⟨rfl, rfl⟩
  ring := rfl
  nodup := by decide
  running := by decide

theorem created_never_one : ∃ k',
    createProcess (started 0 (some 1) 0x8000 id : Kernel (Fin 2) Unit) 0x9000 = .ok k' ∧
      (started 0 (some 1) 0x8000 id).Enrolled 0 1 [] [] k' ∧ ¬k'.Separate 0 1 := by
  have hLists : (started 0 (some 1) 0x8000 id : Kernel (Fin 2) Unit).Lists 0 [1] [] := started_lists
  obtain ⟨hNever, hReturns⟩ := created_never hLists 0x9000
  obtain ⟨k', hExec⟩ := hReturns.mpr (by decide)
  obtain ⟨hEnrolled, -, hNot, -⟩ := hNever k' hExec
  exact ⟨k', hExec, hEnrolled, hNot⟩

/-- Each word of memory holds its address. The child is to start from the state at
0x9000 and gets the one at 0x8000, and the next creation of its parent fails and changes
the `cpsr` of the child. -/
theorem created_overwritten : ∃ k₁ k₂,
    createProcess (started 0 (some 1) 0x8000 id : Kernel (Fin 2) Unit) 0x9000 = .ok k₁ ∧
      k₁.stateWord 1 15 = 0x803C ∧ k₁.words (element 0x9000 15) = 0x903C ∧
      ¬(started 0 (some 1) 0x8000 id).Created 0 1 [] [] 0x9000 k₁ ∧
      k₁.currentProcess = some 0 ∧ createProcess k₁ 0x9000 = .ok k₂ ∧
      k₁.stateWord 1 16 = 0 ∧ k₂.stateWord 1 16 = -1 := by
  refine ⟨_, _, rfl, by decide, by decide, fun hCreated => ?_, rfl, rfl, by decide, by decide⟩
  exact absurd (hCreated.state 15 (by decide)) (by decide)

end Created

end Kernel

end Nucleus
