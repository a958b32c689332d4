import Nucleus.Kernel.Basic

/-! What the scheduler does to a kernel whose running process is in no list, and
what `createProcess` does to one whose running process is not free. -/
namespace Nucleus

open Function (update)
open Linked Semantics

variable {P D : Type}

namespace Kernel

/-- `c` is running and `ready` is the ready queue, which does not hold `c`. -/
structure Round (k : Kernel P D) (c : P) (ready : List P) : Prop where
  current : k.currentProcess = some c
  ring : Ring k.pcb.p_next k.readyQueue ready
  apart : c ∉ ready

/-- `c` is running, `ready` is the ready queue and `free` the free list, and no
block is in two of these places. -/
structure View (k : Kernel P D) (c : P) (free ready : List P) : Prop where
  current : k.currentProcess = some c
  spare : Chain k.pcb.p_next k.pcbFree_h free
  ring : Ring k.pcb.p_next k.readyQueue ready
  nodup : (c :: (ready ++ free)).Nodup

/-- `c` is running, `ready` is the ready queue and `free` the free list, and no block
that is running or ready is free. -/
structure Lists (k : Kernel P D) (c : P) (free ready : List P) : Prop where
  current : k.currentProcess = some c
  spare : Chain k.pcb.p_next k.pcbFree_h free
  ring : Ring k.pcb.p_next k.readyQueue ready
  nodup : (ready ++ free).Nodup
  running : c ∉ free

variable {k : Kernel P D} {c x : P} {free ready rest : List P} {waits : ℕ}

theorem Lists.not_ready_of_free (h : k.Lists c free ready) (hx : x ∈ free) : x ∉ ready :=
  fun hr => (List.nodup_append.mp h.nodup).2.2 x hr x hx rfl

theorem Lists.allocated_iff (h : k.Lists c free ready) : k.Allocated x ↔ x ∉ free :=
  Memory.allocated_iff h.spare

theorem Lists.not_allocated (h : k.Lists c free ready) (hx : x ∈ free) : ¬k.Allocated x := by
  rw [h.allocated_iff]
  exact not_not_intro hx

/-- The first free block is in use once it has moved to the ready queue. -/
theorem Lists.allocated_create {k' : Kernel P D} {n : P} (h : k.Lists c (n :: free) ready)
    (h' : k'.Lists c free (ready ++ [n])) : k'.Allocated x ↔ x = n ∨ k.Allocated x := by
  have hn : n ∉ free := (List.nodup_cons.mp h.spare.nodup).1
  rw [h'.allocated_iff, h.allocated_iff, List.mem_cons, not_or]
  by_cases hx : x = n
  · simp [hx, hn]
  · simp [hx]

namespace View

theorem not_mem_ready (h : k.View c free ready) : c ∉ ready := fun hc =>
  (List.nodup_cons.mp h.nodup).1 (List.mem_append_left _ hc)

theorem not_mem_free (h : k.View c free ready) : c ∉ free := fun hc =>
  (List.nodup_cons.mp h.nodup).1 (List.mem_append_right _ hc)

theorem round (h : k.View c free ready) : k.Round c ready :=
  ⟨h.current, h.ring, h.not_mem_ready⟩

theorem lists (h : k.View c free ready) : k.Lists c free ready :=
  ⟨h.current, h.spare, h.ring, (List.nodup_cons.mp h.nodup).2, h.not_mem_free⟩

theorem not_ready_of_free (h : k.View c free ready) (hx : x ∈ free) : x ∉ ready :=
  h.lists.not_ready_of_free hx

theorem allocated_iff (h : k.View c free ready) : k.Allocated x ↔ x ∉ free :=
  h.lists.allocated_iff

end View

/-- The tests of an empty queue stop the machine or wait. -/
theorem schedulerIdle_ok {k' : Kernel P D} (h : schedulerIdle k = .ok k') :
    ∃ waits, k' = { k with waits := waits } := by
  unfold schedulerIdle at h
  split at h
  · split at h
    · cases h
    · split at h
      · cases h
      · split at h
        · cases h
          exact ⟨k.waits + 1, rfl⟩
        · cases h
          exact ⟨k.waits, rfl⟩
  · cases h
    exact ⟨k.waits, rfl⟩

/-- The tests are only for an empty queue. -/
theorem schedulerIdle_ready (h : k.readyQueue ≠ none) : schedulerIdle k = .ok k := by
  cases hQueue : k.readyQueue with
  | none => exact absurd hQueue h
  | some t => simp [schedulerIdle, hQueue]

theorem schedulerIdle_cons (h : Ring k.pcb.p_next k.readyQueue (x :: rest)) :
    schedulerIdle k = .ok { k with waits := k.waits } :=
  schedulerIdle_ready fun hNone => List.cons_ne_nil x rest (h.eq_nil_iff.mpr hNone)

variable [DecidableEq P]

/-- The kernel in which `x` runs after the time slice of `c`, with the queue links
`next`. -/
def sliced (k : Kernel P D) (c x : P) (next : P → Option P) (tail : Option P) (waits : ℕ) :
    Kernel P D :=
  { k with
    pcb := { k.pcb with p_next := next }
    readyQueue := tail
    currentProcess := some x
    saved := update k.saved c k.cpu
    cpu := update k.saved c k.cpu x
    waits }

/-- The kernel in which `x` runs after the end of `c`, with the queue links `next`. -/
def finished (k : Kernel P D) (c x : P) (next : P → Option P) (tail : Option P) : Kernel P D :=
  { k with
    pcb := { k.pcb with p_next := next }
    pcbFree_h := some c
    readyQueue := tail
    currentProcess := some x
    processCount := k.processCount - 1
    saved := update k.saved c k.cpu
    cpu := update k.saved c k.cpu x }

/-- At the end of its time slice the running process goes to the end of the ready
queue, and the first process of what is then the queue runs. -/
theorem Round.slice (h : k.Round c ready) (hNext : ready ++ [c] = x :: rest)
    (hIdle : schedulerIdle k = .ok { k with waits := waits }) :
    ∃ next tail,
      scheduler k 1 = .ok (k.sliced c x next tail waits) ∧
      Ring next tail rest ∧ ∀ q, q ∉ c :: ready → next q = k.pcb.p_next q := by
  obtain ⟨next₁, hInsert, hRing₁, hKeep₁⟩ := insertProcQ_append h.ring h.apart
  rw [hNext] at hRing₁
  let pcb₁ : PcbTable P := { k.pcb with p_next := next₁ }
  have hRing' : Ring pcb₁.p_next (some c) (x :: rest) := hRing₁
  obtain ⟨next, tail, hRemove, hRing, hKeep⟩ := removeProcQ_head hRing'
  change removeProcQ { k.pcb with p_next := next₁ } (some c) = _ at hRemove
  refine ⟨next, tail, ?_, hRing, fun q hq => (hKeep q fun hm => hq ?_).trans (hKeep₁ q hq)⟩
  · simp only [scheduler, hIdle, Outcome.ok_bind, saveState, h.current, deref_some,
      Outcome.pure_eq, hInsert, dispatch, hRemove, loadState]
    simp [pcb₁, sliced]
  · have hMem : q ∈ ready ++ [c] := hNext ▸ List.mem_cons_of_mem _ hm
    simpa [or_comm] using hMem

/-- When the running process has finished its block goes to the free list, and the
first ready process runs. The tree links of the block are left as they were. -/
theorem Round.finish (h : k.Round c (x :: rest)) :
    ∃ next tail,
      scheduler k 0 = .ok (k.finished c x next tail) ∧
      Ring next tail rest ∧
      ∀ q, q ∉ rest → next q = (k.pcb.setNext c k.pcbFree_h).p_next q := by
  have hIdle := schedulerIdle_cons h.ring
  have hRing₁ : Ring (k.pcb.setNext c k.pcbFree_h).p_next k.readyQueue (x :: rest) :=
    h.ring.congr fun y hy => Function.update_of_ne (ne_of_mem_of_not_mem hy h.apart) ..
  obtain ⟨next, tail, hRemove, hRing, hKeep⟩ := removeProcQ_head hRing₁
  refine ⟨next, tail, ?_, hRing, hKeep⟩
  simp only [scheduler, hIdle, Outcome.ok_bind, saveState, h.current, deref_some,
    Outcome.pure_eq, freePcb_some, dispatch, hRemove, loadState]
  simp [PcbTable.setNext, finished]

/-- The kernel in which `c` has created `n`, with the tree links of `pcb` and the queue
links `next`. -/
def created (k : Kernel P D) (c n : P) (pcb : PcbTable P) (next : P → Option P) : Kernel P D :=
  { k with
    pcb := { pcb.setS n (k.pcb.p_s c) with p_next := next }
    pcbFree_h := k.pcb.p_next n
    readyQueue := some n
    words := update k.words (resultSlot (k.pcb.p_s c)) 0
    processCount := k.processCount + 1 }

/-- Without a free block `createProcess` stores -1 and does nothing else. -/
theorem createProcess_full (hCurrent : k.currentProcess = some c) (hFree : k.pcbFree_h = none)
    (hState : k.pcb.p_s c ≠ 0) (proc_state : Word) :
    createProcess k proc_state = .ok { k with
      words := update k.words (resultSlot (k.pcb.p_s c)) (-1) } := by
  simp [createProcess, hCurrent, hFree, ptr_some hState]

/-- A caller without a saved state gets no result: the store of it goes through NULL. -/
theorem createProcess_stateless (hCurrent : k.currentProcess = some c)
    (hState : k.pcb.p_s c = 0) (proc_state : Word) :
    createProcess k proc_state = .error .nullDeref := by
  cases hFree : k.pcbFree_h with
  | none => simp [createProcess, hCurrent, hFree, hState]
  | some n =>
      simp only [createProcess, hCurrent, deref_some, Outcome.ok_bind, hFree, allocPcb_some, hState]
      cases hChild : insertChild (k.pcb.clear n) (some c) (some n) with
      | error stop => cases hChild
      | ok pcb =>
          obtain ⟨pcb', hInsert⟩ :=
            insertProcQ_some (pcb.setS n (pcb.p_s c)) k.readyQueue n
          simp [hInsert]

theorem createProcess_ok_state {k' : Kernel P D} {proc_state : Word}
    (hCurrent : k.currentProcess = some c) (hExec : createProcess k proc_state = .ok k') :
    k.pcb.p_s c ≠ 0 := by
  intro hState
  cases (createProcess_stateless hCurrent hState proc_state).symm.trans hExec

/-- The new process is a child of the running one and the last of the ready queue. -/
theorem Lists.create {n : P} (h : k.Lists c (n :: free) ready) (hSaved : k.pcb.p_s c ≠ 0)
    (proc_state : Word) :
    ∃ pcb next, insertChild (k.pcb.clear n) (some c) (some n) = .ok pcb ∧
      createProcess k proc_state = .ok (k.created c n pcb next) ∧
      (k.created c n pcb next).Lists c free (ready ++ [n]) := by
  have hFree : k.pcbFree_h = some n := h.spare.1
  have hcn : c ≠ n := List.ne_of_not_mem_cons h.running
  have hn : n ∉ ready := h.not_ready_of_free (List.mem_cons_self ..)
  have hClear (q : P) (hq : q ≠ n) : (k.pcb.clear n).p_next q = k.pcb.p_next q :=
    Function.update_of_ne hq ..
  let pcb := (((k.pcb.clear n).setSib n ((k.pcb.clear n).p_child c)).setChild c (some n)).setPrnt n
    (some c)
  have hChild : insertChild (k.pcb.clear n) (some c) (some n) = .ok pcb := rfl
  have hState : pcb.p_s c = k.pcb.p_s c := Function.update_of_ne hcn ..
  have hRing₁ : Ring (pcb.setS n (k.pcb.p_s c)).p_next k.readyQueue ready :=
    h.ring.congr fun y hy => hClear y (ne_of_mem_of_not_mem hy hn)
  obtain ⟨next, hInsert, hRing, hKeep⟩ := insertProcQ_append hRing₁ hn
  have hPerm : (ready ++ [n] ++ free).Perm (ready ++ n :: free) := by simp
  refine ⟨pcb, next, hChild, ?_, ⟨h.current, ?_, hRing, hPerm.nodup_iff.mpr h.nodup,
    fun hc => h.running (List.mem_cons_of_mem _ hc)⟩⟩
  · simp only [createProcess, h.current, deref_some, Outcome.ok_bind, hFree, allocPcb_some, hChild,
      hState, hInsert, ptr_some hSaved, created]
    rfl
  · refine (allocPcb_chain (hFree ▸ h.spare)).congr fun q hq => hKeep q ?_
    have hqn : q ≠ n := by
      rintro rfl
      exact (List.nodup_cons.mp h.spare.nodup).1 hq
    simp [hqn, h.not_ready_of_free (List.mem_cons_of_mem _ hq)]

namespace View

/-- So a time slice ends also for the lists of all blocks that are in use. -/
theorem slice (h : k.View c free ready) (hNext : ready ++ [c] = x :: rest)
    (hIdle : schedulerIdle k = .ok { k with waits := waits }) :
    ∃ next tail,
      scheduler k 1 = .ok (k.sliced c x next tail waits) ∧
      (k.sliced c x next tail waits).View x free rest := by
  obtain ⟨next, tail, hSlice, hRing, hKeep⟩ := h.round.slice hNext hIdle
  have hPerm : (x :: (rest ++ free)).Perm (c :: (ready ++ free)) := by
    rw [← List.cons_append, ← hNext]
    exact (List.perm_append_singleton c ready).append_right free
  refine ⟨next, tail, hSlice, ⟨rfl, ?_, hRing, hPerm.nodup_iff.mpr h.nodup⟩⟩
  refine h.spare.congr fun q hq => hKeep q ?_
  have hqc : q ≠ c := ne_of_mem_of_not_mem hq h.not_mem_free
  simp [hqc, h.not_ready_of_free hq]

/-- Every time slice ends so if the scheduler returns: only queue links change. -/
theorem slice_ok {k' : Kernel P D} (h : k.View c free ready) (hExec : scheduler k 1 = .ok k') :
    ∃ x rest next, ready ++ [c] = x :: rest ∧ k'.pcb = { k.pcb with p_next := next } ∧
      k'.processCount = k.processCount ∧ k'.View x free rest := by
  obtain ⟨k₀, hIdle, -⟩ := Outcome.bind_eq_ok.mp hExec
  obtain ⟨waits, rfl⟩ := schedulerIdle_ok hIdle
  obtain ⟨x, rest, hNext⟩ := List.exists_cons_of_ne_nil (List.concat_ne_nil c ready)
  obtain ⟨next, tail, hSlice, hView⟩ := h.slice hNext hIdle
  cases hSlice.symm.trans hExec
  exact ⟨x, rest, next, hNext, rfl, rfl, hView⟩

/-- So a process ends also for the lists of all blocks that are in use. -/
theorem finish (h : k.View c free (x :: rest)) :
    ∃ next tail,
      scheduler k 0 = .ok (k.finished c x next tail) ∧
      (k.finished c x next tail).View x (c :: free) rest := by
  obtain ⟨next, tail, hFinish, hRing, hKeep⟩ := h.round.finish
  have hPerm : (x :: (rest ++ c :: free)).Perm (c :: (x :: rest ++ free)) := by
    rw [← List.cons_append]
    exact List.perm_middle
  refine ⟨next, tail, hFinish, ⟨rfl, ?_, hRing, hPerm.nodup_iff.mpr h.nodup⟩⟩
  refine (freePcb_chain h.spare h.not_mem_free).congr fun q hq => hKeep q ?_
  rcases List.mem_cons.mp hq with rfl | hq
  · exact fun hm => h.not_mem_ready (List.mem_cons_of_mem _ hm)
  · exact fun hm => h.not_ready_of_free hq (List.mem_cons_of_mem _ hm)

/-- With nothing to run next, the end of the running process stops the machine or
reads through NULL. -/
theorem finish_empty (h : k.View c free []) (k' : Kernel P D) : scheduler k 0 ≠ .ok k' := by
  intro hExec
  have hQueue : k.readyQueue = none := h.ring.eq_nil_iff.mp rfl
  obtain ⟨k₀, hIdle, hRest⟩ := Outcome.bind_eq_ok.mp hExec
  obtain ⟨waits, rfl⟩ := schedulerIdle_ok hIdle
  simp [saveState, h.current, freePcb_some, dispatch, hQueue, loadState] at hRest

/-- A process ends so whenever the scheduler returns. -/
theorem finish_ok {k' : Kernel P D} (h : k.View c free ready) (hExec : scheduler k 0 = .ok k') :
    ∃ x rest next, ready = x :: rest ∧ k'.pcb = { k.pcb with p_next := next } ∧
      k'.processCount = k.processCount - 1 ∧ k'.View x (c :: free) rest := by
  cases ready with
  | nil => exact absurd hExec (h.finish_empty k')
  | cons x rest =>
      obtain ⟨next, tail, hFinish, hView⟩ := h.finish
      cases hFinish.symm.trans hExec
      exact ⟨x, rest, next, rfl, rfl, rfl, hView⟩

theorem create_none (h : k.View c [] ready) (hSaved : k.pcb.p_s c ≠ 0) (proc_state : Word) :
    createProcess k proc_state = .ok { k with
      words := update k.words (resultSlot (k.pcb.p_s c)) (-1) } :=
  createProcess_full h.current h.spare hSaved proc_state

/-- So a process is created also for the lists of all blocks that are in use. -/
theorem create {n : P} (h : k.View c (n :: free) ready) (hSaved : k.pcb.p_s c ≠ 0)
    (proc_state : Word) :
    ∃ pcb next, insertChild (k.pcb.clear n) (some c) (some n) = .ok pcb ∧
      createProcess k proc_state = .ok (k.created c n pcb next) ∧
      (k.created c n pcb next).View c free (ready ++ [n]) := by
  obtain ⟨pcb, next, hChild, hExec, hLists⟩ := h.lists.create hSaved proc_state
  have hPerm : (c :: (ready ++ [n] ++ free)).Perm (c :: (ready ++ n :: free)) := by simp
  exact ⟨pcb, next, hChild, hExec, hLists.current, hLists.spare, hLists.ring,
    hPerm.nodup_iff.mpr h.nodup⟩

/-- `createProcess` returns in one of these two ways. -/
theorem create_ok {k' : Kernel P D} (h : k.View c free ready) {proc_state : Word}
    (hExec : createProcess k proc_state = .ok k') :
    (k'.toMemory = k.toMemory ∧ k'.processCount = k.processCount ∧ k'.View c free ready) ∨
    ∃ n spare pcb next, free = n :: spare ∧
      insertChild (k.pcb.clear n) (some c) (some n) = .ok pcb ∧
      k'.pcb = { pcb.setS n (k.pcb.p_s c) with p_next := next } ∧
      k'.processCount = k.processCount + 1 ∧ k'.View c spare (ready ++ [n]) := by
  have hSaved := createProcess_ok_state h.current hExec
  cases free with
  | nil =>
      cases (h.create_none hSaved proc_state).symm.trans hExec
      exact .inl ⟨rfl, rfl, h.current, h.spare, h.ring, h.nodup⟩
  | cons n spare =>
      obtain ⟨pcb, next, hChild, hCreate, hView⟩ := h.create hSaved proc_state
      cases hCreate.symm.trans hExec
      exact .inr ⟨n, spare, pcb, next, rfl, hChild, rfl, rfl, hView⟩

end View

end Kernel

end Nucleus
