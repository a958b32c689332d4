import Nucleus.Kernel.FlatMemory

/-! The end of a time slice in memory. The preempted process is put back behind the tests for
an empty ready queue, and its state is saved over the blocks behind its own. -/
namespace Nucleus.Flat

open Function (update)
open Linked Semantics

/-- `c` runs and `ready` waits in the ready queue; all of them have blocks of the table. -/
structure Processes (L : Layout) (m : Machine) (c : Word) (ready : List Word) : Prop where
  current : m.currentProcess = c
  ring : Ring (link m.mem) (ptr m.readyQueue) ready
  apart : c ∉ ready
  inTable : ∀ q ∈ c :: ready, L.InTable q

/-- The scheduler neither stops the machine nor waits at the end of the time slice. The first
process of the ready queue followed by the running one goes on with the state at its `p_s`,
and the others are the ready queue. -/
def NextRuns (L : Layout) (m : Machine) (regs : ℕ → Word) (c : Word) (ready : List Word) : Prop :=
  ∃ m' r x rest, scheduler L.words m regs 1 = .ok (m', r) ∧ m'.waits = m.waits ∧
    ready ++ [c] = x :: rest ∧ r.dispatched = x ∧ r.loaded = LDST m'.mem (p_s x) ∧
    Processes L m' x rest

section Layout

variable {L : Layout} {p : Word} {i j : ℕ}

theorem Layout.block_toNat (hi : i < L.MAXPROC) :
    (L.block i).toNat = L.array.toNat + 24 * i := by
  have hFits := L.fits
  have hSize : (24 : Word).toNat = 24 := rfl
  simp only [Layout.block, BitVec.toNat_add, BitVec.toNat_mul, BitVec.toNat_ofNat, hSize]
  omega

theorem Layout.InTable.ne_zero (h : L.InTable p) : p ≠ 0 := by
  obtain ⟨i, hi, rfl⟩ := h
  have hBlock := L.block_toNat hi
  have hArray : L.array.toNat ≠ 0 := fun hZero => L.nonzero (BitVec.eq_of_toNat_eq hZero)
  intro hZero
  rw [hZero] at hBlock
  change 0 = _ at hBlock
  omega

/-- Different words of a state are saved at different addresses. -/
theorem Layout.element_inj (L : Layout) {base : Word} (hi : i < L.words) (hj : j < L.words)
    (h : element base i = element base j) : i = j := by
  have hBound := L.bounded
  exact Arm.word_inj (by omega) (by omega) h

theorem Layout.STST_element (L : Layout) {mem : Words} {addr : Word} {regs : ℕ → Word}
    (hi : i < L.words) : STST L.words mem addr regs (element addr i) = regs i :=
  storeAll_apply (fun _ _ hi hj => L.element_inj hi hj) hi

/-- A save area does not come round to the link of its own block. -/
theorem Layout.element_ne (L : Layout) (hi : i < L.words) :
    element (p_s p) i ≠ p := by
  have hBound := L.bounded
  intro hEq
  rw [element, Arm.word, p_s, BitVec.add_assoc, BitVec.add_right_eq_self] at hEq
  have hSum := congrArg BitVec.toNat hEq
  have hFour : (4 : Word).toNat = 4 := rfl
  have hSixteen : (16 : Word).toNat = 16 := rfl
  simp only [BitVec.toNat_add, BitVec.toNat_mul, BitVec.toNat_ofNat, hFour, hSixteen] at hSum
  omega

end Layout

section Idle

variable {m : Machine}

/-- The tests are only for an empty queue. -/
theorem schedulerIdle_ready (h : m.readyQueue ≠ 0) : schedulerIdle m = .ok m := by
  simp [schedulerIdle, ptr_some h]

/-- With a process that runs and nothing else the tests stop the machine or wait. -/
theorem schedulerIdle_empty (h : m.readyQueue = 0) (hCount : 1 ≤ m.processCount)
    (hBlocked : 0 ≤ m.softBlockCount) :
    schedulerIdle m =
      if m.softBlockCount = 0 then error "Deadlock" else .ok { m with waits := m.waits + 1 } := by
  have hSome : m.processCount ≠ 0 := by omega
  have hPos : 0 < m.processCount := by omega
  by_cases hNone : m.softBlockCount = 0
  · simp [schedulerIdle, h, hSome, hPos, hNone]
  · have hSoft : 0 < m.softBlockCount := by omega
    simp [schedulerIdle, h, hSome, hPos, hNone, hSoft]

end Idle

section Switch

variable {L : Layout} {m : Machine} {c x : Word} {ready rest : List Word} {regs : ℕ → Word}

theorem Processes.tail (h : Processes L m c (x :: rest)) :
    m.readyQueue ≠ 0 ∧ m.readyQueue ∈ x :: rest := by
  have hRing := h.ring
  cases hTail : ptr m.readyQueue with
  | none =>
      rw [hTail] at hRing
      cases Ring.none_iff.mp hRing
  | some t =>
      rw [hTail] at hRing
      obtain ⟨hEq, ht⟩ := ptr_eq_some hTail
      rw [hEq]
      exact ⟨ht, hRing.tail_mem⟩

/-- If the saving leaves the queue links, the running process goes to the end of the queue
and its head runs. The queue functions write only to the links of the running process and
of the old tail, and the new running process keeps its link to the new head. -/
theorem Processes.switch (h : Processes L m c (x :: rest))
    (hLinks : ∀ q ∈ x :: rest, STST L.words m.mem (p_s c) regs q = m.mem q) :
    ∃ m', scheduler L.words m regs 1 = .ok (m', ⟨c, x, LDST m'.mem (p_s x)⟩) ∧
      m'.waits = m.waits ∧ Processes L m' x (rest ++ [c]) ∧ link m'.mem x = (rest ++ [c]).head? ∧
      m'.mem m.readyQueue = c ∧
      ∀ a, a ≠ c → a ≠ m.readyQueue → m'.mem a = STST L.words m.mem (p_s c) regs a := by
  obtain ⟨mem, hMem⟩ : ∃ mem, mem = STST L.words m.mem (p_s c) regs := ⟨_, rfl⟩
  have hRing : Ring (link mem) (ptr m.readyQueue) (x :: rest) := by
    refine h.ring.congr fun q hq => ?_
    rw [link, link, hMem, hLinks q hq]
  have hc : c ≠ 0 := (h.inTable c (List.mem_cons_self ..)).ne_zero
  have hx : x ≠ 0 := (h.inTable x (by simp)).ne_zero
  have hxc : x ≠ c := fun hEq => h.apart (hEq ▸ List.mem_cons_self ..)
  obtain ⟨hTail, hTailMem⟩ := h.tail
  have hTailc : m.readyQueue ≠ c := fun hEq => h.apart (hEq ▸ hTailMem)
  obtain ⟨mem₁, hInsert, hRing₁, hLast, hFrame₁⟩ := insertProcQ_append hRing hc h.apart
  obtain ⟨mem₂, tp, hRemove, hRing₂, hFrame₂⟩ := removeProcQ_head hRing₁
  refine ⟨{ m with mem := mem₂, readyQueue := tp, currentProcess := x }, ?_, rfl,
    ⟨rfl, hRing₂, ?_, fun q hq => h.inTable q ?_⟩, ?_, ?_, fun a hac haq => ?_⟩
  · rw [scheduler, schedulerIdle_ready hTail]
    simp [h.current, ptr_some hc, ptr_some hx, ← hMem, hInsert, dispatch, hRemove]
  · have hNodup := hRing₁.nodup
    rw [List.cons_append] at hNodup
    exact (List.nodup_cons.mp hNodup).1
  · simpa [or_comm, or_assoc, or_left_comm] using hq
  · have hHead : link mem₁ x = (rest ++ [c]).head? := hRing₁.next_head (by simp)
    exact (congrArg ptr (hFrame₂ x hxc)).trans hHead
  · exact (hFrame₂ _ hTailc).trans (hLast hTail)
  · exact (hFrame₂ a hac).trans ((hFrame₁ a hac fun _ => haq).trans (congrFun hMem a))

theorem Processes.exists_ready (h : Processes L m c ready) (hReady : m.readyQueue ≠ 0) :
    ∃ x rest, ready = x :: rest := by
  have hSome : ptr m.readyQueue ≠ none := by simp [ptr_some hReady]
  exact h.ring.exists_cons hSome

end Switch

section Slice

variable {L : Layout} {m m' : Machine} {r : Switch} {c x : Word} {ready rest : List Word}
  {regs : ℕ → Word}

/-- What a call writes behind the tests, whatever the words are that `STST` has stored: the
link of the running process, that of the tail, and that of the running process again. -/
theorem Processes.slice_writes (h : Processes L m c (x :: rest))
    (hExec : scheduler L.words m regs 1 = .ok (m', r)) :
    let mem := STST L.words m.mem (p_s c) regs
    let mem₁ := update (update mem c (mem m.readyQueue)) m.readyQueue c
    r.dispatched = mem m.readyQueue ∧ (r.dispatched ≠ c →
      m'.readyQueue = c ∧ m'.mem = update mem₁ c (mem₁ (mem m.readyQueue))) := by
  intro mem mem₁
  have hc : c ≠ 0 := (h.inTable c (List.mem_cons_self ..)).ne_zero
  obtain ⟨hTail, hTailMem⟩ := h.tail
  have hcTail : c ≠ m.readyQueue := fun hEq => h.apart (hEq ▸ hTailMem)
  have hHead : mem₁ c = mem m.readyQueue := by simp [mem₁, Function.update_of_ne hcTail]
  have hInsert : insertProcQ mem m.readyQueue c = .ok (mem₁, c) := by
    simp [insertProcQ, ptr_some hTail, ptr_some hc, mem₁]
  simp only [scheduler, schedulerIdle_ready hTail, Outcome.ok_bind, h.current, ptr_some hc,
    deref_some, one_ne_zero, if_false, if_true] at hExec
  rw [hInsert, Outcome.ok_bind] at hExec
  obtain ⟨m₂, hDispatch, hExec⟩ := Outcome.bind_eq_ok.mp hExec
  obtain ⟨y, hy, hExec⟩ := Outcome.bind_eq_ok.mp hExec
  cases hExec
  obtain ⟨⟨mem₂, tp, p⟩, hRemove, hEq⟩ := Outcome.bind_eq_ok.mp hDispatch
  cases hEq
  cases deref_ptr_ok hy
  simp only [removeProcQ, ptr_some hc, hHead] at hRemove
  by_cases hLone : c = mem m.readyQueue
  · simp only [hLone, if_true, Outcome.pure_eq, Except.ok.injEq, Prod.mk.injEq] at hRemove
    obtain ⟨-, -, rfl⟩ := hRemove
    exact ⟨rfl, fun hne => absurd hLone.symm hne⟩
  · rw [if_neg hLone] at hRemove
    obtain ⟨q, hq, hWrite⟩ := Outcome.bind_eq_ok.mp hRemove
    cases hWrite
    cases deref_ptr_ok hq
    exact ⟨rfl, fun _ => ⟨rfl, rfl⟩⟩

/-- So the old tail has led to the head, the link of the head has gone into that of the new
tail, and all other links are as the saving has left them. -/
theorem Processes.slice_links (h : Processes L m c (x :: rest))
    (hExec : scheduler L.words m regs 1 = .ok (m', r)) (hFirst : r.dispatched = x) :
    STST L.words m.mem (p_s c) regs m.readyQueue = x ∧ m'.readyQueue = c ∧
      (x ≠ m.readyQueue → m'.mem c = STST L.words m.mem (p_s c) regs x) ∧
      ∀ q, q ≠ c → q ≠ m.readyQueue → m'.mem q = STST L.words m.mem (p_s c) regs q := by
  obtain ⟨hHead, hWrites⟩ := h.slice_writes hExec
  have hxc : x ≠ c := fun hEq => h.apart (hEq ▸ List.mem_cons_self ..)
  obtain ⟨hQueue, hMem⟩ := hWrites (hFirst ▸ hxc)
  have hx : STST L.words m.mem (p_s c) regs m.readyQueue = x := hHead.symm.trans hFirst
  refine ⟨hx, hQueue, fun hTail => ?_, fun q hqc hqTail => ?_⟩
  · rw [hMem, hx, Function.update_self, Function.update_of_ne hTail, Function.update_of_ne hxc]
  · rw [hMem, Function.update_of_ne hqc, Function.update_of_ne hqTail, Function.update_of_ne hqc]

/-- A call that leaves the queue as it should has found all links of the queue as they were
before the saving. -/
theorem Processes.links_kept (h : Processes L m c (x :: rest))
    (hNext : NextRuns L m regs c (x :: rest)) {q : Word} (hq : q ∈ x :: rest) :
    STST L.words m.mem (p_s c) regs q = m.mem q := by
  obtain ⟨m', r, x', rest', hExec, -, hList, hFirst, -, hAfter⟩ := hNext
  rw [List.cons_append] at hList
  obtain ⟨rfl, rfl⟩ := List.cons.inj hList
  obtain ⟨hx, hQueue, hHead, hOthers⟩ := h.slice_links hExec hFirst
  have hRing := h.ring
  rw [ptr_some h.tail.1] at hRing
  have hRing' := hAfter.ring
  rw [hQueue] at hRing'
  obtain ⟨before, after, hSplit⟩ := List.append_of_mem hq
  cases after with
  | nil =>
      -- the tail, in whose link the call has found the head
      have hLast : q = m.readyQueue := by simpa [hSplit] using hRing.tail_eq.symm
      obtain ⟨hOld, -⟩ := ptr_eq_some hRing.next_tail
      rw [hLast, hx, hOld]
  | cons next after =>
      have hOld : link m.mem q = some next := (hSplit ▸ hRing).next_eq
      have hqc : q ≠ c := fun hEq => h.apart (hEq ▸ hq)
      have hqTail : q ≠ m.readyQueue := by
        rintro rfl
        have hNodup := hSplit ▸ h.ring.nodup
        have hLast : m.readyQueue ∈ next :: after :=
          List.mem_of_getLast? (by simpa [hSplit] using hRing.tail_eq.symm)
        exact (List.nodup_cons.mp (List.nodup_append.mp hNodup).2.1).1 hLast
      refine ptr_inj.mp (Eq.trans ?_ hOld.symm)
      cases before with
      | nil =>
          -- the head, whose link has gone into that of the new tail
          obtain ⟨rfl, rfl⟩ := List.cons.inj hSplit
          rw [ptr_some (h.inTable c (List.mem_cons_self ..)).ne_zero] at hRing'
          rw [← hHead hqTail]
          exact hRing'.next_tail
      | cons y before =>
          have hRest : rest = before ++ q :: next :: after := (List.cons.inj hSplit).2
          rw [hRest, List.append_assoc] at hRing'
          rw [← hOthers q hqc hqTail]
          exact hRing'.next_eq

/-- A lone process is not in the ready queue when the queue is tested, so the scheduler
takes its time slice for a deadlock or waits for an interrupt. -/
theorem Processes.lone (h : Processes L m c []) (hCount : 1 ≤ m.processCount)
    (hBlocked : 0 ≤ m.softBlockCount) : ¬NextRuns L m regs c [] := by
  rintro ⟨m', r, x, rest, hExec, hWaits, -⟩
  have hEmpty : m.readyQueue = 0 := by
    by_contra hSome
    obtain ⟨y, tail, hList⟩ := h.exists_ready hSome
    cases hList
  rw [scheduler, schedulerIdle_empty hEmpty hCount hBlocked] at hExec
  by_cases hNone : m.softBlockCount = 0
  · simp [hNone, error] at hExec
  · rw [if_neg hNone, Outcome.ok_bind] at hExec
    obtain ⟨c', -, hExec⟩ := Outcome.bind_eq_ok.mp hExec
    simp only [one_ne_zero, if_false, if_true] at hExec
    obtain ⟨⟨mem₁, tail⟩, -, hExec⟩ := Outcome.bind_eq_ok.mp hExec
    obtain ⟨m₁, hDispatch, hExec⟩ := Outcome.bind_eq_ok.mp hExec
    obtain ⟨⟨mem₂, tp, p⟩, -, hEq⟩ := Outcome.bind_eq_ok.mp hDispatch
    cases hEq
    obtain ⟨y, -, hEq⟩ := Outcome.bind_eq_ok.mp hExec
    cases hEq
    exact absurd hWaits (Nat.succ_ne_self m.waits)

/-- The scheduler runs the next process at the end of a time slice exactly when the ready
queue was not empty before the preempted process is put back, and when every word of its
state that is saved over the link of a ready process is that link. -/
theorem next_runs_iff (h : Processes L m c ready) (hCount : 1 ≤ m.processCount)
    (hBlocked : 0 ≤ m.softBlockCount) :
    NextRuns L m regs c ready ↔ m.readyQueue ≠ 0 ∧
      ∀ q ∈ ready, ∀ i < L.words, element (p_s c) i = q → regs i = m.mem q := by
  by_cases hEmpty : m.readyQueue = 0
  · have hNone : ready = [] := h.ring.eq_nil_iff.mpr (by rw [hEmpty]; rfl)
    subst hNone
    exact iff_of_false (h.lone hCount hBlocked) fun hBoth => hBoth.1 hEmpty
  obtain ⟨x, rest, rfl⟩ := h.exists_ready hEmpty
  rw [ne_eq, and_iff_right hEmpty]
  constructor
  · intro hNext q hq i hi hEq
    rw [← h.links_kept hNext hq, ← hEq, L.STST_element hi]
  · intro hLinks
    obtain ⟨m', hExec, hWaits, hAfter, -⟩ := h.switch fun q hq => storeAll_same (hLinks q hq)
    exact ⟨m', _, x, rest ++ [c], hExec, hWaits, rfl, rfl, rfl, hAfter⟩

end Slice

section Examples

/-- The table at the start of the RAM, and the states of `a1` to `pc` and `cpsr`. -/
def ramBase : Layout where
  array := 0x8000
  MAXPROC := 20
  words := 17
  aligned := by decide
  nonzero := by decide
  fits := by decide
  enough := by decide
  bounded := by decide

/-- `c` runs, `x` is ready if there is one, and the memory holds zeros but for its link. -/
def running (c x : Word) : Machine where
  mem a := if a = x then x else 0
  pcbFree_h := 0
  readyQueue := x
  currentProcess := c
  processCount := if x = 0 then 1 else 2
  softBlockCount := 0
  waits := 0

theorem running_processes {L : Layout} {c x : Word} (hc : L.InTable c) (hx : L.InTable x)
    (hcx : c ≠ x) : Processes L (running c x) c [x] := by
  refine ⟨rfl, ?_, by simpa using hcx, by simp [hc, hx]⟩
  have hTail : ptr (running c x).readyQueue = some x := ptr_some hx.ne_zero
  rw [hTail]
  apply Ring.singleton
  simp [link, running, ptr_some hx.ne_zero]

theorem running_alone {L : Layout} {c : Word} (hc : L.InTable c) :
    Processes L (running c 0) c [] :=
  ⟨rfl, rfl, List.not_mem_nil, by simpa using hc⟩

/-- The first block is not in the save area of the last one. -/
theorem next_runs_one :
    NextRuns ramBase (running (ramBase.block 19) (ramBase.block 0)) (BitVec.ofNat 32)
      (ramBase.block 19) [ramBase.block 0] := by
  have hApart : ∀ i < 17, element (p_s (ramBase.block 19)) i ≠ ramBase.block 0 := by decide
  refine (next_runs_iff (running_processes ⟨19, by decide, rfl⟩ ⟨0, by decide, rfl⟩ (by decide))
    (by decide) (by decide)).mpr ⟨by decide, fun q hq i hi hEq => ?_⟩
  rw [List.mem_singleton.mp hq] at hEq
  exact absurd hEq (hApart i hi)

/-- A lone process that has used up its time slice ends the system. With its neighbour ready
it saves its `a3` over the link of that, and the scheduler reads through a NULL there. -/
theorem lone_process_deadlock :
    Processes ramBase (running (ramBase.block 0) 0) (ramBase.block 0) [] ∧
      (∀ regs, scheduler 17 (running (ramBase.block 0) 0) regs 1 = .error (.panic "Deadlock")) ∧
      (∀ regs, ¬NextRuns ramBase (running (ramBase.block 0) 0) regs (ramBase.block 0) []) ∧
      Processes ramBase (running (ramBase.block 0) (ramBase.block 1)) (ramBase.block 0)
        [ramBase.block 1] ∧
      scheduler 17 (running (ramBase.block 0) (ramBase.block 1)) (fun _ => 0) 1 =
        .error .nullDeref := by
  have hAlone : Processes ramBase (running (ramBase.block 0) 0) (ramBase.block 0) [] :=
    running_alone ⟨0, by decide, rfl⟩
  have hNull : (scheduler 17 (running (ramBase.block 0) (ramBase.block 1)) (fun _ => 0) 1).map
      (fun _ => ()) = .error .nullDeref := by
    decide +kernel
  refine ⟨hAlone, fun regs => rfl, fun regs => hAlone.lone (by decide) (by decide),
    running_processes ⟨0, by decide, rfl⟩ ⟨1, by decide, rfl⟩ (by decide), ?_⟩
  cases hExec : scheduler 17 (running (ramBase.block 0) (ramBase.block 1)) (fun _ => 0) 1 with
  | ok result =>
      rw [hExec] at hNull
      cases hNull
  | error stop =>
      rw [hExec] at hNull
      cases hNull
      rfl

end Examples

end Nucleus.Flat
