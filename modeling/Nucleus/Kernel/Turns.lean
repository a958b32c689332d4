import Nucleus.Kernel.Mirror

/-! Time slices in memory. On blocks that are apart the processes go on in the order in which
they have stopped, each with the registers with which it has stopped, whatever the others have
done in between. -/
namespace Nucleus.Flat

open Function (update)
open Linked Semantics

/-- Calls at the end of a time slice while a process is ready. -/
def sliceSystem (L : Layout) (blocks : List Word) : System Machine Slice Switch :=
  (flatSystem L blocks).restrict fun m call => m.readyQueue ≠ 0 ∧ call.control = 1

section Accounts

variable (L : Layout)

/-- The words of a processor that are saved. -/
def state (regs : ℕ → Word) : List Word := (List.range L.words).map regs

/-- The process that a call stops, with the registers that it had. -/
def stopped (entry : Slice × Switch) : Word × List Word :=
  (entry.2.preempted, state L entry.1.regs)

/-- The process that goes on after a call, with the registers that it gets. -/
def resumed (entry : Slice × Switch) : Word × List Word :=
  (entry.2.dispatched, state L entry.2.loaded)

/-- The processes of the ready queue with their states in memory. -/
def waiting (mem : Words) (ready : List Word) : List (Word × List Word) :=
  ready.map fun q => (q, state L (LDST mem (p_s q)))

end Accounts

section Turns

variable {L : Layout} {blocks ready rest : List Word} {m m' : Machine} {c x : Word} {call : Slice}
  {trace : List (Slice × Switch)}

theorem state_congr {regs regs' : ℕ → Word} (h : ∀ i < L.words, regs i = regs' i) :
    state L regs = state L regs' :=
  List.map_congr_left fun i hi => h i (List.mem_range.mp hi)

/-- A call takes the head of the waiting processes and puts the stopped one behind them. -/
theorem Processes.turn (h : Processes L m c (x :: rest)) (hSpread : Spread L blocks)
    (hBlocks : ∀ p ∈ c :: x :: rest, p ∈ blocks) (legal : call.Outside L blocks)
    (hControl : call.control = 1) : ∃ m' r, (flatSystem L blocks).exec m call = .ok (m', r) ∧
      r.preempted = c ∧ r.dispatched = x ∧ Processes L m' x (rest ++ [c]) ∧
      waiting L m.mem (x :: rest) ++ [stopped L (call, r)] =
        resumed L (call, r) :: waiting L m'.mem (rest ++ [c]) := by
  obtain ⟨m', hExec, hAfter, hFrame⟩ := h.slice hSpread hBlocks legal hControl
  have hc : c ∈ blocks := hBlocks c (List.mem_cons_self ..)
  have hArea (q : Word) (hq : q ∈ blocks) (i : ℕ) (hi : i < L.words) :
      m'.mem (element (p_s q) i) =
        STST L.words (compute m.mem call.stores) (p_s c) call.regs (element (p_s q) i) :=
    hFrame _ fun hMem => hSpread.links q hq _ hMem i hi rfl
  -- a process that waits keeps its state, and the stopped one has its own saved
  have hKept (q : Word) (hq : q ∈ x :: rest) :
      state L (LDST m'.mem (p_s q)) = state L (LDST m.mem (p_s q)) := by
    have hIn : q ∈ blocks := hBlocks q (List.mem_cons_of_mem _ hq)
    have hqc : c ≠ q := fun hEq => h.apart (hEq ▸ hq)
    apply state_congr
    intro i hi
    calc m'.mem (element (p_s q) i)
        = STST L.words (compute m.mem call.stores) (p_s c) call.regs (element (p_s q) i) :=
          hArea q hIn i hi
      _ = compute m.mem call.stores (element (p_s q) i) :=
          storeAll_same fun j hj hEq => absurd hEq (hSpread.areas c hc q hIn hqc j hj i hi)
      _ = m.mem (element (p_s q) i) :=
          compute_of_not_mem fun store hStore hEq =>
            legal store hStore (.inr ⟨q, hIn, i, hi, hEq⟩)
  have hSaved : state L (LDST m'.mem (p_s c)) = state L call.regs := by
    apply state_congr
    intro i hi
    exact (hArea c hc i hi).trans (L.STST_element hi)
  refine ⟨m', _, hExec, rfl, rfl, hAfter, ?_⟩
  have hRest : waiting L m'.mem rest = waiting L m.mem rest := by
    apply List.map_congr_left
    intro q hq
    rw [hKept q (List.mem_cons_of_mem _ hq)]
  have hLast : waiting L m'.mem [c] = [(c, state L call.regs)] := by
    rw [← hSaved]
    rfl
  have hAppend : waiting L m'.mem (rest ++ [c]) = waiting L m'.mem rest ++ waiting L m'.mem [c] :=
    List.map_append
  rw [hAppend, hRest, hLast, resumed, hKept x (List.mem_cons_self ..)]
  rfl

/-- Over a run of time slices the states that go into memory come out of it in the same order,
each for the process that has left it there. The call after the run returns as well. -/
theorem slices_run (hSpread : Spread L blocks) (h : Processes L m c ready)
    (hBlocks : ∀ p ∈ c :: ready, p ∈ blocks) (run : (sliceSystem L blocks).Run m trace m') :
    ∃ x rest, Processes L m' x rest ∧ (x :: rest).Perm (c :: ready) ∧
      c :: trace.map (fun entry => entry.2.dispatched) =
        trace.map (fun entry => entry.2.preempted) ++ [x] ∧
      waiting L m.mem ready ++ trace.map (stopped L) =
        trace.map (resumed L) ++ waiting L m'.mem rest ∧
      ∀ call, (sliceSystem L blocks).Legal m' call →
        ∃ t r, (sliceSystem L blocks).exec m' call = .ok (t, r) := by
  induction run generalizing c ready with
  | nil m =>
      refine ⟨c, ready, h, List.Perm.refl _, rfl, by simp, fun call legal => ?_⟩
      obtain ⟨hOutside, hReady, hControl⟩ := legal
      obtain ⟨x, rest, rfl⟩ := h.exists_ready hReady
      obtain ⟨t, r, hExec, -⟩ := h.turn hSpread hBlocks hOutside hControl
      exact ⟨t, r, hExec⟩
  | cons legal first _ ih =>
      obtain ⟨hOutside, hReady, hControl⟩ := legal
      obtain ⟨y, queue, rfl⟩ := h.exists_ready hReady
      obtain ⟨t, r, hExec, hFrom, hTo, hAfter, hTurn⟩ := h.turn hSpread hBlocks hOutside hControl
      cases hExec.symm.trans first
      have hPerm : (y :: (queue ++ [c])).Perm (c :: y :: queue) :=
        List.perm_append_singleton c (y :: queue)
      obtain ⟨x, rest, hEnd, hAll, hChain, hStates, hNext⟩ :=
        ih hAfter fun p hp => hBlocks p (hPerm.mem_iff.mp hp)
      refine ⟨x, rest, hEnd, hAll.trans hPerm, ?_, ?_, hNext⟩
      · simp only [List.map_cons, List.cons_append, hFrom, hTo, hChain]
      · rw [List.map_cons, List.map_cons, List.cons_append, ← hStates, ← List.cons_append, ← hTurn,
          List.append_assoc, List.singleton_append]

/-- The first process comes back to the registers that it left two calls ago. -/
theorem slices_run_two : ∃ m' r r', (sliceSystem ramBase fourths).Run
      (running (ramBase.block 0) (ramBase.block 4)) [(storing 1, r), (storing 2, r')] m' ∧
    r'.dispatched = ramBase.block 0 ∧ state ramBase r'.loaded = List.replicate 17 1 := by
  have hStart := running_processes (L := ramBase) ⟨0, by decide, rfl⟩ ⟨4, by decide, rfl⟩
    (by decide : ramBase.block 0 ≠ ramBase.block 4)
  have hZero : ramBase.block 0 ∈ fourths := block_fourths (by decide)
  have hFour : ramBase.block 4 ∈ fourths := block_fourths (by decide)
  have hBlocks : ∀ p ∈ [ramBase.block 0, ramBase.block 4], p ∈ fourths := by simp [hZero, hFour]
  have hTurned : ∀ p ∈ [ramBase.block 4, ramBase.block 0], p ∈ fourths := by simp [hZero, hFour]
  obtain ⟨m₁, r, hFirst, hFrom, -, hNext, -⟩ :=
    hStart.turn fourths_spread hBlocks (storing_outside 1) rfl
  obtain ⟨m₂, r', hSecond, -⟩ := hNext.turn fourths_spread hTurned (storing_outside 2) rfl
  have hRun : (sliceSystem ramBase fourths).Run (running (ramBase.block 0) (ramBase.block 4))
      [(storing 1, r), (storing 2, r')] m₂ :=
    .cons ⟨storing_outside 1, hStart.tail.1, rfl⟩ hFirst
      (.cons ⟨storing_outside 2, hNext.tail.1, rfl⟩ hSecond (.nil _))
  obtain ⟨x, rest, -, -, -, hStates, -⟩ := slices_run fourths_spread hStart hBlocks hRun
  have hBack : stopped ramBase (storing 1, r) = resumed ramBase (storing 2, r') :=
    (List.cons.inj (List.cons.inj hStates).2).1
  obtain ⟨hProcess, hRegs⟩ := Prod.mk.inj hBack
  have hOnes : state ramBase (storing 1).regs = List.replicate 17 1 := by decide
  exact ⟨m₂, r, r', hRun, hProcess.symm.trans hFrom, hRegs.symm.trans hOnes⟩

end Turns

end Nucleus.Flat
