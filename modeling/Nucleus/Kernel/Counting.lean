import Mathlib.Data.Fintype.Card
import Mathlib.SetTheory.Cardinal.Finite
import Nucleus.Kernel.Boot
import Nucleus.Kernel.Runs

/-! The process counter. `createProcess` counts in and `scheduler(0)` counts out, but
`main` does not count the process that it creates itself. -/
namespace Nucleus

open Linked Semantics

variable {MAXPROC : ℕ}

/-- The first process runs, as if `LDST` had returned and the scheduler had dispatched
the process. -/
def mainDispatch (sym : Symbols) (k : Kernel (Fin MAXPROC) (Fin (MAXPROC + 1))) :
    Outcome (Kernel (Fin MAXPROC) (Fin (MAXPROC + 1))) := do
  let (k, process0) ← mainBoot sym k
  let k ← mainQueue k process0
  dispatch k

/-- The scheduler is entered with `control` 0 only when some process is ready. -/
def dispatchSystem (P D : Type) [DecidableEq P] : System (Kernel P D) KernelCall Unit :=
  (kernelSystem P D).restrict fun k call =>
    match call with
    | .scheduler 0 => k.readyQueue ≠ none
    | _ => True

namespace Kernel

variable {P D : Type} [Fintype P] {k k' : Kernel P D} {c : P} {free ready : List P}

/-- The counter is the number of blocks that are not free. -/
def CountsProcesses (k : Kernel P D) : Prop :=
  k.processCount = Nat.card {p // k.Allocated p}

/-- Every block runs, is ready or is free, and the counter counts the ready ones. -/
structure CountsReady (k : Kernel P D) (c : P) (free ready : List P) : Prop where
  view : k.View c free ready
  total : ready.length + free.length + 1 = Fintype.card P
  count : k.processCount = ready.length

/-- The running process is not counted. -/
theorem CountsReady.card (h : k.CountsReady c free ready) :
    Nat.card {p // k.Allocated p} = k.processCount + 1 := by
  classical
  have hFree : free.Nodup := (List.nodup_append.mp (List.nodup_cons.mp h.view.nodup).2).2.1
  have hCard : Nat.card {p // k.Allocated p} = Fintype.card P - free.length := by
    rw [Nat.card_congr (Equiv.subtypeEquivRight fun p => h.view.allocated_iff),
      Nat.card_eq_fintype_card, ← List.toFinset_card_of_nodup hFree, ← Finset.card_compl,
      Fintype.card_subtype]
    congr 1
    ext p
    simp
  have hTotal := h.total
  rw [hCard, h.count]
  omega

variable [DecidableEq P]

theorem CountsReady.step (h : k.CountsReady c free ready) {call : KernelCall}
    (legal : (kernelSystem P D).Legal k call) (hExec : kernelExec k call = .ok (k', ())) :
    ∃ c' free' ready', k'.CountsReady c' free' ready' := by
  obtain ⟨hView, hTotal, hCount⟩ := h
  cases call with
  | createProcess proc_state =>
      rcases hView.create_ok (exec_createProcess.mp hExec) with ⟨-, hSame, hView'⟩ | hCreated
      · exact ⟨c, free, ready, hView', hTotal, hSame.trans hCount⟩
      · obtain ⟨n, spare, pcb, next, rfl, -, -, hMore, hView'⟩ := hCreated
        refine ⟨c, spare, ready ++ [n], hView', ?_, ?_⟩
        · simp only [List.length_cons, List.length_append, List.length_nil] at hTotal ⊢
          omega
        · simp [hMore, hCount]
  | scheduler control =>
      rw [exec_scheduler] at hExec
      rcases legal with rfl | rfl
      · obtain ⟨x, rest, next, rfl, -, hLess, hView'⟩ := hView.finish_ok hExec
        refine ⟨x, c :: free, rest, hView', ?_, ?_⟩
        · simp only [List.length_cons] at hTotal ⊢
          omega
        · simp [hLess, hCount]
      · obtain ⟨x, rest, next, hNext, -, hSame, hView'⟩ := hView.slice_ok hExec
        have hLength : ready.length = rest.length := by simpa using congrArg List.length hNext
        exact ⟨x, free, rest, hView', by omega, by rw [hSame, hCount, hLength]⟩

/-- `main` creates a process and leaves the counter at 0. -/
theorem mainDispatch_counts (sym : Symbols) (hSize : 0 < MAXPROC)
    (k₀ : Kernel (Fin MAXPROC) (Fin (MAXPROC + 1))) :
    ∃ start c free, mainDispatch sym k₀ = .ok start ∧ start.CountsReady c free [] ∧
      start.pcb.p_s c ≠ 0 := by
  obtain ⟨k, p, free, hBoot, hBooted⟩ := mainBoot_booted sym hSize k₀
  have hNodup : (p :: free).Nodup := hBooted.all ▸ List.nodup_finRange MAXPROC
  have hNone : Ring k.pcb.p_next mkEmptyProcQ [] := rfl
  obtain ⟨next, hInsert, hRing, hKeep⟩ := insertProcQ_append hNone (List.not_mem_nil : p ∉ [])
  let pcb : PcbTable (Fin MAXPROC) := { k.pcb with p_next := next }
  have hRing' : Ring pcb.p_next (some p) [p] := hRing
  obtain ⟨next', tail, hRemove, hEmpty, hKeep'⟩ := removeProcQ_head hRing'
  refine ⟨{ k with
    pcb := { pcb with p_next := next' }, readyQueue := tail, currentProcess := some p },
    p, free, ?_, ⟨⟨rfl, ?_, hEmpty, hNodup⟩, ?_, hBooted.count⟩, hBooted.saved⟩
  · simp only [mainDispatch, hBoot, Outcome.ok_bind, mainQueue, hInsert, Outcome.pure_eq, dispatch]
    change removeProcQ pcb (some p) >>= _ = _
    rw [hRemove]
    rfl
  · refine hBooted.spare.congr fun q hq => (hKeep' q List.not_mem_nil).trans (hKeep q ?_)
    simpa using ne_of_mem_of_not_mem hq (List.nodup_cons.mp hNodup).1
  · have hLength := congrArg List.length hBooted.all
    simp only [List.length_finRange, List.length_cons] at hLength
    simp [hLength]

theorem CountsReady.run (h : k.CountsReady c free ready) {trace : List (KernelCall × Unit)}
    (run : (dispatchSystem P D).Run k trace k') :
    ∃ c' free' ready', k'.CountsReady c' free' ready' := by
  refine run.of_restrict.invariant (fun s => ∃ c free ready, s.CountsReady c free ready)
    (fun s call t reply hs legal hExec => ?_) ⟨c, free, ready, h⟩
  obtain ⟨c, free, ready, hs⟩ := hs
  exact hs.step legal hExec

/-- In every state of every run from `main` the counter is one less than the number of
blocks in use. -/
theorem count_one_short {sym : Symbols} {k₀ start k : Kernel (Fin MAXPROC) (Fin (MAXPROC + 1))}
    (hStart : mainDispatch sym k₀ = .ok start) {trace : List (KernelCall × Unit)}
    (run : (dispatchSystem _ _).Run start trace k) :
    ¬ k.CountsProcesses ∧ (Nat.card {p // k.Allocated p} : ℤ) = k.processCount + 1 := by
  have hSize : 0 < MAXPROC := by
    by_contra hZero
    have hNone : MAXPROC = 0 := by omega
    subst hNone
    cases hStart
  obtain ⟨start', c, free, hStart', hCounts, -⟩ := mainDispatch_counts sym hSize k₀
  cases hStart'.symm.trans hStart
  obtain ⟨c', free', ready', hCounts'⟩ := hCounts.run run
  have hCard := hCounts'.card
  refine ⟨fun hEqual => ?_, hCard⟩
  rw [CountsProcesses] at hEqual
  omega

/-- One process is created after the first one. -/
theorem count_one_short_two : ∃ start k : Kernel (Fin 20) (Fin 21),
    mainDispatch ⟨0, 0, 0, 0, 0, 0x8000⟩ (.zero (Fin 20) (Fin 21)) = .ok start ∧
      (dispatchSystem _ _).Run start [(.createProcess 0, ())] k ∧
      (Nat.card {p // k.Allocated p} : ℤ) = k.processCount + 1 := by
  obtain ⟨start, c, free, hStart, hCounts, hSaved⟩ :=
    mainDispatch_counts ⟨0, 0, 0, 0, 0, 0x8000⟩ (by decide : 0 < 20) (.zero _ _)
  have hFree : free.length = 19 := by simpa using hCounts.total
  cases free with
  | nil => cases hFree
  | cons n free =>
      obtain ⟨pcb, next, -, hCreate, -⟩ := hCounts.view.create hSaved 0
      have run : (dispatchSystem _ _).Run start [(.createProcess 0, ())] _ :=
        .cons ⟨trivial, trivial⟩ (exec_createProcess.mpr hCreate) (.nil _)
      exact ⟨start, _, hStart, run, (count_one_short hStart run).2⟩

/-- The first process runs, and nothing is counted. -/
theorem first_process_not_counted : ∃ start : Kernel (Fin 20) (Fin 21),
    mainDispatch ⟨0, 0, 0, 0, 0, 0x8000⟩ (.zero (Fin 20) (Fin 21)) = .ok start ∧
      start.processCount = 0 ∧ (∃ p, start.Allocated p) ∧ ¬ start.CountsProcesses := by
  obtain ⟨start, c, free, hStart, hCounts, -⟩ :=
    mainDispatch_counts ⟨0, 0, 0, 0, 0, 0x8000⟩ (by decide : 0 < 20) (.zero _ _)
  refine ⟨start, hStart, hCounts.count, ⟨c, ?_⟩, fun hEqual => ?_⟩
  · exact hCounts.view.allocated_iff.mpr hCounts.view.not_mem_free
  · have hCard := hCounts.card
    rw [CountsProcesses] at hEqual
    omega

end Kernel

end Nucleus
