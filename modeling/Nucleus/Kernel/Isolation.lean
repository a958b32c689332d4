import Nucleus.Kernel.Preemption
import Nucleus.Semantics.System

/-! What a process finds when it runs again. Its state was saved over the blocks behind its
own, and the processes that ran since have saved theirs in the same way. -/
namespace Nucleus.Flat

open Function (update)
open Linked Semantics

/-- The machine, and for each process the state with which it was last preempted. -/
structure Observed extends Machine where
  saved : Word → Option (ℕ → Word)

/-- The registers at the last call of a run that preempted a process. -/
def lastSaved (trace : List ((ℕ → Word) × Switch)) : Word → Option (ℕ → Word) :=
  trace.foldl (fun saved entry => update saved entry.2.preempted (some entry.1)) fun _ => none

def switchExec (L : Layout) (s : Observed) (regs : ℕ → Word) : Outcome (Observed × Switch) := do
  let (m, r) ← scheduler L.words s.toMachine regs 1
  return ({ m with saved := update s.saved r.preempted (some regs) }, r)

/-- Calls `scheduler(1)`, each with the registers of the running process, while the ready
queue is not empty. -/
def switchSystem (L : Layout) : System Observed (ℕ → Word) Switch where
  Legal s _ := s.readyQueue ≠ 0
  exec := switchExec L

/-- Nothing that the call writes to a link or to a saved state changes it: the words that
`STST` puts there are there already, and no saved state holds the `p_next` of the running
process or of the last ready one. -/
structure Quiet (L : Layout) (s : Observed) (regs : ℕ → Word) : Prop where
  links : ∀ q, L.InTable q → ∀ a ∈ linkFields q, ∀ i < L.words,
    element (p_s s.currentProcess) i = a → regs i = s.mem a
  areas : ∀ q, q ≠ s.currentProcess → s.saved q ≠ none → ∀ i < L.words, ∀ j < L.words,
    element (p_s s.currentProcess) i = element (p_s q) j → regs i = s.mem (element (p_s q) j)
  queue : ∀ q, q = s.currentProcess ∨ s.saved q ≠ none → ∀ j < L.words,
    element (p_s q) j ≠ s.currentProcess ∧ element (p_s q) j ≠ s.readyQueue

/-- One more call after a run with the given trace: its saving leaves all links, and the
process that goes on gets the state that was saved when it was last preempted. -/
structure Isolated (L : Layout) (trace : List ((ℕ → Word) × Switch)) (s : Observed)
    (regs : ℕ → Word) : Prop where
  links : ∀ q, L.InTable q → ∀ a ∈ linkFields q,
    STST L.words s.mem (p_s s.currentProcess) regs a = s.mem a
  resumes : ∃ t r, (switchSystem L).exec s regs = .ok (t, r) ∧
    ∀ st, lastSaved trace r.dispatched = some st → ∀ i < L.words, r.loaded i = st i

/-- The saved state of every process is in its save area. -/
def Kept (L : Layout) (s : Observed) : Prop :=
  ∀ q st, s.saved q = some st → ∀ i < L.words, s.mem (element (p_s q) i) = st i

/-- What a call leaves with which `c` stops and `x` goes on, the head of the queue. -/
structure Switched (L : Layout) (s : Observed) (c x : Word) (rest : List Word) (regs : ℕ → Word)
    (t : Observed) (r : Switch) : Prop where
  preempted : r.preempted = c
  dispatched : r.dispatched = x
  loaded : r.loaded = LDST t.mem (p_s x)
  saved : t.saved = update s.saved c (some regs)
  processes : Processes L t.toMachine x (rest ++ [c])
  kept : Kept L t
  head : link t.mem x = (rest ++ [c]).head?
  frame : ∀ a, a ≠ c → a ≠ s.readyQueue → t.mem a = STST L.words s.mem (p_s c) regs a

section Switch

variable {L : Layout} {m : Machine} {s : Observed} {c x : Word} {ready rest : List Word}
  {regs : ℕ → Word}

/-- Both links that the queue functions write change, that of the running process at least
if it led to the head. -/
theorem Processes.links_change {m' : Machine} (h : Processes L m c (x :: rest))
    (hNext : Processes L m' x (rest ++ [c])) (hLast : m'.mem m.readyQueue = c) :
    m'.mem m.readyQueue ≠ m.mem m.readyQueue ∧
      (link m.mem c = some x → m'.mem c ≠ m.mem c) := by
  refine ⟨fun hEq => ?_, fun hHead hEq => ?_⟩
  · have hRing := h.ring
    rw [ptr_some h.tail.1] at hRing
    obtain ⟨hFirst, -⟩ := ptr_eq_some hRing.next_tail
    have hxc : c = x := hLast.symm.trans (hEq.trans hFirst)
    exact h.apart (hxc ▸ List.mem_cons_self ..)
  · have hRing := hNext.ring
    have hTail : ptr m'.readyQueue = some c := by simp [hRing.tail_eq]
    rw [hTail] at hRing
    have hFirst : link m'.mem c = some x := (congrArg ptr hEq).trans hHead
    exact hNext.apart (List.mem_of_head? (hRing.next_tail.symm.trans hFirst))

/-- A quiet call saves the running process without a change of any link. -/
theorem Quiet.saves (h : Quiet L s regs) {q a : Word} (hq : L.InTable q) (ha : a ∈ linkFields q) :
    STST L.words s.mem (p_s s.currentProcess) regs a = s.mem a :=
  storeAll_same (h.links q hq a ha)

/-- After a quiet call all saved states are where they were saved. -/
theorem Quiet.kept {m : Machine} (h : Quiet L s regs) (hKept : Kept L s)
    (hFrame : ∀ a, a ≠ s.currentProcess → a ≠ s.readyQueue →
      m.mem a = STST L.words s.mem (p_s s.currentProcess) regs a) :
    Kept L { m with saved := update s.saved s.currentProcess (some regs) } := by
  intro q st hSaved i hi
  change update s.saved s.currentProcess (some regs) q = some st at hSaved
  by_cases hq : q = s.currentProcess
  · rw [hq, Function.update_self] at hSaved
    cases hSaved
    obtain ⟨hCurrent, hTail⟩ := h.queue q (.inl hq) i hi
    calc m.mem (element (p_s q) i)
        = STST L.words s.mem (p_s s.currentProcess) regs (element (p_s q) i) :=
          hFrame _ hCurrent hTail
      _ = regs i := by
          rw [hq]
          exact L.STST_element hi
  · rw [Function.update_of_ne hq] at hSaved
    have hSome : s.saved q ≠ none := by simp [hSaved]
    obtain ⟨hCurrent, hTail⟩ := h.queue q (.inr hSome) i hi
    calc m.mem (element (p_s q) i)
        = STST L.words s.mem (p_s s.currentProcess) regs (element (p_s q) i) :=
          hFrame _ hCurrent hTail
      _ = s.mem (element (p_s q) i) :=
          storeAll_same fun j hj hEq => h.areas q hq hSome j hj i hi hEq
      _ = st i := hKept q st hSaved i hi

/-- A quiet call keeps the processes and their states. -/
theorem Quiet.switch (h : Quiet L s regs) (hProcesses : Processes L s.toMachine c (x :: rest))
    (hKept : Kept L s) :
    ∃ t r, switchExec L s regs = .ok (t, r) ∧ Switched L s c x rest regs t r := by
  have hCurrent := hProcesses.current
  have hLinks (q : Word) (hq : q ∈ x :: rest) :
      STST L.words s.mem (p_s c) regs q = s.mem q := by
    rw [← hCurrent]
    exact h.saves (hProcesses.inTable q (List.mem_cons_of_mem _ hq)) (List.mem_cons_self ..)
  obtain ⟨m, hExec, -, hNext, hHead, -, hFrame⟩ := hProcesses.switch hLinks
  refine ⟨{ m with saved := update s.saved c (some regs) }, ⟨c, x, LDST m.mem (p_s x)⟩, ?_,
    rfl, rfl, rfl, rfl, hNext, ?_, hHead, hFrame⟩
  · simp only [switchExec, hExec, Outcome.ok_bind, Outcome.pure_eq]
  · rw [← hCurrent] at hFrame ⊢
    exact h.kept hKept hFrame

/-- Conversely, a call that saves without a change of a link, and that leaves all saved
states where they were saved, is quiet. -/
theorem Processes.quiet (h : Processes L s.toMachine c (x :: rest)) (hKept : Kept L s)
    (hHead : link s.mem c = some x ∨ s.saved = fun _ => none)
    (hLinks : ∀ q, L.InTable q → ∀ a ∈ linkFields q,
      STST L.words s.mem (p_s s.currentProcess) regs a = s.mem a)
    (hAfter : ∀ t r, switchExec L s regs = .ok (t, r) → Kept L t) : Quiet L s regs := by
  have hCurrent := h.current
  rw [hCurrent] at hLinks
  obtain ⟨m, hExec, -, hNext, -, hLast, hFrame⟩ := h.switch fun q hq =>
    hLinks q (h.inTable q (List.mem_cons_of_mem _ hq)) q (List.mem_cons_self ..)
  have hKept' : Kept L { m with saved := update s.saved c (some regs) } :=
    hAfter _ ⟨c, x, LDST m.mem (p_s x)⟩
      (by simp only [switchExec, hExec, Outcome.ok_bind, Outcome.pure_eq])
  have hOther (q : Word) (hq : q ≠ c) (hSome : s.saved q ≠ none) (j : ℕ) (hj : j < L.words) :
      m.mem (element (p_s q) j) = s.mem (element (p_s q) j) := by
    obtain ⟨st, hSaved⟩ := Option.ne_none_iff_exists'.mp hSome
    rw [hKept q st hSaved j hj]
    exact hKept' q st (by simp [Function.update_of_ne hq, hSaved]) j hj
  have hOwn (j : ℕ) (hj : j < L.words) : m.mem (element (p_s c) j) = regs j :=
    hKept' c regs (Function.update_self ..) j hj
  obtain ⟨hTailLink, hCurrentLink⟩ := h.links_change hNext hLast
  -- a link in a save area has to keep its value in the whole call
  have hSame (q : Word) (hq : q = c ∨ s.saved q ≠ none) (j : ℕ) (hj : j < L.words) (p : Word)
      (hp : p ∈ c :: x :: rest) (hEq : element (p_s q) j = p) : m.mem p = s.mem p := by
    by_cases hqc : q = c
    · subst hqc
      rw [← hLinks p (h.inTable p hp) p (List.mem_cons_self ..), ← hEq, L.STST_element hj,
        hOwn j hj]
    · rw [← hEq]
      exact hOther q hqc (hq.resolve_left hqc) j hj
  have hQueue (q : Word) (hq : q = c ∨ s.saved q ≠ none) (j : ℕ) (hj : j < L.words) :
      element (p_s q) j ≠ c ∧ element (p_s q) j ≠ s.readyQueue := by
    refine ⟨fun hEq => ?_, fun hEq => ?_⟩
    · rcases hHead with hHead | hNone
      · exact hCurrentLink hHead (hSame q hq j hj c (List.mem_cons_self ..) hEq)
      · obtain rfl : q = c := hq.resolve_right fun hSome => hSome (congrFun hNone q)
        exact L.element_ne hj hEq
    · exact hTailLink (hSame q hq j hj _ (List.mem_cons_of_mem _ h.tail.2) hEq)
  refine ⟨fun q hq a ha i hi hEq => ?_, fun q hq hSome i hi j hj hEq => ?_, fun q hq j hj => ?_⟩
  · rw [hCurrent] at hEq
    rw [← hLinks q hq a ha, ← hEq, L.STST_element hi]
  · rw [hCurrent] at hq hEq
    obtain ⟨hNotCurrent, hNotTail⟩ := hQueue q (.inr hSome) j hj
    rw [← hOther q hq hSome j hj, hFrame _ hNotCurrent hNotTail, ← hEq, L.STST_element hi]
  · rw [hCurrent] at hq ⊢
    exact hQueue q hq j hj

end Switch

section Runs

variable {L : Layout} {start s : Observed} {c : Word} {ready : List Word} {regs : ℕ → Word}
  {trace : List ((ℕ → Word) × Switch)}

/-- What holds after every run of quiet calls. After the first call the running process still
links to the head of the queue that it has left. -/
theorem quiet_run (hStart : Processes L start.toMachine c ready)
    (hFresh : start.saved = fun _ => none)
    (run : ((switchSystem L).restrict (Quiet L)).Run start trace s) :
    (∃ c ready, Processes L s.toMachine c ready ∧
      (link s.mem c = ready.head? ∨ s.saved = fun _ => none)) ∧
    Kept L s ∧ s.saved = lastSaved trace := by
  refine run.history (fun s saved => (∃ c ready, Processes L s.toMachine c ready ∧
    (link s.mem c = ready.head? ∨ s.saved = fun _ => none)) ∧ Kept L s ∧ s.saved = saved) _ ?_
    ⟨⟨c, ready, hStart, .inr hFresh⟩, ?_, hFresh⟩
  · rintro s regs t r saved ⟨⟨c, ready, hProcesses, -⟩, hKept, rfl⟩ legal hExec
    obtain ⟨hReady, hQuiet⟩ := legal
    obtain ⟨x, rest, rfl⟩ := hProcesses.exists_ready hReady
    obtain ⟨t', r', hExec', hSwitch⟩ := hQuiet.switch hProcesses hKept
    cases hExec.symm.trans hExec'
    refine ⟨⟨x, _, hSwitch.processes, .inl hSwitch.head⟩, hSwitch.kept, ?_⟩
    rw [hSwitch.saved, ← hSwitch.preempted]
  · intro q st hSaved
    rw [hFresh] at hSaved
    cases hSaved

/-- A further call is quiet exactly when its saving leaves all links and all saved states
are where they were saved when it returns. -/
theorem quiet_iff_kept (hStart : Processes L start.toMachine c ready)
    (hFresh : start.saved = fun _ => none)
    (run : ((switchSystem L).restrict (Quiet L)).Run start trace s) (hReady : s.readyQueue ≠ 0) :
    Quiet L s regs ↔
      (∀ q, L.InTable q → ∀ a ∈ linkFields q,
        STST L.words s.mem (p_s s.currentProcess) regs a = s.mem a) ∧
      ∀ t r, switchExec L s regs = .ok (t, r) → Kept L t := by
  obtain ⟨⟨c, ready, hProcesses, hHead⟩, hKept, -⟩ := quiet_run hStart hFresh run
  obtain ⟨x, rest, rfl⟩ := hProcesses.exists_ready hReady
  constructor
  · intro hQuiet
    refine ⟨fun q hq a ha => hQuiet.saves hq ha, fun t r hExec => ?_⟩
    obtain ⟨t', r', hExec', hSwitch⟩ := hQuiet.switch hProcesses hKept
    cases hExec.symm.trans hExec'
    exact hSwitch.kept
  · intro h
    exact hProcesses.quiet hKept hHead h.1 h.2

/-- In every run of quiet calls, whatever processes of the table take part. -/
theorem switches_isolated (hStart : Processes L start.toMachine c ready)
    (hFresh : start.saved = fun _ => none)
    (run : ((switchSystem L).restrict (Quiet L)).Run start trace s)
    (legal : ((switchSystem L).restrict (Quiet L)).Legal s regs) : Isolated L trace s regs := by
  obtain ⟨hReady, hQuiet⟩ := legal
  obtain ⟨⟨c, ready, hProcesses, -⟩, hKept, hSaved⟩ := quiet_run hStart hFresh run
  obtain ⟨x, rest, rfl⟩ := hProcesses.exists_ready hReady
  obtain ⟨t, r, hExec, hSwitch⟩ := hQuiet.switch hProcesses hKept
  refine ⟨fun q hq a ha => hQuiet.saves hq ha, t, r, hExec, fun st hLast i hi => ?_⟩
  have hxc : x ≠ c := fun hEq => hProcesses.apart (hEq ▸ List.mem_cons_self ..)
  rw [hSwitch.dispatched, ← hSaved] at hLast
  have hStill : t.saved x = some st := by rw [hSwitch.saved, Function.update_of_ne hxc, hLast]
  rw [hSwitch.loaded]
  exact hSwitch.kept x st hStill i hi

end Runs

section Overlap

/-- `c` runs and `x` is ready, and no state has been saved. -/
def twoProcesses (c x : Word) : Observed where
  toMachine := running c x
  saved _ := none

/-- The registers at a call of `STST` for the block at `p`, which has its argument in `a1`. -/
def argument (p : Word) (i : ℕ) : Word := if i = 0 then p_s p else 0

/-- The first and the last block of the table are far apart. The save area of the last one
is behind the table, but for its own `p_semAdd`. -/
theorem firstLast_apart : ∀ i < 17,
    element (p_s (ramBase.block 0)) i ∉ [ramBase.block 0, ramBase.block 19] ∧
    element (p_s (ramBase.block 19)) i ∉ [ramBase.block 0, ramBase.block 19] ∧
    ∀ j < 17, element (p_s (ramBase.block 19)) j ≠ element (p_s (ramBase.block 0)) i := by
  decide +kernel

/-- Where a state of zeros, but for the argument, is saved over zeros, all links stay. -/
theorem argument_links {s : Observed} {n : ℕ} (hn : n = 0 ∨ n = 19)
    (hCurrent : s.currentProcess = ramBase.block n)
    (hZero : ∀ i < 17, s.mem (element (p_s (ramBase.block n)) i) = 0) {q a : Word}
    (hq : ramBase.InTable q) (ha : a ∈ linkFields q) {i : ℕ} (hi : i < 17)
    (hEq : element (p_s s.currentProcess) i = a) : argument s.currentProcess i = s.mem a := by
  have hOwn : ∀ m < 20, element (p_s (ramBase.block 0)) 0 ∉ linkFields (ramBase.block m) ∧
      element (p_s (ramBase.block 19)) 0 ∉ linkFields (ramBase.block m) := by
    decide +kernel
  obtain ⟨m, hm, rfl⟩ := hq
  rw [hCurrent] at hEq ⊢
  rw [← hEq, hZero i hi]
  cases i with
  | zero =>
      rw [← hEq] at ha
      rcases hn with rfl | rfl
      · exact absurd ha (hOwn m hm).1
      · exact absurd ha (hOwn m hm).2
  | succ i => rfl

theorem last_quiet : Quiet ramBase (twoProcesses (ramBase.block 19) (ramBase.block 0))
    (argument (ramBase.block 19)) := by
  have hZero : ∀ i < 17, (twoProcesses (ramBase.block 19) (ramBase.block 0)).mem
      (element (p_s (ramBase.block 19)) i) = 0 :=
    fun i hi => if_neg (List.ne_of_not_mem_cons (firstLast_apart i hi).2.1)
  refine ⟨fun q hq a ha i hi hEq => argument_links (.inr rfl) rfl hZero hq ha hi hEq,
    fun q _ hSome => absurd rfl hSome, fun q hq j hj => ?_⟩
  obtain rfl : q = ramBase.block 19 := hq.resolve_right fun hSome => hSome rfl
  have hApart := (firstLast_apart j hj).2.1
  simp only [List.mem_cons, List.not_mem_nil, or_false, not_or] at hApart
  exact hApart.symm

theorem first_quiet {s : Observed} (hCurrent : s.currentProcess = ramBase.block 0)
    (hTail : s.readyQueue = ramBase.block 19)
    (hZero : ∀ i < 17, s.mem (element (p_s (ramBase.block 0)) i) = 0)
    (hSaved : ∀ q, s.saved q ≠ none → q = ramBase.block 19) :
    Quiet ramBase s (argument (ramBase.block 0)) := by
  refine ⟨fun q hq a ha i hi hEq => ?_, fun q _ hSome i hi j hj hEq => ?_, fun q hq j hj => ?_⟩
  · rw [← hCurrent]
    exact argument_links (.inl rfl) hCurrent hZero hq ha hi hEq
  · rw [hSaved q hSome, hCurrent] at hEq
    exact absurd hEq.symm ((firstLast_apart i hi).2.2 j hj)
  · have hApart := firstLast_apart j hj
    simp only [List.mem_cons, List.not_mem_nil, or_false, not_or] at hApart
    rw [hCurrent, hTail]
    rcases hq with hq | hSome
    · rw [hq, hCurrent]
      exact hApart.1
    · rw [hSaved q hSome]
      exact hApart.2.1

/-- The save of the last process of the table. -/
theorem quiet_iff_kept_two : ∃ t r,
    switchExec ramBase (twoProcesses (ramBase.block 19) (ramBase.block 0))
      (argument (ramBase.block 19)) = .ok (t, r) ∧ Kept ramBase t := by
  have hProcesses := running_processes (L := ramBase) ⟨19, by decide, rfl⟩ ⟨0, by decide, rfl⟩
    (by decide : ramBase.block 19 ≠ ramBase.block 0)
  obtain ⟨t, r, hExec, -⟩ := last_quiet.switch hProcesses fun q st hSome => by cases hSome
  have hReady : (twoProcesses (ramBase.block 19) (ramBase.block 0)).readyQueue ≠ 0 := by decide
  exact ⟨t, r, hExec, ((quiet_iff_kept hProcesses rfl (.nil _) hReady).mp last_quiet).2 t r hExec⟩

/-- The last and the first process of the table take turns, and each gets its state back. -/
theorem switches_isolated_two : ∃ s r, ((switchSystem ramBase).restrict (Quiet ramBase)).Run
      (twoProcesses (ramBase.block 19) (ramBase.block 0)) [(argument (ramBase.block 19), r)] s ∧
    r.preempted = ramBase.block 19 ∧
    Isolated ramBase [(argument (ramBase.block 19), r)] s (argument (ramBase.block 0)) := by
  have hProcesses := running_processes (L := ramBase) ⟨19, by decide, rfl⟩ ⟨0, by decide, rfl⟩
    (by decide : ramBase.block 19 ≠ ramBase.block 0)
  obtain ⟨t, r, hExec, hSwitch⟩ :=
    last_quiet.switch hProcesses fun q st hSome => by cases hSome
  have hTail : t.readyQueue = ramBase.block 19 := (ptr_eq_some hSwitch.processes.ring.tail_eq).1
  have hQuiet : Quiet ramBase t (argument (ramBase.block 0)) := by
    refine first_quiet hSwitch.processes.current hTail (fun i hi => ?_) fun q hSome => ?_
    · obtain ⟨hFirst, -, hApart⟩ := firstLast_apart i hi
      simp only [List.mem_cons, List.not_mem_nil, or_false, not_or] at hFirst
      calc t.mem (element (p_s (ramBase.block 0)) i)
          = STST 17 (twoProcesses (ramBase.block 19) (ramBase.block 0)).mem
              (p_s (ramBase.block 19)) (argument (ramBase.block 19))
              (element (p_s (ramBase.block 0)) i) := hSwitch.frame _ hFirst.2 hFirst.1
        _ = (twoProcesses (ramBase.block 19) (ramBase.block 0)).mem
              (element (p_s (ramBase.block 0)) i) :=
            storeAll_same fun j hj hEq => absurd hEq (hApart j hj)
        _ = 0 := if_neg hFirst.1
    · by_contra hq
      rw [hSwitch.saved, Function.update_of_ne hq] at hSome
      exact hSome rfl
  have hReady : (twoProcesses (ramBase.block 19) (ramBase.block 0)).readyQueue ≠ 0 := by decide
  have hRun : ((switchSystem ramBase).restrict (Quiet ramBase)).Run
      (twoProcesses (ramBase.block 19) (ramBase.block 0)) [(argument (ramBase.block 19), r)] t :=
    .cons ⟨hReady, last_quiet⟩ hExec (.nil t)
  have hReady' : t.readyQueue ≠ 0 := by
    rw [hTail]
    decide
  exact ⟨t, r, hRun, hSwitch.preempted, switches_isolated hProcesses rfl hRun ⟨hReady', hQuiet⟩⟩

/-- Blocks 0 and 1 run in turn. The `p_s` of block 1 lies on the register `v3` of block 0, so
block 0 goes on with the argument of the call that saved block 1. -/
theorem neighbours_switch : ∃ s r t r',
    switchExec ramBase (twoProcesses (ramBase.block 0) (ramBase.block 1))
      (update (argument (ramBase.block 0)) 2 (ramBase.block 1)) = .ok (s, r) ∧
    switchExec ramBase s (argument (ramBase.block 1)) = .ok (t, r') ∧
    s.readyQueue = ramBase.block 0 ∧ r'.dispatched = r.preempted ∧
    r'.loaded 6 = p_s (ramBase.block 1) := by
  have hRun : (do
      let (s, r) ← switchExec ramBase (twoProcesses (ramBase.block 0) (ramBase.block 1))
        (update (argument (ramBase.block 0)) 2 (ramBase.block 1))
      let (_, r') ← switchExec ramBase s (argument (ramBase.block 1))
      return (s.readyQueue, r.preempted, r'.dispatched, r'.loaded 6)) =
      .ok (ramBase.block 0, ramBase.block 0, ramBase.block 0, p_s (ramBase.block 1)) := by
    decide +kernel
  obtain ⟨⟨s, r⟩, hFirst, hRest⟩ := Outcome.bind_eq_ok.mp hRun
  obtain ⟨⟨t, r'⟩, hSecond, hEq⟩ := Outcome.bind_eq_ok.mp hRest
  simp only [Outcome.pure_eq, Except.ok.injEq, Prod.mk.injEq] at hEq
  obtain ⟨hReady, hFrom, hTo, hLoaded⟩ := hEq
  exact ⟨s, r, t, r', hFirst, hSecond, hReady, hTo.trans hFrom.symm, hLoaded⟩

/-- Block 0 is not resumed with its state, and `a2` goes to its `p_semAdd`. -/
theorem switches_not_isolated :
    Processes ramBase (twoProcesses (ramBase.block 0) (ramBase.block 1)).toMachine
        (ramBase.block 0) [ramBase.block 1] ∧
      (∃ s r, (switchSystem ramBase).Run (twoProcesses (ramBase.block 0) (ramBase.block 1))
          [(update (argument (ramBase.block 0)) 2 (ramBase.block 1), r)] s ∧
        (switchSystem ramBase).Legal s (argument (ramBase.block 1)) ∧
        ¬ Isolated ramBase [(update (argument (ramBase.block 0)) 2 (ramBase.block 1), r)] s
          (argument (ramBase.block 1))) ∧
      ¬ Isolated ramBase [] (twoProcesses (ramBase.block 0) (ramBase.block 1))
        (update (argument (ramBase.block 0)) 1 1) := by
  refine ⟨?_, ?_, fun hIsolated => ?_⟩
  · exact running_processes ⟨0, by decide, rfl⟩ ⟨1, by decide, rfl⟩ (by decide)
  · obtain ⟨s, r, t, r', hFirst, hSecond, hReady, hAgain, hLoaded⟩ := neighbours_switch
    have hSome : (twoProcesses (ramBase.block 0) (ramBase.block 1)).readyQueue ≠ 0 := by decide
    have hSome' : s.readyQueue ≠ 0 := by
      rw [hReady]
      decide
    refine ⟨s, r, .cons hSome hFirst (.nil s), hSome', fun hIsolated => ?_⟩
    obtain ⟨t', r'', hExec, hResumes⟩ := hIsolated.resumes
    cases hSecond.symm.trans hExec
    have hLast : lastSaved [(update (argument (ramBase.block 0)) 2 (ramBase.block 1), r)]
        r'.dispatched = some (update (argument (ramBase.block 0)) 2 (ramBase.block 1)) := by
      simp [lastSaved, hAgain]
    have hSame := hResumes _ hLast 6 (by decide)
    rw [hLoaded] at hSame
    exact absurd hSame (by decide)
  · have hSame := hIsolated.links (ramBase.block 0) ⟨0, by decide, rfl⟩ (ramBase.block 0 + 20)
      (by decide)
    exact absurd hSame (by decide +kernel)

end Overlap

end Nucleus.Flat
