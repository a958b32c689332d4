import Nucleus.Asl.Init
import Nucleus.Asl.Runs

/-! Safety of the active semaphore list over whole runs: the shape of the lists,
the calls that fail, and the number of descriptors. -/
namespace Nucleus

open Function (update)
open Linked Semantics

variable {P D : Type}

namespace Memory

/-- The shape of the lists in the terms of the table: the active list from the
dummy on, the queues under it, and the free descriptors. -/
structure WellFormed (s : Memory P D) (dummy : D) (active free : List D) : Prop where
  head : s.semd_h = some dummy
  chain : Chain s.semd.s_next (s.semd.s_next dummy) active
  increasing : (dummy :: active).Pairwise fun d e => s.semd.s_semAdd d < s.semd.s_semAdd e
  queue : ∀ d ∈ active, ∃ l, l ≠ [] ∧ Ring s.pcb.p_next (s.semd.s_procQ d) l
  spare : Chain s.semd.s_next s.semdFree_h free
  nodup : (active ++ free).Nodup
  mem_iff : ∀ d, d ∈ active ++ free ↔ d ≠ dummy

variable {s : Memory P D} {dummy : D} {m : Addr → List P}

/-- The dummy comes before the active descriptors as long as nobody waits for NULL. -/
theorem Sound.wellFormed_iff (h : s.Sound dummy m) :
    (∃ active free, s.WellFormed dummy active free) ↔ m 0 = [] := by
  obtain ⟨active, free, hRep⟩ := h.rep
  constructor
  · intro hShape
    obtain ⟨active', free', hWell⟩ := hShape
    have hActive : active' = active := hWell.chain.unique hRep.pool.inUse.2
    subst hActive
    by_contra hNull
    obtain ⟨d, hd, hKey⟩ := (hRep.directory.entry 0).mp hNull
    have hAbove := (List.pairwise_cons.mp hWell.increasing).1 d hd
    rw [hKey] at hAbove
    exact Nat.not_lt_zero _ hAbove
  · intro hNull
    have hNodup := hRep.pool.nodup
    rw [List.cons_append, List.nodup_cons] at hNodup
    refine ⟨active, free, hRep.head, hRep.pool.inUse.2, ?_, ?_, hRep.pool.spare, hNodup.2, ?_⟩
    · refine List.pairwise_cons.mpr ⟨fun d hd => ?_, hRep.directory.sorted⟩
      rw [h.base]
      apply Nat.pos_of_ne_zero
      intro hKey
      exact (hRep.directory.entry 0).mpr ⟨d, hd, hKey⟩ hNull
    · intro d hd
      exact ⟨_, hRep.directory.ne_nil hd, hRep.directory.ring d hd⟩
    · intro d
      constructor
      · exact fun hd => ne_of_mem_of_not_mem hd hNodup.1
      · intro hd
        exact (List.mem_cons.mp (hRep.pool.total d)).resolve_left hd

theorem Rep.free_ne_nil [Fintype P] [Fintype D] {active free : List D} {p : P}
    (h : s.Rep dummy active free m) (hSize : Fintype.card D = Fintype.card P + 1)
    (hp : ∀ a, p ∉ m a) : free ≠ [] := by
  intro hEmpty
  have hActive := h.directory.length_lt_card hp
  have hAll := h.pool.length_add_length
  rw [hEmpty, List.length_cons, List.length_nil] at hAll
  omega

end Memory

variable {MAXPROC fuel : ℕ}

/-- The tables after `initASL` are sound. -/
theorem initASL_sound {m₀ start : Memory P (Fin (MAXPROC + 1))}
    (hStart : initASL MAXPROC m₀ = .ok start) : start.Sound 0 fun _ => [] := by
  obtain ⟨semd, hExec, hRep, hBase⟩ := initASL_rep m₀
  cases hStart.symm.trans hExec
  exact ⟨⟨_, _, hRep⟩, fun _ p hp => absurd hp List.not_mem_nil, hBase⟩

variable [DecidableEq P] [Fintype P]

theorem asl_run_sound {m₀ start s : Memory P (Fin (MAXPROC + 1))} (hFuel : MAXPROC + 1 ≤ fuel)
    (hFuelP : Fintype.card P ≤ fuel) (hStart : initASL MAXPROC m₀ = .ok start)
    {trace : List (AslCall P × Reply P)} (run : (aslSystem fuel).Run start trace s) :
    ∃ m, s.Sound 0 m := by
  apply run.invariant (fun s => ∃ m, s.Sound 0 m)
  · intro s call t reply hs legal hExec
    obtain ⟨m, h⟩ := hs
    have hFuelD : Fintype.card (Fin (MAXPROC + 1)) ≤ fuel := by simpa using hFuel
    by_cases hOver : s.Overrun call
    · have hStop := h.overrun hOver hFuelD hFuelP
      cases hStop.symm.trans hExec
    · obtain ⟨t', reply', m', hExec', hSound, -⟩ := h.step legal hOver hFuelD hFuelP
      cases hExec'.symm.trans hExec
      exact ⟨m', hSound⟩
  · exact ⟨_, initASL_sound hStart⟩

/-- A legal call completes and leaves well-formed lists exactly when it is not one of
those that break them. -/
theorem Memory.Sound.step_iff [DecidableEq D] [Fintype D] {s : Memory P D} {dummy : D}
    {m : Addr → List P} (h : s.Sound dummy m) (hNull : m 0 = []) {call : AslCall P}
    (legal : (aslSystem fuel).Legal s call) (hFuel : Fintype.card D ≤ fuel)
    (hFuelP : Fintype.card P ≤ fuel) :
    (∃ t reply active free, aslExec fuel s call = .ok (t, reply) ∧
      t.WellFormed dummy active free) ↔ ¬s.Breaks call := by
  by_cases hOver : s.Overrun call
  · refine iff_of_false (fun hDone => ?_) fun hNot => hNot (.inl hOver)
    obtain ⟨t, reply, active, free, hExec, -⟩ := hDone
    cases (h.overrun hOver hFuel hFuelP).symm.trans hExec
  · obtain ⟨t, reply, m', hExec, hSound, hKeep⟩ := h.step legal hOver hFuel hFuelP
    rw [Memory.Breaks, or_iff_right hOver, ← hKeep hNull, ← hSound.wellFormed_iff]
    constructor
    · intro hDone
      obtain ⟨t', reply', active, free, hExec', hWell⟩ := hDone
      cases hExec'.symm.trans hExec
      exact ⟨active, free, hWell⟩
    · intro hWell
      obtain ⟨active, free, hWell⟩ := hWell
      exact ⟨t, reply, active, free, hExec, hWell⟩

/-- Without a call that breaks the lists nobody waits for NULL. -/
theorem asl_run_null {m₀ start s : Memory P (Fin (MAXPROC + 1))} (hFuel : MAXPROC + 1 ≤ fuel)
    (hFuelP : Fintype.card P ≤ fuel) (hStart : initASL MAXPROC m₀ = .ok start)
    {trace : List (AslCall P × Reply P)}
    (run : ((aslSystem fuel).restrict fun s call => ¬s.Breaks call).Run start trace s) :
    ∃ m, s.Sound 0 m ∧ m 0 = [] := by
  apply run.invariant (fun s => ∃ m, s.Sound 0 m ∧ m 0 = [])
  · intro s call t reply hs legal hExec
    obtain ⟨m, h, hNull⟩ := hs
    obtain ⟨hLegal, hKeeps⟩ := legal
    rw [Memory.Breaks, not_or] at hKeeps
    obtain ⟨t', reply', m', hExec', hSound, hKeep⟩ :=
      h.step hLegal hKeeps.1 (by simpa using hFuel) hFuelP
    cases hExec'.symm.trans hExec
    exact ⟨m', hSound, (hKeep hNull).mpr hKeeps.2⟩
  · exact ⟨_, initASL_sound hStart, rfl⟩

/-- Blocking every process on a semaphore of its own uses up the descriptors. -/
theorem exists_run_exhausted {n : ℕ} {start : Memory (Fin n) (Fin (n + 1))} (hFuel : n + 1 ≤ fuel)
    (hStart : initASL n (.zero _ _) = .ok start) (k : ℕ) (hk : k ≤ n) :
    ∃ trace s m active free,
      ((aslSystem fuel).restrict fun s call => ¬s.Breaks call).Run start trace s ∧ s.Sound 0 m ∧
      s.Rep 0 active free m ∧ free.length + k = n ∧ (∀ a, k < a → m a = []) ∧
      ∀ a, ∀ p ∈ m a, (p : ℕ) < k := by
  have hFuelD : Fintype.card (Fin (n + 1)) ≤ fuel := by simpa using hFuel
  induction k with
  | zero =>
      have hSound := initASL_sound hStart
      obtain ⟨active, free, hRep⟩ := hSound.rep
      have hNone : active = [] := by
        rcases List.eq_nil_or_concat' active with rfl | ⟨l, d, rfl⟩
        · rfl
        · exact absurd rfl (hRep.directory.ne_nil (d := d) (by simp))
      have hAll := hRep.pool.length_add_length
      refine ⟨[], start, _, active, free, .nil start, hSound, hRep, ?_, by simp, by simp⟩
      simp [hNone] at hAll
      omega
  | succ k ih =>
      obtain ⟨trace, s, m, active, free, run, hSound, hRep, hLength, hAbove, hBelow⟩ :=
        ih (by omega)
      have hp (a : Addr) : (⟨k, hk⟩ : Fin n) ∉ m a := fun hm => (hBelow a _ hm).false
      have ha : m (k + 1) = [] := hAbove (k + 1) k.lt_succ_self
      cases free with
      | nil => simp at hLength; omega
      | cons add free =>
          obtain ⟨active', semd, hExec, hRep', hDummy⟩ := hRep.insertBlocked_new ha hp hFuelD
          have hList : [(⟨k, hk⟩ : Fin n)] = m (k + 1) ++ [⟨k, hk⟩] := by rw [ha, List.nil_append]
          have hKeeps : ¬s.Breaks (.insertBlocked (k + 1) ⟨k, hk⟩) := by
            simp [Memory.Breaks, Memory.Overrun, Memory.BlocksNull]
          have legal : ((aslSystem fuel).restrict fun s call => ¬s.Breaks call).Legal s
              (.insertBlocked (k + 1) ⟨k, hk⟩) := ⟨hRep.not_blocked_iff.mpr hp, hKeeps⟩
          refine ⟨_, _, _, active', free, run.trans (.cons legal
            (by simp only [System.restrict, aslSystem, aslExec, hExec]; rfl) (.nil _)),
            ⟨⟨_, _, hRep'⟩, ?_, hDummy.trans hSound.base⟩, hRep', ?_, ?_, ?_⟩
          · rw [hList]
            exact hSound.named.put hp rfl
          · simp at hLength
            omega
          · intro a hak
            have hne : a ≠ k + 1 := by omega
            rw [Function.update_of_ne hne]
            exact hAbove a (by omega)
          · intro a q hq
            by_cases hak : a = k + 1
            · subst hak
              rw [Function.update_self, List.mem_singleton] at hq
              simp [hq]
            · rw [Function.update_of_ne hak] at hq
              exact (hBelow a q hq).trans k.lt_succ_self

/-- In every run without a call that breaks the lists they keep their shape, and the next
legal call completes and keeps it exactly when it is no such call either. -/
theorem asl_run_safe {m₀ start s : Memory P (Fin (MAXPROC + 1))} (hFuel : MAXPROC + 1 ≤ fuel)
    (hFuelP : Fintype.card P ≤ fuel) (hStart : initASL MAXPROC m₀ = .ok start)
    {trace : List (AslCall P × Reply P)}
    (run : ((aslSystem fuel).restrict fun s call => ¬s.Breaks call).Run start trace s) :
    (∃ active free, s.WellFormed 0 active free) ∧
      ∀ call, (aslSystem fuel).Legal s call →
        ((∃ t reply active free, (aslSystem fuel).exec s call = .ok (t, reply) ∧
          t.WellFormed 0 active free) ↔ ¬s.Breaks call) := by
  obtain ⟨m, h, hNull⟩ := asl_run_null hFuel hFuelP hStart run
  exact ⟨h.wellFormed_iff.mpr hNull, fun call legal =>
    h.step_iff hNull legal (by simpa using hFuel) hFuelP⟩

/-- Every process waits for a semaphore of its own. -/
theorem asl_run_safe_two :
    ∃ (start s : Memory (Fin 2) (Fin 3)) (trace : List (AslCall (Fin 2) × Reply (Fin 2))),
      initASL 2 (.zero _ _) = .ok start ∧
      ((aslSystem 3).restrict fun s call => ¬s.Breaks call).Run start trace s ∧
      s.semdFree_h = none ∧ (∃ active free, s.WellFormed 0 active free) ∧
      ∀ semAdd, ∃ t reply active free,
        (aslSystem 3).exec s (.removeBlocked semAdd) = .ok (t, reply) ∧
          t.WellFormed 0 active free := by
  obtain ⟨semd, hStart, -⟩ := initASL_rep (Memory.zero (Fin 2) (Fin 3))
  obtain ⟨trace, s, m, active, free, run, -, hRep, hLength, -⟩ :=
    exists_run_exhausted (le_rfl : 2 + 1 ≤ 3) hStart 2 le_rfl
  obtain rfl : free = [] := List.length_eq_zero_iff.mp (by omega)
  obtain ⟨hShape, hCalls⟩ := asl_run_safe (le_rfl : 2 + 1 ≤ 3) (by simp) hStart run
  exact ⟨_, s, trace, hStart, run, hRep.pool.spare, hShape, fun semAdd =>
    (hCalls (.removeBlocked semAdd) trivial).mpr fun hBreaks => hBreaks.elim id id⟩

/-- With the 20 processes of `const.h` blocked on 20 semaphores, taking one of
them out dereferences NULL. -/
theorem outBlocked_exhausted_nullDeref :
    ∃ (start s : Memory (Fin 20) (Fin 21)) (trace : List (AslCall (Fin 20) × Reply (Fin 20)))
      (p : Fin 20), initASL 20 (.zero _ _) = .ok start ∧ (aslSystem 21).Run start trace s ∧
      (aslSystem 21).Legal s (.outBlocked p) ∧
      (aslSystem 21).exec s (.outBlocked p) = .error .nullDeref := by
  obtain ⟨semd, hStart, -⟩ := initASL_rep (Memory.zero (Fin 20) (Fin 21))
  obtain ⟨trace, s, m, active, free, run, hSound, hRep, hLength, -⟩ :=
    exists_run_exhausted (le_rfl : 20 + 1 ≤ 21) hStart 20 le_rfl
  have hFree : free = [] := List.length_eq_zero_iff.mp (by omega)
  subst hFree
  have hAll := hRep.pool.length_add_length
  cases active with
  | nil => simp at hAll
  | cons d active =>
      have hRing := hRep.directory.ring d (List.mem_cons_self ..)
      have hne := hRep.directory.ne_nil (List.mem_cons_self (a := d) (l := active))
      obtain ⟨p, hTail⟩ : ∃ p, (m (s.semd.s_semAdd d)).getLast? = some p :=
        ⟨_, List.getLast?_eq_some_getLast hne⟩
      have hp := hRep.blockedOn_iff.mpr (List.mem_of_getLast? hTail)
      have hOver : s.Overrun (.outBlocked p) :=
        ⟨hRep.pool.spare, hRep.lastBlocked_iff.mpr ⟨_, hTail⟩⟩
      exact ⟨_, s, trace, p, hStart, run.of_restrict, ⟨_, hp⟩,
        hSound.overrun hOver (by simp) (by simp)⟩

/-- With as many descriptors as blocks and one for the dummy there is room for
every process that is not blocked. -/
theorem Memory.Rep.insertBlocked_room [DecidableEq D] [Fintype D] {s : Memory P D} {dummy : D}
    {active free : List D} {m : Addr → List P} {p : P} (h : s.Rep dummy active free m)
    (hSize : Fintype.card D = Fintype.card P + 1) (hp : ¬s.Blocked p)
    (hFuel : Fintype.card D ≤ fuel) (semAdd : Addr) :
    ∃ t, insertBlocked fuel s semAdd (some p) = .ok (t, false) := by
  have hRoom : m semAdd ≠ [] ∨ free ≠ [] :=
    .inr (h.free_ne_nil hSize (h.not_blocked_iff.mp hp))
  exact h.insertBlocked_accepts hRoom hFuel p

/-- The descriptor table is large enough: in a run over the blocks of the table no
`insertBlocked` reports that there is no free descriptor, and the next one does
not either. -/
theorem insertBlocked_never_full {m₀ start s : Memory (Fin MAXPROC) (Fin (MAXPROC + 1))}
    (hFuel : MAXPROC + 1 ≤ fuel) (hStart : initTables MAXPROC m₀ = .ok start)
    {trace : List (AslCall (Fin MAXPROC) × Reply (Fin MAXPROC))}
    (run : (blockSystem fuel).Run start trace s) :
    (∀ semAdd p, (AslCall.insertBlocked semAdd p, Reply.flag true) ∉ trace) ∧
      ∀ semAdd p, ¬s.Blocked p → ∃ t, insertBlocked fuel s semAdd (some p) = .ok (t, false) := by
  have hRoom (t : Memory (Fin MAXPROC) (Fin (MAXPROC + 1)))
      {calls : List (AslCall (Fin MAXPROC) × Reply (Fin MAXPROC))}
      (hRun : (blockSystem fuel).Run start calls t) (semAdd : Addr) (p : Fin MAXPROC)
      (hp : ¬t.Blocked p) : ∃ u, insertBlocked fuel t semAdd (some p) = .ok (u, false) := by
    obtain ⟨⟨pcb, pcbFree_h⟩, -, hAsl⟩ := Outcome.bind_eq_ok.mp hStart
    obtain ⟨m, h⟩ := asl_run_sound hFuel (by simp; omega) hAsl hRun.of_restrict
    obtain ⟨active, free, hRep⟩ := h.rep
    exact hRep.insertBlocked_room (by simp) hp (by simpa using hFuel) semAdd
  refine ⟨fun semAdd p hMem => ?_, hRoom s run⟩
  obtain ⟨before, after, rfl⟩ := List.append_of_mem hMem
  obtain ⟨t, hBefore, hAfter⟩ := run.split
  cases hAfter with
  | cons legal first _ =>
      obtain ⟨u, hExec⟩ := hRoom t hBefore semAdd p legal.1
      have hReply : aslExec fuel t (.insertBlocked semAdd p) = .ok (u, .flag false) := by
        simp only [aslExec, hExec]
        rfl
      cases hReply.symm.trans first

theorem insertBlocked_never_full_two :
    ∃ (start s : Memory (Fin 2) (Fin 3)), initTables 2 (.zero _ _) = .ok start ∧
      (blockSystem 3).Run start [(.insertBlocked 4 0, .flag false)] s ∧
      ∀ semAdd p, ¬s.Blocked p → ∃ t, insertBlocked 3 s semAdd (some p) = .ok (t, false) := by
  obtain ⟨start, hStart, -, hRep, -⟩ := initTables_rep (by decide : 0 < 2) (.zero _ _)
  have hp : ¬start.Blocked 0 := hRep.not_blocked_iff.mpr fun _ => List.not_mem_nil
  obtain ⟨s, hExec⟩ := hRep.insertBlocked_room (by simp) hp (by simp : _ ≤ 3) 4
  have hFirst : aslExec 3 start (.insertBlocked 4 0) = .ok (s, .flag false) := by
    simp only [aslExec, hExec]
    rfl
  have legal : (blockSystem 3).Legal start (.insertBlocked 4 0) := ⟨hp, by simp⟩
  have run := System.Run.cons legal hFirst (.nil s)
  exact ⟨start, s, hStart, run, (insertBlocked_never_full le_rfl hStart run).2⟩

end Nucleus
