import Nucleus.Linked.Placement
import Nucleus.Tables.Basic

/-! Where the process blocks are. Every block is in one place, and all the chains
through `p_next` stay well formed while the blocks move between the places. -/
namespace Nucleus

open Function (update)
open Linked Semantics

variable {ι P D : Type}

/-- The places in which a block can be. -/
inductive Place (ι : Type) where
  | free
  | held
  | queue (i : ι)
  | semaphore (semAdd : Addr)
  deriving DecidableEq

namespace Tables

/-- The chains of the tables hold the lists of `c`, and every block is in exactly
one of them, once. -/
structure Holds [DecidableEq P] (s : Tables ι P D) (dummy : D) (c : Place ι → List P) : Prop where
  spare : Chain s.mem.pcb.p_next s.mem.pcbFree_h (c .free)
  detached : c .held = s.held
  ring : ∀ i, Ring s.mem.pcb.p_next (s.tp i) (c (.queue i))
  asl : ∃ active free, s.mem.Rep dummy active free fun a => c (.semaphore a)
  placed : Placed c

namespace Holds

section Away

variable [DecidableEq P] {s : Tables ι P D} {dummy : D} {c : Place ι → List P}
  {next : P → Option P} {p : P} {j k : Place ι}

/-- Links that change only among the cells of two places leave the cells of every
other place alone. -/
theorem away (h : s.Holds dummy c)
    (hKeep : ∀ q, q ∉ c j → q ∉ c k → next q = s.mem.pcb.p_next q) {k' : Place ι} (hj : k' ≠ j)
    (hk : k' ≠ k) : ∀ x ∈ c k', next x = s.mem.pcb.p_next x := fun x hx =>
  hKeep x (h.placed.not_mem hx hj.symm) (h.placed.not_mem hx hk.symm)

/-- The semaphore queues when none of their links changes. -/
theorem keep_asl (h : s.Holds dummy c) {pcb : PcbTable P} (pcbFree_h : Option P)
    (hKeep : ∀ a, ∀ x ∈ c (.semaphore a), pcb.p_next x = s.mem.pcb.p_next x) :
    ∃ active free, Memory.Rep { s.mem with pcb, pcbFree_h } dummy active free
      fun a => c (.semaphore a) := by
  obtain ⟨active, free, hRep⟩ := h.asl
  exact ⟨active, free, hRep.congr rfl rfl rfl hKeep⟩

theorem mem_held (h : s.Holds dummy c) (hp : p ∈ s.held) : p ∈ c .held := h.detached.symm ▸ hp

theorem not_blocked (h : s.Holds dummy c) (hp : p ∈ s.held) (a : Addr) :
    p ∉ c (.semaphore a) :=
  h.placed.not_mem (h.mem_held hp) (by simp)

end Away

theorem semaphore_update [DecidableEq ι] (c : Place ι → List P) (a : Addr) (l : List P) :
    (fun b => update c (.semaphore a) l (.semaphore b)) =
      update (fun b => c (.semaphore b)) a l := by
  funext b
  by_cases hb : b = a
  · subst hb
    simp
  · simp [hb]

section Steps

variable [DecidableEq ι] [DecidableEq P] [DecidableEq D] {s : Tables ι P D} {dummy : D}
  {c : Place ι → List P} {p : P} {fuel : ℕ}

/-- `allocPcb` hands out the first free block, and NULL when there is none. -/
theorem allocPcb (h : s.Holds dummy c) (fuel : ℕ) : ∃ t c',
    tableExec fuel s .allocPcb = .ok (t, .pcb (c .free).head?) ∧ t.Holds dummy c' := by
  cases hFree : c .free with
  | nil =>
      have hNone : s.mem.pcbFree_h = none := (Chain.eq_nil_iff h.spare).mp hFree
      have hSame : ({ s.mem with pcbFree_h := none } : Memory P D) = s.mem := by rw [← hNone]
      exact ⟨s, c, by simp [tableExec, hNone, hSame], h⟩
  | cons p l =>
      have hChain := h.spare
      rw [hFree] at hChain
      have hSome : s.mem.pcbFree_h = some p := hChain.1
      have hp : p ∈ c .free := by simp [hFree]
      have hKeep (q : P) (hq : q ∉ c .free) (_ : q ∉ c .held) :
          (s.mem.pcb.clear p).p_next q = s.mem.pcb.p_next q :=
        Function.update_of_ne (ne_of_mem_of_not_mem hp hq).symm ..
      refine ⟨_, update (update c .free l) .held (p :: c .held), by
        simp only [tableExec, hSome, allocPcb_some]; rfl, ?_, ?_, ?_, ?_, ?_⟩
      · simpa using allocPcb_chain (hSome ▸ hChain)
      · simp [h.detached]
      · intro i
        simpa using (h.ring i).congr (h.away hKeep (by simp) (by simp))
      · simpa using h.keep_asl _ fun a => h.away hKeep (by simp) (by simp)
      · exact h.placed.move hp (by simp) (by simp [hFree]) (.refl _)

theorem freePcb (h : s.Holds dummy c) (hp : p ∈ s.held) : ∃ t c',
    tableExec fuel s (.freePcb p) = .ok (t, .done) ∧ t.Holds dummy c' := by
  have hHeld := h.mem_held hp
  have hKeep (q : P) (hq : q ∉ c .held) (_ : q ∉ c .free) :
      (s.mem.pcb.setNext p s.mem.pcbFree_h).p_next q = s.mem.pcb.p_next q :=
    Function.update_of_ne (ne_of_mem_of_not_mem hHeld hq).symm ..
  refine ⟨_, update (update c .held (s.held.erase p)) .free (p :: c .free), by
    simp only [tableExec, freePcb_some]; rfl, ?_, ?_, ?_, ?_, ?_⟩
  · simpa using freePcb_chain h.spare (h.placed.not_mem hHeld (by simp))
  · simp
  · intro i
    simpa using (h.ring i).congr (h.away hKeep (by simp) (by simp))
  · simpa using h.keep_asl _ fun a => h.away hKeep (by simp) (by simp)
  · exact h.placed.move hHeld (by simp) (by rw [h.detached]) (.refl _)

theorem insertProcQ (h : s.Holds dummy c) (hp : p ∈ s.held) (i : ι) : ∃ t c',
    tableExec fuel s (.insertProcQ i p) = .ok (t, .done) ∧ t.Holds dummy c' := by
  have hHeld := h.mem_held hp
  obtain ⟨next, hExec, hRing, hCells⟩ :=
    insertProcQ_append (h.ring i) (h.placed.not_mem hHeld (by simp))
  have hKeep (q : P) (hq : q ∉ c .held) (hq' : q ∉ c (.queue i)) :
      next q = s.mem.pcb.p_next q := by
    apply hCells
    simp [(ne_of_mem_of_not_mem hHeld hq).symm, hq']
  refine ⟨_, update (update c .held (s.held.erase p)) (.queue i) (c (.queue i) ++ [p]), by
    simp only [tableExec, hExec]; rfl, ?_, ?_, ?_, ?_, ?_⟩
  · simpa using h.spare.congr (h.away hKeep (by simp) (by simp))
  · simp
  · intro j
    by_cases hj : j = i
    · subst hj
      simpa using hRing
    · simpa [hj] using (h.ring j).congr (h.away hKeep (by simp) (by simpa using hj))
  · simpa using h.keep_asl _ fun a => h.away hKeep (by simp) (by simp)
  · exact h.placed.move hHeld (by simp) (by rw [h.detached]) (List.perm_append_singleton _ _)

theorem removeProcQ (h : s.Holds dummy c) (i : ι) : ∃ t c',
    tableExec fuel s (.removeProcQ i) = .ok (t, .pcb (c (.queue i)).head?) ∧
      t.Holds dummy c' := by
  cases hQueue : c (.queue i) with
  | nil =>
      have hNone : s.tp i = none := (h.ring i).eq_nil_iff.mp hQueue
      have hSame : update s.tp i none = s.tp := by rw [← hNone, Function.update_eq_self]
      exact ⟨s, c, by simp [tableExec, hNone, hSame], h⟩
  | cons p l =>
      have hRing := h.ring i
      rw [hQueue] at hRing
      have hp : p ∈ c (.queue i) := by simp [hQueue]
      obtain ⟨next, tp, hExec, hRest, hCells⟩ := removeProcQ_head hRing
      have hKeep (q : P) (hq : q ∉ c (.queue i)) (_ : q ∉ c .held) :
          next q = s.mem.pcb.p_next q :=
        hCells q fun hm => hq (hQueue ▸ List.mem_cons_of_mem _ hm)
      refine ⟨_, update (update c (.queue i) l) .held (p :: c .held), by
        simp only [tableExec, hExec]; rfl, ?_, ?_, ?_, ?_, ?_⟩
      · simpa using h.spare.congr (h.away hKeep (by simp) (by simp))
      · simp [h.detached]
      · intro j
        by_cases hj : j = i
        · subst hj
          simpa using hRest
        · simpa [hj] using (h.ring j).congr (h.away hKeep (by simpa using hj) (by simp))
      · simpa using h.keep_asl _ fun a => h.away hKeep (by simp) (by simp)
      · exact h.placed.move hp (by simp) (by simp [hQueue]) (.refl _)

variable [Fintype D]

theorem insertBlocked (h : s.Holds dummy c) (hp : p ∈ s.held) (hFuel : Fintype.card D ≤ fuel)
    (a : Addr) : ∃ t reply c',
      tableExec fuel s (.asl (.insertBlocked a p)) = .ok (t, reply) ∧ t.Holds dummy c' := by
  have hHeld := h.mem_held hp
  obtain ⟨active, free, hRep⟩ := h.asl
  obtain ⟨mem, full, hExec, hFull, hPut⟩ :=
    hRep.exec_insertBlocked (h.not_blocked hp) hFuel a
  cases full with
  | true =>
      obtain ⟨rfl, -⟩ := hFull rfl
      exact ⟨s, .flag true, c, by simp [tableExec, hExec, heldAfter], h⟩
  | false =>
      have hEffect := hPut rfl
      have hKeep (q : P) (hq : q ∉ c .held) (hq' : q ∉ c (.semaphore a)) :
          mem.pcb.p_next q = s.mem.pcb.p_next q := by
        apply hEffect.p_next
        simp [(ne_of_mem_of_not_mem hHeld hq).symm, hq']
      refine ⟨_, _, update (update c .held (s.held.erase p)) (.semaphore a)
        (c (.semaphore a) ++ [p]), by simp only [tableExec, hExec]; rfl, ?_, ?_, ?_, ?_, ?_⟩
      · simpa [hEffect.pcbFree_h] using h.spare.congr (h.away hKeep (by simp) (by simp))
      · simp [heldAfter]
      · intro i
        simpa using (h.ring i).congr (h.away hKeep (by simp) (by simp))
      · rw [semaphore_update]
        simpa using hEffect.rep
      · exact h.placed.move hHeld (by simp) (by rw [h.detached]) (List.perm_append_singleton _ _)

theorem removeBlocked (h : s.Holds dummy c) (hFuel : Fintype.card D ≤ fuel) (a : Addr) :
    ∃ t c', tableExec fuel s (.asl (.removeBlocked a)) =
      .ok (t, .pcb (c (.semaphore a)).head?) ∧ t.Holds dummy c' := by
  obtain ⟨active, free, hRep⟩ := h.asl
  obtain ⟨mem, hExec, hEffect, hNone⟩ := hRep.exec_removeBlocked hFuel a
  cases hQueue : c (.semaphore a) with
  | nil =>
      rw [hQueue] at hExec
      obtain rfl := hNone hQueue
      exact ⟨s, c, by simp [tableExec, hExec, heldAfter], h⟩
  | cons p l =>
      rw [hQueue] at hExec hEffect
      have hp : p ∈ c (.semaphore a) := by simp [hQueue]
      have hKeep (q : P) (hq : q ∉ c (.semaphore a)) (_ : q ∉ c .held) :
          mem.pcb.p_next q = s.mem.pcb.p_next q :=
        hEffect.p_next q fun hm => hq (hQueue ▸ List.mem_cons_of_mem _ hm)
      refine ⟨_, update (update c (.semaphore a) l) .held (p :: c .held), by
        simp only [tableExec, hExec]; rfl, ?_, ?_, ?_, ?_, ?_⟩
      · simpa [hEffect.pcbFree_h] using h.spare.congr (h.away hKeep (by simp) (by simp))
      · simp [heldAfter, h.detached]
      · intro i
        simpa using (h.ring i).congr (h.away hKeep (by simp) (by simp))
      · have hRep' := hEffect.rep
        rw [List.tail_cons, ← semaphore_update] at hRep'
        simpa using hRep'
      · exact h.placed.move hp (by simp) (by simp [hQueue]) (.refl _)

/-- A legal call completes and leaves every block in one place. -/
theorem step (h : s.Holds dummy c) {call : TableCall ι P} (hFuel : Fintype.card D ≤ fuel)
    (legal : (tableSystem fuel).Legal s call) :
    ∃ t reply c', tableExec fuel s call = .ok (t, reply) ∧ t.Holds dummy c' := by
  cases call with
  | allocPcb =>
      obtain ⟨t, c', hExec, h'⟩ := h.allocPcb fuel
      exact ⟨t, _, c', hExec, h'⟩
  | freePcb p =>
      obtain ⟨t, c', hExec, h'⟩ := h.freePcb legal
      exact ⟨t, _, c', hExec, h'⟩
  | insertProcQ i p =>
      obtain ⟨t, c', hExec, h'⟩ := h.insertProcQ legal i
      exact ⟨t, _, c', hExec, h'⟩
  | removeProcQ i =>
      obtain ⟨t, c', hExec, h'⟩ := h.removeProcQ i
      exact ⟨t, _, c', hExec, h'⟩
  | asl call =>
      cases call with
      | insertBlocked a p => exact h.insertBlocked legal hFuel a
      | removeBlocked a =>
          obtain ⟨t, c', hExec, h'⟩ := h.removeBlocked hFuel a
          exact ⟨t, _, c', hExec, h'⟩
      | outBlocked p => exact legal.elim
      | headBlocked a =>
          obtain ⟨active, free, hRep⟩ := h.asl
          have hExec := hRep.exec_headBlocked hFuel a
          exact ⟨s, _, c, by simp only [tableExec, hExec]; rfl, h⟩

end Steps

end Holds

/-- The block is in a queue or in the hands of a caller. -/
def InUse (c : Place ι → List P) (p : P) : Prop := ∃ k, k ≠ .free ∧ p ∈ c k

section Runs

variable [DecidableEq ι] {MAXPROC fuel : ℕ} {m₀ : Memory (Fin MAXPROC) (Fin (MAXPROC + 1))}
  {start s : Tables ι (Fin MAXPROC) (Fin (MAXPROC + 1))}

omit [DecidableEq ι] in
theorem bootTables_holds (hStart : bootTables MAXPROC m₀ = .ok start) :
    ∃ c, start.Holds 0 c := by
  obtain ⟨hTails, hHeld, hChain, hRep, -⟩ := bootTables_rep hStart
  refine ⟨fun k => if k matches .free then List.finRange MAXPROC else [], hChain, hHeld.symm,
    fun i => ?_, ⟨_, _, hRep⟩, fun p => ⟨.free, ?_, ?_⟩⟩
  · rw [hTails]
    rfl
  · exact List.count_eq_one_of_mem (List.nodup_finRange _) (List.mem_finRange p)
  · intro k hk
    cases k <;> simp_all

/-- In every run every block is in exactly one place and all chains are well
formed. `allocPcb` hands out only blocks that are not in use, and NULL exactly
when all of them are. -/
theorem tables_run_placed (hFuel : MAXPROC + 1 ≤ fuel)
    (hStart : bootTables MAXPROC m₀ = .ok start)
    {trace : List (TableCall ι (Fin MAXPROC) × Reply (Fin MAXPROC))}
    (run : (tableSystem fuel).Run start trace s) :
    ∃ c, s.Holds 0 c ∧
      (∀ a, ∀ p ∈ c (.semaphore a), ∃! d, s.mem.Active d ∧
        Reach s.mem.pcb.p_next (s.mem.semd.s_procQ d) p) ∧
      (∃ t r, (tableSystem fuel).exec s .allocPcb = .ok (t, .pcb r) ∧
        (∀ p, r = some p → ¬InUse c p) ∧ (r = none ↔ ∀ p, InUse c p)) ∧
      ∀ call, (tableSystem fuel).Legal s call →
        ∃ t reply, (tableSystem fuel).exec s call = .ok (t, reply) := by
  have hFuelD : Fintype.card (Fin (MAXPROC + 1)) ≤ fuel := by simpa using hFuel
  obtain ⟨c, h⟩ : ∃ c, s.Holds 0 c := by
    refine run.invariant (fun s => ∃ c, s.Holds 0 c) (fun s call t reply hs legal hExec => ?_)
      (bootTables_holds hStart)
    obtain ⟨c, h⟩ := hs
    obtain ⟨t', reply', c', hExec', h'⟩ := h.step hFuelD legal
    cases hExec'.symm.trans hExec
    exact ⟨c', h'⟩
  have hUse (p : Fin MAXPROC) : InUse c p ↔ p ∉ c .free := by
    constructor
    · intro hp
      obtain ⟨k, hk, hMem⟩ := hp
      exact h.placed.not_mem hMem hk.symm
    · intro hp
      obtain ⟨k, hCount, -⟩ := h.placed p
      have hMem : p ∈ c k := List.count_pos_iff.mp (by omega)
      exact ⟨k, fun hk => hp (hk ▸ hMem), hMem⟩
  refine ⟨c, h, fun a p hp => ?_, ?_, fun call legal => ?_⟩
  · obtain ⟨active, free, hRep⟩ := h.asl
    exact hRep.existsUnique_descriptor hp
  · obtain ⟨t, c', hExec, -⟩ := h.allocPcb fuel
    refine ⟨t, _, hExec, fun p hp => ?_, ?_⟩
    · rw [hUse, not_not]
      exact List.mem_of_head? hp
    · simp only [hUse, List.head?_eq_none_iff, List.eq_nil_iff_forall_not_mem]
  · obtain ⟨t, reply, c', hExec, -⟩ := h.step hFuelD legal
    exact ⟨t, reply, hExec⟩

/-- One process queue over two blocks. One of them is ready in the end, and the other one,
which has been freed and allocated again, waits for a semaphore. -/
theorem tables_run_placed_two :
    ∃ (start s : Tables (Fin 1) (Fin 2) (Fin 3)) (c : Place (Fin 1) → List (Fin 2)),
      bootTables 2 (.zero _ _) = .ok start ∧
      (tableSystem 3).Run start [(.allocPcb, .pcb (some 0)), (.allocPcb, .pcb (some 1)),
        (.freePcb 1, .done), (.insertProcQ 0 0, .done), (.allocPcb, .pcb (some 1)),
        (.asl (.insertBlocked 4 1), .flag false)] s ∧
      s.Holds 0 c ∧ ∃ t r, tableExec 3 s .allocPcb = .ok (t, .pcb r) ∧
        (r = none ↔ ∀ p, InUse c p) := by
  obtain ⟨start, s, hStart, run⟩ : ∃ start s : Tables (Fin 1) (Fin 2) (Fin 3),
      bootTables 2 (.zero _ _) = .ok start ∧
      (tableSystem 3).Run start [(.allocPcb, .pcb (some 0)), (.allocPcb, .pcb (some 1)),
        (.freePcb 1, .done), (.insertProcQ 0 0, .done), (.allocPcb, .pcb (some 1)),
        (.asl (.insertBlocked 4 1), .flag false)] s := by
    refine ⟨_, _, rfl, .cons trivial rfl <| .cons trivial rfl <| .cons ?_ rfl <| .cons ?_ rfl <|
      .cons trivial rfl <| .cons ?_ rfl <| .nil _⟩
    · exact List.mem_cons_self ..
    · exact List.mem_cons_self ..
    · exact List.mem_cons_self ..
  obtain ⟨c, h, -, ⟨t, r, hAlloc, -, hNone⟩, -⟩ := tables_run_placed le_rfl hStart run
  exact ⟨start, s, c, hStart, run, h, t, r, hAlloc, hNone⟩

end Runs

end Tables

end Nucleus
