import Nucleus.Pcb.ProcessQueue

/-! `outProcQ` against what it is for: to take one block out of its queue wherever it
stands, and to leave alone a queue that does not hold the block. The search returns
from the loop for every block but the tail. -/
namespace Nucleus

open Function (update)
open Linked Semantics

variable {P : Type} [DecidableEq P] {pcb pcb' : PcbTable P} {tp tp' : Option P} {l : List P}
  {p t : P}

/-- `p` is out of the queue that was `l`, the others are in it in their former order,
and nothing else has changed. -/
structure TakenOut (pcb : PcbTable P) (l : List P) (p : P) (pcb' : PcbTable P) (tp' : Option P) :
    Prop where
  ring : Ring pcb'.p_next tp' (l.erase p)
  detached : pcb'.p_next p = none
  empty : tp' = none ↔ l.length = 1
  frame : ∀ q, q ∉ l → pcb'.p_next q = pcb.p_next q
  links : pcb' = { pcb with p_next := pcb'.p_next }

/-- The new tail is NULL when nobody is left. -/
theorem TakenOut.of_ring (hp : p ∈ l) {next : P → Option P} (hRing : Ring next tp' (l.erase p))
    (hNone : next p = none) (hKeep : ∀ q, q ∉ l → next q = pcb.p_next q) :
    TakenOut pcb l p { pcb with p_next := next } tp' := by
  refine ⟨hRing, hNone, ?_, hKeep, rfl⟩
  rw [← hRing.eq_nil_iff, ← List.length_eq_zero_iff, List.length_erase_of_mem hp]
  have hPos := List.length_pos_of_mem hp
  omega

/-- The exits from the loop. -/
theorem outProcQ_takes_inner (h : Ring pcb.p_next (some t) l) (hp : p ∈ l) (hTail : p ≠ t)
    {fuel : ℕ} (hFuel : l.length ≤ fuel) :
    ∃ pcb' tp', outProcQ fuel pcb (some t) (some p) = .ok (pcb', tp', some p) ∧
      TakenOut pcb l p pcb' tp' := by
  obtain ⟨next, hExec, hRing, hNone, hKeep⟩ := outProcQ_inner h hp hTail hFuel
  exact ⟨_, _, hExec, .of_ring hp hRing hNone hKeep⟩

/-- The tail is taken out as it should be only from a queue of one. -/
theorem takenOut_tail_iff (h : Ring pcb.p_next (some t) l) :
    TakenOut pcb l t (pcb.setNext t none) none ↔ pcb.p_next t = some t := by
  constructor
  · intro hOut
    have hHead := h.next_tail
    cases l with
    | nil => exact absurd h.tail_mem List.not_mem_nil
    | cons x rest =>
        have hOne : rest = [] := by simpa using hOut.empty.mp rfl
        subst hOne
        rw [hHead, List.mem_singleton.mp h.tail_mem]
        rfl
  · intro hSelf
    cases h.eq_singleton hSelf
    refine .of_ring (List.mem_singleton_self t) ?_ (Function.update_self ..) fun q hq => ?_
    · simp
    · exact Function.update_of_ne (by simpa using hq) ..

/-- `outProcQ` takes a block out of its queue, and only that block, exactly when it
is not the tail of a longer queue. -/
theorem outProcQ_takes_iff (h : Ring pcb.p_next tp l) (hp : p ∈ l) :
    Returns (fun fuel => outProcQ fuel pcb tp (some p))
        (fun r => r.2.2 = some p ∧ TakenOut pcb l p r.1 r.2.1) ↔
      (tp = some p → pcb.p_next p = some p) := by
  cases tp with
  | none =>
      rw [Ring.none_iff.mp h] at hp
      cases hp
  | some t =>
      constructor
      · intro hReturns hTail
        cases hTail
        obtain ⟨bound, hReturn⟩ := hReturns
        obtain ⟨r, hExec, -, hOut⟩ := hReturn (bound + l.length) (Nat.le_add_right ..)
        cases (outProcQ_tail h (Nat.le_add_left ..)).symm.trans hExec
        exact (takenOut_tail_iff h).mp hOut
      · intro hSelf
        refine ⟨l.length, fun fuel hFuel => ?_⟩
        by_cases hpt : p = t
        · subst hpt
          exact ⟨_, outProcQ_tail h hFuel, rfl, (takenOut_tail_iff h).mpr (hSelf rfl)⟩
        · obtain ⟨pcb', tp', hExec, hOut⟩ := outProcQ_takes_inner h hp hpt hFuel
          exact ⟨_, hExec, rfl, hOut⟩

theorem outProcQ_none_stuck {post : PcbTable P × Option P × Option P → Prop} :
    ¬Returns (fun fuel => outProcQ fuel pcb none (some p)) post := by
  intro hReturns
  obtain ⟨fuel, r, hExec, -⟩ := hReturns.exists_ok
  have hMore := outProcQ_mono hExec (Nat.le_succ fuel)
  cases (outProcQ_none fuel).symm.trans hMore

/-- `outProcQ` of a block that is not in the queue returns NULL and changes nothing
exactly when the queue is not empty. The links of the block itself are not read. -/
theorem outProcQ_absent_iff (h : Ring pcb.p_next tp l) (hp : p ∉ l) :
    Returns (fun fuel => outProcQ fuel pcb tp (some p)) (fun r => r = (pcb, tp, none)) ↔
      tp ≠ none := by
  cases tp with
  | none =>
      constructor
      · intro hReturns
        exact absurd hReturns outProcQ_none_stuck
      · intro hSome
        exact absurd rfl hSome
  | some t =>
      constructor
      · intro _ hNone
        cases hNone
      · intro _
        exact ⟨l.length, fun fuel hFuel => ⟨_, outProcQ_absent h hp hFuel, rfl⟩⟩

/-- Two blocks in one queue. -/
def twoQueued (head tail : P) : PcbTable P where
  p_next := update (fun _ => some head) head (some tail)
  p_prnt _ := none
  p_child _ := none
  p_sib _ := none
  p_s _ := 0
  p_semAdd _ := 0

theorem twoQueued_ring {head tail : P} (hne : head ≠ tail) :
    Ring (twoQueued head tail).p_next (some tail) [head, tail] := by
  refine ⟨[head], rfl, ⟨rfl, ?_, ?_⟩, by simpa using hne⟩
  · exact Function.update_of_ne hne.symm (some tail) fun _ => some head
  · exact Function.update_self ..

theorem outProcQ_takes_head :
    Returns (fun fuel => outProcQ fuel (twoQueued 0 1 : PcbTable (Fin 2)) (some 1) (some 0))
      fun r => r.2.2 = some 0 ∧ TakenOut (twoQueued 0 1) [0, 1] 0 r.1 r.2.1 :=
  (outProcQ_takes_iff (twoQueued_ring (by decide)) (by decide)).mpr (by decide)

/-- A detached block with a link into the queue. -/
theorem outProcQ_absent_two :
    Returns (fun fuel => outProcQ fuel (twoQueued 0 1 : PcbTable (Fin 3)) (some 1) (some 2))
      fun r => r = (twoQueued 0 1, some 1, none) :=
  (outProcQ_absent_iff (twoQueued_ring (by decide)) (by decide)).mpr (by decide)

/-- The search in the empty queue reads through its NULL tail pointer. -/
theorem outProcQ_empty_stops :
    Ring (twoQueued 0 1 : PcbTable (Fin 3)).p_next none [] ∧
      ¬Returns (fun fuel => outProcQ fuel (twoQueued 0 1 : PcbTable (Fin 3)) none (some 2))
        (fun r => r = (twoQueued 0 1, none, none)) ∧
      ∀ fuel, outProcQ (fuel + 1) (twoQueued 0 1 : PcbTable (Fin 3)) none (some 2) =
        .error .nullDeref :=
  ⟨rfl, outProcQ_none_stuck, outProcQ_none⟩

/-- Taking out the tail of a queue of two loses the head. -/
theorem outProcQ_tail_drops_head :
    Ring (twoQueued 0 1 : PcbTable (Fin 2)).p_next (some 1) [0, 1] ∧
      ∀ fuel r, outProcQ fuel (twoQueued 0 1 : PcbTable (Fin 2)) (some 1) (some 1) = .ok r →
        r.2.1 = none ∧ ¬ TakenOut (twoQueued 0 1) [0, 1] 1 r.1 r.2.1 := by
  have hRing : Ring (twoQueued 0 1 : PcbTable (Fin 2)).p_next (some 1) [0, 1] :=
    twoQueued_ring (by decide)
  refine ⟨hRing, fun fuel r hExec => ?_⟩
  have hMore := outProcQ_mono hExec (Nat.le_add_right fuel [(0 : Fin 2), 1].length)
  cases (outProcQ_tail hRing (Nat.le_add_left ..)).symm.trans hMore
  exact ⟨rfl, fun hOut => absurd (hOut.empty.mp rfl) (by decide)⟩

end Nucleus
