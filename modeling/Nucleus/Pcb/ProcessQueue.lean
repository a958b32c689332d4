import Nucleus.Linked.Ring
import Nucleus.Pcb.Basic

/-! Process queues: the functions of `pcb.c` on tail-pointed circular queues, and
what each of them does to a well-formed queue. -/
namespace Nucleus

open Function (update)
open Linked Semantics

variable {P : Type}

def mkEmptyProcQ : Option P := none

def emptyProcQ (tp : Option P) : Bool :=
  match tp with
  | none => true
  | some _ => false

section Code

variable [DecidableEq P]

/-- The result is the table and the new value of `*tp`. -/
def insertProcQ (pcb : PcbTable P) (tp p : Option P) : Outcome (PcbTable P × Option P) :=
  match tp with
  | none => do
      let q ← deref p
      return (pcb.setNext q p, p)
  | some t => do
      let q ← deref p
      let pcb := pcb.setNext q (pcb.p_next t)
      let pcb := pcb.setNext t p
      return (pcb, p)

/-- The result is the table, the new value of `*tp` and the returned pointer. -/
def removeProcQ (pcb : PcbTable P) (tp : Option P) :
    Outcome (PcbTable P × Option P × Option P) :=
  match tp with
  | none => return (pcb, none, none)
  | some t => do
      let p := pcb.p_next t
      if tp = p then
        return (pcb, none, p)
      let q ← deref p
      return (pcb.setNext t (pcb.p_next q), tp, p)

/-- One pass of the `while` of `outProcQ`, which leaves the loop either by
returning from the function or with the last value of `tmp`. -/
def outProcQSearch (pcb : PcbTable P) (tp p tmp : Option P) :
    Outcome (Option P ⊕ ((PcbTable P × Option P × Option P) ⊕ P)) := do
  let t ← deref tmp
  if pcb.p_next t ≠ tp then
    if pcb.p_next t = p then
      let q ← deref p
      let pcb := pcb.setNext t (pcb.p_next q)
      let pcb := pcb.setNext q none
      return .inr (.inl (pcb, tp, p))
    else
      return .inl (pcb.p_next t)
  else
    return .inr (.inr t)

def outProcQ (fuel : ℕ) (pcb : PcbTable P) (tp p : Option P) :
    Outcome (PcbTable P × Option P × Option P) := do
  match ← loop (outProcQSearch pcb tp p) fuel tp with
  | .inl returned => return returned
  | .inr tmp =>
      if tp = p then
        let q ← deref p
        if pcb.p_next tmp = p then
          return (pcb.setNext q none, none, p)
        else
          let tail ← deref tp
          let tp := pcb.p_next tail
          let pcb := pcb.setNext tmp (pcb.p_next q)
          let pcb := pcb.setNext q none
          return (pcb, tp, p)
      else
        return (pcb, tp, none)

end Code

def headProcQ (pcb : PcbTable P) (tp : Option P) : Option P :=
  match tp with
  | none => none
  | some t => pcb.p_next t

section Queue

variable {pcb : PcbTable P} {tp : Option P} {l : List P} {p t : P}

theorem headProcQ_eq (h : Ring pcb.p_next tp l) : headProcQ pcb tp = l.head? := by
  cases tp with
  | none => simp [headProcQ, Ring.none_iff.mp h]
  | some t => exact h.next_tail

theorem emptyProcQ_iff {next : P → Option P} (h : Ring next tp l) :
    emptyProcQ tp = true ↔ l = [] := by
  rw [h.eq_nil_iff]
  cases tp <;> simp [emptyProcQ]

variable [DecidableEq P]

/-- `insertProcQ` takes any block, a queued one as well. -/
theorem insertProcQ_some (pcb : PcbTable P) (tp : Option P) (p : P) :
    ∃ pcb', insertProcQ pcb tp (some p) = .ok (pcb', some p) := by
  cases tp with
  | none => exact ⟨_, rfl⟩
  | some t => exact ⟨_, rfl⟩

/-- `insertProcQ` appends; only links of the queue and of the new block change. -/
theorem insertProcQ_append (h : Ring pcb.p_next tp l) (hFresh : p ∉ l) :
    ∃ next, insertProcQ pcb tp (some p) = .ok ({ pcb with p_next := next }, some p) ∧
      Ring next (some p) (l ++ [p]) ∧ ∀ q, q ∉ p :: l → next q = pcb.p_next q := by
  cases tp with
  | none =>
      cases Ring.none_iff.mp h
      refine ⟨update pcb.p_next p (some p), rfl, Ring.singleton (by simp), ?_⟩
      intro q hq
      exact Function.update_of_ne (by simpa using hq) ..
  | some t =>
      have htp : t ≠ p := by
        rintro rfl
        exact hFresh h.tail_mem
      refine ⟨update (update pcb.p_next p (pcb.p_next t)) t (some p), rfl, ?_, ?_⟩
      · apply h.enqueue hFresh
        · simp
        · simp [Function.update_of_ne htp.symm]
        · intro y hy hyt
          have hyp : y ≠ p := by
            rintro rfl
            exact hFresh hy
          simp [Function.update_of_ne hyt, Function.update_of_ne hyp]
      · intro q hq
        have hqt : q ≠ t := by
          rintro rfl
          exact hq (List.mem_cons_of_mem _ h.tail_mem)
        rw [Function.update_of_ne hqt]
        exact Function.update_of_ne (List.ne_of_not_mem_cons hq) ..

@[simp] theorem removeProcQ_none : removeProcQ pcb none = .ok (pcb, none, none) := rfl

/-- `removeProcQ` returns the head, whose own link is left as it was. -/
theorem removeProcQ_head (h : Ring pcb.p_next tp (p :: l)) :
    ∃ next tp', removeProcQ pcb tp = .ok ({ pcb with p_next := next }, tp', some p) ∧
      Ring next tp' l ∧ ∀ q, q ∉ l → next q = pcb.p_next q := by
  cases tp with
  | none => cases Ring.none_iff.mp h
  | some t =>
      have hHead : pcb.p_next t = some p := h.next_tail
      by_cases hEq : t = p
      · subst hEq
        have hl : l = [] := by simpa using h.eq_singleton hHead
        subst hl
        exact ⟨pcb.p_next, none, by simp [removeProcQ, hHead], rfl, fun _ _ => rfl⟩
      · refine ⟨update pcb.p_next t (pcb.p_next p), some t, ?_, ?_, ?_⟩
        · simp [removeProcQ, hHead, hEq, PcbTable.setNext]
        · apply h.dequeue (Ne.symm hEq)
          · simp
          · intro z _ hz
            exact Function.update_of_ne hz ..
        · intro q hq
          apply Function.update_of_ne
          rintro rfl
          exact hq ((List.mem_cons.mp h.tail_mem).resolve_left hEq)

theorem outProcQSearch_pass {w w' : P} (hNext : pcb.p_next w = some w') (hTail : w' ≠ t)
    (hp : w' ≠ p) :
    outProcQSearch pcb (some t) (some p) (some w) = .ok (.inl (some w')) := by
  simp [outProcQSearch, hNext, hTail, hp]

theorem outProcQSearch_tail {w : P} (hNext : pcb.p_next w = some t) :
    outProcQSearch pcb (some t) (some p) (some w) = .ok (.inr (.inr w)) := by
  simp [outProcQSearch, hNext]

/-- A search for the tail, or for a block that is not queued, walks once around
the ring and stops at the cell before the tail. -/
theorem outProcQ_search_around (h : Ring pcb.p_next (some t) l) (hp : p ∈ l → p = t)
    {fuel : ℕ} (hFuel : l.length ≤ fuel) :
    ∃ v, pcb.p_next v = some t ∧
      loop (outProcQSearch pcb (some t) (some p)) fuel (some t) = .ok (.inr v) := by
  obtain ⟨m, rfl, hSeg, hNodup⟩ := h.turn
  rw [← List.append_nil m] at hSeg
  have hPass (w w' : P) (hw' : w' ∈ m) (hNext : pcb.p_next w = some w') :
      outProcQSearch pcb (some t) (some p) (some w) = .ok (.inl (some w')) := by
    have hTail : w' ≠ t := by
      rintro rfl
      exact (List.nodup_cons.mp hNodup).1 hw'
    refine outProcQSearch_pass hNext hTail ?_
    rintro rfl
    exact hTail (hp (List.mem_append_left _ hw'))
  obtain ⟨-, v, -, hLast, hLoop⟩ := hSeg.search some .inr hPass
    (fun w hw => outProcQSearch_tail hw) fuel (by simp at hFuel; omega)
  exact ⟨v, hLast, hLoop⟩

/-- `outProcQ` of the tail empties the queue, whatever else is in it: the cell
before the tail always links to the tail, so the test for a lone element holds. -/
theorem outProcQ_tail (h : Ring pcb.p_next (some t) l) {fuel : ℕ} (hFuel : l.length ≤ fuel) :
    outProcQ fuel pcb (some t) (some t) = .ok (pcb.setNext t none, none, some t) := by
  obtain ⟨v, hv, hLoop⟩ := outProcQ_search_around h (fun _ => rfl) hFuel
  simp [outProcQ, hLoop, hv]

/-- `outProcQ` of a block that is not queued changes nothing. -/
theorem outProcQ_absent (h : Ring pcb.p_next (some t) l) (hp : p ∉ l) {fuel : ℕ}
    (hFuel : l.length ≤ fuel) :
    outProcQ fuel pcb (some t) (some p) = .ok (pcb, some t, none) := by
  obtain ⟨v, -, hLoop⟩ := outProcQ_search_around h (fun hm => absurd hm hp) hFuel
  have htp : t ≠ p := by
    rintro rfl
    exact hp h.tail_mem
  simp [outProcQ, hLoop, htp]

/-- If `outProcQ` returns, then with more fuel it returns the same. -/
theorem outProcQ_mono {tp p : Option P} {result : PcbTable P × Option P × Option P}
    {fuel fuel' : ℕ} (h : outProcQ fuel pcb tp p = .ok result) (hFuel : fuel ≤ fuel') :
    outProcQ fuel' pcb tp p = .ok result := by
  obtain ⟨found, hLoop, hRest⟩ := Outcome.bind_eq_ok.mp h
  exact Outcome.bind_eq_ok.mpr ⟨found, loop_mono hLoop hFuel, hRest⟩

/-- The loop condition reads through the tail pointer before any test. -/
theorem outProcQ_none (fuel : ℕ) : outProcQ (fuel + 1) pcb none (some p) = .error .nullDeref := by
  have hBody : outProcQSearch pcb none (some p) none = .error .nullDeref := rfl
  simp [outProcQ, loop_stop hBody]

/-- `outProcQ` never hands out a block that is not queued, empty queue included. -/
theorem outProcQ_not_mem (h : Ring pcb.p_next tp l) (hp : p ∉ l) {fuel : ℕ}
    {result : PcbTable P × Option P × Option P}
    (hReturn : outProcQ fuel pcb tp (some p) = .ok result) : result.2.2 = none := by
  cases tp with
  | none =>
      have hMore := outProcQ_mono hReturn (Nat.le_succ fuel)
      rw [outProcQ_none] at hMore
      cases hMore
  | some t =>
      have hMore := outProcQ_mono hReturn (Nat.le_add_right fuel l.length)
      rw [outProcQ_absent h hp (Nat.le_add_left ..)] at hMore
      cases hMore
      rfl

/-- `outProcQ` of a block other than the tail takes it out and keeps the order of
the others. -/
theorem outProcQ_inner (h : Ring pcb.p_next (some t) l) (hp : p ∈ l) (hTail : p ≠ t)
    {fuel : ℕ} (hFuel : l.length ≤ fuel) :
    ∃ next, outProcQ fuel pcb (some t) (some p) =
        .ok ({ pcb with p_next := next }, some t, some p) ∧
      Ring next (some t) (l.erase p) ∧ next p = none ∧ ∀ q, q ∉ l → next q = pcb.p_next q := by
  obtain ⟨pre, v, post, l₁, rfl, hPre, hList, hPath, hv, hOut⟩ := h.exists_pred hp hTail
  have hpPre : p ∉ pre := fun hm =>
    (List.nodup_cons.mp (List.nodup_middle.mp h.nodup)).1 (List.mem_append_left _ hm)
  have hvMem : v ∈ t :: pre := hList ▸ List.mem_append_right _ (List.mem_singleton_self v)
  have hvp : v ≠ p := by
    rintro rfl
    exact (List.mem_cons.mp hvMem).elim hTail hpPre
  obtain ⟨spare, rfl⟩ : ∃ spare, fuel = pre.length + (spare + 1) :=
    ⟨fuel - pre.length - 1, by simp at hFuel; omega⟩
  have hFound : outProcQSearch pcb (some t) (some p) (some v) = .ok (.inr (.inl
      ((pcb.setNext v (pcb.p_next p)).setNext p none, some t, some p))) := by
    simp [outProcQSearch, hv, hTail]
  have hLoop : loop (outProcQSearch pcb (some t) (some p)) (pre.length + (spare + 1)) (some t) =
      .ok (.inl ((pcb.setNext v (pcb.p_next p)).setNext p none, some t, some p)) := by
    rw [loop_walk some hPath hList, loop_exit hFound]
    intro w w' hw' hNext
    apply outProcQSearch_pass hNext
    · rintro rfl
      exact hPre hw'
    · rintro rfl
      exact hpPre hw'
  refine ⟨update (update pcb.p_next v (pcb.p_next p)) p none, ?_, ?_, by simp, ?_⟩
  · simp [outProcQ, hLoop, PcbTable.setNext]
  · rw [List.erase_append_right _ hpPre, List.erase_cons_head]
    apply hOut
    · simp [Function.update_of_ne hvp]
    · intro y _ hyv hyp
      simp [Function.update_of_ne hyv, Function.update_of_ne hyp]
  · intro q hq
    have hqp : q ≠ p := by
      rintro rfl
      exact hq hp
    have hqv : q ≠ v := by
      rintro rfl
      rcases List.mem_cons.mp hvMem with rfl | hm
      · exact hq h.tail_mem
      · exact hq (List.mem_append_left _ hm)
    simp [Function.update_of_ne hqp, Function.update_of_ne hqv]

end Queue

end Nucleus
