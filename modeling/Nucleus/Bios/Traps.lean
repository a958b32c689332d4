import Nucleus.Bios.Load

/-! From an exception to the state of the new area, and back. An exception leaves the state
of the interrupted program in the old area, and `LDST` of that area resumes the program. -/
namespace Nucleus.Bios

open Arm Arm.Reg Semantics

section Areas

theorem newArea_apart (kind : Kind) : Apart (newArea kind) := by
  cases kind <;> unfold Apart <;> decide

/-- The areas of the exceptions do not meet. -/
theorem areas_disjoint (kind kind' : Kind) :
    ∀ i < 22, ∀ j < 22, word (oldArea kind) i ≠ word (newArea kind') j := by
  cases kind <;> cases kind' <;> decide

theorem oldAreas_disjoint {kind kind' : Kind} (h : kind ≠ kind') :
    ∀ i < 22, ∀ j < 22, word (oldArea kind) i ≠ word (oldArea kind') j := by
  cases kind <;> cases kind' <;> first | exact absurd rfl h | decide

theorem Apart.notMem_frame {a : Word} {i : ℕ} (h : Apart a) (hi : i < 22) : word a i ∉ frame :=
  fun hMem => h i hi (List.mem_append_left _ hMem)

end Areas

/-- What `LDST` leaves depends on the memory outside the stack, and on the coprocessor. -/
theorem Loaded.congr {m m' t : Machine} {a : Word} {b : Bank} (h : Loaded m a b t)
    (hApart : Apart a) (hMem : ∀ x ∉ frame, m.mem x = m'.mem x) (hCp : m.cp15 = m'.cp15) :
    Loaded m' a b t := by
  have hState (i : ℕ) (hi : i < 22) : m.mem (word a i) = m'.mem (word a i) :=
    hMem _ (hApart.notMem_frame hi)
  refine ⟨?_, fun i hi => ?_, ?_, fun op2 hOp => ?_, fun op2 => ?_, fun x hx => ?_⟩
  · rw [h.cpsr, hState 16 (by omega)]
  · rw [h.regs i hi, hState i (Nat.lt_of_lt_of_le hi (by decide))]
  · rw [h.control, hState 17 (by omega)]
  · rw [h.entryHi op2 hOp, hState 18 (by omega), hCp]
  · rw [h.cause, hCp]
  · rw [h.mem x hx, hMem x hx]

section Save

variable {B : Platform} {kind : Kind} {md : BitVec 5} {link : Word} {m u : Machine}

/-- The words that an exception in mode `md` puts into the old area. -/
def trapWords (B : Platform) (kind : Kind) (md : BitVec 5) (link : Word) (m : Machine) :
    List Word :=
  if bank m.cpsr = modeBank md then stateWords m link (reaching m.cpsr) (B.saved kind)
  else context m link

/-- The interrupted machine with the old area filled. -/
def saving (B : Platform) (kind : Kind) (md : BitVec 5) (link : Word) (m : Machine) : Machine :=
  m.setMem (storeWords m.mem (oldArea kind) (trapWords B kind md link m))

theorem trapWords_length : (trapWords B kind md link m).length = 22 := by
  unfold trapWords
  split <;> rfl

theorem saving_holds :
    Holds (saving B kind md link m).mem (oldArea kind) (trapWords B kind md link m) :=
  storeWords_holds (by rw [trapWords_length]; decide)

theorem saving_ne {x : Word} (h : ∀ i < 22, word (oldArea kind) i ≠ x) :
    (saving B kind md link m).mem x = m.mem x :=
  storeWords_ne fun i hi => h i (by rwa [trapWords_length] at hi)

/-- A handler behind its frame. -/
theorem Framed.loaded (h : Framed m link u) (hMode : ValidMode m.cpsr)
    (hBank : bank u.cpsr = modeBank md) :
    Loaded (saving B kind md link m) (newArea kind)
      (filled B u.cpsr (m.mem (word (newArea kind) 16))) (saveAndLoad B kind u) := by
  obtain ⟨psr, hMem, hBank', -, hCp⟩ := exec_save B kind h hMode
  obtain ⟨w, hw⟩ : ∃ w, w = exec (save B kind) u := ⟨_, rfl⟩
  rw [← hw, hBank, ← trapWords] at hMem
  rw [← hw] at hBank' hCp
  obtain ⟨v, hv⟩ : ∃ v, v = w.set r0 (newArea kind) := ⟨_, rfl⟩
  have hLDST : saveAndLoad B kind u = LDST B v := by
    rw [saveAndLoad, exec_append, ← hw, hv]
    rfl
  have hOutside (x : Word) (hx : x ∉ frame) : v.mem x = (saving B kind md link m).mem x := by
    have hCells : ∀ j < 3, word 0x7FF0#32 j ∈ frame := by decide
    have hFrame : storeWords m.mem 0x7FF0#32 [m.get r0, link, psr] x = m.mem x :=
      storeWords_ne fun j hj hEq => hx (hEq ▸ hCells j hj)
    rw [hv]
    exact (congrFun hMem x).trans (storeWords_congr hFrame _ _)
  have hNew : v.mem (word (newArea kind) 16) = m.mem (word (newArea kind) 16) := by
    rw [hOutside _ ((newArea_apart kind).notMem_frame (by omega))]
    exact saving_ne fun i hi => areas_disjoint kind kind i hi 16 (by omega)
  have hFilled : filled B v.cpsr (m.mem (word (newArea kind) 16)) =
      filled B u.cpsr (m.mem (word (newArea kind) 16)) := by
    have hvBank : bank v.cpsr = bank u.cpsr := by
      rw [hv]
      exact hBank'
    rw [filled, filled, hvBank]
  have hr0 : v.get r0 = newArea kind := by
    rw [hv]
    exact Machine.setView_view_self
  have hLoaded := LDST_loaded (B := B) (newArea_apart kind) hr0
  rw [hNew, hFilled, ← hLDST] at hLoaded
  have hvCp : v.cp15 = m.cp15 := by
    rw [hv]
    exact hCp
  exact hLoaded.congr (newArea_apart kind) hOutside hvCp

end Save

section Fault

/-- A word has no bit outside a mask. -/
theorem and_not_eq_zero_iff (x y : Word) : x &&& ~~~y = 0#32 ↔ x &&& y = x := by
  constructor
  · intro h
    apply BitVec.eq_of_getLsbD_eq
    intro i hi
    have hBit := congrArg (·.getLsbD i) h
    simp only [BitVec.getLsbD_and, BitVec.getLsbD_not, hi, BitVec.getLsbD_zero] at hBit ⊢
    revert hBit
    cases x.getLsbD i <;> cases y.getLsbD i <;> decide
  · intro h
    rw [← h, BitVec.and_assoc, BitVec.and_not_self]
    exact BitVec.and_zero

/-- The area of an abort, by its cause. -/
def faultKind (cause : Word) : Kind :=
  if 4#24 ≤ cause.setWidth 24 ∧ cause.setWidth 24 < 8#24 then .TLB else .PGMT

/-- The two checks of `PREFABT_H` look for the causes 4 to 7. -/
theorem fault_checks_iff (cause : Word) :
    (cause &&& 0xFFFFFF#32 &&& ~~~7#32 = 0#32 ∧ cause &&& 4#32 ≠ 0#32) ↔
      4#24 ≤ cause.setWidth 24 ∧ cause.setWidth 24 < 8#24 := by
  have hLow : (cause &&& 0xFFFFFF#32).toNat = cause.toNat % 2 ^ 24 := by
    rw [BitVec.toNat_and]
    exact Nat.and_two_pow_sub_one_eq_mod _ 24
  have hSeven (x : Word) : (x &&& 7#32).toNat = x.toNat % 8 := by
    rw [BitVec.toNat_and]
    exact Nat.and_two_pow_sub_one_eq_mod _ 3
  have hFour : cause &&& 4#32 ≠ 0#32 ↔ 4 ≤ cause.toNat % 8 := by
    have hDigit : ∀ y < 8, y &&& 4 ≠ 0 ↔ 4 ≤ y := by decide
    have hAnd : (cause &&& 4#32).toNat = cause.toNat % 8 &&& 4 := by
      rw [← hSeven, BitVec.toNat_and, BitVec.toNat_and, Nat.and_assoc]
      rfl
    rw [← hDigit _ (Nat.mod_lt _ (by omega)), ← hAnd, ne_eq, BitVec.toNat_eq]
    rfl
  rw [and_not_eq_zero_iff, BitVec.toNat_eq, hSeven, hLow, hFour, BitVec.le_def, BitVec.lt_def,
    BitVec.toNat_setWidth]
  have hConst : (4#24).toNat = 4 ∧ (8#24).toNat = 8 := by decide
  rw [hConst.1, hConst.2]
  omega

end Fault

section Handlers

variable {B : Platform} {md : BitVec 5} {link : Word} {m t : Machine}

/-- A check of `x` in the stack pointer of the handler. -/
def checked (x : Word) (t : Machine) : Machine :=
  (t.setCpsr (compare t.cpsr x 0#32)).setView (bank t.cpsr) sp x

theorem zero_checked (x : Word) (t : Machine) : zero (checked x t).cpsr = decide (x = 0#32) :=
  zero_compare ..

theorem bank_checked (x : Word) (t : Machine) : bank (checked x t).cpsr = bank t.cpsr :=
  bank_compare ..

/-- The stack pointer of the handler and the flags belong to the handler. -/
theorem Entered.check (h : Entered m link t) (x : Word) : Entered m link (checked x t) := by
  refine ⟨h.mem, ?_, ?_, fun r hsp hlr b => ?_, fun b hb => ⟨?_, ?_⟩, h.cp15⟩
  · rw [bank_checked]
    exact h.spsr
  · rw [Machine.get, bank_checked, ← h.link]
    exact Machine.setView_view_ne (by decide)
  · rw [← h.shared r hsp hlr b]
    exact Machine.setView_view_ne hsp
  · rw [bank_checked] at hb
    rw [← (h.banked b hb).1]
    exact Machine.setView_view_bank hb (.inl rfl)
  · rw [bank_checked] at hb
    rw [← (h.banked b hb).2]
    exact Machine.setView_view_ne (by decide)

/-- `PREFABT_H` with its two checks. -/
theorem PREFABT_H_eq (t : Machine) :
    let cause := t.cp15 (15, 0)
    let high := cause &&& 0xFFFFFF#32 &&& ~~~7#32
    let low := cause &&& 4#32
    PREFABT_H B t =
      if high = 0#32 then
        if low = 0#32 then UNDEF_H B (checked low (checked high t))
        else TLB_H B (checked low (checked high t))
      else UNDEF_H B (checked high t) := by
  intro cause high low
  have hHigh (t : Machine) : exec [mrc sp 15 0, andImm sp sp 0xFFFFFF, bicImm sp sp 7,
      cmpImm sp 0] t = checked (t.cp15 (15, 0) &&& 0xFFFFFF#32 &&& ~~~7#32) t := by
    simp [checked, mrc, andImm, bicImm, cmpImm, Machine.get, Machine.set]
  have hLow (t : Machine) : exec [mrc sp 15 0, andImm sp sp 4, cmpImm sp 0] t =
      checked (t.cp15 (15, 0) &&& 4#32) t := by
    simp [checked, mrc, andImm, cmpImm, Machine.get, Machine.set]
  simp only [PREFABT_H, hHigh, hLow, zero_checked, decide_eq_true_eq]
  rfl

/-- So do `r0`, which is on the stack, and the cause of a breakpoint. -/
theorem Framed.setR0 (h : Framed m link t) (x : Word) : Framed m link (t.set r0 x) := by
  have hGeneral : ∀ r ∈ general, r ≠ r0 := by decide
  refine ⟨h.mem, h.spsr, fun r hr b => ?_, fun b hb => ⟨?_, ?_⟩, h.cp15⟩
  · rw [← h.shared r hr b]
    exact Machine.setView_view_ne (hGeneral r hr)
  · rw [← (h.banked b hb).1]
    exact Machine.setView_view_ne (by decide)
  · rw [← (h.banked b hb).2]
    exact Machine.setView_view_ne (by decide)

theorem Framed.setFlags (h : Framed m link t) (x y : Word) :
    Framed m link (t.setCpsr (compare t.cpsr x y)) := by
  have hBank : bank (t.setCpsr (compare t.cpsr x y)).cpsr = bank t.cpsr := bank_compare ..
  refine ⟨?_, ?_, h.shared, fun b hb => ?_, h.cp15⟩
  · rw [hBank]
    exact h.mem
  · rw [hBank]
    exact h.spsr
  · rw [hBank] at hb
    exact h.banked b hb

theorem Framed.setCause (h : Framed m link t) (x : Word) :
    Framed (m.setCp15 (15, 0) x) link (t.setCp15 (15, 0) x) := by
  refine ⟨h.mem, h.spsr, h.shared, h.banked, ?_⟩
  rw [Machine.setCp15_cp15, Machine.setCp15_cp15, h.cp15]

theorem bank_exec_pushFrame (m : Machine) : bank (exec pushFrame m).cpsr = bank m.cpsr := by
  rw [exec_pushFrame]
  rfl

theorem bank_take (md : BitVec 5) (link : Word) (m : Machine) :
    bank (take md link m).cpsr = modeBank md := congrArg modeBank (mode_entryPsr ..)

theorem filled_congr {p q : Word} (h : bank p = bank q) (psr : Word) :
    filled B p psr = filled B q psr := by rw [filled, filled, h]

/-- Control is at the new area, and the old area holds the interrupted state. -/
def Trapped (B : Platform) (kind : Kind) (md : BitVec 5) (link : Word) (m t : Machine) : Prop :=
  Loaded (saving B kind md link m) (newArea kind)
    (filled B (entryPsr m.cpsr md) (m.mem (word (newArea kind) 16))) t

theorem Framed.trapped (h : Framed m link t) (hMode : ValidMode m.cpsr)
    (hBank : bank t.cpsr = modeBank md) (kind : Kind) :
    Trapped B kind md link m (saveAndLoad B kind t) := by
  have hEntry : bank t.cpsr = bank (entryPsr m.cpsr md) :=
    hBank.trans (congrArg modeBank (mode_entryPsr ..)).symm
  rw [Trapped, ← filled_congr hEntry]
  exact h.loaded hMode hBank

theorem Entered.trapped (h : Entered m link t) (hMode : ValidMode m.cpsr)
    (hBank : bank t.cpsr = modeBank md) (kind : Kind) :
    Trapped B kind md link m (saveAndLoad B kind (exec pushFrame t)) :=
  h.framed.trapped hMode ((bank_exec_pushFrame t).trans hBank) kind

/-- An abort goes to the handler of its cause, in whatever way the checks come to it. -/
theorem Entered.aborted (h : Entered m link t) (hMode : ValidMode m.cpsr)
    (hBank : bank t.cpsr = modeBank md) :
    Trapped B (faultKind (m.cp15 (15, 0))) md link m (PREFABT_H B t) := by
  have hCause := fault_checks_iff (m.cp15 (15, 0))
  have hFirst := h.check (m.cp15 (15, 0) &&& 0xFFFFFF#32 &&& ~~~7#32)
  have hSecond := hFirst.check (m.cp15 (15, 0) &&& 4#32)
  have hFirstBank := (bank_checked (m.cp15 (15, 0) &&& 0xFFFFFF#32 &&& ~~~7#32) t).trans hBank
  have hSecondBank := (bank_checked (m.cp15 (15, 0) &&& 4#32) _).trans hFirstBank
  simp only [PREFABT_H_eq, h.cp15, faultKind, ← hCause]
  by_cases hHigh : m.cp15 (15, 0) &&& 0xFFFFFF#32 &&& ~~~7#32 = 0#32
  · by_cases hLow : m.cp15 (15, 0) &&& 4#32 = 0#32
    · rw [if_pos hHigh, if_pos hLow, if_neg fun hBoth => hBoth.2 hLow]
      exact hSecond.trapped hMode hSecondBank .PGMT
    · rw [if_pos hHigh, if_neg hLow, if_pos ⟨hHigh, hLow⟩]
      exact hSecond.trapped hMode hSecondBank .TLB
  · rw [if_neg hHigh, if_neg fun hBoth => hHigh hBoth.1]
    exact hFirst.trapped hMode hFirstBank .PGMT

end Handlers

end Nucleus.Bios
