import Nucleus.Bios.Services

/-! The way back. What an exception has saved is resumed by `LDST`, whatever has run in
between, as long as nothing writes the old area. A program that is interrupted in the mode
of the handler is the exception: its `sp` and `lr` are gone. -/
namespace Nucleus.Bios

open Arm Arm.Reg Semantics

section State

variable {m t u : Machine} {a link stack ret : Word} {b : Bank}

/-- The register values of a state whose stack pointer and link register are given. -/
def value (m : Machine) (link stack ret : Word) : Reg → Word
  | .sp => stack
  | .lr => ret
  | .pc => link
  | r => m.get r

theorem stateWords_inj {stack' ret' : Word}
    (h : stateWords m link stack ret = stateWords m link stack' ret') :
    stack = stack' ∧ ret = ret' := by
  have hStack := congrArg (·[13]?) h
  have hRet := congrArg (·[14]?) h
  exact ⟨Option.some.inj hStack, Option.some.inj hRet⟩

/-- A program goes on at `link` as if nothing had happened. -/
structure Resumed (m : Machine) (link : Word) (t : Machine) : Prop where
  cpsr : t.cpsr = m.cpsr
  regs : ∀ r, r ≠ pc → t.get r = m.get r
  pc : t.get pc = link
  control : t.cp15 (1, 0) = m.cp15 (1, 0)

theorem Loaded.value {rest : List Word} (h : Loaded t a b u)
    (hHolds : Holds t.mem a (stateRegs.map (value m link stack ret) ++ rest)) (r : Reg) :
    u.view b r = value m link stack ret r := by
  have hMem : r ∈ stateRegs := by cases r <;> decide
  obtain ⟨i, hi, rfl⟩ := List.getElem_of_mem hMem
  have hMap : i < (stateRegs.map (Bios.value m link stack ret)).length := by
    rwa [List.length_map]
  have hWord : (stateRegs.map (Bios.value m link stack ret) ++ rest)[i]? =
      some (Bios.value m link stack ret stateRegs[i]) := by
    rw [List.getElem?_append_left hMap, List.getElem?_map, List.getElem?_eq_getElem hi]
    rfl
  exact (h.regs i hi).trans (hHolds.word_eq hWord)

/-- A loaded state is that of the program, but for `sp` and `lr` as they were saved. -/
theorem Loaded.resumed_iff (h : Loaded t a b u)
    (hHolds : Holds t.mem a (stateWords m link stack ret)) (hb : b = bank m.cpsr) :
    Resumed m link u ↔ m.get sp = stack ∧ m.get lr = ret := by
  have hCpsr : u.cpsr = m.cpsr := h.cpsr.trans (hHolds 16 (by show 16 < 22; omega))
  have hGet (r : Reg) : u.get r = Bios.value m link stack ret r := by
    rw [Machine.get, hCpsr, ← hb]
    exact h.value hHolds r
  constructor
  · intro hResumed
    have hsp := hResumed.regs sp (by decide)
    have hlr := hResumed.regs lr (by decide)
    rw [hGet] at hsp hlr
    exact ⟨hsp.symm, hlr.symm⟩
  · intro hSame
    obtain ⟨hStack, hRet⟩ := hSame
    have hControl := h.control.trans (hHolds 17 (by show 17 < 22; omega))
    refine ⟨hCpsr, fun r hr => ?_, hGet pc, hControl⟩
    rw [hGet]
    cases r with
    | sp => exact hStack.symm
    | lr => exact hRet.symm
    | pc => exact absurd rfl hr
    | _ => rfl

end State

section Trap

variable {B : Platform} {kind : Kind} {md : BitVec 5} {link x : Word} {m t : Machine}

theorem Trapped.mem_saving (h : Trapped B kind md link m t) (hx : x ∉ frame) :
    t.mem x = (saving B kind md link m).mem x := h.mem x hx

theorem Trapped.holds (h : Trapped B kind md link m t) :
    Holds t.mem (oldArea kind) (trapWords B kind md link m) := by
  intro i hi
  rw [h.mem_saving ((oldArea_apart kind).notMem_frame (by rwa [trapWords_length] at hi))]
  exact saving_holds i hi

/-- All else in the memory is as it was, but for the stack. -/
theorem Trapped.mem_ne (h : Trapped B kind md link m t) (hx : x ∉ frame)
    (hArea : ∀ i < 22, word (oldArea kind) i ≠ x) : t.mem x = m.mem x := by
  rw [h.mem_saving hx, saving_ne hArea]

theorem Trapped.cpsr_eq (h : Trapped B kind md link m t) :
    t.cpsr = m.mem (word (newArea kind) 16) :=
  h.cpsr.trans (saving_ne fun j hj => areas_disjoint kind kind j hj 16 (by omega))

/-- The state is the interrupted one, unless the handler has come in its way. -/
def Undisturbed (B : Platform) (kind : Kind) (md : BitVec 5) (m : Machine) : Prop :=
  bank m.cpsr = modeBank md → m.get sp = reaching m.cpsr ∧ m.get lr = B.saved kind

theorem trapWords_eq_context_iff (B : Platform) (kind : Kind) (md : BitVec 5) (link : Word)
    (m : Machine) : trapWords B kind md link m = context m link ↔ Undisturbed B kind md m := by
  by_cases hBank : bank m.cpsr = modeBank md
  · rw [trapWords, if_pos hBank]
    constructor
    · intro h _
      obtain ⟨hStack, hRet⟩ := stateWords_inj h
      exact ⟨hStack.symm, hRet.symm⟩
    · intro h
      rw [context, (h hBank).1, (h hBank).2]
  · rw [trapWords, if_neg hBank]
    exact iff_of_true rfl fun hSame => absurd hSame hBank

/-- A load of an old area resumes the program exactly if its state is in the area. -/
theorem Loaded.resumed_trap_iff {b : Bank} {u : Machine} (h : Loaded t (oldArea kind) b u)
    (hHolds : Holds t.mem (oldArea kind) (trapWords B kind md link m)) (hb : b = bank m.cpsr) :
    Resumed m link u ↔ Undisturbed B kind md m := by
  by_cases hSame : bank m.cpsr = modeBank md
  · rw [trapWords, if_pos hSame] at hHolds
    rw [h.resumed_iff hHolds hb, Undisturbed]
    exact ⟨fun hWords _ => hWords, fun hWords => hWords hSame⟩
  · rw [trapWords, if_neg hSame] at hHolds
    rw [h.resumed_iff hHolds hb, Undisturbed]
    exact iff_of_true ⟨rfl, rfl⟩ fun hOther => absurd hOther hSame

theorem trapWords_cpsr (B : Platform) (kind : Kind) (md : BitVec 5) (link : Word) (m : Machine) :
    (trapWords B kind md link m)[16]? = some m.cpsr := by
  unfold trapWords
  split <;> rfl

end Trap

section Exception

variable {B : Platform} {v : Vector} {kind : Kind} {link : Word} {m : Machine}

theorem undisturbed_interrupted (B : Platform) (v : Vector) (kind : Kind) (link : Word)
    (m : Machine) : Undisturbed B kind v.mode (interrupted B v link m) ↔
      Undisturbed B kind v.mode m := by
  unfold interrupted
  split
  · rfl
  · rfl

/-- What an exception does to the machine as the rest of the system sees it. -/
structure Handled (B : Platform) (v : Vector) (kind : Kind) (link : Word) (m t : Machine) :
    Prop where
  saved : Holds t.mem (oldArea kind) (context (interrupted B v link m) link) ↔
    Undisturbed B kind v.mode m
  kept : ∀ x ∉ frame, (∀ i < 22, word (oldArea kind) i ≠ x) → t.mem x = m.mem x
  cpsr : t.cpsr = m.mem (word (newArea kind) 16)
  regs : ∀ i (hi : i < stateRegs.length),
    t.view (filled B (entryPsr m.cpsr v.mode) t.cpsr) stateRegs[i] = m.mem (word (newArea kind) i)

/-- Every exception but a service of the BIOS saves the interrupted program, leaves all
other memory outside its stack, and goes on with the state of the new area. The program is
saved in full unless it ran in the mode of the handler. -/
theorem exception_handled (B : Platform) (v : Vector) (link : Word) (m : Machine)
    (hMode : ValidMode m.cpsr) (hCode : v = .SWI → link - 4#32 ∉ frame)
    (hKind : trapKind B link m v = some kind) :
    ∃ t, raise B v link m = .ok t ∧ Handled B v kind link m t := by
  obtain ⟨t, hRaise, h⟩ := raise_trapped hMode hCode hKind
  have hMem := interrupted_mem B v link m
  have hPsr := interrupted_cpsr B v link m
  have hNew (i : ℕ) (hi : i < 22) : (saving B kind v.mode link (interrupted B v link m)).mem
      (word (newArea kind) i) = m.mem (word (newArea kind) i) := by
    rw [saving_ne fun j hj => areas_disjoint kind kind j hj i hi, hMem]
  have hCpsr : t.cpsr = m.mem (word (newArea kind) 16) := by rw [h.cpsr_eq, hMem]
  refine ⟨t, hRaise, ⟨?_, fun x hx hArea => ?_, hCpsr, fun i hi => ?_⟩⟩
  · rw [← undisturbed_interrupted B v kind link m, ← trapWords_eq_context_iff B kind v.mode link]
    constructor
    · intro hContext
      exact h.holds.unique hContext trapWords_length
    · intro hWords
      rw [← hWords]
      exact h.holds
  · rw [h.mem_ne hx hArea, hMem]
  · rw [← hNew i (Nat.lt_of_lt_of_le hi (by decide)), ← h.regs i hi, hCpsr, hMem, hPsr]

/-- A system call of a user program. -/
theorem exception_handled_program : ∃ t,
    raise (rom 0x300 fun _ loaded => loaded) .SWI 0x9004 program = .ok t ∧
      Handled (rom 0x300 fun _ loaded => loaded) .SWI .SWI 0x9004 program t :=
  exception_handled _ .SWI 0x9004 program (by unfold ValidMode; decide) (by decide) (by decide)

end Exception

end Nucleus.Bios
