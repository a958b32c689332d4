import Nucleus.Bios.Runs
import Nucleus.Kernel.Vectors

/-! The nucleus sees an exception as a store of the registers and a load of new ones. This is
what the handlers of the BIOS do, but for the words of their stack. -/
namespace Nucleus.Bios

open Arm Arm.Reg Semantics

variable {P D : Type}

/-- The machine as the nucleus sees it: the memory outside the stack of the handlers, the
registers of the current mode, and the words of a state that `LDST` gives back. -/
structure Represents (k : Kernel P D) (m : Machine) : Prop where
  mem : ∀ x ∉ frame, m.mem x = k.words x
  regs : ∀ i (hi : i < stateRegs.length),
    m.get stateRegs[i] = k.cpu ⟨i, Nat.lt_of_lt_of_le hi (by decide)⟩
  cpsr : m.cpsr = k.cpu ⟨16, by decide⟩
  control : m.cp15 (1, 0) = k.cpu ⟨17, by decide⟩

/-- The state of an interrupted program as an array. -/
def procState (m : Machine) (link : Word) : ProcState := fun i => (context m link).get i

section Words

variable {k : Kernel P D} {regs : ProcState} {x : Word}

theorem trap_words_ne (hx : ∀ i < 22, word (oldArea .SWI) i ≠ x) :
    (k.trap regs).words x = k.words x :=
  storeAll_same fun i hi hEq => absurd hEq (hx i hi)

theorem trap_words_area {i : ℕ} (hi : i < 22) :
    (k.trap regs).words (word (oldArea .SWI) i) = regs ⟨i, hi⟩ :=
  k.trap_words regs ⟨i, hi⟩

end Words

section Load

variable {k : Kernel P D} {m t : Machine} {a : Word} {b : Bank}

/-- A load of the nucleus, from the load of the BIOS. -/
theorem Loaded.represents (h : Loaded m a b t) (hMem : ∀ x ∉ frame, m.mem x = k.words x)
    (hApart : Apart a) (hb : b = bank (m.mem (word a 16))) : Represents (k.LDST a) t := by
  have hWord (i : ℕ) (hi : i < 18) :
      m.mem (word a i) = (k.LDST a).cpu ⟨i, Nat.lt_trans hi (by decide)⟩ := by
    rw [hMem _ (hApart.notMem_frame (by omega))]
    exact (if_pos (.inl hi)).symm
  refine ⟨fun x hx => ?_, fun i hi => ?_, ?_, ?_⟩
  · exact (h.mem x hx).trans (hMem x hx)
  · rw [Machine.get, h.cpsr, ← hb, h.regs i hi]
    exact hWord i (Nat.lt_of_lt_of_le hi (by decide))
  · rw [h.cpsr]
    exact hWord 16 (by omega)
  · rw [h.control]
    exact hWord 17 (by omega)

end Load

section Trap

variable {B : Platform} {k : Kernel P D} {md : BitVec 5} {link x : Word} {m t : Machine}

theorem saving_represents (hMem : ∀ x ∉ frame, m.mem x = k.words x)
    (hWords : trapWords B .SWI md link m = context m link) (hx : x ∉ frame) :
    (saving B .SWI md link m).mem x = (k.trap (procState m link)).words x := by
  by_cases hArea : ∃ i < 22, word (oldArea .SWI) i = x
  · obtain ⟨i, hi, rfl⟩ := hArea
    have hContext : Holds (saving B .SWI md link m).mem (oldArea .SWI)
        (trapWords B .SWI md link m) := saving_holds
    rw [hWords] at hContext
    rw [trap_words_area hi]
    exact hContext i hi
  · have hNe : ∀ i < 22, word (oldArea .SWI) i ≠ x := fun i hi hEq => hArea ⟨i, hi, hEq⟩
    rw [saving_ne hNe, trap_words_ne hNe, hMem x hx]

/-- The handler starts as the nucleus expects, with the interrupted state in the old area. -/
theorem Trapped.represents (h : Trapped B .SWI md link m t)
    (hMem : ∀ x ∉ frame, m.mem x = k.words x) (hOwn : Undisturbed B .SWI md m)
    (hb : filled B (entryPsr m.cpsr md) (m.mem (word (newArea .SWI) 16)) =
      bank (m.mem (word (newArea .SWI) 16))) :
    Represents ((k.trap (procState m link)).LDST SYSBK_NEWAREA) t := by
  have hNew : (saving B .SWI md link m).mem (word (newArea .SWI) 16) =
      m.mem (word (newArea .SWI) 16) :=
    saving_ne fun j hj => areas_disjoint .SWI .SWI j hj 16 (by omega)
  have hWords := (trapWords_eq_context_iff B .SWI md link m).mpr hOwn
  have hArea : newArea .SWI = SYSBK_NEWAREA := by decide
  rw [← hArea]
  refine Loaded.represents h (fun x hx => saving_represents hMem hWords hx)
    (newArea_apart .SWI) ?_
  rw [hNew, hb]

end Trap

section Runs

/-- What the nucleus sees of one step of the machine. -/
inductive Visible where
  | compute
  | syscall (regs : ProcState)
  | load (a : Word)

/-- The same for the nucleus: computation changes registers and memory, a system call or a
breakpoint is a `STST` and a `LDST`, and the service `LDST` is one itself. -/
inductive KernelStep : Kernel P D → Visible → Kernel P D → Prop where
  | compute (k : Kernel P D) (cpu : ProcState) (words : Word → Word) :
      KernelStep k .compute { k with cpu, words }
  | syscall (k : Kernel P D) (regs : ProcState) :
      KernelStep k (.syscall regs) ((k.trap regs).LDST SYSBK_NEWAREA)
  | load (k : Kernel P D) (a : Word) : KernelStep k (.load a) (k.LDST a)

/-- Some computation, or the instruction `SWI` in front of `link`. -/
inductive Action where
  | compute (next : Machine)
  | swi (link : Word)

/-- The load of a state fills the registers of the mode of the state. -/
def LoadsOwn (B : Platform) (m : Machine) (a : Word) : Prop :=
  filled B (entryPsr m.cpsr Vector.SWI.mode) (m.mem (word a 16)) = bank (m.mem (word a 16))

/-- Programs that call the system, or `LDST`, from another mode than that of the handler. -/
def callSystem (B : Platform) : System Machine Action Visible where
  Legal m
    | .compute _ => True
    | .swi link => link - 4#32 ∉ frame ∧
        (trapKind B link m .SWI = some .SWI ∧ ValidMode m.cpsr ∧
            Undisturbed B .SWI Vector.SWI.mode m ∧ LoadsOwn B m (newArea .SWI) ∨
          service m link = B.BIOS_SRV_LDST ∧ Apart (m.get r0) ∧ LoadsOwn B m (m.get r0))
  exec m
    | .compute next => return (next, .compute)
    | .swi link => do
        let t ← raise B .SWI link m
        return (t, if trapKind B link m .SWI = some .SWI then
          .syscall (procState (interrupted B .SWI link m) link) else .load (m.get r0))

variable {B : Platform} {k : Kernel P D} {link : Word} {m t : Machine}

theorem callSystem_swi {r : Visible} (hRaise : raise B .SWI link m = .ok t)
    (hr : (if trapKind B link m .SWI = some .SWI then
      .syscall (procState (interrupted B .SWI link m) link) else .load (m.get r0)) = r) :
    (callSystem B).exec m (.swi link) = .ok (t, r) := by
  rw [← hr]
  show (raise B .SWI link m >>= fun t => _) = _
  rw [hRaise]
  rfl

/-- The registers of a machine as the nucleus has them. -/
theorem exists_represents (k : Kernel P D) (m : Machine) :
    ∃ cpu words, Represents { k with cpu, words } m := by
  refine ⟨fun i => (stateRegs.map m.get ++ [m.cpsr, m.cp15 (1, 0)])[i]?.getD 0, m.mem,
    fun x _ => rfl, fun i hi => ?_, rfl, rfl⟩
  show _ = (stateRegs.map m.get ++ [m.cpsr, m.cp15 (1, 0)])[i]?.getD 0
  rw [List.getElem?_append_left (by rwa [List.length_map]), List.getElem?_map,
    List.getElem?_eq_getElem hi]
  rfl

theorem callSystem_refines (hNumbers : B.Distinct) :
    Refines (callSystem B) (KernelStep (P := P) (D := D)) (fun _ r => r)
      (fun m k => Represents k m) := by
  intro m k action hRep legal
  cases action with
  | compute next =>
      obtain ⟨cpu, words, hNext⟩ := exists_represents k next
      exact ⟨next, .compute, _, rfl, .compute k cpu words, hNext⟩
  | swi link =>
      obtain ⟨hCode, hTrap | hLoad⟩ := legal
      · obtain ⟨hKind, hMode, hOwn, hb⟩ := hTrap
        obtain ⟨t, hRaise, hTrapped⟩ := raise_trapped hMode (fun _ => hCode) hKind
        have hMem (x : Word) (hx : x ∉ frame) :
            (interrupted B .SWI link m).mem x = k.words x := by
          rw [interrupted_mem, hRep.mem x hx]
        have hb' := hb
        rw [LoadsOwn, ← interrupted_mem B .SWI link m, ← interrupted_cpsr B .SWI link m] at hb'
        have hOwn' := (undisturbed_interrupted B .SWI .SWI link m).mpr hOwn
        exact ⟨t, _, _, callSystem_swi hRaise (if_pos hKind), .syscall k _,
          hTrapped.represents hMem hOwn' hb'⟩
      · obtain ⟨hLDST, hApart, hb⟩ := hLoad
        obtain ⟨t, hRaise, hLoaded⟩ := raise_LDST hCode hNumbers hLDST hApart
        have hKind : trapKind B link m .SWI ≠ some .SWI := by
          rw [trapKind_LDST hNumbers hLDST]
          decide
        exact ⟨t, _, _, callSystem_swi hRaise (if_neg hKind), .load k _,
          hLoaded.represents hRep.mem hApart hb⟩

/-- Whatever programs run, and whenever they call: the machine does to the nucleus what a
store and a load of states would. -/
theorem callSystem_run (hNumbers : B.Distinct) {trace : List (Action × Visible)}
    (run : (callSystem B).Run m trace t) (hRep : Represents k m) :
    ∃ k', Steps KernelStep k (trace.map Prod.snd) k' ∧ Represents k' t :=
  (callSystem_refines hNumbers).run run hRep

/-- A system call of a user program. -/
theorem callSystem_run_program : ∃ t, ∃ k k' : Kernel (Fin 1) Unit, ∃ regs,
    (callSystem (rom 0x300 fun _ loaded => loaded)).Run program
        [(.swi 0x9004, .syscall regs)] t ∧
      Steps KernelStep k [.syscall regs] k' ∧ Represents k' t := by
  obtain ⟨B, hB⟩ : ∃ B, B = rom 0x300 fun _ loaded => loaded := ⟨_, rfl⟩
  rw [← hB]
  have hMode : ValidMode program.cpsr := by unfold ValidMode; decide
  have hKind : trapKind B 0x9004 program .SWI = some .SWI := by rw [hB]; decide
  have hNumbers : B.Distinct := by rw [hB]; unfold Platform.Distinct; decide
  have hLoads : LoadsOwn B program (newArea .SWI) := if_neg (by decide)
  obtain ⟨t, hRaise, -⟩ := raise_trapped hMode (by decide) hKind
  obtain ⟨cpu, words, hRep⟩ := exists_represents (.zero (Fin 1) Unit) program
  have run : (callSystem B).Run program [(.swi 0x9004, _)] t :=
    .cons ⟨by decide, .inl ⟨hKind, hMode, fun hSame => absurd hSame (by decide), hLoads⟩⟩
      (callSystem_swi hRaise (if_pos hKind)) (.nil t)
  obtain ⟨k', hSteps, hRep'⟩ := callSystem_run hNumbers run hRep
  exact ⟨t, _, k', _, run, hSteps, hRep'⟩

end Runs

end Nucleus.Bios
