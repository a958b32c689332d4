import Nucleus.Bios.Boot
import Nucleus.Bios.Refinement

/-! `BOOT` and `main` together. `main` means to put its handlers into the new areas, but it
counts bytes where its pointer counts words: the stores for one exception end in the area of
another, and `pc` is nowhere among them. -/
namespace Nucleus.Bios

open Arm Arm.Reg Semantics

variable {P D : Type}

/-- The status register of a new area after `main`. -/
def mainPsr (sym : Symbols) : Kind → Word
  | .INT => bootPsr .INT
  | .TLB => sym.interruptHandler
  | .PGMT => sym.TLBHandler
  | .SWI => sym.PGMTHandler

/-- The two stores of `main` for an exception. -/
theorem setVector_self (k : Kernel P D) (tmp handler : Word) :
    (k.setVector tmp handler).words (element tmp (15 * size)) = handler := by
  have hNe : element tmp (15 * size) ≠ element tmp (13 * size) := fun hEq => by
    have hIndex := Arm.word_inj (by decide) (by decide) hEq
    simp [size] at hIndex
  simp [Kernel.setVector, Kernel.store, Function.update_of_ne hNe]

/-- Where the addresses of the handlers go. -/
theorem vectorSetup_psr (sym : Symbols) (k : Kernel P D)
    (hBoot : k.words (word (newArea .INT) 16) = bootPsr .INT) (kind : Kind) :
    (k.vectorSetup sym).words (word (newArea kind) 16) = mainPsr sym kind := by
  cases kind with
  | INT => exact (Kernel.vectorSetup_words sym k (by decide)).trans hBoot
  | TLB =>
      have hCell : word (newArea .TLB) 16 = element INT_NEWAREA (15 * size) := by decide
      rw [hCell, Kernel.vectorSetup, Kernel.setVector_words (by decide) (by decide),
        Kernel.setVector_words (by decide) (by decide),
        Kernel.setVector_words (by decide) (by decide), setVector_self]
      rfl
  | PGMT =>
      have hCell : word (newArea .PGMT) 16 = element TLB_NEWAREA (15 * size) := by decide
      rw [hCell, Kernel.vectorSetup, Kernel.setVector_words (by decide) (by decide),
        Kernel.setVector_words (by decide) (by decide), setVector_self]
      rfl
  | SWI =>
      have hCell : word (newArea .SWI) 16 = element PGMTRAP_NEWAREA (15 * size) := by decide
      rw [hCell, Kernel.vectorSetup, Kernel.setVector_words (by decide) (by decide),
        setVector_self]
      rfl

theorem vectorSetup_pc (sym : Symbols) (k : Kernel P D) (kind : Kind) :
    (k.vectorSetup sym).words (word (newArea kind) 15) = k.words (word (newArea kind) 15) :=
  Kernel.vectorSetup_words sym k (by cases kind <;> decide)

/-- A machine on which the new areas are as `BOOT` and then `main` have left them. -/
structure Prefilled (L : Labels) (sym : Symbols) (k : Kernel P D) (m u : Machine) : Prop where
  boot : ∀ kind, ∀ i ∈ [15, 16],
    k.words (word (newArea kind) i) = (exec (BOOT L) m).mem (word (newArea kind) i)
  main : ∀ kind, ∀ i ∈ [15, 16],
    u.mem (word (newArea kind) i) = (k.vectorSetup sym).words (word (newArea kind) i)

/-- No exception comes to a handler of the nucleus: all go to `PANIC` of the BIOS, and the
status register of all but the interrupts is one of the addresses that `main` has stored. -/
theorem exceptions_panic (B : Platform) (L : Labels) (sym : Symbols) (k : Kernel P D)
    (m u : Machine) (v : Vector) (link : Word) (kind : Kind) (hBank : bank m.cpsr = .svc)
    (hTop : TopApart m) (hAreas : Prefilled L sym k m u) (hMode : ValidMode u.cpsr)
    (hCode : v = .SWI → link - 4#32 ∉ frame) (hKind : trapKind B link u v = some kind) :
    ∃ t, raise B v link u = .ok t ∧ t.get pc = L.base + L.PANIC ∧ t.cpsr = mainPsr sym kind := by
  obtain ⟨t, hRaise, h⟩ := raise_trapped hMode hCode hKind
  have hBoot (kind : Kind) : k.words (word (newArea kind) 15) = L.base + L.PANIC ∧
      k.words (word (newArea kind) 16) = bootPsr kind := by
    obtain ⟨hPc, hPsr⟩ := mem_areaTable L kind
    rw [hAreas.boot kind 15 (by decide), hAreas.boot kind 16 (by decide)]
    exact ⟨exec_BOOT_cell L hBank hTop (List.mem_append_right _ hPc),
      exec_BOOT_cell L hBank hTop (List.mem_append_right _ hPsr)⟩
  have hNew (i : ℕ) (hi : i < 22) : (saving B kind v.mode link (interrupted B v link u)).mem
      (word (newArea kind) i) = u.mem (word (newArea kind) i) := by
    rw [saving_ne fun j hj => areas_disjoint kind kind j hj i hi, interrupted_mem]
  refine ⟨t, hRaise, ?_, ?_⟩
  · have hPc := h.regs 15 (by decide)
    rw [hNew 15 (by omega), hAreas.main kind 15 (by decide), vectorSetup_pc, (hBoot kind).1] at hPc
    exact hPc
  · rw [h.cpsr_eq, interrupted_mem, hAreas.main kind 16 (by decide),
      vectorSetup_psr sym k (hBoot .INT).2]

/-- The memory of a nucleus that starts after `BOOT`. -/
def started (m : Machine) : Kernel (Fin 1) Unit :=
  { Kernel.zero (Fin 1) Unit with words := (exec (BOOT (romLabels 0x300)) m).mem }

/-- A TLB fault: the address of the handler of interrupts has become a status register. -/
theorem exceptions_panic_fault : ∃ t,
    raise (rom 0x300 fun _ loaded => loaded) .DATAABT 0x9000
        ⟨fun _ => 0, 0x10, fun _ => 0,
          ((started (reset fun _ => 0x8000)).vectorSetup
            ⟨0x8100, 0x8104, 0x8108, 0x810C, 0, 0⟩).words, fun _ => 4⟩ = .ok t ∧
      t.get pc = 0x300#32 + 0x2CC#32 ∧ t.cpsr = 0x8100#32 :=
  exceptions_panic _ (romLabels 0x300) ⟨0x8100, 0x8104, 0x8108, 0x810C, 0, 0⟩
    (started (reset fun _ => 0x8000)) (reset fun _ => 0x8000) _ .DATAABT 0x9000 .TLB (by decide)
    ⟨by decide, by decide⟩ ⟨fun _ _ _ => rfl, fun _ _ _ => rfl⟩ (by unfold ValidMode; decide)
    (fun hSwi => by cases hSwi) (by decide)

end Nucleus.Bios
