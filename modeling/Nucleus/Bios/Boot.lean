import Nucleus.Bios.Services

/-! `BOOT` of `BIOS.s`: a branch to the handler in each exception vector, `PANIC` in the new
areas, and the start of the program in the memory. -/
namespace Nucleus.Bios

open Arm Arm.Reg Semantics

section Constants

/-- The addresses that `arch.h` gives as `BUS_REG_RAM_BASE` and `BUS_REG_RAM_SIZE`. -/
def RAMBASE_INFO : Word := BUS_REG_RAM_BASE

def RAMSIZE_INFO : Word := BUS_REG_RAM_SIZE

end Constants

/-- The address of `_start`, and the offsets of the labels from there. -/
structure Labels where
  base : Word
  handler : Vector → Word
  PANIC : Word
  HALT : Word

def Vector.address : Vector → Word
  | .UNDEF => 0x4
  | .SWI => 0x8
  | .PREFABT => 0xC
  | .DATAABT => 0x10
  | .IRQ => 0x18
  | .FIQ => 0x1C

section Code

variable (L : Labels)

/-- The branch to a handler from the vector in `r0`. -/
def bootBranch (handler : Word) : List Instr := [
  addImm r2 r1 handler,
  sub r2 r2 r0,
  subImm r2 r2 8,
  movLsr r2 r2 2,
  orr r2 r3 r2]

/-- The first instruction reads `pc`, which is two instructions ahead. -/
def bootVectors : List Instr := [
  movImm r1 (L.base + 8),
  subImm r1 r1 8,
  movImm r0 0,
  movImm r3 0xEA000000,
  movLsr r2 r1 2,
  orr r2 r3 r2,
  strPost r2 r0 4] ++
  bootBranch (L.handler .UNDEF) ++ [strPost r2 r0 4] ++
  bootBranch (L.handler .SWI) ++ [strPost r2 r0 4] ++
  bootBranch (L.handler .PREFABT) ++ [strPost r2 r0 4] ++
  bootBranch (L.handler .DATAABT) ++ [strPost r2 r0 8] ++
  bootBranch (L.handler .IRQ) ++ [strPost r2 r0 4] ++
  bootBranch (L.handler .FIQ) ++ [str r2 r0 0]

/-- `pc` and the status register of a new area, from its offset in `r0`. -/
def bootArea (new psr : Word) : List Instr := [
  addImm r2 r0 new,
  addImm r2 r2 PSR_OFFSET,
  subImm r2 r2 4,
  strPost r8 r2 4,
  movImm r9 psr,
  str r9 r2 0]

def bootAreas : List Instr := [
  movImm r0 EXCV_BASE,
  addImm r8 r1 L.PANIC] ++
  bootArea EXCV_INT_NEW 0xD2 ++
  bootArea EXCV_PGMT_NEW 0xDB ++
  bootArea EXCV_SWI_NEW 0xD3 ++
  bootArea EXCV_TLB_NEW 0xD7

/-- The entry point of the program, the stack at the end of the memory and the way to
`HALT`. -/
def bootProgram : List Instr := [
  movImm r3 0x8000,
  addImm r3 r3 4,
  ldr r2 r3 0,
  mov lr r2,
  movImm r0 0xDF,
  msrSpsr r0,
  addImm r0 r1 L.HALT,
  movImm r2 RAMSIZE_INFO,
  ldr r3 r2 0,
  movImm r2 RAMBASE_INFO,
  ldr r1 r2 0,
  add r3 r3 r1,
  subImm r2 r3 8,
  str r3 r2 0,
  str r0 r2 4,
  ldmUser r2 [sp, lr]]

def bootStart : List Instr := [
  movImm r0 0,
  movImm r1 0,
  movImm r2 0,
  movImm r3 0,
  movImm r8 0,
  movImm r9 0,
  movsPc lr]

def BOOT : List Instr := bootVectors L ++ bootAreas L ++ bootProgram L ++ bootStart

end Code

section Vectors

variable {m : Machine} {a base : Word}

/-- The registers between two vectors. -/
structure VectorRegs (base a : Word) (m : Machine) : Prop where
  r0 : m.get r0 = a
  r1 : m.get r1 = base
  r3 : m.get r3 = 0xEA000000#32

/-- What one part of `BOOT` changes besides general registers. -/
structure Stored (m : Machine) (cells : List (Word × Word)) (t : Machine) : Prop where
  mem : t.mem = writes m.mem cells
  cpsr : t.cpsr = m.cpsr
  spsr : t.spsr = m.spsr

theorem Stored.trans {cells cells' : List (Word × Word)} {t u : Machine} (h : Stored m cells t)
    (h' : Stored t cells' u) : Stored m (cells ++ cells') u := by
  refine ⟨?_, h'.cpsr.trans h.cpsr, h'.spsr.trans h.spsr⟩
  rw [writes_append, ← h.mem, h'.mem]

theorem exec_bootBranch (handler : Word) (h : VectorRegs base a m) :
    exec (bootBranch handler) m = m.set r2 (branch (base + handler - a - 8#32)) := by
  obtain ⟨hr0, hr1, hr3⟩ := h
  simp only [Machine.get] at hr0 hr1 hr3
  simp -implicitDefEqProofs [bootBranch, addImm, sub, subImm, movLsr, orr, Machine.get,
    Machine.set, hr0, hr1, hr3, branch]

/-- A vector with its branch, and the way to the next. -/
theorem exec_bootVector (handler step : Word) (h : VectorRegs base a m) :
    let t := exec [strPost r2 r0 step] (exec (bootBranch handler) m)
    VectorRegs base (a + step) t ∧ Stored m [(a, branch (base + handler - a - 8#32))] t := by
  have hExec := exec_bootBranch handler h
  obtain ⟨hr0, hr1, hr3⟩ := h
  simp only [Machine.get] at hr0 hr1 hr3
  simp only [hExec]
  refine ⟨⟨?_, ?_, ?_⟩, ⟨?_, ?_, ?_⟩⟩
  all_goals
    simp -implicitDefEqProofs [strPost, str, writes, Machine.get, Machine.set, hr0, hr1, hr3]

theorem exec_bootLast (handler : Word) (h : VectorRegs base a m) :
    let t := exec [str r2 r0 0] (exec (bootBranch handler) m)
    VectorRegs base a t ∧ Stored m [(a, branch (base + handler - a - 8#32))] t := by
  have hExec := exec_bootBranch handler h
  obtain ⟨hr0, hr1, hr3⟩ := h
  simp only [Machine.get] at hr0 hr1 hr3
  simp only [hExec]
  refine ⟨⟨?_, ?_, ?_⟩, ⟨?_, ?_, ?_⟩⟩
  all_goals
    simp -implicitDefEqProofs [str, writes, Machine.get, Machine.set, hr0, hr1, hr3]

/-- The vectors in the order in which `BOOT` fills them. -/
def vectors : List Vector := [.UNDEF, .SWI, .PREFABT, .DATAABT, .IRQ, .FIQ]

/-- The branch that `BOOT` builds for a vector. -/
def vectorBranch (L : Labels) (v : Vector) : Word :=
  branch (L.base + L.handler v - v.address - 8#32)

/-- What `BOOT` stores in the exception vectors. For the reset it takes the address of
`_start` as the distance. -/
def vectorTable (L : Labels) : List (Word × Word) :=
  (0#32, branch L.base) :: vectors.map fun v => (v.address, vectorBranch L v)

theorem exec_bootVectors (L : Labels) (m : Machine) :
    let t := exec (bootVectors L) m
    t.get r1 = L.base ∧ Stored m (vectorTable L) t := by
  obtain ⟨t₀, ht₀⟩ : ∃ t₀, t₀ = exec [movImm r1 (L.base + 8), subImm r1 r1 8, movImm r0 0,
      movImm r3 0xEA000000, movLsr r2 r1 2, orr r2 r3 r2, strPost r2 r0 4] m := ⟨_, rfl⟩
  have hStart : VectorRegs L.base 4#32 t₀ ∧ Stored m [(0#32, branch L.base)] t₀ := by
    rw [ht₀]
    refine ⟨⟨?_, ?_, ?_⟩, ⟨?_, ?_, ?_⟩⟩
    all_goals
      simp -implicitDefEqProofs [movImm, subImm, movLsr, orr, strPost, str, Machine.get,
        Machine.set, writes, branch]
  obtain ⟨h₀, hStored₀⟩ := hStart
  obtain ⟨h₁, hStored₁⟩ := exec_bootVector (L.handler .UNDEF) 4 h₀
  obtain ⟨h₂, hStored₂⟩ := exec_bootVector (L.handler .SWI) 4 h₁
  obtain ⟨h₃, hStored₃⟩ := exec_bootVector (L.handler .PREFABT) 4 h₂
  obtain ⟨h₄, hStored₄⟩ := exec_bootVector (L.handler .DATAABT) 8 h₃
  obtain ⟨h₅, hStored₅⟩ := exec_bootVector (L.handler .IRQ) 4 h₄
  obtain ⟨h₆, hStored₆⟩ := exec_bootLast (L.handler .FIQ) h₅
  have hAll := (((((hStored₀.trans hStored₁).trans hStored₂).trans hStored₃).trans
    hStored₄).trans hStored₅).trans hStored₆
  simp only [bootVectors, exec_append, ← ht₀]
  exact ⟨h₆.r1, hAll⟩

end Vectors

section Areas

variable {m : Machine} {panic : Word}

/-- The registers between two new areas. -/
structure AreaRegs (panic : Word) (m : Machine) : Prop where
  r0 : m.get r0 = EXCV_BASE
  r8 : m.get r8 = panic

theorem exec_bootArea (new psr : Word) (h : AreaRegs panic m) :
    let t := exec (bootArea new psr) m
    AreaRegs panic t ∧ t.get r1 = m.get r1 ∧
      Stored m [(word (EXCV_BASE + new) 15, panic), (word (EXCV_BASE + new) 16, psr)] t := by
  obtain ⟨hr0, hr8⟩ := h
  have hPc := offset_pc (EXCV_BASE + new)
  have hPsr : word (EXCV_BASE + new) 15 + 4#32 = word (EXCV_BASE + new) 16 := word_word _ 15 1
  simp only [Machine.get] at hr0 hr8
  refine ⟨⟨?_, ?_⟩, ?_, ⟨?_, ?_, ?_⟩⟩
  all_goals
    simp -implicitDefEqProofs [bootArea, addImm, subImm, movImm, str, strPost, Machine.get,
      Machine.set, writes, hr0, hr8, PSR_OFFSET, hPc, hPsr]

/-- The status register in a new area: the mode of the exception, with interrupts disabled. -/
def bootPsr : Kind → Word
  | .INT => 0xD2
  | .PGMT => 0xDB
  | .SWI => 0xD3
  | .TLB => 0xD7

/-- What `BOOT` stores in the new areas. -/
def areaTable (L : Labels) : List (Word × Word) :=
  [Kind.INT, Kind.PGMT, Kind.SWI, Kind.TLB].flatMap fun kind =>
    [(word (newArea kind) 15, L.base + L.PANIC), (word (newArea kind) 16, bootPsr kind)]

theorem exec_bootAreas (L : Labels) (m : Machine) (hBase : m.get r1 = L.base) :
    let t := exec (bootAreas L) m
    t.get r1 = L.base ∧ Stored m (areaTable L) t := by
  obtain ⟨t₀, ht₀⟩ : ∃ t₀, t₀ = exec [movImm r0 EXCV_BASE, addImm r8 r1 L.PANIC] m := ⟨_, rfl⟩
  have hStart : AreaRegs (L.base + L.PANIC) t₀ ∧ t₀.get r1 = L.base ∧ Stored m [] t₀ := by
    simp only [Machine.get] at hBase
    rw [ht₀]
    refine ⟨⟨?_, ?_⟩, ?_, ⟨?_, ?_, ?_⟩⟩
    all_goals
      simp -implicitDefEqProofs [movImm, addImm, writes, Machine.get, Machine.set, hBase]
  obtain ⟨h₀, hr1₀, hStored₀⟩ := hStart
  obtain ⟨h₁, hr1₁, hStored₁⟩ := exec_bootArea EXCV_INT_NEW 0xD2 h₀
  obtain ⟨h₂, hr1₂, hStored₂⟩ := exec_bootArea EXCV_PGMT_NEW 0xDB h₁
  obtain ⟨h₃, hr1₃, hStored₃⟩ := exec_bootArea EXCV_SWI_NEW 0xD3 h₂
  obtain ⟨-, hr1₄, hStored₄⟩ := exec_bootArea EXCV_TLB_NEW 0xD7 h₃
  have hAll := (((hStored₀.trans hStored₁).trans hStored₂).trans hStored₃).trans hStored₄
  simp only [bootAreas, exec_append, ← ht₀]
  exact ⟨by rw [hr1₄, hr1₃, hr1₂, hr1₁, hr1₀], hAll⟩

end Areas

section Entry

variable {m : Machine}

/-- The end of the memory. -/
def ramTop (m : Machine) : Word := m.mem RAMSIZE_INFO + m.mem RAMBASE_INFO

/-- The program gets the processor in system mode, with the stack at the end of the memory
and `HALT` to return to. -/
structure Started (L : Labels) (m t : Machine) : Prop where
  cpsr : t.cpsr = 0xDF#32
  pc : t.get pc = m.mem 0x8004#32
  sp : t.get sp = ramTop m
  lr : t.get lr = L.base + L.HALT
  zero : ∀ r ∈ [r0, r1, r2, r3, r8, r9], t.get r = 0#32

theorem exec_bootProgram (L : Labels) (hBase : m.get r1 = L.base) (hBank : bank m.cpsr = .svc) :
    let t := exec (bootProgram L) m
    t.mem = write (write m.mem (ramTop m - 8#32) (ramTop m)) (ramTop m - 8#32 + 4#32)
        (L.base + L.HALT) ∧
      t.cpsr = m.cpsr ∧ t.spsr .svc = 0xDF#32 ∧ t.get lr = m.mem 0x8004#32 ∧
      t.view .usr sp = ramTop m ∧ t.view .usr lr = L.base + L.HALT := by
  have hNext : ramTop m - 8#32 ≠ ramTop m - 8#32 + 4#32 := by bv_omega
  have hOther : Bank.svc ≠ .usr := by decide
  unfold ramTop at hNext ⊢
  simp only [Machine.get, hBank] at hBase
  simp -implicitDefEqProofs [bootProgram, movImm, addImm, add, subImm, mov, ldr, str, msrSpsr,
    ldmUser, Machine.load, Machine.get, Machine.set, hBase, hBank, write_apply, hNext,
    Machine.setView_view_bank hOther (.inr rfl)]

theorem exec_bootStart (hBank : bank m.cpsr = .svc) (hPsr : m.spsr .svc = 0xDF#32) :
    let t := exec bootStart m
    t.mem = m.mem ∧ t.cpsr = 0xDF#32 ∧ t.get pc = m.get lr ∧
      (∀ r ∈ [sp, lr], t.get r = m.view .usr r) ∧
      ∀ r ∈ [r0, r1, r2, r3, r8, r9], t.get r = 0#32 := by
  intro t
  have hSystem : bank 0xDF#32 = .usr := by decide
  have hCpsr : t.cpsr = 0xDF#32 := by
    simp [t, bootStart, movImm, movsPc, Machine.get, Machine.set, hBank, hPsr]
  have hGet (r : Reg) : t.get r = t.view .usr r := by rw [Machine.get, hCpsr, hSystem]
  have hShared : ∀ r ∈ [pc, r0, r1, r2, r3, r8, r9], t.view .usr r = t.view .svc r := by
    intro r hr
    have hSlot : ∀ r ∈ [pc, r0, r1, r2, r3, r8, r9], slot .usr r = slot .svc r := by decide
    rw [Machine.view, Machine.view, hSlot r hr]
  refine ⟨?_, hCpsr, ?_, fun r hr => ?_, fun r hr => ?_⟩
  · simp [t, bootStart, movImm, movsPc, Machine.get, Machine.set, hBank]
  · rw [hGet, hShared pc (by decide)]
    simp [t, bootStart, movImm, movsPc, Machine.get, Machine.set, hBank]
  · have hNames : ∀ r ∈ [sp, lr], ∀ r' ∈ [pc, r0, r1, r2, r3, r8, r9], r ≠ r' := by decide
    rw [hGet]
    simp [t, bootStart, movImm, movsPc, Machine.get, Machine.set, hBank, hNames r hr]
  · rw [hGet, hShared r (List.mem_cons_of_mem _ hr)]
    simp only [List.mem_cons, List.not_mem_nil, or_false] at hr
    rcases hr with rfl | rfl | rfl | rfl | rfl | rfl
    all_goals
      simp [t, bootStart, movImm, movsPc, Machine.get, Machine.set, hBank]

/-- The cells that `BOOT` fills in the low memory. -/
def bootTable (L : Labels) : List (Word × Word) := vectorTable L ++ areaTable L

/-- Their addresses. -/
def bootCells : List Word :=
  0#32 :: vectors.map Vector.address ++
    [Kind.INT, Kind.PGMT, Kind.SWI, Kind.TLB].flatMap fun kind =>
      [word (newArea kind) 15, word (newArea kind) 16]

theorem bootCells_nodup : bootCells.Nodup := by decide

theorem exec_BOOT (L : Labels) (hBank : bank m.cpsr = .svc) :
    let t := exec (BOOT L) m
    Started L m t ∧ t.mem = write (write (writes m.mem (bootTable L)) (ramTop m - 8#32) (ramTop m))
      (ramTop m - 8#32 + 4#32) (L.base + L.HALT) := by
  obtain ⟨hBase₁, h₁⟩ := exec_bootVectors L m
  obtain ⟨t₁, ht₁⟩ : ∃ t₁, t₁ = exec (bootVectors L) m := ⟨_, rfl⟩
  rw [← ht₁] at hBase₁ h₁
  obtain ⟨hBase₂, h₂⟩ := exec_bootAreas L t₁ hBase₁
  obtain ⟨t₂, ht₂⟩ : ∃ t₂, t₂ = exec (bootAreas L) t₁ := ⟨_, rfl⟩
  rw [← ht₂] at hBase₂ h₂
  have hStored : Stored m (bootTable L) t₂ := h₁.trans h₂
  have hBank₂ : bank t₂.cpsr = .svc := by rw [hStored.cpsr, hBank]
  have hKept (x : Word) (hx : x ∉ bootCells) : t₂.mem x = m.mem x := by
    rw [hStored.mem]
    exact writes_ne hx
  have hTop : ramTop t₂ = ramTop m := by
    rw [ramTop, hKept RAMSIZE_INFO (by decide), hKept RAMBASE_INFO (by decide)]
    rfl
  obtain ⟨t₃, ht₃⟩ : ∃ t₃, t₃ = exec (bootProgram L) t₂ := ⟨_, rfl⟩
  obtain ⟨hMem₃, hCpsr₃, hSpsr₃, hEntry, hStack, hReturn⟩ := exec_bootProgram L hBase₂ hBank₂
  rw [← ht₃] at hMem₃ hCpsr₃ hSpsr₃ hEntry hStack hReturn
  obtain ⟨hMem, hCpsr, hPc, hUser, hZero⟩ :=
    exec_bootStart (m := t₃) (by rw [hCpsr₃, hBank₂]) hSpsr₃
  have hExec : exec (BOOT L) m = exec bootStart t₃ := by
    rw [BOOT, exec_append, exec_append, exec_append, ← ht₁, ← ht₂, ← ht₃]
  simp only [hExec]
  refine ⟨⟨hCpsr, ?_, ?_, ?_, hZero⟩, ?_⟩
  · rw [hPc, hEntry, hKept 0x8004#32 (by decide)]
  · rw [hUser sp (by decide), hStack, hTop]
  · rw [hUser lr (by decide), hReturn]
  · rw [hMem, hMem₃, hTop, hStored.mem]

/-- The BIOS lies where the branches from the vectors reach. -/
structure Fits (L : Labels) : Prop where
  base : L.base < 0x2000000#32 ∧ L.base.toNat % 4 = 0
  handler : ∀ v, L.base + L.handler v - v.address - 8#32 < 0x2000000#32 ∧
    (L.base + L.handler v - v.address - 8#32).toNat % 4 = 0

/-- What an exception finds after `BOOT`, and what the reset does. -/
structure Vectored (L : Labels) (t : Machine) : Prop where
  handlers : ∀ v, branchTarget v.address (t.mem v.address) = some (L.base + L.handler v)
  reset : branchTarget 0 (t.mem 0) = some (L.base + 8#32)
  areas : ∀ kind, t.mem (word (newArea kind) 15) = L.base + L.PANIC ∧
    t.mem (word (newArea kind) 16) = bootPsr kind

/-- The end of the memory does not reach into the cells. -/
def TopApart (m : Machine) : Prop :=
  ramTop m - 8#32 ∉ bootCells ∧ ramTop m - 8#32 + 4#32 ∉ bootCells

theorem exec_BOOT_cell (L : Labels) (hBank : bank m.cpsr = .svc) (hTop : TopApart m) {a v : Word}
    (hCell : (a, v) ∈ bootTable L) : (exec (BOOT L) m).mem a = v := by
  have hMem := (exec_BOOT L hBank).2
  have hIn : a ∈ bootCells := List.mem_map_of_mem (f := Prod.fst) hCell
  have hFirst : a ≠ ramTop m - 8#32 := fun hEq => hTop.1 (hEq ▸ hIn)
  have hSecond : a ≠ ramTop m - 8#32 + 4#32 := fun hEq => hTop.2 (hEq ▸ hIn)
  rw [hMem, write_apply, if_neg hSecond, write_apply, if_neg hFirst]
  exact writes_apply bootCells_nodup hCell

theorem mem_areaTable (L : Labels) (kind : Kind) :
    (word (newArea kind) 15, L.base + L.PANIC) ∈ areaTable L ∧
      (word (newArea kind) 16, bootPsr kind) ∈ areaTable L := by
  have hKind : kind ∈ [Kind.INT, Kind.PGMT, Kind.SWI, Kind.TLB] := by cases kind <;> decide
  exact ⟨List.mem_flatMap.mpr ⟨kind, hKind, List.mem_cons_self ..⟩,
    List.mem_flatMap.mpr ⟨kind, hKind, List.mem_cons_of_mem _ (List.mem_cons_self ..)⟩⟩

/-- After `BOOT` every exception comes to its handler and from there to `PANIC`, and the
program in the memory runs. A reset does not come to `_start`, but two instructions behind. -/
theorem BOOT_started (L : Labels) (m : Machine) (hBank : bank m.cpsr = .svc) (hFits : Fits L)
    (hTop : TopApart m) : Started L m (exec (BOOT L) m) ∧ Vectored L (exec (BOOT L) m) := by
  refine ⟨(exec_BOOT L hBank).1, ⟨fun v => ?_, ?_, fun kind => ?_⟩⟩
  · have hVector : v ∈ vectors := by cases v <;> decide
    have hCell : (v.address, vectorBranch L v) ∈ bootTable L :=
      List.mem_append_left _ (List.mem_cons_of_mem _ (List.mem_map_of_mem hVector))
    obtain ⟨hReach, hAligned⟩ := hFits.handler v
    have hSum : v.address + 8#32 + (L.base + L.handler v - v.address - 8#32) =
        L.base + L.handler v := by bv_omega
    rw [exec_BOOT_cell L hBank hTop hCell, vectorBranch, branchTarget_branch hReach hAligned, hSum]
  · have hCell : (0#32, branch L.base) ∈ bootTable L :=
      List.mem_append_left _ (List.mem_cons_self ..)
    have hSum : 0#32 + 8#32 + L.base = L.base + 8#32 := by bv_omega
    have hReset := branchTarget_branch (a := 0#32) hFits.base.1 hFits.base.2
    rw [← hSum, ← hReset]
    exact congrArg (branchTarget 0#32) (exec_BOOT_cell L hBank hTop hCell)
  · obtain ⟨hPc, hPsr⟩ := mem_areaTable L kind
    exact ⟨exec_BOOT_cell L hBank hTop (List.mem_append_right _ hPc),
      exec_BOOT_cell L hBank hTop (List.mem_append_right _ hPsr)⟩

/-- The labels in `BIOS.rom.uarm`, when it is loaded at `base`. -/
def romLabels (base : Word) : Labels where
  base := base
  handler
    | .UNDEF => 0x1F8
    | .SWI => 0x170
    | .PREFABT => 0x228
    | .DATAABT => 0x228
    | .IRQ => 0x27C
    | .FIQ => 0x27C
  PANIC := 0x2CC
  HALT := 0x2AC

/-- A processor at its start, with registers that hold zeros. -/
def reset (mem : Word → Word) : Machine where
  regs := fun _ => 0
  cpsr := 0xD3
  spsr := fun _ => 0
  mem := mem
  cp15 := fun _ => 0

theorem romLabels_fits : Fits (romLabels 0x300) := by
  refine ⟨by decide, fun v => ?_⟩
  cases v <;> decide

theorem BOOT_started_rom :
    Started (romLabels 0x300) (reset fun _ => 0x8000) (exec (BOOT (romLabels 0x300))
        (reset fun _ => 0x8000)) ∧
      Vectored (romLabels 0x300) (exec (BOOT (romLabels 0x300)) (reset fun _ => 0x8000)) :=
  BOOT_started (romLabels 0x300) (reset fun _ => 0x8000) (by decide) romLabels_fits
    ⟨by decide, by decide⟩

end Entry

end Nucleus.Bios
