import Nucleus.Bios.Basic

/-! What the handlers save. Each part of `SAVE_OLD_STATE` stores some of the words of the
old area; together they are the state of the interrupted program. -/
namespace Nucleus.Bios

open Arm Arm.Reg

/-- The three words of the stack in which a handler keeps what it overwrites. -/
def frame : List Word := [0x7FF0#32, 0x7FF4#32, 0x7FF8#32]

theorem stack_base : ROMSTACK_TOP + ROMSTACK_OFF = 0x7FF0#32 := by decide

/-- What the handlers write, or read as the clock. -/
def reserved : List Word := frame ++ [TOD_HI_INFO, TOD_LO_INFO]

/-- The words of a state at `a` are apart from the stack and from the clock. -/
def Apart (a : Word) : Prop := ∀ i < 22, word a i ∉ reserved

theorem oldArea_apart (kind : Kind) : Apart (oldArea kind) := by
  cases kind <;> unfold Apart <;> decide

/-- The status register with which the registers of a mode are reached: that of the mode
itself, or of system mode if it is user mode, with interrupts disabled. -/
def reaching (psr : Word) : Word := (if psr &&& 0xF = 0 then psr + 0xF else psr) ||| 0xC0

theorem Apart.ne {a x : Word} {i : ℕ} (h : Apart a) (hi : i < 22)
    (hx : x ∈ reserved) : word a i ≠ x := by
  intro hEq
  exact h i hi (hEq ▸ hx)

/-- The address of `pc` in a state. -/
theorem offset_pc (a : Word) : a + 64#32 - 4#32 = word a 15 := by
  rw [BitVec.sub_eq_add_neg, word, BitVec.add_assoc]
  rfl

variable {m : Machine} {a : Word}

theorem exec_reachMode (m : Machine) : exec reachMode m =
    (m.setCpsr (reaching (m.spsr (bank m.cpsr)))).setView (bank m.cpsr) sp
      (reaching (m.spsr (bank m.cpsr))) := by
  simp [reachMode, reaching, mrsSpsr, andImm, cmpImm, ifEq_addImm, orrImm, msrCpsr, Machine.get,
    Machine.set]

theorem exec_saveRegisters (m : Machine) : exec saveRegisters m =
    m.setMem (storeWords m.mem (m.get r0 + 4) (middle.map m.get)) := by
  simp [saveRegisters, middle, general, addImm, subImm, stm, Machine.get, Machine.set]
  exact Machine.setView_view ..

/-- `r0` and the return address come from the stack, and so does the way back to the mode
of the handler. -/
theorem exec_saveStacked (h : Apart a) (hr0 : m.get r0 = a) :
    let t := exec saveStacked m
    t.mem = write (write m.mem a (m.mem 0x7FF0#32)) (word a 15) (m.mem 0x7FF4#32) ∧
      t.cpsr = m.mem 0x7FF8#32 ∧ t.spsr = m.spsr ∧ t.cp15 = m.cp15 ∧ t.get r0 = word a 16 := by
  have hFirst (x : Word) (hx : x ∈ reserved) : x ≠ a :=
    fun hEq => h.ne (by omega : 0 < 22) hx (by rw [word_zero, hEq])
  have hLink : 0x7FF4#32 ≠ a := hFirst _ (by decide)
  have hPsr : 0x7FF8#32 ≠ a := hFirst _ (by decide)
  have hPsr' : 0x7FF8#32 ≠ word a 15 := (h.ne (by omega) (by decide)).symm
  have hPc := offset_pc a
  have hNext : word a 15 + 4#32 = word a 16 := by
    exact (word_word a 15 1)
  simp only [Machine.get] at hr0
  simp [saveStacked, movImm, addImm, subImm, msrCpsr, ldr, ldrPost, str, strPost, Machine.get,
    Machine.set, write_apply, stack_base, PSR_OFFSET, hr0, hPc, hLink, hPsr, hPsr',
    hNext]

/-- The saved status register and the coprocessor. -/
def systemWords (m : Machine) : List Word := [m.spsr (bank m.cpsr), m.cp15 (1, 0),
  m.cp15 (2, 0) ||| m.cp15 (2, 1), m.cp15 (15, 0) ||| m.cp15 (15, 1)]

theorem exec_saveSystem (h : Apart a) (hr0 : m.get r0 = word a 16) :
    let t := exec saveSystem m
    t.mem = storeWords m.mem (word a 16)
        (systemWords m ++ [m.mem TOD_HI_INFO, m.mem TOD_LO_INFO]) ∧
      t.cpsr = m.cpsr ∧ t.spsr = m.spsr ∧ t.cp15 = m.cp15 := by
  have hClock (x : Word) (hx : x ∈ reserved)
      (vs : List Word) (hSize : vs.length = 4) : storeWords m.mem (word a 16) vs x = m.mem x := by
    refine storeWords_ne fun i hi => ?_
    rw [word_word]
    exact h.ne (by omega) hx
  simp only [Machine.get] at hr0
  simp [saveSystem, movImm, mrsSpsr, mrc, orr, ldr, str, strPost, stm, stmBack, Machine.get,
    Machine.set, hr0]
  rw [storeWords_cons m.mem (word a 16), ← systemWords]
  rw [hClock TOD_HI_INFO (by decide) _ rfl, hClock TOD_LO_INFO (by decide) _ rfl, word_succ]
  exact storeWords_append m.mem (word a 16) (systemWords m) [m.mem TOD_HI_INFO, m.mem TOD_LO_INFO]

/-- The registers of the mode that is saved, as they are when `sp` of the handler is lost. -/
theorem exec_reach_save (hr0 : m.get r0 = a) :
    let p := reaching (m.spsr (bank m.cpsr))
    let t := exec saveRegisters (exec reachMode m)
    t.mem = storeWords m.mem (a + 4#32) (middle.map ((m.set sp p).view (bank p))) ∧
      t.spsr = m.spsr ∧ t.cp15 = m.cp15 ∧ t.get r0 = a := by
  intro p t
  have hStart : (exec reachMode m).get r0 = a := by
    rw [exec_reachMode, ← hr0]
    exact Machine.setView_view_ne (by decide)
  have hView : (exec reachMode m).get = (m.set sp p).view (bank p) := by
    rw [exec_reachMode]
    rfl
  have ht : t = (exec reachMode m).setMem
      (storeWords (exec reachMode m).mem (a + 4#32) (middle.map (exec reachMode m).get)) := by
    rw [← hStart]
    exact exec_saveRegisters (exec reachMode m)
  have hr0' : t.get r0 = (exec reachMode m).get r0 := by rw [ht]; rfl
  refine ⟨?_, ?_, ?_, hr0'.trans hStart⟩
  · rw [ht, hView, exec_reachMode]
    rfl
  · rw [ht, exec_reachMode]
    rfl
  · rw [ht, exec_reachMode]
    rfl

/-- `SAVE_OLD_STATE` in a handler whose stack says how to come back to its mode: the area
gets the stacked words, the registers of the mode that is saved, and the rest. -/
theorem exec_SAVE_OLD_STATE (h : Apart a) (hr0 : m.get r0 = a)
    (hBack : bank (m.mem 0x7FF8#32) = bank m.cpsr) :
    let p := reaching (m.spsr (bank m.cpsr))
    let t := exec SAVE_OLD_STATE m
    t.mem = storeWords m.mem a ((m.mem 0x7FF0#32 :: middle.map ((m.set sp p).view (bank p)) ++
        [m.mem 0x7FF4#32]) ++ (systemWords m ++ [m.mem TOD_HI_INFO, m.mem TOD_LO_INFO])) ∧
      t.cpsr = m.mem 0x7FF8#32 ∧ t.spsr = m.spsr ∧ t.cp15 = m.cp15 := by
  intro p t
  obtain ⟨l, hl⟩ : ∃ l, l = middle.map ((m.set sp p).view (bank p)) := ⟨_, rfl⟩
  have hLength : l.length = 14 := by rw [hl]; rfl
  obtain ⟨m₁, hm₁⟩ : ∃ m₁, m₁ = exec saveRegisters (exec reachMode m) := ⟨_, rfl⟩
  obtain ⟨m₂, hm₂⟩ : ∃ m₂, m₂ = exec saveStacked m₁ := ⟨_, rfl⟩
  have ht : t = exec saveSystem m₂ := by
    rw [hm₂, hm₁]
    simp only [t, SAVE_OLD_STATE, exec_append]
  obtain ⟨hMem₁, hSpsr₁, hCp₁, hr0₁⟩ := exec_reach_save hr0
  rw [← hm₁, ← hl] at hMem₁
  rw [← hm₁] at hSpsr₁ hCp₁ hr0₁
  obtain ⟨hMem₂, hCpsr₂, hSpsr₂, hCp₂, hr0₂⟩ := exec_saveStacked h hr0₁
  rw [← hm₂] at hMem₂ hCpsr₂ hSpsr₂ hCp₂ hr0₂
  obtain ⟨hMem, hCpsr, hSpsr, hCp⟩ := exec_saveSystem h hr0₂
  have hKept (x : Word) (hx : x ∈ reserved) :
      m₁.mem x = m.mem x := by
    rw [hMem₁]
    refine storeWords_ne fun i hi => ?_
    rw [word_succ]
    exact h.ne (by omega) hx
  have hFifteen : m₂.mem = storeWords m.mem a
      (m.mem 0x7FF0#32 :: l ++ [m.mem 0x7FF4#32]) := by
    have hFirst : ∀ i < l.length, word (a + 4#32) i ≠ a := fun i hi hEq => by
      rw [word_succ, ← word_zero a, word_word, Nat.zero_add] at hEq
      cases word_inj (by omega) (by omega) hEq
    rw [hMem₂, hKept 0x7FF0#32 (by decide), hKept 0x7FF4#32 (by decide), hMem₁,
      write_storeWords hFirst, storeWords_cons, ← storeWords_append, List.length_cons, hLength]
    exact (storeWords_singleton ..).symm
  have hKept' (x : Word) (hx : x ∈ reserved) :
      m₂.mem x = m.mem x := by
    rw [hFifteen]
    refine storeWords_ne fun i hi => h.ne ?_ hx
    rw [List.length_append, List.length_cons, hLength, List.length_singleton] at hi
    omega
  have hSystem : systemWords m₂ = systemWords m := by
    rw [systemWords, systemWords, hSpsr₂, hSpsr₁, hCp₂, hCp₁, hCpsr₂,
      hKept 0x7FF8#32 (by decide), hBack]
  refine ⟨?_, ?_, ?_, ?_⟩
  · rw [ht, hMem, hSystem, hKept' TOD_HI_INFO (by decide), hKept' TOD_LO_INFO (by decide), hFifteen,
      ← storeWords_append _ _ (m.mem 0x7FF0#32 :: _ ++ [m.mem 0x7FF4#32]), ← hl]
    simp [hLength]
  · rw [ht, hCpsr, hCpsr₂, hKept 0x7FF8#32 (by decide)]
  · rw [ht, hSpsr, hSpsr₂, hSpsr₁]
  · rw [ht, hCp, hCp₂, hCp₁]

/-- The words of a state whose stack pointer and link register are given. -/
def stateWords (m : Machine) (link stack ret : Word) : List Word :=
  (m.get r0 :: (general.map m.get ++ [stack, ret]) ++ [link]) ++
    ([m.cpsr, m.cp15 (1, 0), m.cp15 (2, 0) ||| m.cp15 (2, 1), m.cp15 (15, 0) ||| m.cp15 (15, 1)] ++
      [m.mem TOD_HI_INFO, m.mem TOD_LO_INFO])

/-- The state of a program that is interrupted and goes on at `link`. -/
def context (m : Machine) (link : Word) : List Word :=
  stateWords m link (m.get sp) (m.get lr)

/-- A handler runs after an exception of the program `m`, in a mode of its own, and has
touched only `sp` and `lr` of that mode. -/
structure Entered (m : Machine) (link : Word) (t : Machine) : Prop where
  mem : t.mem = m.mem
  spsr : t.spsr (bank t.cpsr) = m.cpsr
  link : t.get lr = link
  shared : ∀ r, r ≠ sp → r ≠ lr → ∀ b, t.view b r = m.view b r
  banked : ∀ b, b ≠ bank t.cpsr → t.view b sp = m.view b sp ∧ t.view b lr = m.view b lr
  cp15 : t.cp15 = m.cp15

/-- The same with the frame on the stack, and `r0` in it. -/
structure Framed (m : Machine) (link : Word) (t : Machine) : Prop where
  mem : ∃ psr, bank psr = bank t.cpsr ∧ t.mem = storeWords m.mem 0x7FF0#32 [m.get r0, link, psr]
  spsr : t.spsr (bank t.cpsr) = m.cpsr
  shared : ∀ r ∈ general, ∀ b, t.view b r = m.view b r
  banked : ∀ b, b ≠ bank t.cpsr → t.view b sp = m.view b sp ∧ t.view b lr = m.view b lr
  cp15 : t.cp15 = m.cp15

theorem take_entered (md : BitVec 5) (link : Word) (m : Machine) :
    Entered m link (take md link m) := by
  have hBank : bank (take md link m).cpsr = modeBank md := congrArg modeBank (mode_entryPsr ..)
  refine ⟨rfl, ?_, ?_, fun r _ hr b => ?_, fun b hb => ⟨?_, ?_⟩, rfl⟩
  · rw [hBank]
    exact Function.update_self ..
  · rw [Machine.get]
    exact Machine.setView_view_self
  · exact Machine.setView_view_ne hr
  · exact Machine.setView_view_ne (by decide)
  · exact Machine.setView_view_bank hb (.inr rfl)

/-- What `pushFrame` does. -/
theorem exec_pushFrame (m : Machine) : exec pushFrame m =
    (((m.setMem (storeWords m.mem 0x7FF0#32 [m.get r0, m.get lr, m.cpsr])).setView
      (bank m.cpsr) sp 0x7FF8#32).setView (bank m.cpsr) r0 m.cpsr) := by
  simp [pushFrame, movImm, addImm, strPost, str, mrsCpsr, Machine.get, Machine.set,
    ← storeWords_cons, stack_base]

theorem Entered.framed {link : Word} {t : Machine} (h : Entered m link t) :
    Framed m link (exec pushFrame t) := by
  have hr0 : t.get r0 = m.get r0 := h.shared r0 (by decide) (by decide) _
  have hMem : (exec pushFrame t).mem = storeWords m.mem 0x7FF0#32 [m.get r0, link, t.cpsr] := by
    rw [exec_pushFrame, ← hr0, ← h.link, ← h.mem]
    rfl
  have hCpsr : (exec pushFrame t).cpsr = t.cpsr := by rw [exec_pushFrame]; rfl
  have hView (b : Bank) (r : Reg) (hr : r ≠ r0 ∧ r ≠ sp) :
      (exec pushFrame t).view b r = t.view b r := by
    rw [exec_pushFrame, Machine.setView_view_ne hr.1, Machine.setView_view_ne hr.2]
    rfl
  have hGeneral : ∀ r ∈ general, (r ≠ r0 ∧ r ≠ sp) ∧ r ≠ lr := by decide
  refine ⟨⟨t.cpsr, by rw [hCpsr], hMem⟩, ?_, fun r hr b => ?_, fun b hb => ⟨?_, ?_⟩, ?_⟩
  · rw [exec_pushFrame]
    exact h.spsr
  · obtain ⟨hr', hlr⟩ := hGeneral r hr
    rw [hView b r hr']
    exact h.shared r hr'.2 hlr b
  · rw [hCpsr] at hb
    rw [exec_pushFrame, Machine.setView_view_ne (by decide),
      Machine.setView_view_bank hb (.inl rfl)]
    exact (h.banked b hb).1
  · rw [hCpsr] at hb
    rw [hView b lr (by decide)]
    exact (h.banked b hb).2
  · rw [exec_pushFrame]
    exact h.cp15

/-- The handlers look at the four lowest bits of the mode only. -/
theorem nibble (psr : Word) : psr &&& 0xF#32 = (mode psr &&& 0xF#5).setWidth 32 := by
  apply BitVec.eq_of_toNat_eq
  have hMask (x : ℕ) : x &&& 15 = x % 16 := Nat.and_two_pow_sub_one_eq_mod x 4
  simp [mode, BitVec.toNat_and, hMask]

/-- The mode in which the registers are reached has the bank of the mode that is saved. -/
theorem bank_reaching {psr : Word} (h : ValidMode psr) : bank (reaching psr) = bank psr := by
  have hMode : mode (reaching psr) =
      if psr &&& 0xF#32 = 0#32 then mode psr + 0xF#5 else mode psr := by
    by_cases hUser : psr &&& 0xF#32 = 0#32
    · simp [reaching, mode, hUser, BitVec.setWidth_or, BitVec.setWidth_add]
    · simp [reaching, mode, hUser, BitVec.setWidth_or]
  unfold bank
  rw [hMode, nibble]
  revert h
  unfold ValidMode
  generalize mode psr = md
  revert md
  decide

theorem bank_reaching_of_ne {psr : Word} (h : psr &&& 0xF#32 ≠ 0#32) :
    bank (reaching psr) = bank psr := by
  have hMode : mode (reaching psr) = mode psr := by simp [reaching, mode, h, BitVec.setWidth_or]
  rw [bank, hMode]
  rfl

section Save

variable {link : Word} {u : Machine}

/-- The state that a handler finds: right but for the stack pointer and the link register
of an interrupted program in the handler's own mode. -/
theorem exec_save (B : Platform) (kind : Kind) (h : Framed m link u) (hMode : ValidMode m.cpsr) :
    ∃ psr, (exec (save B kind) u).mem =
        storeWords (storeWords m.mem 0x7FF0#32 [m.get r0, link, psr]) (oldArea kind)
          (if bank m.cpsr = bank u.cpsr then stateWords m link (reaching m.cpsr) (B.saved kind)
          else context m link) ∧
      bank (exec (save B kind) u).cpsr = bank u.cpsr ∧
      (exec (save B kind) u).spsr = u.spsr ∧ (exec (save B kind) u).cp15 = m.cp15 := by
  obtain ⟨⟨psr, hPsr, hMem⟩, hSpsr, hShared, hBanked, hCp⟩ := h
  obtain ⟨v, hv⟩ : ∃ v, v = (u.set r0 (oldArea kind)).set lr (B.saved kind) := ⟨_, rfl⟩
  have ht : exec (save B kind) u = exec SAVE_OLD_STATE v := by
    rw [hv, save, exec_append]
    rfl
  have hvMem : v.mem = storeWords m.mem 0x7FF0#32 [m.get r0, link, psr] := by rw [hv, ← hMem]; rfl
  have hvCpsr : v.cpsr = u.cpsr := by rw [hv]; rfl
  have hStack0 : v.mem 0x7FF0#32 = m.get r0 := by rw [hvMem]; rfl
  have hStack1 : v.mem 0x7FF4#32 = link := by rw [hvMem]; rfl
  have hStack2 : v.mem 0x7FF8#32 = psr := by rw [hvMem]; rfl
  have hHigh : v.mem TOD_HI_INFO = m.mem TOD_HI_INFO := by rw [hvMem]; rfl
  have hLow : v.mem TOD_LO_INFO = m.mem TOD_LO_INFO := by rw [hvMem]; rfl
  have hr0 : v.get r0 = oldArea kind := by
    rw [hv]
    exact Machine.setView_view_ne (by decide)
  have hvSpsr : v.spsr = u.spsr := by rw [hv]; rfl
  have hvCp : v.cp15 = m.cp15 := by rw [hv, ← hCp]; rfl
  obtain ⟨hMem', hCpsr, hSpsr', hCp'⟩ :=
    exec_SAVE_OLD_STATE (oldArea_apart kind) hr0 (by rw [hStack2, hPsr, hvCpsr])
  rw [hvCpsr, hvSpsr, hSpsr] at hMem'
  have hGeneral : general.map ((v.set sp (reaching m.cpsr)).view (bank m.cpsr)) =
      general.map m.get := by
    have hNames : ∀ r ∈ general, (r ≠ r0 ∧ r ≠ sp) ∧ r ≠ lr := by decide
    refine List.map_congr_left fun r hr => ?_
    obtain ⟨⟨hr0, hsp⟩, hlr⟩ := hNames r hr
    rw [hv, Machine.set, Machine.setView_view_ne hsp, Machine.set, Machine.setView_view_ne hlr,
      Machine.set, Machine.setView_view_ne hr0]
    exact hShared r hr _
  refine ⟨psr, ?_, ?_, ?_, ?_⟩
  · rw [ht, hMem', hStack0, hStack1, hHigh, hLow, hvMem, systemWords, hvCpsr, hvSpsr, hSpsr, hvCp,
      bank_reaching hMode, middle, List.map_append, hGeneral]
    by_cases hSame : bank m.cpsr = bank u.cpsr
    · have hsp : (v.set sp (reaching m.cpsr)).view (bank m.cpsr) sp = reaching m.cpsr := by
        rw [hSame, ← hvCpsr]
        exact Machine.setView_view_self
      have hlr : (v.set sp (reaching m.cpsr)).view (bank m.cpsr) lr = B.saved kind := by
        rw [Machine.set, Machine.setView_view_ne (by decide), hSame, hv]
        exact Machine.setView_view_self
      rw [if_pos hSame, List.map_cons, List.map_singleton, hsp, hlr]
      rfl
    · have hOther : bank m.cpsr ≠ bank v.cpsr := by rwa [hvCpsr]
      have hsp : (v.set sp (reaching m.cpsr)).view (bank m.cpsr) sp = m.get sp := by
        rw [Machine.set, Machine.setView_view_bank hOther (.inl rfl), hv, Machine.set,
          Machine.setView_view_ne (by decide), Machine.set, Machine.setView_view_ne (by decide)]
        exact (hBanked _ hSame).1
      have hlr : (v.set sp (reaching m.cpsr)).view (bank m.cpsr) lr = m.get lr := by
        rw [Machine.set, Machine.setView_view_ne (by decide), hv]
        refine (Machine.setView_view_bank hSame (.inr rfl)).trans ?_
        rw [Machine.set, Machine.setView_view_ne (by decide)]
        exact (hBanked _ hSame).2
      rw [if_neg hSame, List.map_cons, List.map_singleton, hsp, hlr]
      rfl
  · rw [ht, hCpsr, hStack2, hPsr]
  · rw [ht, hSpsr', hvSpsr]
  · rw [ht, hCp', hvCp]

end Save

end Nucleus.Bios
