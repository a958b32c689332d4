import Nucleus.Bios.Resume
import Nucleus.Semantics.System

/-! Exceptions over whole runs. Between an exception and the return from it there may be
anything: computation of the handler and of other programs, further exceptions of other
kinds, returns from them. -/
namespace Nucleus.Bios

open Arm Arm.Reg Semantics

/-- What happens on the processor: some computation, or an exception. -/
inductive Event where
  | compute (next : Machine)
  | exception (v : Vector) (link : Word)

/-- The processor as one old area sees it. A computation keeps off this area; an exception
tells which area it has used. -/
def processor (B : Platform) (kind : Kind) : System Machine Event (Option Kind) where
  Legal m
    | .compute next => ∀ i < 22, next.mem (word (oldArea kind) i) = m.mem (word (oldArea kind) i)
    | .exception v link => ValidMode m.cpsr ∧ (v = .SWI → link - 4#32 ∉ frame) ∧
        (trapKind B link m v = none → Apart (m.get r0))
  exec m
    | .compute next => return (next, none)
    | .exception v link => do return (← raise B v link m, trapKind B link m v)

section Step

variable {B : Platform} {kind : Kind} {v : Vector} {link : Word} {m t : Machine}

theorem trapKind_none (h : trapKind B link m v = none) : v = .SWI := by
  cases v with
  | SWI => rfl
  | UNDEF => cases h
  | PREFABT => cases h
  | DATAABT => cases h
  | IRQ => cases h
  | FIQ => cases h

/-- The one service that comes back touches nothing outside the stack. -/
theorem Served.mem (h : Served B link m (.ok t)) {x : Word} (hx : x ∉ frame) :
    t.mem x = m.mem x := by
  unfold Served at h
  split at h
  · cases h
  · split at h
    · cases h
    · split at h
      · obtain ⟨t', hOk, hLoaded⟩ := h
        cases hOk
        exact hLoaded.mem x hx
      · cases h

/-- An exception leaves the area of another kind as it is. -/
theorem raise_other {kind : Kind} (hMode : ValidMode m.cpsr)
    (hCode : v = .SWI → link - 4#32 ∉ frame)
    (hApart : trapKind B link m v = none → Apart (m.get r0))
    (hOther : trapKind B link m v ≠ some kind) (hRaise : raise B v link m = .ok t) :
    ∀ i < 22, t.mem (word (oldArea kind) i) = m.mem (word (oldArea kind) i) := by
  intro i hi
  have hOutside := (oldArea_apart kind).notMem_frame hi
  cases hKind : trapKind B link m v with
  | none =>
      obtain rfl := trapKind_none hKind
      have hServed := raise_served (hCode rfl) hKind fun _ => hApart hKind
      rw [hRaise] at hServed
      exact hServed.mem hOutside
  | some used =>
      obtain ⟨t', hRaise', hTrapped⟩ := raise_trapped hMode hCode hKind
      obtain rfl : t = t' := Except.ok.inj (hRaise.symm.trans hRaise')
      have hNe : used ≠ kind := fun hEq => hOther (hKind.trans (congrArg some hEq))
      rw [hTrapped.mem_ne hOutside fun j hj => oldAreas_disjoint hNe j hj i hi, interrupted_mem]

theorem exec_exception (hRaise : raise B v link m = .ok t) :
    (processor B kind).exec m (.exception v link) = .ok (t, trapKind B link m v) := by
  show (raise B v link m >>= fun t => return (t, trapKind B link m v)) = _
  rw [hRaise]
  rfl

end Step

section Run

variable {B : Platform} {kind : Kind} {v : Vector} {link : Word} {m t u : Machine}
  {trace : List (Event × Option Kind)} {ws : List Word}

/-- What an old area holds stays until the next exception of its kind. -/
theorem holds_of_run (run : (processor B kind).Run t trace u)
    (hOther : ∀ entry ∈ trace, entry.2 ≠ some kind) (hSize : ws.length ≤ 22)
    (hHolds : Holds t.mem (oldArea kind) ws) : Holds u.mem (oldArea kind) ws := by
  refine run.invariant_on (fun s => Holds s.mem (oldArea kind) ws)
    (fun entry => entry.2 ≠ some kind) ?_ hHolds hOther
  intro s call s' reply hInv legal hReply hExec i hi
  rw [← hInv i hi]
  cases call with
  | compute next =>
      cases hExec
      exact legal i (by omega)
  | exception v link =>
      obtain ⟨hMode, hCode, hApart⟩ := legal
      obtain ⟨s'', hRaise, hOk⟩ := Outcome.bind_eq_ok.mp hExec
      cases hOk
      exact raise_other hMode hCode hApart hReply hRaise i (by omega)

/-- A program that has taken an exception is resumed by `LDST` of the old area, after any
run in which the area is not used again, unless it was in the mode of the handler. -/
theorem resumed_iff_of_run {link' : Word} (hMode : ValidMode m.cpsr)
    (hCode : v = .SWI → link - 4#32 ∉ frame) (hKind : trapKind B link m v = some kind)
    (hRaise : raise B v link m = .ok t) (run : (processor B kind).Run t trace u)
    (hOther : ∀ entry ∈ trace, entry.2 ≠ some kind) (hCode' : link' - 4#32 ∉ frame)
    (hNumbers : B.Distinct) (hLDST : service u link' = B.BIOS_SRV_LDST)
    (hr0 : u.get r0 = oldArea kind)
    (hBank : filled B (entryPsr u.cpsr Vector.SWI.mode) m.cpsr = bank m.cpsr) :
    ∃ s, raise B .SWI link' u = .ok s ∧
      (Resumed (interrupted B v link m) link s ↔ Undisturbed B kind v.mode m) := by
  obtain ⟨t', hRaise', hTrapped⟩ := raise_trapped hMode hCode hKind
  obtain rfl : t = t' := Except.ok.inj (hRaise.symm.trans hRaise')
  have hHolds := holds_of_run run hOther (Nat.le_of_eq trapWords_length) hTrapped.holds
  obtain ⟨s, hReturn, hLoaded⟩ := raise_LDST hCode' hNumbers hLDST (hr0 ▸ oldArea_apart kind)
  rw [hr0] at hLoaded
  have hPsr : u.mem (word (oldArea kind) 16) = m.cpsr := by
    rw [hHolds.word_eq (trapWords_cpsr ..), interrupted_cpsr]
  rw [hPsr, hBank] at hLoaded
  refine ⟨s, hReturn, ?_⟩
  rw [hLoaded.resumed_trap_iff hHolds (by rw [interrupted_cpsr]), undisturbed_interrupted]

/-- A system call of a user program whose handler is interrupted before it returns. -/
theorem resumed_program : ∃ t u s,
    raise (rom 0x300 fun _ loaded => loaded) .SWI 0x9004 program = .ok t ∧
      raise (rom 0x300 fun _ loaded => loaded) .IRQ 0xA000 t = .ok u ∧
      raise (rom 0x300 fun _ loaded => loaded) .SWI 0x9008 (u.set r0 (oldArea .SWI)) = .ok s ∧
      Resumed (interrupted (rom 0x300 fun _ loaded => loaded) .SWI 0x9004 program) 0x9004 s := by
  obtain ⟨B, hB⟩ : ∃ B, B = rom 0x300 fun _ loaded => loaded := ⟨_, rfl⟩
  rw [← hB]
  have hKind : trapKind B 0x9004 program .SWI = some .SWI := by rw [hB]; decide
  obtain ⟨t, hRaise, h⟩ := raise_trapped (by unfold ValidMode; decide) (by decide) hKind
  have hPsr : t.cpsr = 0x13#32 := by rw [h.cpsr_eq, interrupted_mem]; rfl
  have hMode : ValidMode t.cpsr := by rw [hPsr]; unfold ValidMode; decide
  have hKind' : trapKind B 0xA000 t .IRQ = some .INT := rfl
  obtain ⟨u, hRaise', h'⟩ := raise_trapped hMode (fun hSwi => by cases hSwi) hKind'
  have hCode : u.mem 0x9004#32 = 0xEF000003#32 := by
    rw [h'.mem_ne (by decide) (by decide), interrupted_mem, h.mem_ne (by decide) (by decide),
      interrupted_mem]
    rfl
  have run : (processor B .SWI).Run t [(.exception .IRQ 0xA000, some .INT),
      (.compute (u.set r0 (oldArea .SWI)), none)] (u.set r0 (oldArea .SWI)) :=
    .cons ⟨hMode, fun hSwi => (by cases hSwi), fun hNone => (by cases hNone)⟩
      (exec_exception hRaise') (.cons (fun _ _ => rfl) rfl (.nil _))
  have hLDST : service (u.set r0 (oldArea .SWI)) 0x9008 = B.BIOS_SRV_LDST := by
    rw [hB]
    exact congrArg (· &&& 0xFFFFFF#32) hCode
  have hBank : filled B (entryPsr (u.set r0 (oldArea .SWI)).cpsr Vector.SWI.mode) program.cpsr =
      bank program.cpsr := by
    rw [hB]
    exact if_pos (by decide)
  obtain ⟨s, hReturn, hResumed⟩ := resumed_iff_of_run (by unfold ValidMode; decide) (by decide)
    hKind hRaise run (by simp) (by decide) (by rw [hB]; unfold Platform.Distinct; decide) hLDST
    (Machine.get_set ..) hBank
  exact ⟨t, u, s, hRaise, hRaise', hReturn, hResumed.mpr fun hSame => absurd hSame (by decide)⟩

end Run

end Nucleus.Bios
