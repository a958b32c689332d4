import Nucleus.Bios.Basic
import Nucleus.Semantics.Polling

/-! The two routines that print a string on terminal 0: `tprint` of `libuarm.S`, and `PRINT`
of `BIOS.s`, which prints the messages of `HALT` and `PANIC`. Both poll the status of the
terminal, which the device changes as it likes. -/
namespace Nucleus.Bios

open Semantics

section Constants

def SENDCHAR : Word := 2

def READY_STAT : Word := 1

def BUSY_STAT : Word := 3

def TRANSMITTED_STAT : Word := 5

end Constants

section Code

-- The status words that are read one after another, and the bytes of the string.
variable (status : ℕ → Word) (text : ℕ → BitVec 8)

/-- `PRINT_LOOP`. Only a busy terminal is waited for. -/
def printLoop (s : Sender Word) : Outcome (Sender Word ⊕ Sender Word) :=
  let r7 := status s.reads &&& 0xFF
  let s := { s with reads := s.reads + 1 }
  if r7 = 3 then return .inl s
  else
    let r7 := (text s.index).setWidth 32
    if r7 = 0 then return .inr s
    else return .inl { s with index := s.index + 1, sent := s.sent ++ [r7 <<< 8 ||| 2] }

def PRINT (fuel : ℕ) : Outcome (Sender Word) := loop (printLoop status text) fuel .start

/-- `tprint_do_print` -/
def tprintChar (s : Sender Word) : Outcome (Sender Word ⊕ Sender Word) :=
  let r7 := (text s.index).setWidth 32
  if r7 = 0 then return .inr s
  else return .inl { s with index := s.index + 1, sent := s.sent ++ [r7 <<< 8 ||| SENDCHAR] }

/-- `tprint_print_loop`. Any other status ends the output. -/
def tprintLoop (s : Sender Word) : Outcome (Sender Word ⊕ Sender Word) :=
  let r7 := status s.reads &&& 0xFF
  let s := { s with reads := s.reads + 1 }
  if r7 = READY_STAT then tprintChar text s
  else if r7 = TRANSMITTED_STAT then tprintChar text s
  else if r7 = BUSY_STAT then return .inl s
  else return .inr s

def tprint (fuel : ℕ) : Outcome (Sender Word) := loop (tprintLoop status text) fuel .start

end Code

section Verdicts

variable {status : ℕ → Word} {text : ℕ → BitVec 8}

/-- What a routine does at a status. -/
def printVerdict (status : Word) : Verdict := if status &&& 0xFF = 3 then .wait else .send

def tprintVerdict (status : Word) : Verdict :=
  if status &&& 0xFF = READY_STAT ∨ status &&& 0xFF = TRANSMITTED_STAT then .send
  else if status &&& 0xFF = BUSY_STAT then .wait
  else .stop

/-- The command that prints a character. -/
def command (c : BitVec 8) : Word := c.setWidth 32 <<< 8 ||| SENDCHAR

/-- The commands for a string that ends with a zero byte. -/
def commands (text : ℕ → BitVec 8) (i : ℕ) : Option Word :=
  if text i = 0 then none else some (command (text i))

theorem setWidth_eq_zero_iff (c : BitVec 8) : c.setWidth 32 = 0#32 ↔ c = 0#8 := by
  rw [BitVec.toNat_eq, BitVec.toNat_eq, BitVec.toNat_setWidth]
  have hSmall := c.isLt
  show c.toNat % 2 ^ 32 = 0 ↔ c.toNat = 0
  omega

theorem printLoop_eq : printLoop status text =
    Sender.poll (fun n => printVerdict (status n)) (commands text) := by
  funext s
  by_cases hBusy : status s.reads &&& 0xFF#32 = 3#32
  · simp [printLoop, Sender.poll, printVerdict, hBusy]
  · by_cases hLast : text s.index = 0#8
    · simp [printLoop, Sender.poll, printVerdict, hBusy, commands, hLast]
    · have hChar : (text s.index).setWidth 32 ≠ 0#32 := fun hZero =>
        hLast ((setWidth_eq_zero_iff _).mp hZero)
      simp [printLoop, Sender.poll, printVerdict, hBusy, commands, hLast, hChar, command,
        SENDCHAR]

/-- The two branches that send are one. -/
theorem tprintLoop_eq : tprintLoop status text =
    Sender.poll (fun n => tprintVerdict (status n)) (commands text) := by
  funext s
  have hSend (hReady : tprintVerdict (status s.reads) = .send) :
      tprintChar text { s with reads := s.reads + 1 } =
        Sender.poll (fun n => tprintVerdict (status n)) (commands text) s := by
    by_cases hLast : text s.index = 0#8
    · simp [tprintChar, Sender.poll, hReady, commands, hLast]
    · have hChar : (text s.index).setWidth 32 ≠ 0#32 := fun hZero =>
        hLast ((setWidth_eq_zero_iff _).mp hZero)
      simp [tprintChar, Sender.poll, hReady, commands, hLast, hChar, command]
  by_cases hReady : status s.reads &&& 0xFF#32 = READY_STAT
  · rw [← hSend (if_pos (.inl hReady))]
    exact if_pos hReady
  by_cases hTransmitted : status s.reads &&& 0xFF#32 = TRANSMITTED_STAT
  · rw [← hSend (if_pos (.inr hTransmitted))]
    exact (if_neg hReady).trans (if_pos hTransmitted)
  by_cases hBusy : status s.reads &&& 0xFF#32 = BUSY_STAT
  · rw [hBusy] at hReady hTransmitted
    simp [tprintLoop, Sender.poll, tprintVerdict, hReady, hTransmitted, hBusy]
  · simp [tprintLoop, Sender.poll, tprintVerdict, hReady, hTransmitted, hBusy]

end Verdicts

section Output

/-- A string of `count` bytes that ends with a zero byte. -/
structure Text (text : ℕ → BitVec 8) (count : ℕ) : Prop where
  bytes : ∀ i < count, text i ≠ 0#8
  last : text count = 0#8

/-- The commands that print the first `count` bytes. -/
def line (text : ℕ → BitVec 8) (count : ℕ) : List Word :=
  (List.range count).map fun i => command (text i)

variable {status : ℕ → Word} {text : ℕ → BitVec 8} {count fuel : ℕ} {r : Sender Word}

theorem Text.terminated (h : Text text count) : Terminated (commands text) count :=
  ⟨fun i hi => by simp [commands, h.bytes i hi], if_pos h.last⟩

theorem Text.firstItems (h : Text text count) {k : ℕ} (hk : k ≤ count) :
    firstItems (commands text) k = line text k := by
  induction k with
  | zero => rfl
  | succ k ih =>
      have hItem : commands text k = some (command (text k)) := if_neg (h.bytes k hk)
      rw [firstItems_succ hItem, ih (Nat.le_of_succ_le hk)]
      simp [line, List.range_succ]

theorem line_inj {k : ℕ} (h : line text k = line text count) : k = count := by
  have hLength := congrArg List.length h
  rwa [line, line, List.length_map, List.length_map, List.length_range, List.length_range]
    at hLength

theorem tprint_sent (h : Text text count) (hReturn : tprint status text fuel = .ok r) :
    r.index ≤ count ∧ r.sent = line text r.index := by
  rw [tprint, tprintLoop_eq] at hReturn
  obtain ⟨hLe, hSent⟩ := h.terminated.sent hReturn
  exact ⟨hLe, hSent.trans (h.firstItems hLe)⟩

theorem printVerdict_ne_stop (status : Word) : printVerdict status ≠ .stop := by
  unfold printVerdict
  split
  · decide
  · decide

theorem printVerdict_eq_send_iff (status : Word) :
    printVerdict status = .send ↔ printVerdict status ≠ .wait := by
  have hNe := printVerdict_ne_stop status
  cases h : printVerdict status with
  | wait => decide
  | send => decide
  | stop => exact absurd h hNe

/-- Both routines wait for the same status. -/
theorem printVerdict_wait_of {status : Word} (h : printVerdict status = .wait) :
    tprintVerdict status = .wait := by
  have hBusy : status &&& 0xFF#32 = BUSY_STAT := by
    by_contra hNot
    cases (if_neg hNot).symm.trans h
  rw [tprintVerdict]
  simp only [BitVec.ofNat_eq_ofNat, hBusy]
  decide

theorem tprintVerdict_eq {status : Word} (h : tprintVerdict status ≠ .stop) :
    tprintVerdict status = printVerdict status := by
  cases hPrint : printVerdict status with
  | wait => exact printVerdict_wait_of hPrint
  | stop => exact absurd hPrint (printVerdict_ne_stop status)
  | send =>
      have hNot : ¬ status &&& 0xFF#32 = BUSY_STAT := fun hBusy => by
        cases (if_pos hBusy).symm.trans hPrint
      unfold tprintVerdict at h ⊢
      split
      · rfl
      · rename_i hOther
        exact absurd ((if_neg hOther).trans (if_neg hNot)) h

theorem PRINT_sent (h : Text text count) (hReturn : PRINT status text fuel = .ok r) :
    r.sent = line text count := by
  rw [PRINT, printLoop_eq] at hReturn
  have hIndex := h.terminated.sent_all (fun n => printVerdict_ne_stop (status n)) hReturn
  obtain ⟨hLe, hSent⟩ := h.terminated.sent hReturn
  rw [hSent, h.firstItems hLe, hIndex]

theorem PRINT_returns (h : Text text count) : (∃ fuel r, PRINT status text fuel = .ok r) ↔
    ∃ n, sends (fun n => printVerdict (status n)) n = count ∧ printVerdict (status n) = .send := by
  constructor
  · intro hReturn
    obtain ⟨fuel, r, hReturn⟩ := hReturn
    rw [PRINT, printLoop_eq] at hReturn
    have hIndex := h.terminated.sent_all (fun n => printVerdict_ne_stop (status n)) hReturn
    obtain ⟨n, hCount, hWait, -⟩ := h.terminated.all_sent_iff.mp ⟨fuel, r, hReturn, hIndex⟩
    exact ⟨n, hCount, (printVerdict_eq_send_iff _).mpr hWait⟩
  · intro hReading
    obtain ⟨n, hCount, hSend⟩ := hReading
    obtain ⟨fuel, r, hReturn, -⟩ := h.terminated.all_sent_iff.mpr
      ⟨n, hCount, (printVerdict_eq_send_iff _).mp hSend, fun m _ => printVerdict_ne_stop (status m)⟩
    exact ⟨fuel, r, by rwa [PRINT, printLoop_eq]⟩

theorem tprint_whole (h : Text text count) :
    (∃ fuel r, tprint status text fuel = .ok r ∧ r.sent = line text count) ↔
      ∃ n, sends (fun n => tprintVerdict (status n)) n = count ∧
        tprintVerdict (status n) ≠ .wait ∧ ∀ m < n, tprintVerdict (status m) ≠ .stop := by
  rw [← h.terminated.all_sent_iff, ← tprintLoop_eq]
  constructor
  · intro hWhole
    obtain ⟨fuel, r, hReturn, hSent⟩ := hWhole
    exact ⟨fuel, r, hReturn, line_inj ((tprint_sent h hReturn).2.symm.trans hSent)⟩
  · intro hWhole
    obtain ⟨fuel, r, hReturn, hIndex⟩ := hWhole
    exact ⟨fuel, r, hReturn, hIndex ▸ (tprint_sent h hReturn).2⟩

/-- `tprint` puts out a beginning of the string, in order. It is the whole string exactly if
no status but ready, transmitted and busy comes before the last byte is taken, and the
terminal does not stay busy behind it. -/
theorem tprint_line_iff (h : Text text count) :
    (∀ fuel r, tprint status text fuel = .ok r → r.index ≤ count ∧ r.sent = line text r.index) ∧
      ((∃ fuel r, tprint status text fuel = .ok r ∧ r.sent = line text count) ↔
        ∃ n, sends (fun n => tprintVerdict (status n)) n = count ∧
          tprintVerdict (status n) ≠ .wait ∧ ∀ m < n, tprintVerdict (status m) ≠ .stop) :=
  ⟨fun _ _ hReturn => tprint_sent h hReturn, tprint_whole h⟩

/-- `PRINT` comes back exactly if the terminal is often enough not busy, once more than the
string has bytes. Then it has put out the whole string, whatever errors the status told. It
comes back wherever `tprint` puts out the whole string. -/
theorem PRINT_returns_iff (h : Text text count) :
    (∀ fuel r, PRINT status text fuel = .ok r → r.sent = line text count) ∧
      ((∃ fuel r, PRINT status text fuel = .ok r) ↔
        ∃ n, sends (fun n => printVerdict (status n)) n = count ∧
          printVerdict (status n) = .send) ∧
      ((∃ fuel r, tprint status text fuel = .ok r ∧ r.sent = line text count) →
        ∃ fuel r, PRINT status text fuel = .ok r) := by
  refine ⟨fun _ _ hReturn => PRINT_sent h hReturn, PRINT_returns h, fun hWhole => ?_⟩
  obtain ⟨n, hCount, hWait, hGo⟩ := (tprint_whole h).mp hWhole
  rw [PRINT_returns h]
  refine ⟨n, ?_, (printVerdict_eq_send_iff _).mpr fun hBusy => hWait (printVerdict_wait_of hBusy)⟩
  rw [← hCount]
  exact sends_congr fun m hm => (tprintVerdict_eq (hGo m hm)).symm

/-- A string of two bytes. -/
def twoBytes (i : ℕ) : BitVec 8 := if i = 0 then 0x48 else if i = 1 then 0x69 else 0

theorem twoBytes_text : Text twoBytes 2 := ⟨by decide, rfl⟩

/-- A terminal that is always ready. -/
theorem tprint_line_two :
    ∃ fuel r, tprint (fun _ => 1) twoBytes fuel = .ok r ∧ r.sent = line twoBytes 2 :=
  (tprint_line_iff twoBytes_text).2.mpr ⟨2, by decide, by decide, by decide⟩

/-- A terminal that tells an error at every reading. -/
theorem PRINT_returns_two :
    ∃ fuel r, PRINT (fun _ => 4) twoBytes fuel = .ok r ∧ r.sent = line twoBytes 2 := by
  have hError : ∃ n, sends (fun _ => printVerdict 4) n = 2 ∧ printVerdict 4 = .send :=
    ⟨2, by decide, by decide⟩
  obtain ⟨hLine, hReturns, -⟩ := @PRINT_returns_iff (fun _ => 4) twoBytes 2 twoBytes_text
  obtain ⟨fuel, r, hExec⟩ := hReturns.mpr hError
  exact ⟨fuel, r, hExec, hLine fuel r hExec⟩

end Output

end Nucleus.Bios
