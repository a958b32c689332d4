import Nucleus.Semantics.Outcome

/-! A sender that polls the status of a device. Every reading of the status tells it to wait,
to send the next item, or to give up; when there is no next item it is done. -/
namespace Semantics

inductive Verdict where
  | wait | send | stop
  deriving DecidableEq

/-- How often the status has been read, the next item, and what the device was given. -/
structure Sender (Item : Type) where
  reads : ℕ
  index : ℕ
  sent : List Item

variable {Item : Type}

namespace Sender

def start : Sender Item := ⟨0, 0, []⟩

/-- One reading, with the verdict on it. -/
def poll (verdict : ℕ → Verdict) (items : ℕ → Option Item) (s : Sender Item) :
    Outcome (Sender Item ⊕ Sender Item) :=
  match verdict s.reads with
  | .wait => return .inl { s with reads := s.reads + 1 }
  | .stop => return .inr { s with reads := s.reads + 1 }
  | .send =>
      match items s.index with
      | none => return .inr { s with reads := s.reads + 1 }
      | some item => return .inl ⟨s.reads + 1, s.index + 1, s.sent ++ [item]⟩

end Sender

section Specification

variable (verdict : ℕ → Verdict) (items : ℕ → Option Item)

/-- The readings among the first `n` at which an item may be sent. -/
def sends : ℕ → ℕ
  | 0 => 0
  | n + 1 => sends n + if verdict n = .send then 1 else 0

/-- The first `k` items. -/
def firstItems (k : ℕ) : List Item := (List.range k).filterMap items

/-- The sender when it has read the status `n` times without leaving the loop. -/
def senderAt (n : ℕ) : Sender Item := ⟨n, sends verdict n, firstItems items (sends verdict n)⟩

/-- The sender leaves the loop at reading `n`, if it comes so far. -/
def Leaves (n : ℕ) : Prop :=
  verdict n = .stop ∨ verdict n = .send ∧ items (sends verdict n) = none

end Specification

section Loop

variable {verdict : ℕ → Verdict} {items : ℕ → Option Item} {n fuel : ℕ}

theorem sends_mono {m : ℕ} (h : m ≤ n) : sends verdict m ≤ sends verdict n := by
  induction h with
  | refl => exact Nat.le_refl _
  | step _ ih => exact Nat.le_trans ih (Nat.le_add_right ..)

theorem sends_congr {verdict' : ℕ → Verdict} (h : ∀ m < n, verdict m = verdict' m) :
    sends verdict n = sends verdict' n := by
  induction n with
  | zero => rfl
  | succ n ih =>
      rw [sends, sends, h n (Nat.lt_succ_self n), ih fun m hm => h m (Nat.lt_succ_of_lt hm)]

theorem firstItems_succ {k : ℕ} {item : Item} (h : items k = some item) :
    firstItems items (k + 1) = firstItems items k ++ [item] := by
  rw [firstItems, List.range_succ, List.filterMap_append]
  simp [firstItems, h]

/-- One pass that goes on. -/
theorem poll_next (h : ¬ Leaves verdict items n) : (senderAt verdict items n).poll verdict items =
    .ok (.inl (senderAt verdict items (n + 1))) := by
  cases hVerdict : verdict n with
  | wait => simp [Sender.poll, senderAt, sends, hVerdict]
  | stop => exact absurd (.inl hVerdict) h
  | send =>
      cases hItem : items (sends verdict n) with
      | none => exact absurd (.inr ⟨hVerdict, hItem⟩) h
      | some item => simp [Sender.poll, senderAt, sends, hVerdict, hItem, firstItems_succ hItem]

theorem poll_leave (h : Leaves verdict items n) : (senderAt verdict items n).poll verdict items =
    .ok (.inr { senderAt verdict items n with reads := n + 1 }) := by
  rcases h with hStop | ⟨hSend, hNone⟩
  · simp [Sender.poll, senderAt, hStop]
  · simp [Sender.poll, senderAt, hSend, hNone]

/-- The loop leaves at the first reading that tells it to. -/
theorem loop_poll_leave (h : Leaves verdict items n) (hFirst : ∀ m < n, ¬ Leaves verdict items m)
    (hFuel : n < fuel) : loop (Sender.poll verdict items) fuel .start =
      .ok { senderAt verdict items n with reads := n + 1 } := by
  have hGo (k : ℕ) (hk : k ≤ n) : loop (Sender.poll verdict items) fuel .start =
      loop (Sender.poll verdict items) (fuel - k) (senderAt verdict items k) := by
    induction k with
    | zero => rfl
    | succ k ih =>
        have hFuel' : fuel - k = fuel - (k + 1) + 1 := by omega
        rw [ih (by omega), hFuel', loop_next (poll_next (hFirst k (by omega)))]
  have hLast : fuel - n = fuel - n - 1 + 1 := by omega
  rw [hGo n (Nat.le_refl n), hLast, loop_exit (poll_leave h)]

/-- Every return is at such a first reading. -/
theorem loop_poll_ok {r : Sender Item}
    (h : loop (Sender.poll verdict items) fuel .start = .ok r) :
    ∃ n, Leaves verdict items n ∧ (∀ m < n, ¬ Leaves verdict items m) ∧
      r = { senderAt verdict items n with reads := n + 1 } := by
  have hGo (fuel k : ℕ) (hBefore : ∀ m < k, ¬ Leaves verdict items m)
      (h : loop (Sender.poll verdict items) fuel (senderAt verdict items k) = .ok r) :
      ∃ n, Leaves verdict items n ∧ (∀ m < n, ¬ Leaves verdict items m) ∧
        r = { senderAt verdict items n with reads := n + 1 } := by
    induction fuel generalizing k with
    | zero => cases h
    | succ fuel ih =>
        by_cases hLeave : Leaves verdict items k
        · rw [loop_exit (poll_leave hLeave)] at h
          exact ⟨k, hLeave, hBefore, (Except.ok.inj h).symm⟩
        · rw [loop_next (poll_next hLeave)] at h
          refine ih (k + 1) (fun m hm => ?_) h
          rcases Nat.lt_succ_iff_lt_or_eq.mp hm with hLess | rfl
          · exact hBefore m hLess
          · exact hLeave
  exact hGo fuel 0 (fun m hm => absurd hm (Nat.not_lt_zero m)) h

end Loop

section Terminated

/-- There are exactly `count` items. -/
structure Terminated (items : ℕ → Option Item) (count : ℕ) : Prop where
  before : ∀ i < count, items i ≠ none
  last : items count = none

variable {verdict : ℕ → Verdict} {items : ℕ → Option Item} {count n fuel : ℕ} {r : Sender Item}

/-- Before the sender leaves, nothing behind the last item is sent. -/
theorem Terminated.sends_le (h : Terminated items count)
    (hFirst : ∀ m < n, ¬ Leaves verdict items m) : sends verdict n ≤ count := by
  induction n with
  | zero => exact Nat.zero_le _
  | succ n ih =>
      have hLe := ih fun m hm => hFirst m (Nat.lt_succ_of_lt hm)
      rw [sends]
      split
      · rename_i hSend
        have hNe : sends verdict n ≠ count := fun hEq =>
          hFirst n (Nat.lt_succ_self n) (.inr ⟨hSend, hEq ▸ h.last⟩)
        omega
      · omega

/-- Up to the reading at which all items have been sent, only a verdict to stop leaves. -/
theorem Terminated.not_leaves (h : Terminated items count) (hCount : sends verdict n = count)
    (hGo : ∀ m < n, verdict m ≠ .stop) : ∀ m < n, ¬ Leaves verdict items m := by
  intro m hm hLeave
  rcases hLeave with hStop | ⟨hSend, hNone⟩
  · exact hGo m hm hStop
  · have hLess : sends verdict (m + 1) ≤ count := hCount ▸ sends_mono hm
    rw [sends, if_pos hSend] at hLess
    exact h.before _ (by omega) hNone

/-- All items are sent exactly if the sender is not told to stop before the last, and is
told something else than to wait after it. -/
theorem Terminated.all_sent_iff (h : Terminated items count) :
    (∃ fuel r, loop (Sender.poll verdict items) fuel .start = .ok r ∧ r.index = count) ↔
      ∃ n, sends verdict n = count ∧ verdict n ≠ .wait ∧ ∀ m < n, verdict m ≠ .stop := by
  constructor
  · intro hReturn
    obtain ⟨fuel, r, hLoop, hIndex⟩ := hReturn
    obtain ⟨n, hLeave, hFirst, rfl⟩ := loop_poll_ok hLoop
    refine ⟨n, hIndex, fun hWait => ?_, fun m hm hStop => hFirst m hm (.inl hStop)⟩
    rcases hLeave with hStop | ⟨hSend, -⟩
    · cases hWait.symm.trans hStop
    · cases hWait.symm.trans hSend
  · intro hReading
    obtain ⟨n, hCount, hWait, hGo⟩ := hReading
    have hLeave : Leaves verdict items n := by
      cases hVerdict : verdict n with
      | wait => exact absurd hVerdict hWait
      | stop => exact .inl hVerdict
      | send => exact .inr ⟨hVerdict, hCount ▸ h.last⟩
    exact ⟨n + 1, _, loop_poll_leave hLeave (h.not_leaves hCount hGo) (Nat.lt_succ_self n), hCount⟩

/-- What has been sent at a return are the first items in their order, and no others. -/
theorem Terminated.sent (h : Terminated items count)
    (hLoop : loop (Sender.poll verdict items) fuel .start = .ok r) :
    r.index ≤ count ∧ r.sent = firstItems items r.index := by
  obtain ⟨n, -, hFirst, rfl⟩ := loop_poll_ok hLoop
  exact ⟨h.sends_le hFirst, rfl⟩

/-- A sender that is never told to stop comes back with all items sent, or not at all. -/
theorem Terminated.sent_all (h : Terminated items count) (hGo : ∀ n, verdict n ≠ .stop)
    (hLoop : loop (Sender.poll verdict items) fuel .start = .ok r) : r.index = count := by
  obtain ⟨n, hLeave, hFirst, rfl⟩ := loop_poll_ok hLoop
  rcases hLeave with hStop | ⟨-, hNone⟩
  · exact absurd hStop (hGo n)
  · have hLe := h.sends_le hFirst
    have hNotBefore : ¬ sends verdict n < count := fun hLess => h.before _ hLess hNone
    show sends verdict n = count
    omega

end Terminated

end Semantics
