import Nucleus.Asl.Safety
import Nucleus.Tables.Basic

/-! The field `p_semAdd`, which repeats what the semaphore queues say. It is
written when a process is blocked and when a block is allocated, and by nothing
else, so a process that was released keeps the name of its last semaphore. -/
namespace Nucleus

open Function (update)
open Linked Semantics

variable {ι P D : Type}

namespace Memory

theorem allocated_of_none {s : Memory P D} {p : P} (h : s.pcbFree_h = none) : s.Allocated p := by
  intro hReach
  rw [h] at hReach
  cases hReach

theorem not_blocked_of_none {s : Memory P D} {d : D} {p : P} (h : s.semd_h = some d)
    (hNext : s.semd.s_next d = none) : ¬s.Blocked p := by
  rintro ⟨a, d, ⟨e, he, hReach⟩, -⟩
  rw [h] at he
  cases he
  rw [hNext] at hReach
  cases hReach

end Memory

/-- Allocation and the operations of the semaphore list, on non-NULL addresses. -/
def nameSystem [DecidableEq ι] [DecidableEq P] [DecidableEq D] (fuel : ℕ) :
    System (Tables ι P D) (TableCall ι P) (Reply P) where
  Legal s
    | .allocPcb => True
    | .asl (.insertBlocked semAdd p) => semAdd ≠ 0 ∧ s.mem.Allocated p ∧ ¬s.mem.Blocked p
    | .asl (.removeBlocked _) => True
    | .asl (.outBlocked p) => s.mem.Blocked p
    | _ => False
  exec := tableExec fuel

/-- What the calls so far say about each process: the semaphore that it named
last, and the semaphore on which it is blocked. -/
structure History (P : Type) where
  named : P → Addr
  blocked : P → Option Addr

namespace History

def start : History P := ⟨fun _ => 0, fun _ => none⟩

def record [DecidableEq P] (history : History P) : TableCall ι P × Reply P → History P
  | (.allocPcb, .pcb (some p)) => { history with named := update history.named p 0 }
  | (.asl (.insertBlocked semAdd p), .flag false) =>
      ⟨update history.named p semAdd, update history.blocked p (some semAdd)⟩
  | (.asl (.removeBlocked _), .pcb (some p)) =>
      { history with blocked := update history.blocked p none }
  | (.asl (.outBlocked _), .pcb (some p)) =>
      { history with blocked := update history.blocked p none }
  | _ => history

/-- The history of a run from the initialised tables. -/
def of [DecidableEq P] (trace : List (TableCall ι P × Reply P)) : History P :=
  trace.foldl record start

/-- The queues hold exactly the processes that the history says are blocked. -/
def Tracks (history : History P) (m : Addr → List P) : Prop :=
  ∀ a p, p ∈ m a ↔ history.blocked p = some a

variable [DecidableEq P] {history : History P} {m : Addr → List P} {p : P} {a : Addr}

theorem Tracks.put (h : history.Tracks m) (hp : ∀ b, p ∉ m b) :
    Tracks ⟨update history.named p a, update history.blocked p (some a)⟩
      (update m a (m a ++ [p])) := by
  intro b q
  by_cases hq : q = p
  · subst hq
    by_cases hb : b = a
    · subst hb
      simp
    · simp [hb, hp b, Ne.symm hb]
  · simp only [Function.update_of_ne hq, ← h b q]
    by_cases hb : b = a
    · subst hb
      simp [hq]
    · rw [Function.update_of_ne hb]

theorem Tracks.take {l : List P} (h : history.Tracks m) (hp : p ∈ m a)
    (hl : ∀ q, q ∈ l ↔ q ≠ p ∧ q ∈ m a) :
    Tracks { history with blocked := update history.blocked p none } (update m a l) := by
  intro b q
  by_cases hb : b = a
  · subst hb
    rw [Function.update_self, hl, h b q]
    by_cases hq : q = p
    · subst hq
      simp
    · simp [hq]
  · rw [Function.update_of_ne hb, h b q]
    by_cases hq : q = p
    · subst hq
      simp [(h a q).mp hp, Ne.symm hb]
    · simp only [Function.update_of_ne hq]

end History

namespace Tables

/-- The tables agree with the history on the names of the allocated blocks. -/
structure Records (s : Tables ι P D) (dummy : D) (history : History P) (m : Addr → List P)
    (free : List P) : Prop where
  sound : s.mem.Sound dummy m
  spare : Chain s.mem.pcb.p_next s.mem.pcbFree_h free
  apart : ∀ a, ∀ p ∈ m a, p ∉ free
  named : ∀ p, p ∉ free → s.mem.pcb.p_semAdd p = history.named p

/-- A call that takes out the last process of a queue takes out the only one. -/
def LeavesNone (s : Tables ι P D) : TableCall ι P → Prop
  | .asl (.outBlocked p) => s.mem.LastBlocked p → s.mem.pcb.p_next p = some p
  | _ => True

section Lists

variable {s : Tables ι P D} {dummy : D} {history : History P} {m : Addr → List P}
  {free : List P} {p : P} {a : Addr}

theorem Records.allocated_iff (h : s.Records dummy history m free) :
    s.mem.Allocated p ↔ p ∉ free :=
  Memory.allocated_iff h.spare

theorem Records.nodup (h : s.Records dummy history m free) (a : Addr) : (m a).Nodup := by
  obtain ⟨active, spare, hRep⟩ := h.sound.rep
  by_cases ha : m a = []
  · rw [ha]
    exact List.nodup_nil
  · obtain ⟨d, hd, rfl⟩ := (hRep.directory.entry a).mp ha
    exact (hRep.directory.ring d hd).nodup

/-- The last process of a queue that links to itself is the only one. -/
theorem Records.eq_singleton (h : s.Records dummy history m free)
    (hLast : (m a).getLast? = some p) (hSelf : s.mem.pcb.p_next p = some p) : m a = [p] := by
  obtain ⟨active, spare, hRep⟩ := h.sound.rep
  have hp : p ∈ m a := List.mem_of_getLast? hLast
  obtain ⟨d, hd, rfl⟩ := (hRep.directory.entry a).mp (List.ne_nil_of_mem hp)
  have hRing := hRep.directory.ring d hd
  rw [hRing.tail_eq.trans hLast] at hRing
  exact hRing.eq_singleton hSelf

/-- Processes that leave a queue stay allocated and keep their names. -/
theorem Records.drop {t : Memory P D} {l cells held : List P} {blocked : P → Option Addr}
    (h : s.Records dummy history m free) (hl : l ⊆ m a) (hCells : cells ⊆ m a)
    (hEffect : Memory.Effect s.mem t dummy (update m a l) cells s.mem.pcb.p_semAdd) :
    Records (⟨t, s.tp, held⟩ : Tables ι P D) dummy { history with blocked := blocked }
      (update m a l) free := by
  refine ⟨h.sound.drop hl hEffect, ?_, fun b q hq => ?_, fun q hq => ?_⟩
  · show Chain t.pcb.p_next t.pcbFree_h free
    rw [hEffect.pcbFree_h]
    exact h.spare.congr fun q hq => hEffect.p_next q fun hm => h.apart a q (hCells hm) hq
  · by_cases hb : b = a
    · subst hb
      rw [Function.update_self] at hq
      exact h.apart b q (hl hq)
    · rw [Function.update_of_ne hb] at hq
      exact h.apart b q hq
  · exact (congrFun hEffect.p_semAdd q).trans (h.named q hq)

end Lists

section Steps

variable [DecidableEq ι] [DecidableEq P] [DecidableEq D] {s : Tables ι P D} {dummy : D}
  {history : History P} {m : Addr → List P} {free : List P} {p : P} {a : Addr} {fuel : ℕ}

theorem Records.allocPcb (h : s.Records dummy history m free) (fuel : ℕ) :
    ∃ t r free', tableExec fuel s .allocPcb = .ok (t, .pcb r) ∧
      t.Records dummy (history.record ((.allocPcb : TableCall ι P), .pcb r)) m free' ∧
      (history.record ((.allocPcb : TableCall ι P), .pcb r)).blocked = history.blocked := by
  cases free with
  | nil =>
      have hNone : s.mem.pcbFree_h = none := h.spare
      have hSame : ({ s.mem with pcbFree_h := none } : Memory P D) = s.mem := by rw [← hNone]
      exact ⟨s, none, [], by simp [tableExec, hNone, hSame], h, rfl⟩
  | cons p l =>
      have hSome : s.mem.pcbFree_h = some p := h.spare.1
      have hQueued (b : Addr) (q : P) (hq : q ∈ m b) : q ≠ p := by
        rintro rfl
        exact h.apart b q hq (List.mem_cons_self ..)
      obtain ⟨active, spare, hRep⟩ := h.sound.rep
      refine ⟨⟨{ s.mem with pcb := s.mem.pcb.clear p, pcbFree_h := s.mem.pcb.p_next p }, s.tp,
        p :: s.held⟩, some p, l, by simp only [tableExec, hSome, allocPcb_some]; rfl,
        ⟨⟨⟨active, spare, hRep.congr rfl rfl rfl fun b q hq => ?_⟩, fun b q hq => ?_,
          h.sound.base⟩, ?_, fun b q hq => ?_, fun q hq => ?_⟩, rfl⟩
      · exact Function.update_of_ne (hQueued b q hq) ..
      · exact (Function.update_of_ne (hQueued b q hq) ..).trans (h.sound.named b q hq)
      · exact allocPcb_chain (hSome ▸ h.spare)
      · exact fun hm => h.apart b q hq (List.mem_cons_of_mem _ hm)
      · show update s.mem.pcb.p_semAdd p 0 q = update history.named p 0 q
        by_cases hqp : q = p
        · rw [hqp, Function.update_self, Function.update_self]
        · rw [Function.update_of_ne hqp, Function.update_of_ne hqp]
          exact h.named q (by simp [hqp, hq])

variable [Fintype D]

theorem Records.insertBlocked (h : s.Records dummy history m free) (hFuel : Fintype.card D ≤ fuel)
    (hp : ∀ b, p ∉ m b) (hAlloc : p ∉ free) (a : Addr) :
    ∃ t full m', tableExec fuel s (.asl (.insertBlocked a p)) = .ok (t, .flag full) ∧
      t.Records dummy (history.record ((.asl (.insertBlocked a p) : TableCall ι P), .flag full))
        m' free ∧
      (history.Tracks m →
        (history.record ((.asl (.insertBlocked a p) : TableCall ι P), .flag full)).Tracks m') := by
  obtain ⟨active, spare, hRep⟩ := h.sound.rep
  obtain ⟨mem, full, hExec, hFull, hPut⟩ := hRep.exec_insertBlocked hp hFuel a
  cases full with
  | true =>
      obtain ⟨rfl, -⟩ := hFull rfl
      exact ⟨s, true, m, by simp [tableExec, hExec, heldAfter], h, fun hTracks => hTracks⟩
  | false =>
      have hEffect := hPut rfl
      have hApart (b : Addr) (q : P) (hq : q ∈ update m a (m a ++ [p]) b) : q ∉ free := by
        by_cases hb : b = a
        · subst hb
          rw [Function.update_self, List.mem_append, List.mem_singleton] at hq
          rcases hq with hq | rfl
          · exact h.apart b q hq
          · exact hAlloc
        · rw [Function.update_of_ne hb] at hq
          exact h.apart b q hq
      refine ⟨_, false, _, by simp only [tableExec, hExec]; rfl,
        ⟨h.sound.put hp hEffect, ?_, hApart, fun q hq => ?_⟩, fun hTracks => hTracks.put hp⟩
      · rw [hEffect.pcbFree_h]
        refine h.spare.congr fun q hq => hEffect.p_next q ?_
        simp only [List.mem_cons, not_or]
        exact ⟨ne_of_mem_of_not_mem hq hAlloc, fun hm => h.apart a q hm hq⟩
      · show mem.pcb.p_semAdd q = update history.named p a q
        rw [hEffect.p_semAdd]
        by_cases hqp : q = p
        · rw [hqp, Function.update_self, Function.update_self]
        · rw [Function.update_of_ne hqp, Function.update_of_ne hqp]
          exact h.named q hq

theorem Records.removeBlocked (h : s.Records dummy history m free)
    (hFuel : Fintype.card D ≤ fuel) (a : Addr) :
    ∃ t r m', tableExec fuel s (.asl (.removeBlocked a)) = .ok (t, .pcb r) ∧
      t.Records dummy (history.record ((.asl (.removeBlocked a) : TableCall ι P), .pcb r))
        m' free ∧
      (history.Tracks m →
        (history.record ((.asl (.removeBlocked a) : TableCall ι P), .pcb r)).Tracks m') := by
  obtain ⟨active, spare, hRep⟩ := h.sound.rep
  obtain ⟨mem, hExec, hEffect, hNone⟩ := hRep.exec_removeBlocked hFuel a
  cases hQueue : m a with
  | nil =>
      rw [hQueue] at hExec
      obtain rfl := hNone hQueue
      exact ⟨s, none, m, by simp [tableExec, hExec, heldAfter], h, fun hTracks => hTracks⟩
  | cons p l =>
      have hNodup := h.nodup a
      rw [hQueue, List.nodup_cons] at hNodup
      rw [hQueue] at hExec hEffect
      have hl : l ⊆ m a := hQueue ▸ List.subset_cons_self p l
      refine ⟨_, some p, _, by simp only [tableExec, hExec]; rfl, h.drop hl hl hEffect,
        fun hTracks => hTracks.take (a := a) (by simp [hQueue]) fun q => ?_⟩
      rw [hQueue, List.mem_cons]
      constructor
      · exact fun hq => ⟨ne_of_mem_of_not_mem hq hNodup.1, .inr hq⟩
      · exact fun hq => hq.2.resolve_left hq.1

theorem Records.outBlocked [Fintype P] (h : s.Records dummy history m free) (hp : p ∈ m a)
    (hFits : ¬s.mem.Overrun (.outBlocked p)) (hFuel : Fintype.card D ≤ fuel)
    (hFuelP : Fintype.card P ≤ fuel) :
    ∃ t m', tableExec fuel s (.asl (.outBlocked p)) = .ok (t, .pcb (some p)) ∧
      t.Records dummy
        (history.record ((.asl (.outBlocked p) : TableCall ι P), .pcb (some p))) m' free ∧
      (history.Tracks m → s.LeavesNone (.asl (.outBlocked p)) →
        (history.record ((.asl (.outBlocked p) : TableCall ι P), .pcb (some p))).Tracks m') := by
  obtain ⟨active, spare, hRep⟩ := h.sound.rep
  obtain ⟨mem, l, hExec, hEffect, hInner, hLast⟩ :=
    hRep.exec_outBlocked hp (h.sound.named a p hp) hFits hFuel hFuelP
  have hl : l ⊆ m a := by
    by_cases hTail : (m a).getLast? = some p
    · rw [hLast hTail]
      exact List.nil_subset _
    · rw [hInner hTail]
      exact List.erase_subset
  refine ⟨_, _, by simp only [tableExec, hExec]; rfl, h.drop hl (List.Subset.refl _) hEffect,
    fun hTracks hLeaves => hTracks.take hp fun q => ?_⟩
  by_cases hTail : (m a).getLast? = some p
  · have hSelf := hLeaves (hRep.lastBlocked_iff.mpr ⟨a, hTail⟩)
    rw [hLast hTail, h.eq_singleton hTail hSelf]
    simp
  · rw [hInner hTail, (h.nodup a).mem_erase_iff]

/-- Every completed call keeps the records. The queues stay those of the history
as long as no queue is dropped with processes in it. -/
theorem Records.step [Fintype P] (h : s.Records dummy history m free) {t : Tables ι P D}
    {call : TableCall ι P} {reply : Reply P} (legal : (nameSystem fuel).Legal s call)
    (hExec : (nameSystem fuel).exec s call = .ok (t, reply)) (hFuel : Fintype.card D ≤ fuel)
    (hFuelP : Fintype.card P ≤ fuel) :
    ∃ m' free', t.Records dummy (history.record (call, reply)) m' free' ∧
      (history.Tracks m → s.LeavesNone call → (history.record (call, reply)).Tracks m') := by
  obtain ⟨active, spare, hRep⟩ := h.sound.rep
  cases call with
  | allocPcb =>
      obtain ⟨t', r, free', hExec', hRecords, hBlocked⟩ := h.allocPcb fuel
      cases hExec'.symm.trans hExec
      refine ⟨m, free', hRecords, fun hTracks _ b q => ?_⟩
      rw [hBlocked]
      exact hTracks b q
  | freePcb | insertProcQ | removeProcQ => exact legal.elim
  | asl call =>
      cases call with
      | insertBlocked a p =>
          obtain ⟨t', full, m', hExec', hRecords, hTracks⟩ := h.insertBlocked hFuel
            (hRep.not_blocked_iff.mp legal.2.2) (h.allocated_iff.mp legal.2.1) a
          cases hExec'.symm.trans hExec
          exact ⟨m', free, hRecords, fun hOld _ => hTracks hOld⟩
      | removeBlocked a =>
          obtain ⟨t', r, m', hExec', hRecords, hTracks⟩ := h.removeBlocked hFuel a
          cases hExec'.symm.trans hExec
          exact ⟨m', free, hRecords, fun hOld _ => hTracks hOld⟩
      | outBlocked p =>
          obtain ⟨a, hBlocked⟩ := legal
          have hp := hRep.blockedOn_iff.mp hBlocked
          by_cases hOver : s.mem.Overrun (.outBlocked p)
          · have hStop := h.sound.overrun hOver hFuel hFuelP
            have hError : (nameSystem fuel).exec s (.asl (.outBlocked p)) = .error .nullDeref := by
              simp only [nameSystem, tableExec, hStop]
              rfl
            cases hError.symm.trans hExec
          · obtain ⟨t', m', hExec', hRecords, hTracks⟩ := h.outBlocked hp hOver hFuel hFuelP
            cases hExec'.symm.trans hExec
            exact ⟨m', free, hRecords, hTracks⟩
      | headBlocked a => exact legal.elim

end Steps

section Runs

variable [DecidableEq ι] {MAXPROC fuel : ℕ} {m₀ : Memory (Fin MAXPROC) (Fin (MAXPROC + 1))}
  {start s : Tables ι (Fin MAXPROC) (Fin (MAXPROC + 1))}
  {trace : List (TableCall ι (Fin MAXPROC) × Reply (Fin MAXPROC))}

omit [DecidableEq ι] in
theorem bootTables_records (hStart : bootTables MAXPROC m₀ = .ok start) :
    start.Records 0 .start (fun _ => []) (List.finRange MAXPROC) := by
  obtain ⟨-, -, hChain, hRep, hBase⟩ := bootTables_rep hStart
  exact ⟨⟨⟨_, _, hRep⟩, fun _ _ hp => absurd hp List.not_mem_nil, hBase⟩, hChain,
    fun _ _ hp => absurd hp List.not_mem_nil, fun p hp => absurd (List.mem_finRange p) hp⟩

theorem run_records (hFuel : MAXPROC + 1 ≤ fuel) (hStart : bootTables MAXPROC m₀ = .ok start)
    (run : (nameSystem fuel).Run start trace s) :
    ∃ m free, s.Records 0 (.of trace) m free := by
  refine run.history (fun s history => ∃ m free, s.Records 0 history m free) History.record
    (fun s call t reply history hs legal hExec => ?_) ⟨_, _, bootTables_records hStart⟩
  obtain ⟨m, free, h⟩ := hs
  obtain ⟨m', free', h', -⟩ := h.step legal hExec (by simpa using hFuel) (by simp; omega)
  exact ⟨m', free', h'⟩

theorem run_tracks (hFuel : MAXPROC + 1 ≤ fuel) (hStart : bootTables MAXPROC m₀ = .ok start)
    (run : ((nameSystem fuel).restrict LeavesNone).Run start trace s) :
    ∃ m free, s.Records 0 (.of trace) m free ∧ (History.of trace).Tracks m := by
  refine run.history
    (fun s history => ∃ m free, s.Records 0 history m free ∧ history.Tracks m) History.record
    (fun s call t reply history hs legal hExec => ?_)
    ⟨_, _, bootTables_records hStart, by simp [History.Tracks, History.start]⟩
  obtain ⟨m, free, h, hTracks⟩ := hs
  obtain ⟨m', free', h', hKeep⟩ :=
    h.step legal.1 hExec (by simpa using hFuel) (by simp; omega)
  exact ⟨m', free', h', hKeep hTracks legal.2⟩

/-- In every run a blocked process names its semaphore, and an allocated block
names the semaphore on which it was last blocked. While no queue is dropped with
processes in it, the processes in the queue of a semaphore are those that name it
and were not released since they were last blocked. -/
theorem names_run (hFuel : MAXPROC + 1 ≤ fuel) (hStart : bootTables MAXPROC m₀ = .ok start) :
    (∀ trace s, (nameSystem fuel).Run start trace s →
      (∀ a p, s.mem.BlockedOn a p → s.mem.pcb.p_semAdd p = a) ∧
      ∀ p, s.mem.Allocated p → s.mem.pcb.p_semAdd p = (History.of trace).named p) ∧
    ∀ trace s, ((nameSystem fuel).restrict LeavesNone).Run start trace s → ∀ a p,
      s.mem.BlockedOn a p ↔
        s.mem.pcb.p_semAdd p = a ∧ (History.of trace).blocked p ≠ none := by
  refine ⟨fun trace s run => ?_, fun trace s run a p => ?_⟩
  · obtain ⟨m, free, h⟩ := run_records hFuel hStart run
    obtain ⟨active, spare, hRep⟩ := h.sound.rep
    exact ⟨fun a p hp => h.sound.named a p (hRep.blockedOn_iff.mp hp),
      fun p hp => h.named p (h.allocated_iff.mp hp)⟩
  · obtain ⟨m, free, h, hTracks⟩ := run_tracks hFuel hStart run
    obtain ⟨active, spare, hRep⟩ := h.sound.rep
    rw [hRep.blockedOn_iff]
    constructor
    · intro hp
      refine ⟨h.sound.named a p hp, ?_⟩
      rw [(hTracks a p).mp hp]
      exact Option.some_ne_none a
    · intro hp
      obtain ⟨b, hb⟩ := Option.ne_none_iff_exists'.mp hp.2
      have hMem := (hTracks b p).mpr hb
      have hab : b = a := (h.sound.named b p hMem).symm.trans hp.1
      exact hab ▸ hMem

theorem names_run_one :
    ∃ (start s : Tables (Fin 1) (Fin 1) (Fin 2)), bootTables 1 (.zero _ _) = .ok start ∧
      ((nameSystem 2).restrict LeavesNone).Run start
        [(.allocPcb, .pcb (some 0)), (.asl (.insertBlocked 4 0), .flag false)] s ∧
      s.mem.BlockedOn 4 0 := by
  obtain ⟨start, s, hStart, run, hName⟩ : ∃ (start s : Tables (Fin 1) (Fin 1) (Fin 2)),
      bootTables 1 (.zero _ _) = .ok start ∧ ((nameSystem 2).restrict LeavesNone).Run start
        [(.allocPcb, .pcb (some 0)), (.asl (.insertBlocked 4 0), .flag false)] s ∧
      s.mem.pcb.p_semAdd 0 = 4 :=
    ⟨_, _, rfl, .cons ⟨trivial, trivial⟩ rfl <| .cons
      ⟨⟨by decide, Memory.allocated_of_none rfl, Memory.not_blocked_of_none rfl rfl⟩, trivial⟩
      rfl (.nil _), rfl⟩
  refine ⟨start, s, hStart, run, ((names_run le_rfl hStart).2 _ s run 4 0).mpr ⟨hName, ?_⟩⟩
  simp [History.of, History.record]

/-- A released process keeps naming the semaphore on which it was blocked. -/
theorem removeBlocked_keeps_name :
    ∃ (start s : Tables (Fin 1) (Fin 1) (Fin 2)), bootTables 1 (.zero _ _) = .ok start ∧
      (nameSystem 2).Run start [(.allocPcb, .pcb (some 0)),
        (.asl (.insertBlocked 4 0), .flag false), (.asl (.removeBlocked 4), .pcb (some 0))] s ∧
      s.mem.Allocated 0 ∧ s.mem.pcb.p_semAdd 0 = 4 ∧ ¬s.mem.BlockedOn 4 0 := by
  refine ⟨_, _, rfl, .cons trivial rfl <| .cons ⟨by decide, Memory.allocated_of_none rfl,
    Memory.not_blocked_of_none rfl rfl⟩ rfl <| .cons trivial rfl (.nil _),
    Memory.allocated_of_none rfl, rfl, fun h => Memory.not_blocked_of_none rfl rfl ⟨4, h⟩⟩

end Runs

end Tables

end Nucleus
