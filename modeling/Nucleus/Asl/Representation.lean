import Nucleus.Asl.Basic
import Nucleus.Linked.Directory
import Nucleus.Linked.Pool

/-! What the active semaphore list stands for: a map from semaphore addresses to
the lists of processes blocked on them. -/
namespace Nucleus

open Linked Semantics

variable {P D : Type}

namespace Memory

/-- The active list behind the dummy descriptor is the directory of the queues
`m`, and it shares the descriptors of the table with the free list. -/
structure Rep (s : Memory P D) (dummy : D) (active free : List D) (m : Addr → List P) : Prop where
  pool : Pool s.semd.s_next s.semd_h s.semdFree_h (dummy :: active) free
  directory : Directory s.pcb.p_next s.semd.s_semAdd s.semd.s_procQ active m

/-- `d` is on the active list, behind the dummy. -/
def Active (s : Memory P D) (d : D) : Prop :=
  ∃ h, s.semd_h = some h ∧ Reach s.semd.s_next (s.semd.s_next h) d

/-- `p` is in the queue of an active descriptor for `semAdd`. -/
def BlockedOn (s : Memory P D) (semAdd : Addr) (p : P) : Prop :=
  ∃ d, s.Active d ∧ s.semd.s_semAdd d = semAdd ∧ Reach s.pcb.p_next (s.semd.s_procQ d) p

def Blocked (s : Memory P D) (p : P) : Prop := ∃ semAdd, s.BlockedOn semAdd p

namespace Rep

variable {s : Memory P D} {dummy : D} {active free pre post : List D} {m : Addr → List P}
  {d : D} {p : P} {semAdd : Addr} {fuel : ℕ}

theorem head (h : s.Rep dummy active free m) : s.semd_h = some dummy := h.pool.inUse.1

theorem active_iff (h : s.Rep dummy active free m) : s.Active d ↔ d ∈ active := by
  have hChain : Chain s.semd.s_next (s.semd.s_next dummy) active := h.pool.inUse.2
  rw [← hChain.reach_iff]
  constructor
  · intro hd
    obtain ⟨e, he, hReach⟩ := hd
    rw [h.head] at he
    cases he
    exact hReach
  · intro hReach
    exact ⟨dummy, h.head, hReach⟩

theorem blockedOn_iff (h : s.Rep dummy active free m) : s.BlockedOn semAdd p ↔ p ∈ m semAdd := by
  constructor
  · intro hp
    obtain ⟨d, hd, rfl, hReach⟩ := hp
    exact (h.directory.ring d (h.active_iff.mp hd)).reach_iff.mp hReach
  · intro hp
    obtain ⟨d, hd, rfl⟩ := (h.directory.entry semAdd).mp (List.ne_nil_of_mem hp)
    exact ⟨d, h.active_iff.mpr hd, rfl, (h.directory.ring d hd).reach_iff.mpr hp⟩

theorem not_blocked_iff (h : s.Rep dummy active free m) :
    ¬s.Blocked p ↔ ∀ semAdd, p ∉ m semAdd := by
  simp only [Blocked, h.blockedOn_iff, not_exists]

/-- A blocked process is in the queue of one active descriptor. -/
theorem existsUnique_descriptor (h : s.Rep dummy active free m) (hp : p ∈ m semAdd) :
    ∃! d, s.Active d ∧ Reach s.pcb.p_next (s.semd.s_procQ d) p := by
  have hMem (d : D) (hd : s.Active d) (hReach : Reach s.pcb.p_next (s.semd.s_procQ d) p) :
      p ∈ m (s.semd.s_semAdd d) :=
    (h.directory.ring d (h.active_iff.mp hd)).reach_iff.mp hReach
  obtain ⟨d, hd, rfl, hReach⟩ := h.blockedOn_iff.mpr hp
  refine ⟨d, ⟨hd, hReach⟩, fun e he => ?_⟩
  apply h.directory.key_inj (h.active_iff.mp he.1) (h.active_iff.mp hd)
  by_contra hKey
  exact h.directory.apart _ _ hKey (hMem e he.1 he.2) hp

theorem key_ne (h : s.Rep dummy active free m) (ha : m semAdd = []) (hd : d ∈ active) :
    s.semd.s_semAdd d ≠ semAdd := fun hKey =>
  (h.directory.entry semAdd).mpr ⟨d, hd, hKey⟩ ha

/-- The dummy and the active descriptors are distinct: in particular the cell that
a search for `d` stops at is not `d`. -/
theorem pred_ne {l : List D} {v : D} (h : s.Rep dummy (pre ++ d :: post) free m)
    (hList : dummy :: pre = l ++ [v]) : v ≠ d := by
  have hNodup := (List.nodup_append.mp h.pool.nodup).1
  rw [cons_append_of_eq hList, List.nodup_middle, List.nodup_cons] at hNodup
  exact (ne_of_mem_of_not_mem (by simp) hNodup.1).symm

/-- Only the links of the blocked processes matter to the list. -/
theorem congr {t : Memory P D} (h : s.Rep dummy active free m) (hSemd : t.semd = s.semd)
    (hFree : t.semdFree_h = s.semdFree_h) (hHead : t.semd_h = s.semd_h)
    (hKeep : ∀ a, ∀ p ∈ m a, t.pcb.p_next p = s.pcb.p_next p) : t.Rep dummy active free m := by
  refine ⟨?_, ?_⟩
  · rw [hSemd, hFree, hHead]
    exact h.pool
  · rw [hSemd]
    exact h.directory.congr hKeep

/-- A search that passes the descriptors of `pre` returns at the cell before
`post`, which is the dummy when `pre` is empty. -/
theorem search [Fintype D] (h : s.Rep dummy (pre ++ post) free m) {σ ρ : Type}
    (body : σ → Outcome (σ ⊕ ρ)) (vars : D → σ) (result : D → ρ)
    (hPass : ∀ w, ∀ d ∈ pre, s.semd.s_next w = some d → body (vars w) = .ok (.inl (vars d)))
    (hStop : ∀ w, s.semd.s_next w = post.head? → body (vars w) = .ok (.inr (result w)))
    (hFuel : Fintype.card D ≤ fuel) :
    ∃ l v, dummy :: pre = l ++ [v] ∧ s.semd.s_next v = post.head? ∧
      loop body fuel (vars dummy) = .ok (result v) := by
  have hSize := h.pool.length_add_length
  obtain ⟨l, v, hList, hRest, hLoop⟩ := h.pool.inUse.search vars result hPass
    (fun w hw => hStop w (Chain.head_eq hw)) fuel (by simp at hSize; omega)
  exact ⟨l, v, hList, Chain.head_eq hRest, hLoop⟩

/-- The search of `insertBlocked` and `removeBlocked`. -/
theorem semdSearch_stops [Fintype D] (h : s.Rep dummy (pre ++ post) free m) (pass : Addr → Bool)
    (hPass : ∀ d ∈ pre, pass (s.semd.s_semAdd d) = true)
    (hStop : ∀ d ∈ post.head?, pass (s.semd.s_semAdd d) = false) (hFuel : Fintype.card D ≤ fuel) :
    ∃ l v, dummy :: pre = l ++ [v] ∧ s.semd.s_next v = post.head? ∧
      loop (semdSearch s.semd pass) fuel s.semd_h = .ok v := by
  rw [h.head]
  apply h.search (semdSearch s.semd pass) some id
  · intro w d hd hw
    simp [semdSearch, hw, hPass d hd]
  · intro w hw
    cases hHead : post.head? with
    | none => simp [semdSearch, hw, hHead]
    | some d => simp [semdSearch, hw, hHead, hStop d hHead]
  · exact hFuel

/-- The search of `outBlocked` for the descriptor of a semaphore that has one. -/
theorem outBlockedSearch_stops [Fintype D] (h : s.Rep dummy (pre ++ d :: post) free m)
    (hKey : s.semd.s_semAdd d = semAdd) (hPre : ∀ e ∈ pre, s.semd.s_semAdd e < semAdd)
    (hFuel : Fintype.card D ≤ fuel) :
    ∃ l v, dummy :: pre = l ++ [v] ∧ s.semd.s_next v = some d ∧
      loop (outBlockedSearch s.semd semAdd) fuel (some dummy, s.semd.s_next dummy) =
        .ok (some v, some d) := by
  apply h.search (outBlockedSearch s.semd semAdd) (fun w => (some w, s.semd.s_next w))
    fun w => (some w, some d)
  · intro w e he hw
    simp [outBlockedSearch, hw, (hPre e he).ne]
  · intro w hw
    rw [List.head?_cons] at hw
    simp [outBlockedSearch, hw, hKey]
  · exact hFuel

/-- The search of `headBlocked`. -/
theorem headBlockedSearch_stops [Fintype D] (h : s.Rep dummy (pre ++ post) free m)
    (hPre : ∀ e ∈ pre, s.semd.s_semAdd e ≠ semAdd)
    (hStop : ∀ d ∈ post.head?, s.semd.s_semAdd d = semAdd) (hFuel : Fintype.card D ≤ fuel) :
    loop (headBlockedSearch s.semd semAdd) fuel (s.semd.s_next dummy) = .ok post.head? := by
  obtain ⟨l, v, -, -, hLoop⟩ := h.search (headBlockedSearch s.semd semAdd)
    s.semd.s_next (fun _ => post.head?)
    (fun w e he hw => by simp [headBlockedSearch, hw, hPre e he])
    (fun w hw => by
      rw [hw]
      cases hHead : post.head? with
      | none => rfl
      | some d => simp [headBlockedSearch, hStop d hHead]) hFuel
  exact hLoop

end Rep

end Memory

end Nucleus
