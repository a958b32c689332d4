import Nucleus.Asl.Representation

/-! What each operation of the active semaphore list does to the map it stands
for, and which links it leaves as they were. -/
namespace Nucleus

open Function (update)
open Linked Semantics

variable {P D : Type}

namespace Memory.Rep

variable {s : Memory P D} {dummy : D} {active free : List D} {m : Addr → List P}
  {p : P} {l : List P} {semAdd : Addr} {fuel : ℕ}

section Insert

/-- Before a gap in the order of the addresses stands no descriptor. -/
theorem noDescriptor_gap {v : D} {post : List D} (hNext : s.semd.s_next v = post.head?)
    (hPost : ∀ d ∈ post, semAdd < s.semd.s_semAdd d) : noDescriptor s.semd v semAdd = true := by
  cases hHead : post.head? with
  | none => simp [noDescriptor, hNext, hHead]
  | some d => simp [noDescriptor, hNext, hHead, hPost d (List.mem_of_head? hHead)]

variable [Fintype D]

/-- Where the search of `insertBlocked` stops if the semaphore has no descriptor. -/
theorem gap_search (h : s.Rep dummy active free m) (ha : m semAdd = [])
    (hFuel : Fintype.card D ≤ fuel) :
    ∃ pre post l v, active = pre ++ post ∧ (∀ e ∈ pre, s.semd.s_semAdd e < semAdd) ∧
      (∀ e ∈ post, semAdd < s.semd.s_semAdd e) ∧ dummy :: pre = l ++ [v] ∧
      loop (semdSearch s.semd (· < semAdd)) fuel s.semd_h = .ok v ∧
      noDescriptor s.semd v semAdd = true := by
  obtain ⟨pre, post, rfl, hPre, hPost⟩ := h.directory.gap_split ha
  obtain ⟨l, v, hList, hNext, hLoop⟩ := h.semdSearch_stops (· < semAdd)
    (fun d hd => decide_eq_true (hPre d hd))
    (fun d hd => decide_eq_false (hPost d (List.mem_of_head? hd)).not_gt) hFuel
  exact ⟨pre, post, l, v, rfl, hPre, hPost, hList, hLoop, noDescriptor_gap hNext hPost⟩

/-- Where it stops if the semaphore has one. -/
theorem entry_search (h : s.Rep dummy active free m) (ha : m semAdd ≠ [])
    (hFuel : Fintype.card D ≤ fuel) :
    ∃ d v, d ∈ active ∧ s.semd.s_semAdd d = semAdd ∧ s.semd.s_next v = some d ∧
      loop (semdSearch s.semd (· < semAdd)) fuel s.semd_h = .ok v ∧
      noDescriptor s.semd v semAdd = false := by
  obtain ⟨pre, d, post, rfl, rfl, hPre⟩ := h.directory.entry_split ha
  obtain ⟨-, v, -, hNext, hLoop⟩ := h.semdSearch_stops (· < s.semd.s_semAdd d)
    (fun e he => decide_eq_true (hPre e he)) (by simp) hFuel
  rw [List.head?_cons] at hNext
  exact ⟨d, v, by simp, rfl, hNext, hLoop, by simp [noDescriptor, hNext]⟩

variable [DecidableEq P] [DecidableEq D]

/-- Without a descriptor for the semaphore and without a free one the call says
so and changes nothing. -/
theorem insertBlocked_full (h : s.Rep dummy active [] m) (ha : m semAdd = [])
    (hFuel : Fintype.card D ≤ fuel) (p : Option P) :
    insertBlocked fuel s semAdd p = .ok (s, true) := by
  obtain ⟨-, -, -, v, -, -, -, -, hLoop, hGap⟩ := h.gap_search ha hFuel
  have hFree : s.semdFree_h = none := h.pool.spare
  simp [insertBlocked, hLoop, hGap, hFree]

/-- With a descriptor for the semaphore, or a free one, the call does not say so. -/
theorem insertBlocked_accepts (h : s.Rep dummy active free m) (hRoom : m semAdd ≠ [] ∨ free ≠ [])
    (hFuel : Fintype.card D ≤ fuel) (p : P) :
    ∃ t, insertBlocked fuel s semAdd (some p) = .ok (t, false) := by
  by_cases ha : m semAdd = []
  · obtain ⟨add, rest, rfl⟩ :=
      List.exists_cons_of_ne_nil (hRoom.resolve_left (not_not_intro ha))
    obtain ⟨-, -, -, v, -, -, -, -, hLoop, hGap⟩ := h.gap_search ha hFuel
    have hFree : s.semdFree_h = some add := h.pool.spare.1
    simp [insertBlocked, hLoop, hGap, hFree]
  · obtain ⟨d, v, -, rfl, hNext, hLoop, hGap⟩ := h.entry_search ha hFuel
    obtain ⟨pcb, hExec⟩ := insertProcQ_some s.pcb (s.semd.s_procQ d) p
    simp [insertBlocked, hLoop, hGap, hNext, hExec]

/-- The first process blocked on a semaphore takes a free descriptor. -/
theorem insertBlocked_new {add : D} (h : s.Rep dummy active (add :: free) m) (ha : m semAdd = [])
    (hp : ∀ b, p ∉ m b) (hFuel : Fintype.card D ≤ fuel) :
    ∃ active' semd, insertBlocked fuel s semAdd (some p) =
        .ok ({ s with pcb := (s.pcb.setNext p (some p)).setSemAdd p semAdd, semd,
                      semdFree_h := s.semd.s_next add }, false) ∧
      Rep { s with pcb := (s.pcb.setNext p (some p)).setSemAdd p semAdd, semd,
                   semdFree_h := s.semd.s_next add }
        dummy active' free (update m semAdd [p]) ∧
      semd.s_semAdd dummy = s.semd.s_semAdd dummy := by
  obtain ⟨pre, post, l, v, rfl, hPre, hPost, hList, hLoop, hGap⟩ := h.gap_search ha hFuel
  have hFree : s.semdFree_h = some add := h.pool.spare.1
  have hSplit := cons_append_of_eq hList
  have hAway (e : D) (he : e ∈ dummy :: (pre ++ post)) : e ≠ add := by
    rintro rfl
    exact (List.nodup_append.mp h.pool.nodup).2.2 e he e (List.mem_cons_self ..) rfl
  have hv : v ≠ add := hAway v (hSplit post ▸ by simp)
  refine ⟨pre ++ add :: post, (((s.semd.setNext add (s.semd.s_next v)).setNext v
    (some add)).setSemAdd add semAdd).setProcQ add (some p), ?_, ⟨?_, ?_⟩, ?_⟩
  · simp [insertBlocked, hLoop, hGap, hFree, SemdTable.setNext, SemdTable.setSemAdd,
      SemdTable.setProcQ]
  · have hPool := h.pool
    rw [hSplit, hFree] at hPool
    rw [hSplit]
    apply hPool.take
    · simp
    · simp [Function.update_of_ne hv.symm]
    · intro y hyv hyx
      simp [Function.update_of_ne hyv, Function.update_of_ne hyx]
  · apply h.directory.add (by simp) hPre hPost
    · simp
    · show Ring (update s.pcb.p_next p (some p)) (update s.semd.s_procQ add (some p) add) [p]
      rw [Function.update_self]
      exact Ring.singleton (Function.update_self ..)
    · intro x hx b
      rw [List.mem_singleton.mp hx]
      exact hp b
    · intro e he
      have hne := hAway e (List.mem_cons_of_mem _ he)
      simp [Function.update_of_ne hne]
    · intro b x hx
      exact Function.update_of_ne (ne_of_mem_of_not_mem hx (hp b)) ..
  · exact Function.update_of_ne (hAway dummy (List.mem_cons_self ..)) ..

/-- A process blocked on a semaphore that has a queue goes to the end of it. -/
theorem insertBlocked_append (h : s.Rep dummy active free m) (ha : m semAdd ≠ [])
    (hp : ∀ b, p ∉ m b) (hFuel : Fintype.card D ≤ fuel) :
    ∃ next procQ, insertBlocked fuel s semAdd (some p) =
        .ok ({ s with pcb := { s.pcb.setSemAdd p semAdd with p_next := next },
                      semd := { s.semd with s_procQ := procQ } }, false) ∧
      Rep { s with pcb := { s.pcb.setSemAdd p semAdd with p_next := next },
                   semd := { s.semd with s_procQ := procQ } }
        dummy active free (update m semAdd (m semAdd ++ [p])) ∧
      ∀ q, q ∉ p :: m semAdd → next q = s.pcb.p_next q := by
  obtain ⟨d, v, hd, rfl, hNext, hLoop, hGap⟩ := h.entry_search ha hFuel
  obtain ⟨next, hExec, hRing, hKeep⟩ := insertProcQ_append (h.directory.ring d hd) (hp _)
  refine ⟨next, update s.semd.s_procQ d (some p), ?_, ⟨h.pool, ?_⟩, hKeep⟩
  · simp [insertBlocked, hLoop, hGap, hNext, hExec, PcbTable.setSemAdd, SemdTable.setProcQ]
  · apply h.directory.set hd (by simp)
    · show Ring next (update s.semd.s_procQ d (some p) d) _
      rwa [Function.update_self]
    · intro x hx
      rcases List.mem_append.mp hx with hx | hx
      · exact .inl hx
      · rw [List.mem_singleton.mp hx]
        exact .inr hp
    · intro e _ he
      exact Function.update_of_ne he ..
    · intro b hb x hx
      apply hKeep
      intro hm
      rcases List.mem_cons.mp hm with rfl | hm
      · exact hp b hx
      · exact h.directory.apart b _ hb hx hm

/-- `insertBlocked` appends the process to the list of its semaphore whenever
there is room for it. -/
theorem insertBlocked_put (h : s.Rep dummy active free m) (hp : ∀ b, p ∉ m b)
    (hRoom : m semAdd ≠ [] ∨ free ≠ []) (hFuel : Fintype.card D ≤ fuel) :
    ∃ active' free' next semd semdFree_h, insertBlocked fuel s semAdd (some p) =
        .ok ({ s with pcb := { s.pcb.setSemAdd p semAdd with p_next := next },
                      semd, semdFree_h }, false) ∧
      Rep { s with pcb := { s.pcb.setSemAdd p semAdd with p_next := next }, semd, semdFree_h }
        dummy active' free' (update m semAdd (m semAdd ++ [p])) ∧
      semd.s_semAdd dummy = s.semd.s_semAdd dummy ∧
      ∀ q, q ∉ p :: m semAdd → next q = s.pcb.p_next q := by
  by_cases ha : m semAdd = []
  · cases free with
    | nil => exact absurd rfl (hRoom.resolve_left (not_not_intro ha))
    | cons add free =>
        obtain ⟨active', semd, hExec, hRep, hDummy⟩ := h.insertBlocked_new ha hp hFuel
        refine ⟨active', free, update s.pcb.p_next p (some p), semd, _, hExec, ?_, hDummy, ?_⟩
        · rw [ha]
          exact hRep
        · intro q hq
          exact Function.update_of_ne (List.ne_of_not_mem_cons hq) ..
  · obtain ⟨next, procQ, hExec, hRep, hKeep⟩ := h.insertBlocked_append ha hp hFuel
    exact ⟨active, free, next, _, _, hExec, hRep, rfl, hKeep⟩

end Insert

section Remove

variable [DecidableEq P] [DecidableEq D] [Fintype D]

theorem removeBlocked_none (h : s.Rep dummy active free m) (ha : m semAdd = [])
    (hFuel : Fintype.card D ≤ fuel) : removeBlocked fuel s semAdd = .ok (s, none) := by
  have hKeys (d : D) (hd : d ∈ active) : s.semd.s_semAdd d ≠ semAdd := h.key_ne ha hd
  rw [← List.append_nil active] at h
  obtain ⟨-, v, -, hNext, hLoop⟩ := h.semdSearch_stops (· ≠ semAdd)
    (fun d hd => decide_eq_true (hKeys d hd)) (by simp) hFuel
  rw [List.head?_nil] at hNext
  simp only [removeBlocked, hLoop, Outcome.ok_bind, hNext]
  rfl

/-- `removeBlocked` returns the first process of its semaphore. The descriptor
leaves with the last process; until then `removeProcQ` does not move the tail,
so the copy that is never written back has not changed. -/
theorem removeBlocked_take (h : s.Rep dummy active free m) (ha : m semAdd = p :: l)
    (hFuel : Fintype.card D ≤ fuel) :
    ∃ active' free' next s_next semdFree_h, removeBlocked fuel s semAdd =
        .ok ({ s with pcb := { s.pcb with p_next := next },
                      semd := { s.semd with s_next := s_next }, semdFree_h }, some p) ∧
      Rep { s with pcb := { s.pcb with p_next := next },
                   semd := { s.semd with s_next := s_next }, semdFree_h }
        dummy active' free' (update m semAdd l) ∧
      ∀ q, q ∉ l → next q = s.pcb.p_next q := by
  have hne : m semAdd ≠ [] := by simp [ha]
  obtain ⟨pre, d, post, rfl, rfl, hPre⟩ := h.directory.entry_split hne
  obtain ⟨l₁, v, hList, hNext, hLoop⟩ :=
    h.semdSearch_stops (· ≠ s.semd.s_semAdd d)
    (fun e he => decide_eq_true (hPre e he).ne) (by simp) hFuel
  rw [List.head?_cons] at hNext
  have hd : d ∈ pre ++ d :: post := by simp
  have hRing := h.directory.ring d hd
  rw [ha] at hRing
  obtain ⟨next, tp, hExec, hRest, hKeep⟩ := removeProcQ_head hRing
  have hKeepOther (b : Addr) (hb : b ≠ s.semd.s_semAdd d) (x : P) (hx : x ∈ m b) :
      next x = s.pcb.p_next x :=
    hKeep x fun hm => h.directory.apart b _ hb hx (ha ▸ List.mem_cons_of_mem _ hm)
  cases l with
  | nil =>
      have hEmpty : tp = none := hRest.eq_nil_iff.mp rfl
      subst hEmpty
      have hvd : v ≠ d := h.pred_ne hList
      refine ⟨pre ++ post, d :: free, next,
        update (update s.semd.s_next v (s.semd.s_next d)) d s.semdFree_h, some d, ?_, ⟨?_, ?_⟩,
        hKeep⟩
      · rw [removeBlocked, hLoop]
        simp [hNext, hExec, emptyProcQ, SemdTable.setNext]
      · have hPool := h.pool
        rw [cons_append_of_eq hList] at hPool ⊢
        apply hPool.putFront
        · simp [Function.update_of_ne hvd]
        · simp
        · intro y hyv hyd
          simp [Function.update_of_ne hyv, Function.update_of_ne hyd]
      · exact h.directory.remove (fun _ _ => rfl) hKeepOther
  | cons y l =>
      have hSame : tp = s.semd.s_procQ d := by
        rw [hRest.tail_eq, hRing.tail_eq, List.getLast?_cons_cons]
      have hSome : emptyProcQ tp = false := by
        rw [Bool.eq_false_iff, ne_eq, emptyProcQ_iff hRest]
        simp
      refine ⟨pre ++ d :: post, free, next, s.semd.s_next, s.semdFree_h, ?_, ⟨h.pool, ?_⟩, hKeep⟩
      · rw [removeBlocked, hLoop]
        simp [hNext, hExec, hSome]
      · apply h.directory.set hd (by simp) (hSame ▸ hRest)
        · intro x hx
          exact .inl (ha ▸ List.mem_cons_of_mem _ hx)
        · intro _ _ _
          rfl
        · exact hKeepOther

end Remove

/-- `headBlocked` returns the first process of its semaphore. -/
theorem headBlocked_eq [Fintype D] (h : s.Rep dummy active free m) (semAdd : Addr)
    (hFuel : Fintype.card D ≤ fuel) : headBlocked fuel s semAdd = .ok (m semAdd).head? := by
  have hHead := h.head
  by_cases ha : m semAdd = []
  · have hKeys (d : D) (hd : d ∈ active) : s.semd.s_semAdd d ≠ semAdd := h.key_ne ha hd
    rw [← List.append_nil active] at h
    have hLoop := h.headBlockedSearch_stops hKeys (by simp) hFuel
    simp [headBlocked, hHead, hLoop, ha]
  · obtain ⟨pre, d, post, rfl, rfl, hPre⟩ := h.directory.entry_split ha
    have hLoop := h.headBlockedSearch_stops (fun e he => (hPre e he).ne) (by simp) hFuel
    have hRing := h.directory.ring d (by simp)
    cases hTail : s.semd.s_procQ d with
    | none => exact absurd (hRing.eq_nil_iff.mpr hTail) ha
    | some t =>
        rw [hTail] at hRing
        simp [headBlocked, hHead, hLoop, hTail, hRing.next_tail]

section Out

/-- The search of `outBlocked` finds the descriptor of a semaphore that has one. -/
theorem outBlocked_search [Fintype D] (h : s.Rep dummy active free m) (ha : m semAdd ≠ [])
    (hFuel : Fintype.card D ≤ fuel) :
    ∃ pre d post l v, active = pre ++ d :: post ∧ s.semd.s_semAdd d = semAdd ∧
      dummy :: pre = l ++ [v] ∧ Ring s.pcb.p_next (s.semd.s_procQ d) (m semAdd) ∧
      loop (outBlockedSearch s.semd semAdd) fuel (some dummy, s.semd.s_next dummy) =
        .ok (some v, some d) := by
  obtain ⟨pre, d, post, rfl, rfl, hPre⟩ := h.directory.entry_split ha
  obtain ⟨l, v, hList, -, hLoop⟩ := h.outBlockedSearch_stops rfl hPre hFuel
  exact ⟨pre, d, post, l, v, rfl, rfl, hList, h.directory.ring d (by simp), hLoop⟩

variable [DecidableEq P] [DecidableEq D] [Fintype D] [Fintype P]

/-- `outBlocked` of a process other than the tail takes it out of its queue. -/
theorem outBlocked_inner (h : s.Rep dummy active free m) (hp : p ∈ m semAdd)
    (hName : s.pcb.p_semAdd p = semAdd) (hTail : (m semAdd).getLast? ≠ some p)
    (hFuel : Fintype.card D ≤ fuel) (hFuelP : Fintype.card P ≤ fuel) :
    ∃ next, outBlocked fuel s (some p) =
        .ok ({ s with pcb := { s.pcb with p_next := next } }, some p) ∧
      Rep { s with pcb := { s.pcb with p_next := next } }
        dummy active free (update m semAdd ((m semAdd).erase p)) ∧
      next p = none ∧ ∀ q, q ∉ m semAdd → next q = s.pcb.p_next q := by
  obtain ⟨pre, d, post, -, v, rfl, rfl, -, hRing, hLoop⟩ :=
    h.outBlocked_search (List.ne_nil_of_mem hp) hFuel
  have hd : d ∈ pre ++ d :: post := by simp
  cases hq : s.semd.s_procQ d with
  | none => exact absurd (hRing.eq_nil_iff.mpr hq) (List.ne_nil_of_mem hp)
  | some t =>
      rw [hq] at hRing
      rw [← hRing.tail_eq] at hTail
      have hpt : p ≠ t := fun hEq => hTail (hEq ▸ rfl)
      obtain ⟨next, hExec, hRest, hClear, hKeep⟩ := outProcQ_inner hRing hp hpt
        (hRing.nodup.length_le_card.trans hFuelP)
      have hSame := SemdTable.setProcQ_eq_self hq
      refine ⟨next, ?_, ⟨h.pool, ?_⟩, hClear, hKeep⟩
      · simp [outBlocked, h.head, hName, hLoop, hq, hExec, hSame, emptyProcQ]
      · apply h.directory.set hd
        · intro hNil
          exact List.ne_nil_of_mem hRest.tail_mem hNil
        · exact hq ▸ hRest
        · intro x hx
          exact .inl (List.mem_of_mem_erase hx)
        · intro _ _ _
          rfl
        · intro b hb x hx
          exact hKeep x fun hm => h.directory.apart b _ hb hx hm

omit [DecidableEq D] in
/-- `outBlocked` of the tail finds the descriptor and empties its queue. -/
theorem outBlocked_tail_found (h : s.Rep dummy active free m)
    (hTail : (m semAdd).getLast? = some p) (hFuel : Fintype.card D ≤ fuel)
    (hFuelP : Fintype.card P ≤ fuel) :
    ∃ pre d post l v, active = pre ++ d :: post ∧ s.semd.s_semAdd d = semAdd ∧
      dummy :: pre = l ++ [v] ∧ s.semd.s_procQ d = some p ∧
      loop (outBlockedSearch s.semd semAdd) fuel (some dummy, s.semd.s_next dummy) =
        .ok (some v, some d) ∧
      outProcQ fuel s.pcb (some p) (some p) = .ok (s.pcb.setNext p none, none, some p) := by
  have hp : p ∈ m semAdd := List.mem_of_getLast? hTail
  obtain ⟨pre, d, post, l, v, rfl, hKey, hList, hRing, hLoop⟩ :=
    h.outBlocked_search (List.ne_nil_of_mem hp) hFuel
  have hq : s.semd.s_procQ d = some p := hRing.tail_eq.trans hTail
  rw [hq] at hRing
  exact ⟨pre, d, post, l, v, rfl, hKey, hList, hq, hLoop,
    outProcQ_tail hRing (hRing.nodup.length_le_card.trans hFuelP)⟩

/-- `outBlocked` of the tail drops the whole queue, and the descriptor goes
behind the first free one. -/
theorem outBlocked_tail {f : D} (h : s.Rep dummy active (f :: free) m)
    (hTail : (m semAdd).getLast? = some p) (hName : s.pcb.p_semAdd p = semAdd)
    (hFuel : Fintype.card D ≤ fuel) (hFuelP : Fintype.card P ≤ fuel) :
    ∃ active' d semd, outBlocked fuel s (some p) =
        .ok ({ s with pcb := s.pcb.setNext p none, semd }, some p) ∧
      Rep { s with pcb := s.pcb.setNext p none, semd }
        dummy active' (f :: d :: free) (update m semAdd []) ∧
      semd.s_semAdd = s.semd.s_semAdd := by
  obtain ⟨pre, d, post, l, v, rfl, rfl, hList, hq, hLoop, hExec⟩ :=
    h.outBlocked_tail_found hTail hFuel hFuelP
  have hFree : s.semdFree_h = some f := h.pool.spare.1
  have hSplit := cons_append_of_eq hList
  obtain ⟨hUsed, -, hAcross⟩ := List.nodup_append.mp h.pool.nodup
  have hfv : f ≠ v := (hAcross v (hSplit (d :: post) ▸ by simp) f (by simp)).symm
  have hfd : f ≠ d := (hAcross d (by simp) f (by simp)).symm
  have hvd : v ≠ d := h.pred_ne hList
  refine ⟨pre ++ post, d, (((s.semd.setProcQ d none).setNext v (s.semd.s_next d)).setNext d
    (s.semd.s_next f)).setNext f (some d), ?_, ⟨?_, ?_⟩, rfl⟩
  · simp [outBlocked, h.head, hName, hLoop, hq, hExec, hFree, emptyProcQ,
      Function.update_of_ne hfv]
  · have hPool := h.pool
    rw [hSplit] at hPool ⊢
    rw [hFree] at hPool
    simp only [hFree]
    apply hPool.putSecond
    · simp [Function.update_of_ne hfv.symm, Function.update_of_ne hvd]
    · simp [Function.update_of_ne hfd.symm]
    · simp
    · intro z hzv hzd hzf
      simp [Function.update_of_ne hzv, Function.update_of_ne hzd, Function.update_of_ne hzf]
  · apply h.directory.remove
    · intro e he
      apply Function.update_of_ne
      intro hEq
      rw [List.nodup_cons, List.nodup_middle, List.nodup_cons] at hUsed
      exact hUsed.2.1 (hEq ▸ he)
    · intro b hb x hx
      apply Function.update_of_ne
      intro hEq
      exact h.directory.apart b _ hb (hEq ▸ hx) (List.mem_of_getLast? hTail)

/-- With all descriptors in use, taking out the tail reads through the NULL head
of the free list. -/
theorem outBlocked_tail_full (h : s.Rep dummy active [] m)
    (hTail : (m semAdd).getLast? = some p) (hName : s.pcb.p_semAdd p = semAdd)
    (hFuel : Fintype.card D ≤ fuel) (hFuelP : Fintype.card P ≤ fuel) :
    outBlocked fuel s (some p) = .error .nullDeref := by
  obtain ⟨pre, d, post, l, v, rfl, rfl, -, hq, hLoop, hExec⟩ :=
    h.outBlocked_tail_found hTail hFuel hFuelP
  have hFree : s.semdFree_h = none := h.pool.spare
  simp [outBlocked, h.head, hName, hLoop, hq, hExec, hFree, emptyProcQ]

end Out

end Memory.Rep

end Nucleus
