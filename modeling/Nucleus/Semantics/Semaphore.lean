import Mathlib.Data.List.Infix

/-! Requests on one counting semaphore, and a server that handles them one at a time
in the order in which they are made. A P that finds the value 0 occupies the server
for ever. The result compares it with a semaphore on which only the P waits. -/
namespace Semaphore

inductive Op where
  | passeren
  | verhogen
  deriving DecidableEq, Repr

variable {Q : Type} {v : ℕ} {requests before after : List (Q × Op)}

/-- The number of P requests. -/
def passerens (requests : List (Q × Op)) : ℕ := requests.countP (·.2 = .passeren)

/-- The number of V requests. -/
def verhogens (requests : List (Q × Op)) : ℕ := requests.countP (·.2 = .verhogen)

@[simp] theorem passerens_nil : passerens ([] : List (Q × Op)) = 0 := rfl

@[simp] theorem verhogens_nil : verhogens ([] : List (Q × Op)) = 0 := rfl

@[simp] theorem passerens_append :
    passerens (before ++ after) = passerens before + passerens after := List.countP_append

@[simp] theorem verhogens_append :
    verhogens (before ++ after) = verhogens before + verhogens after := List.countP_append

@[simp] theorem passerens_cons_passeren (q : Q) :
    passerens ((q, .passeren) :: requests) = passerens requests + 1 := by simp [passerens]

@[simp] theorem passerens_cons_verhogen (q : Q) :
    passerens ((q, .verhogen) :: requests) = passerens requests := by simp [passerens]

@[simp] theorem verhogens_cons_verhogen (q : Q) :
    verhogens ((q, .verhogen) :: requests) = verhogens requests + 1 := by simp [verhogens]

@[simp] theorem verhogens_cons_passeren (q : Q) :
    verhogens ((q, .passeren) :: requests) = verhogens requests := by simp [verhogens]

/-- What is completed of the requests is what a counting semaphore with the initial
value `v` completes: every V, and as many P as there is value for. -/
def Counts (v : ℕ) (requests completed : List (Q × Op)) : Prop :=
  verhogens completed = verhogens requests ∧
    passerens completed = min (passerens requests) (v + verhogens requests)

/-- What the server completes. -/
def granted : ℕ → List (Q × Op) → List (Q × Op)
  | _, [] => []
  | v, (q, .verhogen) :: requests => (q, .verhogen) :: granted (v + 1) requests
  | 0, (_, .passeren) :: _ => []
  | v + 1, (q, .passeren) :: requests => (q, .passeren) :: granted v requests

/-- `completed` is a first part of the requests in which every P has its value, and
what comes after it starts with a P that has none. -/
structure Served (v : ℕ) (requests completed : List (Q × Op)) : Prop where
  valued : ∀ before, before <+: completed → passerens before ≤ v + verhogens before
  stuck : completed = requests ∨ ∃ q after, requests = completed ++ (q, .passeren) :: after ∧
    passerens completed = v + verhogens completed

/-- A request that is handled moves the value from `v` to `v'`. -/
theorem Served.cons {v' : ℕ} {completed : List (Q × Op)} (h : Served v' requests completed)
    (request : Q × Op) (hValue : ∀ l, v + verhogens (request :: l) + passerens l =
      v' + verhogens l + passerens (request :: l)) :
    Served v (request :: requests) (request :: completed) := by
  refine ⟨fun before hBefore => ?_, ?_⟩
  · rcases List.prefix_cons_iff.mp hBefore with rfl | ⟨tail, rfl, hTail⟩
    · simp
    · have hTail := h.valued tail hTail
      have hValue := hValue tail
      omega
  · rcases h.stuck with hAll | ⟨q, after, hSplit, hCount⟩
    · exact .inl (congrArg _ hAll)
    · have hValue := hValue completed
      exact .inr ⟨q, after, congrArg _ hSplit, by omega⟩

theorem granted_served (v : ℕ) (requests : List (Q × Op)) :
    Served v requests (granted v requests) := by
  induction v, requests using granted.induct with
  | case1 v => exact ⟨by simp [granted], .inl rfl⟩
  | case2 v q requests ih =>
      refine ih.cons (q, .verhogen) fun l => ?_
      simp only [verhogens_cons_verhogen, passerens_cons_verhogen]
      omega
  | case3 q requests => exact ⟨by simp [granted], .inr ⟨q, requests, rfl, rfl⟩⟩
  | case4 v q requests ih =>
      refine ih.cons (q, .passeren) fun l => ?_
      simp only [verhogens_cons_passeren, passerens_cons_passeren]
      omega

/-- The server keeps the count as long as no V is left behind the P it is stuck at. -/
theorem counts_granted_iff (v : ℕ) (requests : List (Q × Op)) :
    Counts v requests (granted v requests) ↔
      verhogens (granted v requests) = verhogens requests := by
  have hServed := granted_served v requests
  have hAll := hServed.valued _ List.prefix_rfl
  refine and_iff_left_of_imp fun hCount => ?_
  rcases hServed.stuck with hEq | ⟨q, after, hSplit, hStuck⟩
  · rw [hEq] at hAll ⊢
    omega
  · have hPasserens := congrArg passerens hSplit
    rw [passerens_append, passerens_cons_passeren] at hPasserens
    omega

theorem exists_first_verhogen (h : verhogens requests ≠ 0) :
    ∃ before q after, requests = before ++ (q, .verhogen) :: after ∧ verhogens before = 0 := by
  induction requests with
  | nil => exact absurd rfl h
  | cons request requests ih =>
      obtain ⟨q, _ | _⟩ := request
      · rw [verhogens_cons_passeren] at h
        obtain ⟨before, q', after, rfl, hNone⟩ := ih h
        exact ⟨(q, .passeren) :: before, q', after, rfl, by simp [hNone]⟩
      · exact ⟨[], q, requests, rfl, rfl⟩

/-- The server keeps the count all along exactly when no V is requested while a P
waits for it. -/
theorem granted_counts_iff (v : ℕ) (requests : List (Q × Op)) :
    (∀ before, before <+: requests → Counts v before (granted v before)) ↔
      ∀ before q, before ++ [(q, .verhogen)] <+: requests →
        passerens before ≤ v + verhogens before := by
  constructor
  · intro hCounts before q hBefore
    have hHandled := (counts_granted_iff v _).mp (hCounts _ hBefore)
    have hServed := granted_served v (before ++ [(q, .verhogen)])
    rcases hServed.stuck with hEq | ⟨q', after, hSplit, -⟩
    · rw [hEq] at hServed
      exact hServed.valued before (List.prefix_append ..)
    · -- the V is last, so it is behind the P at which the server is stuck
      have hLast := congrArg List.getLast? hSplit
      simp only [List.getLast?_append_cons, List.getLast?_singleton] at hLast
      have hMem := List.mem_of_getLast? hLast.symm
      have hPos : 0 < verhogens ((q', .passeren) :: after) :=
        List.countP_pos_iff.mpr ⟨_, hMem, by simp⟩
      have hVerhogens := (congrArg verhogens hSplit).trans verhogens_append
      omega
  · intro hBefore before hPrefix
    rw [counts_granted_iff]
    rcases (granted_served v before).stuck with hEq | ⟨q', after, hSplit, hStuck⟩
    · rw [hEq]
    · by_contra hLost
      have hVerhogens := congrArg verhogens hSplit
      rw [verhogens_append, verhogens_cons_passeren] at hVerhogens
      obtain ⟨early, q, late, rfl, hNone⟩ :=
        exists_first_verhogen (by omega : verhogens after ≠ 0)
      have hWaits := hBefore (granted v before ++ (q', .passeren) :: early) q <|
        List.IsPrefix.trans ⟨late, by simpa using hSplit.symm⟩ hPrefix
      simp only [passerens_append, passerens_cons_passeren, verhogens_append,
        verhogens_cons_passeren] at hWaits
      omega

end Semaphore
