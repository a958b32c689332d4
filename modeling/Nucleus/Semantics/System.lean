import Nucleus.Semantics.Outcome

/-! Systems of calls over a shared state, their runs, and refinement of an
abstract step relation. A caller may make only the calls that the contract of
the system allows in the current state. -/
namespace Semantics

structure System (State Call Reply : Type) where
  Legal : State → Call → Prop
  exec : State → Call → Outcome (State × Reply)

namespace System

variable {State Call Reply : Type} {M : System State Call Reply}

/-- A run of completed legal calls, recorded with their replies. -/
inductive Run (M : System State Call Reply) : State → List (Call × Reply) → State → Prop where
  | nil (s : State) : Run M s [] s
  | cons {s t u : State} {call : Call} {reply : Reply} {trace : List (Call × Reply)}
      (legal : M.Legal s call) (first : M.exec s call = .ok (t, reply))
      (rest : Run M t trace u) : Run M s ((call, reply) :: trace) u

theorem Run.trans {s t u : State} {first second : List (Call × Reply)} (left : M.Run s first t)
    (right : M.Run t second u) : M.Run s (first ++ second) u := by
  induction left with
  | nil => exact right
  | cons legal first _ ih => exact .cons legal first (ih right)

theorem Run.split {s u : State} {first second : List (Call × Reply)}
    (run : M.Run s (first ++ second) u) : ∃ t, M.Run s first t ∧ M.Run t second u := by
  induction first generalizing s with
  | nil => exact ⟨s, .nil s, run⟩
  | cons entry first ih =>
      cases run with
      | cons legal head rest =>
          obtain ⟨t, hFirst, hSecond⟩ := ih rest
          exact ⟨t, .cons legal head hFirst, hSecond⟩

/-- What every legal call with an entry in `Allowed` preserves holds after every
run with such entries only. -/
theorem Run.invariant_on (Inv : State → Prop) (Allowed : Call × Reply → Prop) {s t : State}
    {trace : List (Call × Reply)} (run : M.Run s trace t)
    (hStep : ∀ s call t reply, Inv s → M.Legal s call → Allowed (call, reply) →
      M.exec s call = .ok (t, reply) → Inv t)
    (hStart : Inv s) (hTrace : ∀ entry ∈ trace, Allowed entry) : Inv t := by
  induction run with
  | nil => exact hStart
  | cons legal first _ ih =>
      have hFirst := hTrace _ (List.mem_cons_self ..)
      exact ih (hStep _ _ _ _ hStart legal hFirst first)
        fun entry hEntry => hTrace entry (List.mem_cons_of_mem _ hEntry)

/-- What every legal call preserves holds after every run. -/
theorem Run.invariant (Inv : State → Prop) {s t : State} {trace : List (Call × Reply)}
    (run : M.Run s trace t)
    (hStep : ∀ s call t reply, Inv s → M.Legal s call → M.exec s call = .ok (t, reply) → Inv t)
    (hStart : Inv s) : Inv t :=
  run.invariant_on Inv (fun _ => True)
    (fun s call t reply hInv legal _ => hStep s call t reply hInv legal) hStart
    fun _ _ => trivial

/-- A record kept along a run: what every legal call preserves, with the entry of
the call added to the record, holds of the record of the whole run. -/
theorem Run.history {History : Type} (R : State → History → Prop)
    (record : History → Call × Reply → History) {s t : State} {trace : List (Call × Reply)}
    (run : M.Run s trace t)
    (hStep : ∀ s call t reply history, R s history → M.Legal s call →
      M.exec s call = .ok (t, reply) → R t (record history (call, reply)))
    {history : History} (hStart : R s history) : R t (trace.foldl record history) := by
  induction run generalizing history with
  | nil => exact hStart
  | cons legal first _ ih => exact ih (hStep _ _ _ _ _ hStart legal first)

/-- The same system with a stricter contract. -/
def restrict (M : System State Call Reply) (Extra : State → Call → Prop) :
    System State Call Reply where
  Legal s call := M.Legal s call ∧ Extra s call
  exec := M.exec

theorem Run.of_restrict {Extra : State → Call → Prop} {s t : State}
    {trace : List (Call × Reply)} (run : (M.restrict Extra).Run s trace t) : M.Run s trace t := by
  induction run with
  | nil => exact .nil _
  | cons legal first _ ih => exact .cons legal.1 first ih

end System

section Refinement

variable {State Call Reply Abs Event : Type}

/-- Runs of an abstract step relation, one event a step. -/
inductive Steps (Step : Abs → Event → Abs → Prop) : Abs → List Event → Abs → Prop where
  | nil (a : Abs) : Steps Step a [] a
  | cons {a b c : Abs} {event : Event} {events : List Event}
      (first : Step a event b) (rest : Steps Step b events c) : Steps Step a (event :: events) c

/-- Every legal call completes, and what it did is the abstract step that its
event names. `R` relates concrete states to the abstract states they stand for. -/
def Refines (M : System State Call Reply) (Step : Abs → Event → Abs → Prop)
    (event : Call → Reply → Event) (R : State → Abs → Prop) : Prop :=
  ∀ s a call, R s a → M.Legal s call →
    ∃ t reply b, M.exec s call = .ok (t, reply) ∧ Step a (event call reply) b ∧ R t b

variable {M : System State Call Reply} {Step : Abs → Event → Abs → Prop}
  {event : Call → Reply → Event} {R : State → Abs → Prop}

theorem Refines.step (h : Refines M Step event R) {s t : State} {a : Abs} {call : Call}
    {reply : Reply} (hR : R s a) (legal : M.Legal s call) (hExec : M.exec s call = .ok (t, reply)) :
    ∃ b, Step a (event call reply) b ∧ R t b := by
  obtain ⟨t', reply', b, hExec', hStep, hR'⟩ := h s a call hR legal
  rw [hExec] at hExec'
  cases hExec'
  exact ⟨b, hStep, hR'⟩

/-- Refinement of single calls lifts to whole runs with the same events. -/
theorem Refines.run (h : Refines M Step event R) {s t : State} {a : Abs}
    {trace : List (Call × Reply)} (run : M.Run s trace t) (hR : R s a) :
    ∃ b, Steps Step a (trace.map fun entry => event entry.1 entry.2) b ∧ R t b := by
  induction run generalizing a with
  | nil => exact ⟨a, .nil a, hR⟩
  | cons legal first _ ih =>
      obtain ⟨b, hStep, hR'⟩ := h.step hR legal first
      obtain ⟨c, hSteps, hR''⟩ := ih hR'
      exact ⟨c, .cons hStep hSteps, hR''⟩

end Refinement

end Semantics
