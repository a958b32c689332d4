import Mathlib.Data.List.Forall2
import Nucleus.Semantics.System

/-! Two models of one program. Two calls agree if both return and the results are related,
or if both stop for the same reason. -/
namespace Semantics

section Agree
universe u

variable {α α' β β' : Type u}

inductive Agree (R : α → β → Prop) : Outcome α → Outcome β → Prop where
  | ok {a : α} {b : β} (related : R a b) : Agree R (.ok a) (.ok b)
  | error (stop : Stop) : Agree R (.error stop) (.error stop)

namespace Agree

variable {R : α → β → Prop} {S : α' → β' → Prop} {x : Outcome α} {y : Outcome β}

/-- Sequences agree if their parts do. -/
theorem bind {f : α → Outcome α'} {g : β → Outcome β'} (h : Agree R x y)
    (hNext : ∀ a b, R a b → Agree S (f a) (g b)) : Agree S (x >>= f) (y >>= g) := by
  cases h with
  | ok related => exact hNext _ _ related
  | error stop => exact .error stop

/-- One side may return another view of its result. -/
theorem bind_ok {S : α' → β → Prop} {f : α → α'} (h : Agree R x y)
    (hView : ∀ a b, R a b → S (f a) b) : Agree S (x >>= fun a => .ok (f a)) y := by
  cases h with
  | ok related => exact .ok (hView _ _ related)
  | error stop => exact .error stop

/-- What is returned on one side is returned on the other. -/
theorem exists_ok {b : β} (h : Agree R x (.ok b)) : ∃ a, x = .ok a ∧ R a b := by
  cases h with
  | ok related => exact ⟨_, rfl, related⟩

end Agree

/-- Accesses through the same pointer agree. -/
theorem deref_agree (p : Option α) : Agree (fun a b => p = some a ∧ b = a) (deref p) (deref p) := by
  cases p with
  | none => exact .error .nullDeref
  | some a => exact .ok ⟨rfl, rfl⟩

end Agree

namespace System

variable {State State' Call Reply Reply' : Type} {M : System State Call Reply}
  {N : System State' Call Reply'} {R : State → State' → Prop} {Same : Reply → Reply' → Prop}

/-- In related states a call that is legal on the right is legal on the left, and the two
calls agree. -/
def Agrees (M : System State Call Reply) (N : System State' Call Reply')
    (R : State → State' → Prop) (Same : Reply → Reply' → Prop) : Prop :=
  ∀ s s' call, R s s' → N.Legal s' call → M.Legal s call ∧
    Agree (fun x y => R x.1 y.1 ∧ Same x.2 y.2) (M.exec s call) (N.exec s' call)

/-- Agreement of single calls lifts to whole runs with the same calls. -/
theorem Agrees.run (h : Agrees M N R Same) {s : State} {s' t' : State'}
    {trace' : List (Call × Reply')} (run : N.Run s' trace' t') (hR : R s s') :
    ∃ trace t, M.Run s trace t ∧ R t t' ∧
      List.Forall₂ (fun e e' => e.1 = e'.1 ∧ Same e.2 e'.2) trace trace' := by
  induction run generalizing s with
  | nil => exact ⟨[], s, .nil s, hR, .nil⟩
  | cons legal first _ ih =>
      obtain ⟨hLegal, hAgree⟩ := h _ _ _ hR legal
      rw [first] at hAgree
      obtain ⟨⟨t, reply⟩, hExec, hR', hSame⟩ := hAgree.exists_ok
      obtain ⟨trace, u, hRun, hR'', hTrace⟩ := ih hR'
      exact ⟨_, u, .cons hLegal hExec hRun, hR'', .cons ⟨rfl, hSame⟩ hTrace⟩

end System

end Semantics
