import Mathlib.Data.Nat.Notation

/-! Outcomes of calls of a C program on a bare machine. A call returns a value,
dereferences NULL, stops the machine, or has not returned within its fuel. -/
namespace Semantics
universe u

variable {α β σ ρ : Type u}

/-- Why a call does not return. -/
inductive Stop where
  | nullDeref
  | halt
  | panic (message : String)
  | outOfFuel
  deriving DecidableEq, Repr

abbrev Outcome (α : Type u) := Except Stop α

namespace Outcome

@[simp] theorem pure_eq (a : α) : (pure a : Outcome α) = .ok a := rfl

@[simp] theorem ok_bind (a : α) (f : α → Outcome β) :
    ((Except.ok a : Outcome α) >>= f) = f a := rfl

@[simp] theorem error_bind (stop : Stop) (f : α → Outcome β) :
    ((Except.error stop : Outcome α) >>= f) = .error stop := rfl

/-- A sequence returns only through a return of its first call. -/
theorem bind_eq_ok {x : Outcome α} {f : α → Outcome β} {b : β} :
    (x >>= f) = .ok b ↔ ∃ a, x = .ok a ∧ f a = .ok b := by
  cases x with
  | error stop => simp
  | ok a => simp

end Outcome

/-- Every access through a pointer goes through this check. -/
def deref : Option α → Outcome α
  | none => .error .nullDeref
  | some a => .ok a

@[simp] theorem deref_none : deref (none : Option α) = .error .nullDeref := rfl

@[simp] theorem deref_some (a : α) : deref (some a) = .ok a := rfl

/-- A `while` loop. One pass of the body either goes on with a new value of the
loop variables (`inl`) or leaves the loop (`inr`). Fuel counts the passes. -/
def loop (body : σ → Outcome (σ ⊕ ρ)) : ℕ → σ → Outcome ρ
  | 0, _ => .error .outOfFuel
  | fuel + 1, s => do
      match (← body s) with
      | Sum.inl s' => loop body fuel s'
      | Sum.inr r => return r

section Loop

variable {body : σ → Outcome (σ ⊕ ρ)} {s s' : σ} {r : ρ} {fuel : ℕ}

theorem loop_next (h : body s = .ok (.inl s')) :
    loop body (fuel + 1) s = loop body fuel s' := by
  simp [loop, h]

theorem loop_exit (h : body s = .ok (.inr r)) : loop body (fuel + 1) s = .ok r := by
  simp [loop, h]

theorem loop_stop {stop : Stop} (h : body s = .error stop) :
    loop body (fuel + 1) s = .error stop := by
  simp [loop, h]

/-- A pass that changes nothing is repeated for ever. -/
theorem loop_again (h : body s = .ok (.inl s)) (fuel : ℕ) :
    loop body fuel s = .error .outOfFuel := by
  induction fuel with
  | zero => rfl
  | succ fuel ih => rw [loop_next h, ih]

/-- A loop that has returned returns the same with more fuel. -/
theorem loop_mono {fuel' : ℕ} (h : loop body fuel s = .ok r) (hFuel : fuel ≤ fuel') :
    loop body fuel' s = .ok r := by
  induction fuel generalizing s fuel' with
  | zero => cases h
  | succ fuel ih =>
      obtain ⟨spare, rfl⟩ : ∃ spare, fuel' = spare + 1 := ⟨fuel' - 1, by omega⟩
      obtain ⟨result, hBody, hRest⟩ := Outcome.bind_eq_ok.mp h
      cases result with
      | inl s' =>
          rw [loop_next hBody]
          exact ih hRest (by omega)
      | inr r' =>
          rw [loop_exit hBody]
          exact hRest

end Loop

/-- A call that returns `a` for every sufficiently large fuel. -/
def Returns (call : ℕ → Outcome α) (post : α → Prop) : Prop :=
  ∃ bound, ∀ fuel, bound ≤ fuel → ∃ a, call fuel = .ok a ∧ post a

theorem Returns.exists_ok {call : ℕ → Outcome α} {post : α → Prop}
    (h : Returns call post) : ∃ fuel a, call fuel = .ok a ∧ post a := by
  obtain ⟨bound, hReturn⟩ := h
  obtain ⟨a, hCall, hPost⟩ := hReturn bound (Nat.le_refl _)
  exact ⟨bound, a, hCall, hPost⟩

end Semantics
