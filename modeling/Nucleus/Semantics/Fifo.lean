import Mathlib.Logic.Function.Basic
import Nucleus.Semantics.System

/-! Families of first-in, first-out lists, one for each key. This is the purpose
of a queue, with no word about how it is stored. -/
namespace Semantics.Fifo

open Function (update)

variable {K V : Type}

/-- What a caller can observe of one call. -/
inductive Event (K V : Type) where
  | put (key : K) (value : V)
  | take (key : K) (found : Option V)
  | peek (key : K) (found : Option V)
  | test (key : K) (empty : Bool)
  | idle

/-- Only `put` and `take` change a list, and only the list of their own key. -/
def Step [DecidableEq K] (q : K → List V) : Event K V → (K → List V) → Prop
  | .put key value, q' => q' = update q key (q key ++ [value])
  | .take key found, q' => found = (q key).head? ∧ q' = update q key (q key).tail
  | .peek key found, q' => found = (q key).head? ∧ q' = q
  | .test key empty, q' => (empty = true ↔ q key = []) ∧ q' = q
  | .idle, q' => q' = q

def Event.put? [DecidableEq K] (key : K) : Event K V → List V
  | .put k value => if k = key then [value] else []
  | _ => []

def Event.taken? [DecidableEq K] (key : K) : Event K V → List V
  | .take k (some value) => if k = key then [value] else []
  | _ => []

/-- The values put in under `key`, oldest first. -/
def puts [DecidableEq K] (key : K) (events : List (Event K V)) : List V :=
  events.flatMap (Event.put? key)

/-- The values taken out under `key`, in the order they came out. -/
def takes [DecidableEq K] (key : K) (events : List (Event K V)) : List V :=
  events.flatMap (Event.taken? key)

variable [DecidableEq K]

/-- One step conserves what is stored, put in and taken out. -/
theorem step_conserves {q q' : K → List V} {event : Event K V} (h : Step q event q') (key : K) :
    q key ++ event.put? key = event.taken? key ++ q' key := by
  cases event with
  | put k value =>
      cases h
      by_cases hk : k = key
      · subst hk
        simp [Event.put?, Event.taken?]
      · simp [Event.put?, Event.taken?, hk, Function.update_of_ne (Ne.symm hk)]
  | take k found =>
      obtain ⟨rfl, rfl⟩ := h
      by_cases hk : k = key
      · subst hk
        cases q k <;> simp [Event.put?, Event.taken?]
      · cases q k <;> simp [Event.put?, Event.taken?, hk, Function.update_of_ne (Ne.symm hk)]
  | peek k found =>
      obtain ⟨-, rfl⟩ := h
      simp [Event.put?, Event.taken?]
  | test k empty =>
      obtain ⟨-, rfl⟩ := h
      simp [Event.put?, Event.taken?]
  | idle =>
      cases h
      simp [Event.put?, Event.taken?]

/-- Over a whole run the values of one key come out in the order in which they
went in, whatever happens under the other keys in between. -/
theorem conservation {q q' : K → List V} {events : List (Event K V)}
    (h : Steps Step q events q') (key : K) :
    q key ++ puts key events = takes key events ++ q' key := by
  induction h with
  | nil => simp [puts, takes]
  | @cons a b c event events first rest ih =>
      have hFirst := step_conserves first key
      simp only [puts, takes, List.flatMap_cons] at ih ⊢
      rw [← List.append_assoc, hFirst, List.append_assoc, ih, List.append_assoc]

end Semantics.Fifo
