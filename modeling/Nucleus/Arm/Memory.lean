import Mathlib.Algebra.Group.Nat.Defs
import Nucleus.Arm.Machine
import Nucleus.Semantics.Block

/-! The memory as words at their addresses, with lists of words stored from an address on.
Addresses come round at the end of the memory. -/
namespace Arm

/-- The address of the word with index `i` from `a` on. -/
def word (a : Word) (i : ℕ) : Word := a + 4 * BitVec.ofNat 32 i

def write (mem : Word → Word) (a v : Word) : Word → Word := Function.update mem a v

def storeWords (mem : Word → Word) (a : Word) (vs : List Word) : Word → Word :=
  Semantics.storeAll (word a) (fun i => vs.getD i 0) vs.length mem

variable {mem : Word → Word} {a v x : Word} {vs ws : List Word} {i j : ℕ}

@[simp] theorem word_zero (a : Word) : word a 0 = a := by simp [word]

theorem word_word (a : Word) (i j : ℕ) : word (word a i) j = word a (i + j) := by
  rw [word, word, word, BitVec.add_assoc, BitVec.ofNat_add, BitVec.mul_add]

theorem word_succ (a : Word) (i : ℕ) : word (a + 4#32) i = word a (i + 1) := by
  have hOne : a + 4#32 = word a 1 := rfl
  rw [hOne, word_word, Nat.add_comm]

theorem word_inj (hi : i < 2 ^ 30) (hj : j < 2 ^ 30) (h : word a i = word a j) : i = j := by
  have hMul := congrArg BitVec.toNat ((BitVec.add_right_inj a).mp h)
  have hFour : (4 : Word).toNat = 4 := rfl
  simp only [BitVec.toNat_mul, BitVec.toNat_ofNat, hFour] at hMul
  omega

theorem write_apply (mem : Word → Word) (a v x : Word) :
    write mem a v x = if x = a then v else mem x := Function.update_apply ..

theorem write_comm (h : a ≠ x) (v w : Word) :
    write (write mem a v) x w = write (write mem x w) a v :=
  Function.update_comm h ..

@[simp] theorem storeWords_nil (mem : Word → Word) (a : Word) : storeWords mem a [] = mem := rfl

theorem storeWords_cons (mem : Word → Word) (a v : Word) (vs : List Word) :
    storeWords (write mem a v) (a + 4#32) vs = storeWords mem a (v :: vs) := by
  have hCells : word (a + 4#32) = fun i => word a (i + 1) := by
    funext i
    exact word_succ a i
  rw [storeWords, storeWords, List.length_cons, Semantics.storeAll_succ, hCells, word_zero]
  rfl

/-- Nothing else is written. -/
theorem storeWords_ne (h : ∀ i < vs.length, word a i ≠ x) : storeWords mem a vs x = mem x :=
  Semantics.storeAll_same fun i hi hEq => absurd hEq (h i hi)

/-- A word depends on the memory before at its own address only. -/
theorem storeWords_congr {mem' : Word → Word} (h : mem x = mem' x) (a : Word) (vs : List Word) :
    storeWords mem a vs x = storeWords mem' a vs x := by
  induction vs generalizing mem mem' a with
  | nil => exact h
  | cons v vs ih =>
      rw [← storeWords_cons, ← storeWords_cons]
      refine ih ?_ (a + 4#32)
      rw [write_apply, write_apply, h]

theorem storeWords_apply (hSize : vs.length ≤ 2 ^ 30) (hi : i < vs.length) :
    storeWords mem a vs (word a i) = vs[i] := by
  have hInj (i j : ℕ) (hi : i < vs.length) (hj : j < vs.length) (h : word a i = word a j) :
      i = j := word_inj (by omega) (by omega) h
  rw [storeWords, Semantics.storeAll_apply hInj hi, ← List.getElem_eq_getD]

/-- The words from `a` on are those of a list. -/
def Holds (mem : Word → Word) (a : Word) (vs : List Word) : Prop :=
  ∀ i (hi : i < vs.length), mem (word a i) = vs[i]

theorem storeWords_holds (hSize : vs.length ≤ 2 ^ 30) : Holds (storeWords mem a vs) a vs :=
  fun _ hi => storeWords_apply hSize hi

theorem Holds.word_eq (h : Holds mem a vs) (hWord : vs[i]? = some v) : mem (word a i) = v := by
  obtain ⟨hi, rfl⟩ := List.getElem?_eq_some_iff.mp hWord
  exact h i hi

theorem Holds.unique (h : Holds mem a vs) (h' : Holds mem a ws) (hSize : vs.length = ws.length) :
    vs = ws :=
  List.ext_getElem hSize fun i hi hi' => (h i hi).symm.trans (h' i hi')

theorem storeWords_singleton (mem : Word → Word) (a v : Word) :
    storeWords mem a [v] = write mem a v := by
  rw [← storeWords_cons, storeWords_nil]

/-- Words that are stored behind others. -/
theorem storeWords_append (mem : Word → Word) (a : Word) (vs ws : List Word) :
    storeWords (storeWords mem a vs) (word a vs.length) ws = storeWords mem a (vs ++ ws) := by
  induction vs generalizing mem a with
  | nil => rw [List.length_nil, word_zero]; rfl
  | cons v vs ih =>
      rw [List.length_cons, ← word_succ, List.cons_append, ← storeWords_cons, ← storeWords_cons]
      exact ih (write mem a v) (a + 4#32)

/-- A word that is stored in front of others, after them. -/
theorem write_storeWords (h : ∀ i < vs.length, word x i ≠ a) (mem : Word → Word) (v : Word) :
    write (storeWords mem x vs) a v = storeWords (write mem a v) x vs := by
  induction vs generalizing mem x with
  | nil => rfl
  | cons w vs ih =>
      have hFirst : x ≠ a := fun hEq => h 0 (Nat.zero_lt_succ _) (by rw [word_zero, hEq])
      have hRest : ∀ i < vs.length, word (x + 4#32) i ≠ a := fun i hi => by
        rw [word_succ]
        exact h (i + 1) (Nat.succ_lt_succ hi)
      rw [← storeWords_cons, ih hRest, ← storeWords_cons, write_comm hFirst]

/-- Words at other addresses may be stored before or after. -/
theorem storeWords_comm (h : ∀ i < vs.length, ∀ j < ws.length, word a i ≠ word x j)
    (mem : Word → Word) : storeWords (storeWords mem a vs) x ws =
      storeWords (storeWords mem x ws) a vs := by
  induction vs generalizing mem a with
  | nil => rfl
  | cons v vs ih =>
      have hFirst : ∀ j < ws.length, word x j ≠ a := fun j hj hEq =>
        h 0 (Nat.zero_lt_succ _) j hj (by rw [word_zero, hEq])
      have hRest : ∀ i < vs.length, ∀ j < ws.length, word (a + 4#32) i ≠ word x j := by
        intro i hi j hj
        rw [word_succ]
        exact h (i + 1) (Nat.succ_lt_succ hi) j hj
      rw [← storeWords_cons, ← storeWords_cons, ih hRest, write_storeWords hFirst]

/-- Words that are stored over others. -/
theorem storeWords_over {us : List Word} (hSize : (vs ++ us).length ≤ 2 ^ 30)
    (hLength : vs.length = ws.length) (mem : Word → Word) :
    storeWords (storeWords mem a (vs ++ us)) a ws = storeWords mem a (ws ++ us) := by
  induction vs generalizing mem a ws with
  | nil =>
      obtain rfl := List.eq_nil_of_length_eq_zero hLength.symm
      rfl
  | cons v vs ih =>
      cases ws with
      | nil => cases hLength
      | cons w ws =>
          rw [List.cons_append, List.length_cons] at hSize
          have hRest : ∀ i < (vs ++ us).length, word (a + 4#32) i ≠ a := fun i hi hEq => by
            rw [word_succ, ← word_zero a, word_word, Nat.zero_add] at hEq
            cases word_inj (by omega) (by omega) hEq
          have hTwice : write (write mem a v) a w = write mem a w := Function.update_idem ..
          rw [List.cons_append, List.cons_append, ← storeWords_cons, ← storeWords_cons,
            ← storeWords_cons, write_storeWords hRest, hTwice]
          exact ih (by omega) (Nat.succ.inj hLength) _

section Writes

variable {cells : List (Word × Word)}

/-- Words at addresses of their own, one after another. -/
def writes (mem : Word → Word) (cells : List (Word × Word)) : Word → Word :=
  cells.foldl (fun mem cell => write mem cell.1 cell.2) mem

theorem writes_append (mem : Word → Word) (cells cells' : List (Word × Word)) :
    writes mem (cells ++ cells') = writes (writes mem cells) cells' := List.foldl_append ..

theorem writes_ne (h : x ∉ cells.map Prod.fst) : writes mem cells x = mem x := by
  induction cells generalizing mem with
  | nil => rfl
  | cons cell cells ih =>
      rw [List.map_cons, List.mem_cons, not_or] at h
      exact (ih h.2).trans ((write_apply ..).trans (if_neg h.1))

/-- With different addresses every word is found where it was written. -/
theorem writes_apply (hNodup : (cells.map Prod.fst).Nodup) (h : (a, v) ∈ cells) :
    writes mem cells a = v := by
  induction cells generalizing mem with
  | nil => cases h
  | cons cell cells ih =>
      rw [List.map_cons, List.nodup_cons] at hNodup
      rcases List.mem_cons.mp h with rfl | hMem
      · exact (writes_ne hNodup.1).trans ((write_apply ..).trans (if_pos rfl))
      · exact ih hNodup.2 hMem

end Writes

end Arm
