import Mathlib.Data.List.Perm.Basic
import Mathlib.Data.List.Rotate
import Mathlib.Logic.Function.Basic

/-!
# Hemem.Lib.Selection — selection by rotation

A list is rotated by a number of places that is drawn at random, its first element is
taken, and so on with the rest, which stays rotated. With draws below the number of
elements that are left, every element can be the next to be taken; `selection` are the
elements that have been taken and `remaining` those that have not.
-/

namespace Hemem.Lib

universe u

variable {α : Type u}

/-- What is left of the list when it has been rotated by `c` and its first element has
been taken. -/
def leftBehind (c : Nat) (xs : List α) : List α := xs.drop (c + 1) ++ xs.take c

/-- The place of the element that is taken next, when `i` have been taken. -/
def place (r : Nat → Nat) (xs : List α) (i : Nat) : Nat := r i % (xs.length - i)

/-- The list after `i` elements have been taken. -/
def remaining (r : Nat → Nat) (xs : List α) : Nat → List α
  | 0 => xs
  | i + 1 => leftBehind (place r xs i) (remaining r xs i)

/-- The first `k` elements that are taken. -/
def selection (r : Nat → Nat) (xs : List α) : Nat → List α
  | 0 => []
  | k + 1 => selection r xs k ++ (remaining r xs k)[place r xs k]?.toList

/-- A rotation brings the element at this place to the head. -/
theorem rotate_eq_cons {c : Nat} {xs : List α} (h : c < xs.length) :
    xs.rotate c = xs[c] :: leftBehind c xs := by
  rw [List.rotate_eq_drop_append_take h.le, List.drop_eq_getElem_cons h, List.cons_append,
    leftBehind]

theorem length_leftBehind {c : Nat} {xs : List α} (h : c < xs.length) :
    (leftBehind c xs).length = xs.length - 1 := by
  simp only [leftBehind, List.length_append, List.length_drop, List.length_take]
  omega

/-- Nothing is lost by taking an element out. -/
theorem cons_leftBehind_perm {c : Nat} {xs : List α} (h : c < xs.length) :
    (xs[c] :: leftBehind c xs).Perm xs := by
  rw [← rotate_eq_cons h]
  exact List.rotate_perm xs c

variable {r r' : Nat → Nat} {xs : List α} {i k : Nat}

/-- The place that is drawn is one of those that are left. -/
theorem place_lt (h : i < xs.length) : place r xs i < xs.length - i :=
  Nat.mod_lt _ (Nat.sub_pos_of_lt h)

/-- One element less remains after each draw. -/
theorem length_remaining (h : i ≤ xs.length) : (remaining r xs i).length = xs.length - i := by
  induction i with
  | zero => rfl
  | succ i ih =>
    have hi := ih (Nat.le_of_succ_le h)
    rw [remaining, length_leftBehind (hi ▸ place_lt h), hi, Nat.sub_sub]

/-- An element is there to be taken. -/
theorem place_lt_length (h : i < xs.length) : place r xs i < (remaining r xs i).length :=
  length_remaining (r := r) h.le ▸ place_lt h

/-- The element that is taken when `i` have been taken. -/
def next (r : Nat → Nat) (xs : List α) (i : Nat) (h : i < xs.length) : α :=
  (remaining r xs i).get ⟨place r xs i, place_lt_length h⟩

/-- The element that is taken was there. -/
theorem next_mem (h : i < xs.length) : next r xs i h ∈ remaining r xs i := List.getElem_mem _

/-- The rotation brings the next element to the head. -/
theorem rotate_remaining (h : i < xs.length) :
    (remaining r xs i).rotate (place r xs i) = next r xs i h :: remaining r xs (i + 1) :=
  rotate_eq_cons (place_lt_length h)

/-- One draw more selects one element more. -/
theorem selection_succ (h : k < xs.length) :
    selection r xs (k + 1) = selection r xs k ++ [next r xs k h] := by
  rw [selection, List.getElem?_eq_getElem (place_lt_length h), Option.toList_some]
  rfl

theorem length_selection (h : k ≤ xs.length) : (selection r xs k).length = k := by
  induction k with
  | zero => rfl
  | succ k ih =>
    rw [selection_succ h, List.length_append, ih (Nat.le_of_succ_le h), List.length_singleton]

/-- Nothing is lost and nothing is taken twice. -/
theorem selection_append_remaining_perm (h : k ≤ xs.length) :
    (selection r xs k ++ remaining r xs k).Perm xs := by
  induction k with
  | zero => exact List.Perm.refl xs
  | succ k ih =>
    have hstep := cons_leftBehind_perm (place_lt_length (r := r) h)
    rw [selection_succ h, List.append_assoc, List.singleton_append]
    exact (hstep.append_left _).trans (ih (Nat.le_of_succ_le h))

/-- What is left depends on the draws so far only. -/
theorem remaining_congr (h : ∀ j, j < i → r j = r' j) : remaining r xs i = remaining r' xs i := by
  induction i with
  | zero => rfl
  | succ i ih =>
    rw [remaining, remaining, ih fun j hj => h j (Nat.lt_succ_of_lt hj), place, place,
      h i (Nat.lt_succ_self i)]

/-- Later draws do not matter. -/
theorem selection_congr (h : ∀ j, j < k → r j = r' j) : selection r xs k = selection r' xs k := by
  induction k with
  | zero => rfl
  | succ k ih =>
    have hprev : ∀ j, j < k → r j = r' j := fun j hj => h j (Nat.lt_succ_of_lt hj)
    rw [selection, selection, ih hprev, remaining_congr hprev, place, place,
      h k (Nat.lt_succ_self k)]

/-- Whatever has been taken, the next draw can take any element that is left. -/
theorem exists_selection (h : k < xs.length) {x : α} (hx : x ∈ remaining r xs k) :
    ∃ c, selection (Function.update r k c) xs (k + 1) = selection r xs k ++ [x] := by
  rcases List.mem_iff_getElem.mp hx with ⟨c, hc, rfl⟩
  have hsame : ∀ j, j < k → Function.update r k c j = r j :=
    fun j hj => Function.update_of_ne hj.ne _ _
  have hplace : place (Function.update r k c) xs k = c := by
    rw [place, Function.update_self, Nat.mod_eq_of_lt (length_remaining (r := r) h.le ▸ hc)]
  refine ⟨c, ?_⟩
  rw [selection, selection_congr hsame, remaining_congr hsame, hplace,
    List.getElem?_eq_getElem hc, Option.toList_some]

end Hemem.Lib
