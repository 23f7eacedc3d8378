import Mathlib.Algebra.Order.Group.Nat
import Mathlib.Tactic.Common

/-!
# Hemem.Lib.Granular — functions of an address that are constant on every page

Addresses fall into pages of `g` of them each, and a function of the address is
granular when it has one value on each page. It stays granular when a range of whole
pages is set to a value, and also when an arbitrary range is, provided that the pages
which the range splits have this value already.
-/

namespace Hemem.Lib

universe u

variable {g : Nat} {β : Type u} {f : Nat → β}

def Granular (g : Nat) (f : Nat → β) : Prop := ∀ a b, a / g = b / g → f a = f b

/-- A boundary between pages does not separate addresses of one page. -/
theorem le_iff_of_dvd {x a b : Nat} (hg : 0 < g) (hx : x % g = 0) (hab : a / g = b / g) :
    x ≤ a ↔ x ≤ b := by
  have hdvd : x / g * g = x := Nat.div_mul_cancel (Nat.dvd_of_mod_eq_zero hx)
  rw [← hdvd, ← Nat.le_div_iff_mul_le hg, ← Nat.le_div_iff_mul_le hg, hab]

/-- The address of a page at which an address of the page lies. -/
theorem sub_mod_div (x : Nat) : (x - x % g) / g = x / g := by
  rcases Nat.eq_zero_or_pos g with rfl | hg
  · simp
  · have hx : x - x % g = g * (x / g) := by
      have := Nat.mod_add_div x g
      omega
    rw [hx, Nat.mul_div_cancel_left _ hg]

/-- An address between two of one page is of this page. -/
theorem div_eq_of_between {a b x : Nat} (hab : a / g = b / g) (hax : a ≤ x) (hxb : x ≤ b) :
    x / g = a / g :=
  Nat.le_antisymm (hab ▸ Nat.div_le_div_right hxb) (Nat.div_le_div_right hax)

/-- A range that splits no page, other than pages which have the value already, is set
to a value. -/
theorem Granular.set (hf : Granular g f) (hg : 0 < g) {start stop : Nat} {c : β}
    (hstart : start % g ≠ 0 → f (start - start % g) = c)
    (hstop : stop % g ≠ 0 → f (stop - stop % g) = c) :
    Granular g fun a => if start ≤ a ∧ a < stop then c else f a := by
  -- it is enough to look at an address inside the range and one outside, of one page
  have hout : ∀ a b, a / g = b / g → start ≤ a ∧ a < stop → ¬ (start ≤ b ∧ b < stop) → f b = c := by
    intro a b hab ha hb
    by_cases hsb : start ≤ b
    · have hmod : stop % g ≠ 0 := by
        intro hmod
        have := le_iff_of_dvd hg hmod hab
        omega
      have hdiv : stop / g = a / g := div_eq_of_between hab (by omega) (by omega)
      rw [← hstop hmod]
      apply hf b _
      rw [sub_mod_div, hdiv, hab]
    · have hmod : start % g ≠ 0 := by
        intro hmod
        have := le_iff_of_dvd hg hmod hab
        omega
      have hdiv : start / g = b / g := div_eq_of_between hab.symm (by omega) (by omega)
      rw [← hstart hmod]
      apply hf b _
      rw [sub_mod_div, hdiv]
  intro a b hab
  simp only
  split <;> split
  · rfl
  · rename_i ha hb
    exact (hout a b hab ha hb).symm
  · rename_i ha hb
    exact hout b a hab.symm hb ha
  · exact hf a b hab

/-- A range of whole pages is set to a value. -/
theorem Granular.setPages (hf : Granular g f) (hg : 0 < g) {start stop : Nat} {c : β}
    (hstart : start % g = 0) (hstop : stop % g = 0) :
    Granular g fun a => if start ≤ a ∧ a < stop then c else f a :=
  hf.set hg (fun h => absurd hstart h) fun h => absurd hstop h

/-- The addresses of a page that starts at `x`. -/
theorem div_eq_of_page {x a : Nat} (hx : x % g = 0) (hxa : x ≤ a) (hax : a < x + g) :
    a / g = x / g := by
  have hg : 0 < g := by omega
  rw [Nat.div_eq_iff hg]
  have hdvd : x / g * g = x := Nat.div_mul_cancel (Nat.dvd_of_mod_eq_zero hx)
  omega

end Hemem.Lib
