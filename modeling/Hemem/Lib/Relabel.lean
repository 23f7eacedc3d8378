import Mathlib.Data.Set.Card

/-!
# Hemem.Lib.Relabel — changing a one-to-one labelling on part of its domain

A labelling `f` is one-to-one from `D` onto `S`, and `g` differs from it on `A`
only. Then `g` is one-to-one from `D` onto `S` again precisely when it permutes
the labels of `A`, and for a finite `A` it is enough that none of these labels
is given up.
-/

namespace Hemem.Lib

universe u v

variable {α : Type u} {β : Type v} {f g : α → β} {D A : Set α} {S : Set β}

theorem bijOn_iff_bijOn_image (hf : Set.BijOn f D S) (hA : A ⊆ D)
    (hfg : ∀ x ∈ D, x ∉ A → g x = f x) : Set.BijOn g D S ↔ Set.BijOn g A (f '' A) := by
  constructor
  · intro hg
    refine ⟨fun a ha => ?_, hg.injOn.mono hA, ?_⟩
    · -- the new label of `a` was the label of some `x`, which is no other than one of `A`
      rcases hf.surjOn (hg.mapsTo (hA ha)) with ⟨x, hx, hxa⟩
      by_cases hxA : x ∈ A
      · exact ⟨x, hxA, hxa⟩
      · have hxa' : x = a := hg.injOn hx (hA ha) ((hfg x hx hxA).trans hxa)
        exact absurd (hxa' ▸ ha) hxA
    · rintro _ ⟨a, ha, rfl⟩
      rcases hg.surjOn (hf.mapsTo (hA ha)) with ⟨x, hx, hxa⟩
      by_cases hxA : x ∈ A
      · exact ⟨x, hxA, hxa⟩
      · have hxa' : x = a := hf.injOn hx (hA ha) ((hfg x hx hxA).symm.trans hxa)
        exact absurd (hxa' ▸ ha) hxA
  · intro hg
    -- a label of `A` is not the label of an item outside `A`
    have hsep : ∀ a ∈ A, ∀ x ∈ D, x ∉ A → g a ≠ g x := by
      intro a ha x hx hxA hax
      rcases hg.mapsTo ha with ⟨b, hb, hba⟩
      have hbx : b = x := hf.injOn (hA hb) hx (hba.trans (hax.trans (hfg x hx hxA)))
      exact hxA (hbx ▸ hb)
    refine ⟨fun x hx => ?_, fun x hx y hy hxy => ?_, fun y hy => ?_⟩
    · by_cases hxA : x ∈ A
      · rcases hg.mapsTo hxA with ⟨b, hb, hbx⟩
        exact hbx ▸ hf.mapsTo (hA hb)
      · exact (hfg x hx hxA).symm ▸ hf.mapsTo hx
    · by_cases hxA : x ∈ A <;> by_cases hyA : y ∈ A
      · exact hg.injOn hxA hyA hxy
      · exact absurd hxy (hsep x hxA y hy hyA)
      · exact absurd hxy.symm (hsep y hyA x hx hxA)
      · exact hf.injOn hx hy ((hfg x hx hxA).symm.trans (hxy.trans (hfg y hy hyA)))
    · rcases hf.surjOn hy with ⟨x, hx, rfl⟩
      by_cases hxA : x ∈ A
      · rcases hg.surjOn (Set.mem_image_of_mem f hxA) with ⟨b, hb, hbx⟩
        exact ⟨b, hA hb, hbx⟩
      · exact ⟨x, hx, hfg x hx hxA⟩

/-- On finitely many items it is enough that every old label is used again. -/
theorem bijOn_image_iff (hf : Set.InjOn f A) (hA : A.Finite) :
    Set.BijOn g A (f '' A) ↔ Set.SurjOn g A (f '' A) := by
  refine ⟨fun hg => hg.surjOn, fun hg => ?_⟩
  have hcard : (f '' A).ncard = A.ncard := hf.ncard_image
  have hle : (g '' A).ncard ≤ (f '' A).ncard := hcard ▸ Set.ncard_image_le hA
  have himage : f '' A = g '' A := Set.eq_of_subset_of_ncard_le hg hle (hA.image g)
  have hinj : Set.InjOn g A :=
    (Set.ncard_image_iff hA).mp (by rw [← himage, hcard])
  exact himage ▸ hinj.bijOn_image

theorem bijOn_iff_surjOn (hf : Set.BijOn f D S) (hA : A ⊆ D) (hfin : A.Finite)
    (hfg : ∀ x ∈ D, x ∉ A → g x = f x) : Set.BijOn g D S ↔ Set.SurjOn g A (f '' A) := by
  rw [bijOn_iff_bijOn_image hf hA hfg, bijOn_image_iff (hf.injOn.mono hA) hfin]

end Hemem.Lib
