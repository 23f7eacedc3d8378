import Mathlib.Data.List.Nodup
import Mathlib.Data.List.Perm.Subperm

/-!
# Hemem.Lib.Custody — items that are in one place at a time

`box i` lists the items that place `i` holds. `Exclusive box` says that no item
is held twice, by one place or by two. Handing items over from one place to
another, in any order, keeps this and loses no item; the places may be queues,
or the hands of the threads that move items between queues.
-/

namespace Hemem.Lib

universe u v

variable {ι : Type u} {α : Type v}

/-- Every item is held at most once over all places. -/
structure Exclusive (box : ι → List α) : Prop where
  nodup : ∀ i, (box i).Nodup
  unique : ∀ {i j : ι} {x : α}, x ∈ box i → x ∈ box j → i = j

/-- Some place holds the item. -/
def Held (box : ι → List α) (x : α) : Prop := ∃ i, x ∈ box i

/-- `box'` arises from `box` by a hand-over between the places `i` and `j`, which
together hold afterwards what they held before. -/
structure HandOver (box box' : ι → List α) (i j : ι) : Prop where
  ne : i ≠ j
  perm : (box' i ++ box' j).Perm (box i ++ box j)
  rest : ∀ k, k ≠ i → k ≠ j → box' k = box k

theorem HandOver.mem_or {box box' : ι → List α} {i j : ι} (h : HandOver box box' i j) {x : α} :
    (x ∈ box' i ∨ x ∈ box' j) ↔ (x ∈ box i ∨ x ∈ box j) := by
  simpa using h.perm.mem_iff (a := x)

theorem HandOver.held_iff {box box' : ι → List α} {i j : ι} (h : HandOver box box' i j)
    {x : α} : Held box' x ↔ Held box x := by
  constructor
  · rintro ⟨k, hk⟩
    by_cases hij : k = i ∨ k = j
    · have hx : x ∈ box' i ∨ x ∈ box' j := by
        rcases hij with rfl | rfl
        · exact Or.inl hk
        · exact Or.inr hk
      rcases h.mem_or.mp hx with hx | hx
      · exact ⟨i, hx⟩
      · exact ⟨j, hx⟩
    · rw [not_or] at hij
      exact ⟨k, h.rest k hij.1 hij.2 ▸ hk⟩
  · rintro ⟨k, hk⟩
    by_cases hij : k = i ∨ k = j
    · have hx : x ∈ box i ∨ x ∈ box j := by
        rcases hij with rfl | rfl
        · exact Or.inl hk
        · exact Or.inr hk
      rcases h.mem_or.mpr hx with hx | hx
      · exact ⟨i, hx⟩
      · exact ⟨j, hx⟩
    · rw [not_or] at hij
      exact ⟨k, (h.rest k hij.1 hij.2).symm ▸ hk⟩

/-- Nor is an item twice among those of two places together. -/
theorem Exclusive.nodup_append {box : ι → List α} (hx : Exclusive box) {i j : ι} (hne : i ≠ j) :
    (box i ++ box j).Nodup := by
  rw [List.nodup_append]
  refine ⟨hx.nodup i, hx.nodup j, fun a ha b hb hab => hne ?_⟩
  exact hx.unique ha (hab ▸ hb)

/-- Distinct items below `n` are no more than `n`. -/
theorem length_le_of_lt {ps : List Nat} {n : Nat} (hnd : ps.Nodup) (hlt : ∀ p ∈ ps, p < n) :
    ps.length ≤ n := by
  have hsub : ps ⊆ List.range n := fun p hp => List.mem_range.mpr (hlt p hp)
  simpa using (List.subperm_of_subset hnd hsub).length_le

/-- Two places together hold no more items than there are. -/
theorem Exclusive.length_append_le {box : ι → List Nat} (hx : Exclusive box) {i j : ι}
    (hne : i ≠ j) {n : Nat} (hlt : ∀ p, Held box p → p < n) :
    (box i ++ box j).length ≤ n := by
  refine length_le_of_lt (hx.nodup_append hne) fun p hp => hlt p ?_
  rcases List.mem_append.mp hp with hp | hp
  · exact ⟨i, hp⟩
  · exact ⟨j, hp⟩

/-- A hand-over keeps exclusive custody. -/
theorem Exclusive.handOver {box box' : ι → List α} {i j : ι} (hx : Exclusive box)
    (h : HandOver box box' i j) : Exclusive box' := by
  have hnd : (box i ++ box j).Nodup := hx.nodup_append h.ne
  have hnd' : (box' i ++ box' j).Nodup := h.perm.nodup_iff.mpr hnd
  rw [List.nodup_append] at hnd'
  rcases hnd' with ⟨hi, hj, hdisj⟩
  -- an item of the two places was in one of them before, so it is in no third place
  have hout : ∀ {k x}, k ≠ i → k ≠ j → x ∈ box' k → x ∉ box' i ∧ x ∉ box' j := by
    intro k x hki hkj hxk
    rw [h.rest k hki hkj] at hxk
    have : ¬ (x ∈ box' i ∨ x ∈ box' j) := by
      intro hor
      rcases h.mem_or.mp hor with hor | hor
      · exact hki (hx.unique hxk hor)
      · exact hkj (hx.unique hxk hor)
    exact not_or.mp this
  constructor
  · intro k
    by_cases hki : k = i
    · exact hki ▸ hi
    by_cases hkj : k = j
    · exact hkj ▸ hj
    rw [h.rest k hki hkj]
    exact hx.nodup k
  · intro k l x hk hl
    by_cases hki : k = i <;> by_cases hli : l = i
    · rw [hki, hli]
    · by_cases hlj : l = j
      · exact absurd rfl (hdisj x (hki ▸ hk) x (hlj ▸ hl))
      · exact absurd (hki ▸ hk) (hout hli hlj hl).1
    · by_cases hkj : k = j
      · exact absurd rfl (hdisj x (hli ▸ hl) x (hkj ▸ hk))
      · exact absurd (hli ▸ hl) (hout hki hkj hk).1
    · by_cases hkj : k = j <;> by_cases hlj : l = j
      · rw [hkj, hlj]
      · exact absurd (hkj ▸ hk) (hout hli hlj hl).2
      · exact absurd (hlj ▸ hl) (hout hki hkj hk).2
      · rw [h.rest k hki hkj] at hk
        rw [h.rest l hli hlj] at hl
        exact hx.unique hk hl

/-- Reordering one place keeps exclusive custody. -/
theorem Exclusive.reorder {box box' : ι → List α} {i : ι} (hx : Exclusive box)
    (hperm : (box' i).Perm (box i)) (hrest : ∀ k, k ≠ i → box' k = box k) : Exclusive box' := by
  have hmem : ∀ {k x}, x ∈ box' k → x ∈ box k := by
    intro k x hk
    by_cases hki : k = i
    · subst hki
      exact hperm.mem_iff.mp hk
    · exact hrest k hki ▸ hk
  constructor
  · intro k
    by_cases hki : k = i
    · subst hki
      exact hperm.nodup_iff.mpr (hx.nodup k)
    · rw [hrest k hki]
      exact hx.nodup k
  · intro k l x hk hl
    exact hx.unique (hmem hk) (hmem hl)

theorem held_reorder {box box' : ι → List α} {i : ι}
    (hperm : (box' i).Perm (box i)) (hrest : ∀ k, k ≠ i → box' k = box k) {x : α} :
    Held box' x ↔ Held box x := by
  have hmem : ∀ k, x ∈ box' k ↔ x ∈ box k := by
    intro k
    by_cases hki : k = i
    · subst hki
      exact hperm.mem_iff
    · rw [hrest k hki]
  exact exists_congr hmem

end Hemem.Lib
