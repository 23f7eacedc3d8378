import Mathlib.Data.List.Nodup
import Mathlib.Logic.Function.Basic
import Hemem.Lib.Linked

/-!
# Hemem.Lib.Buckets — items sorted into chains

Items of any type, each of which belongs to the chain with its index, and two links by which
every chain is a segment. An item is put in front of its chain or taken out of it, wherever
it is. The items can be sorted anew under another index: the chains of an index partition
them.
-/

universe u

namespace Hemem.Lib

variable {α : Type u}

/-- Every item that is held is on the chain of its index, once, and the chains are linked. -/
structure Buckets (back forth : α → Option α) (index : α → Nat) (held : α → Prop)
    (chain : Nat → List α) : Prop where
  nodup : ∀ i, (chain i).Nodup
  mem : ∀ {i x}, x ∈ chain i ↔ held x ∧ index x = i
  links : ∀ i, Segment back forth none (chain i) none

variable {back forth back' forth' : α → Option α} {index : α → Nat} {held : α → Prop}
  {chain : Nat → List α} {x : α}

theorem Buckets.congr {held' : α → Prop} (h : Buckets back forth index held chain)
    {index' : α → Nat} (hheld : ∀ y, held' y ↔ held y)
    (hsame : ∀ y, held y → back' y = back y ∧ forth' y = forth y ∧ index' y = index y) :
    Buckets back' forth' index' held' chain := by
  refine ⟨h.nodup, fun {i y} => ?_, fun i => ?_⟩
  · rw [h.mem, hheld]
    exact and_congr_right fun hy => by rw [(hsame y hy).2.2]
  · refine (h.links i).congr fun y hy => ?_
    have hy' := (h.mem.mp hy).1
    exact ⟨(hsame y hy').1, (hsame y hy').2.1⟩

theorem Buckets.unique (h : Buckets back forth index held chain) {i j : Nat} (hi : x ∈ chain i)
    (hj : x ∈ chain j) : i = j :=
  (h.mem.mp hi).2.symm.trans (h.mem.mp hj).2

/-- Nothing is held. -/
theorem Buckets.empty (hheld : ∀ y, ¬ held y) : Buckets back forth index held fun _ => [] :=
  ⟨fun _ => List.nodup_nil, by simp [hheld], fun _ => trivial⟩

/-- The chains of all indices below `n` hold each item once. -/
theorem Buckets.perm {items : List α} (h : Buckets back forth index (· ∈ items) chain)
    (hnd : items.Nodup) {n : Nat} (hindex : ∀ x ∈ items, index x < n) :
    ((List.range n).flatMap chain).Perm items := by
  refine (List.perm_ext_iff_of_nodup ?_ hnd).mpr fun x => ?_
  · rw [List.nodup_flatMap]
    refine ⟨fun i _ => h.nodup i, List.nodup_range.imp fun {i j} hij => ?_⟩
    exact fun y hi hj => hij (h.unique hi hj)
  · rw [List.mem_flatMap]
    constructor
    · rintro ⟨i, -, hi⟩
      exact (h.mem.mp hi).1
    · exact fun hx => ⟨index x, List.mem_range.mpr (hindex x hx), h.mem.mpr ⟨hx, rfl⟩⟩

variable [DecidableEq α]

/-- A new item is put in front of its chain. -/
theorem Buckets.push (h : Buckets back forth index held chain) (hx : ¬ held x) {j : Nat}
    (hj : index x = j) (hself : back' x = none ∧ forth' x = (chain j).head?)
    (hback : ∀ y, y ≠ x → back' y = if (chain j).head? = some y then some x else back y)
    (hforth : ∀ y, y ≠ x → forth' y = forth y) :
    Buckets back' forth' index (fun y => held y ∨ y = x)
      (Function.update chain j (x :: chain j)) := by
  have hne : ∀ {i y}, y ∈ chain i → y ≠ x := fun hy he => hx (he ▸ (h.mem.mp hy).1)
  refine ⟨fun i => ?nodup, fun {i y} => ?mem, fun i => ?links⟩
  case nodup =>
    by_cases hi : i = j
    · rw [hi, Function.update_self]
      exact List.nodup_cons.mpr ⟨fun hxj => hx (h.mem.mp hxj).1, h.nodup j⟩
    · rw [Function.update_of_ne hi]
      exact h.nodup i
  case mem =>
    by_cases hi : i = j
    · rw [hi, Function.update_self, List.mem_cons, h.mem]
      constructor
      · rintro (rfl | hy)
        · exact ⟨Or.inr rfl, hj⟩
        · exact ⟨Or.inl hy.1, hy.2⟩
      · rintro ⟨hy | hy, hyj⟩
        · exact Or.inr ⟨hy, hyj⟩
        · exact Or.inl hy
    · rw [Function.update_of_ne hi, h.mem]
      constructor
      · exact fun hy => ⟨Or.inl hy.1, hy.2⟩
      · rintro ⟨hy | rfl, hyi⟩
        · exact ⟨hy, hyi⟩
        · exact absurd (hyi.symm.trans hj) hi
  case links =>
    by_cases hi : i = j
    · rw [hi, Function.update_self]
      refine (h.links j).push (h.nodup j) ⟨hself.1, by rw [Option.or_none]; exact hself.2⟩
        (fun y hy => hback y (hne hy)) fun y hy => hforth y (hne hy)
    · rw [Function.update_of_ne hi]
      refine (h.links i).congr fun y hy => ⟨?_, hforth y (hne hy)⟩
      -- the head of the chain `j` is on no other chain
      rw [hback y (hne hy), if_neg]
      exact fun hhead => hi (h.unique hy (List.mem_of_mem_head? hhead))

/-- An item is taken out of its chain. -/
theorem Buckets.remove (h : Buckets back forth index held chain) (hx : held x) {j : Nat}
    (hj : index x = j)
    (hback : ∀ y, y ≠ x → back' y = if forth x = some y then back x else back y)
    (hforth : ∀ y, y ≠ x → forth' y = if back x = some y then forth x else forth y) :
    Buckets back' forth' index (fun y => held y ∧ y ≠ x)
      (Function.update chain j ((chain j).erase x)) := by
  have hxj : x ∈ chain j := h.mem.mpr ⟨hx, hj⟩
  rcases List.append_of_mem hxj with ⟨xs, ys, hl⟩
  have hlinks := h.links j
  rw [hl] at hlinks
  have hat := hlinks.links
  rw [Option.or_none, Option.or_none] at hat
  have hnd := h.nodup j
  rw [hl] at hnd
  have herase : (chain j).erase x = xs ++ ys := by
    have hxs : x ∉ xs := fun hm => (List.nodup_append.mp hnd).2.2 x hm x List.mem_cons_self rfl
    rw [hl, List.erase_append_right _ hxs, List.erase_cons_head]
  have hmem : ∀ {i y}, y ∈ Function.update chain j ((chain j).erase x) i ↔
      y ∈ chain i ∧ y ≠ x := by
    intro i y
    by_cases hi : i = j
    · rw [hi, Function.update_self, (h.nodup j).mem_erase_iff, and_comm]
    · rw [Function.update_of_ne hi]
      exact ⟨fun hy => ⟨hy, fun he => hi (h.unique (he ▸ hy) hxj)⟩, And.left⟩
  refine ⟨fun i => ?nodup, fun {i y} => ?mem, fun i => ?links⟩
  case nodup =>
    by_cases hi : i = j
    · rw [hi, Function.update_self]
      exact (h.nodup j).erase x
    · rw [Function.update_of_ne hi]
      exact h.nodup i
  case mem =>
    rw [hmem, h.mem]
    exact and_right_comm
  case links =>
    by_cases hi : i = j
    · rw [hi, Function.update_self, herase]
      have hne : ∀ {y}, y ∈ xs ++ ys → y ≠ x := by
        intro y hy he
        rw [← herase, (h.nodup j).mem_erase_iff] at hy
        exact hy.1 he
      refine hlinks.remove hnd (fun y hy => ?_) fun y hy => ?_
      · rw [hback y (hne hy), hat.2]
      · rw [hforth y (hne hy), hat.1]
    · rw [Function.update_of_ne hi]
      refine (h.links i).congr fun y hy => ?_
      have hyj : y ∉ chain j := fun hm => hi (h.unique hy hm)
      rw [hl, List.mem_append, List.mem_cons, not_or, not_or] at hyj
      have hhead : ys.head? ≠ some y := fun hhead => hyj.2.2 (List.mem_of_mem_head? hhead)
      have hlast : xs.getLast? ≠ some y := fun hlast => hyj.1 (List.mem_of_getLast? hlast)
      rw [hback y hyj.2.1, hforth y hyj.2.1, hat.1, hat.2, if_neg hhead, if_neg hlast]
      exact ⟨rfl, rfl⟩

end Hemem.Lib
