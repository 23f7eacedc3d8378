import Mathlib.Data.List.Induction

/-!
# Hemem.Lib.Linked — doubly linked chains

Nodes of any type with two links, `next` and `prev`. `Chain link o xs` says that `link`
leads from `o` through `xs` to `NULL`. `Segment next prev b xs a` says that `xs` are linked
in both directions, with `b` before the first node and `a` after the last: segments can be
cut and joined at any node, and only the nodes at the joint have their links changed.
-/

universe u

namespace Hemem.Lib

variable {α : Type u} {next prev next' prev' : α → Option α} {a b c : Option α} {x : α}
  {xs ys : List α}

def Chain (link : α → Option α) : Option α → List α → Prop
  | o, [] => o = none
  | o, x :: xs => o = some x ∧ Chain link (link x) xs

def Segment (next prev : α → Option α) : Option α → List α → Option α → Prop
  | _, [], _ => True
  | b, x :: xs, a => next x = b ∧ prev x = xs.head?.or a ∧ Segment next prev (some x) xs a

theorem segment_append : Segment next prev b (xs ++ ys) a ↔
    Segment next prev b xs (ys.head?.or a) ∧ Segment next prev (xs.getLast?.or b) ys a := by
  induction xs generalizing b with
  | nil => simp [Segment]
  | cons x xs ih =>
    have hlast : (x :: xs).getLast?.or b = xs.getLast?.or (some x) := by
      cases xs <;> simp [List.getLast?_cons]
    rw [List.cons_append, Segment, Segment, ih, hlast, List.head?_append, Option.or_assoc,
      and_assoc, and_assoc]

theorem segment_singleton : Segment next prev b [x] a ↔ next x = b ∧ prev x = a := by
  simp [Segment]

/-- The links of a node within a segment. -/
theorem Segment.links (h : Segment next prev b (xs ++ x :: ys) a) :
    next x = xs.getLast?.or b ∧ prev x = ys.head?.or a := by
  rcases segment_append.mp h with ⟨-, hx, hy, -⟩
  exact ⟨hx, hy⟩

/-- Only the links of its nodes make a segment. -/
theorem Segment.congr (h : Segment next prev b xs a)
    (hxs : ∀ x ∈ xs, next' x = next x ∧ prev' x = prev x) : Segment next' prev' b xs a := by
  induction xs generalizing b with
  | nil => trivial
  | cons x xs ih =>
    have hx := hxs x List.mem_cons_self
    exact ⟨hx.1.trans h.1, hx.2.trans h.2.1,
      ih h.2.2 fun y hy => hxs y (List.mem_cons_of_mem x hy)⟩

/-- What comes after a segment is changed in its last node. -/
theorem Segment.relinkLast [DecidableEq α] (h : Segment next prev b xs a) (hnd : xs.Nodup)
    (hnext : ∀ x ∈ xs, next' x = next x)
    (hprev : ∀ x ∈ xs, prev' x = if xs.getLast? = some x then c else prev x) :
    Segment next' prev' b xs c := by
  rcases List.eq_nil_or_concat xs with rfl | ⟨ys, y, rfl⟩
  · trivial
  · rw [List.concat_eq_append] at *
    rcases segment_append.mp h with ⟨hys, hy⟩
    rw [segment_singleton] at hy
    refine segment_append.mpr ⟨hys.congr fun x hx => ⟨hnext x (by simp [hx]), ?_⟩, ?_⟩
    · have hxy : y ≠ x := by
        rintro rfl
        exact (List.nodup_append.mp hnd).2.2 y hx y List.mem_cons_self rfl
      rw [hprev x (by simp [hx]), List.getLast?_append]
      simp [hxy]
    · rw [segment_singleton, hnext y (by simp), hprev y (by simp)]
      exact ⟨hy.1, by simp⟩

/-- What comes before a segment is changed in its first node. -/
theorem Segment.relinkHead [DecidableEq α] (h : Segment next prev b xs a) (hnd : xs.Nodup)
    (hnext : ∀ x ∈ xs, next' x = if xs.head? = some x then c else next x)
    (hprev : ∀ x ∈ xs, prev' x = prev x) : Segment next' prev' c xs a := by
  cases xs with
  | nil => trivial
  | cons x xs =>
    refine ⟨by simpa using hnext x (by simp), ?_, h.2.2.congr fun y hy => ?_⟩
    · rw [hprev x (by simp)]
      exact h.2.1
    · have hxy : x ≠ y := fun he => (List.nodup_cons.mp hnd).1 (he ▸ hy)
      have hy' := List.mem_cons_of_mem x hy
      exact ⟨by simpa [hxy] using hnext y hy', hprev y hy'⟩

/-- A node put in front. -/
theorem Segment.push [DecidableEq α] (h : Segment next prev none xs a) (hnd : xs.Nodup)
    (hx : next' x = none ∧ prev' x = xs.head?.or a)
    (hnext : ∀ y ∈ xs, next' y = if xs.head? = some y then some x else next y)
    (hprev : ∀ y ∈ xs, prev' y = prev y) : Segment next' prev' none (x :: xs) a :=
  ⟨hx.1, hx.2, h.relinkHead hnd hnext hprev⟩

/-- A node put at the end. -/
theorem Segment.concat [DecidableEq α] (h : Segment next prev none xs none) (hnd : xs.Nodup)
    (hx : next' x = xs.getLast? ∧ prev' x = none)
    (hnext : ∀ y ∈ xs, next' y = next y)
    (hprev : ∀ y ∈ xs, prev' y = if xs.getLast? = some y then some x else prev y) :
    Segment next' prev' none (xs ++ [x]) none := by
  rw [segment_append, segment_singleton]
  refine ⟨h.relinkLast hnd hnext hprev, ?_⟩
  rw [Option.or_none]
  exact hx

/-- A node is taken out: its neighbours are linked to each other. -/
theorem Segment.remove [DecidableEq α] (h : Segment next prev none (xs ++ x :: ys) none)
    (hnd : (xs ++ x :: ys).Nodup)
    (hnext : ∀ y ∈ xs ++ ys, next' y = if ys.head? = some y then next x else next y)
    (hprev : ∀ y ∈ xs ++ ys, prev' y = if xs.getLast? = some y then prev x else prev y) :
    Segment next' prev' none (xs ++ ys) none := by
  have hlinks := h.links
  rw [Option.or_none, Option.or_none] at hlinks
  rw [List.nodup_append, List.nodup_cons] at hnd
  rcases hnd with ⟨hxs, ⟨-, hys⟩, hdisj⟩
  rw [segment_append] at h ⊢
  constructor
  · refine h.1.relinkLast hxs (fun y hy => ?_) fun y hy => ?_
    · have hhead : ys.head? ≠ some y := fun hhead =>
        hdisj y hy y (List.mem_cons_of_mem x (List.mem_of_mem_head? hhead)) rfl
      rw [hnext y (List.mem_append_left _ hy), if_neg hhead]
    · rw [hprev y (List.mem_append_left _ hy), hlinks.2, Option.or_none]
  · refine h.2.2.2.relinkHead hys (fun y hy => ?_) fun y hy => ?_
    · rw [hnext y (List.mem_append_right _ hy), hlinks.1, Option.or_none]
    · have hlast : xs.getLast? ≠ some y := fun hlast =>
        hdisj y (List.mem_of_getLast? hlast) y (List.mem_cons_of_mem x hy) rfl
      rw [hprev y (List.mem_append_right _ hy), if_neg hlast]

/-- Only the links of its nodes make a chain. -/
theorem Chain.congr {link link' : α → Option α} {o : Option α} (h : Chain link o xs)
    (hxs : ∀ x ∈ xs, link' x = link x) : Chain link' o xs := by
  induction xs generalizing o with
  | nil => exact h
  | cons x xs ih =>
    rw [Chain, hxs x List.mem_cons_self]
    exact ⟨h.1, ih h.2 fun y hy => hxs y (List.mem_cons_of_mem x hy)⟩

theorem Segment.chain_prev (h : Segment next prev b xs none) : Chain prev xs.head? xs := by
  induction xs generalizing b with
  | nil => rfl
  | cons x xs ih =>
    have hx : prev x = xs.head? := by simpa using h.2.1
    exact ⟨rfl, hx.symm ▸ ih h.2.2⟩

theorem Segment.chain_next (h : Segment next prev none xs a) :
    Chain next xs.getLast? xs.reverse := by
  induction xs using List.reverseRecOn generalizing a with
  | nil => rfl
  | append_singleton xs x ih =>
    rcases segment_append.mp h with ⟨hxs, hx⟩
    have hlink : next x = xs.getLast? := by simpa [Segment] using hx.1
    rw [List.getLast?_append, List.reverse_append]
    exact ⟨rfl, hlink.symm ▸ ih hxs⟩

/-- Within a segment the links are inverse to each other. -/
theorem Segment.prev_iff (h : Segment next prev none xs none) {x y : α} :
    (x ∈ xs ∧ prev x = some y) ↔ (y ∈ xs ∧ next y = some x) := by
  constructor
  · rintro ⟨hx, hxy⟩
    rcases List.append_of_mem hx with ⟨as, bs, rfl⟩
    have hb := h.links.2
    rw [hxy] at hb
    cases bs with
    | nil => simp at hb
    | cons z bs =>
      obtain rfl : y = z := by simpa using hb
      rw [← List.singleton_append, ← List.append_assoc] at h
      exact ⟨by simp, by simpa using h.links.1⟩
  · rintro ⟨hy, hyx⟩
    rcases List.append_of_mem hy with ⟨as, bs, rfl⟩
    have ha := h.links.1
    rw [hyx] at ha
    rcases List.eq_nil_or_concat as with rfl | ⟨cs, z, rfl⟩
    · simp at ha
    · obtain rfl : x = z := by simpa using ha
      rw [List.concat_eq_append, List.append_assoc, List.singleton_append] at h
      exact ⟨by simp, by simpa using h.links.2⟩

end Hemem.Lib
