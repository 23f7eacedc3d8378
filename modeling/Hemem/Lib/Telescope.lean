import Mathlib.Algebra.BigOperators.Group.List.Basic
import Mathlib.Order.Defs.PartialOrder
import Mathlib.Tactic.Abel

/-!
# Hemem.Lib.Telescope — differences of neighbours in a labelled sequence

The values of a sequence carry labels that never descend, so that the values of one label are a
stretch of it. A difference is taken of any two neighbours with the same label, and none across
the border of two stretches; within a stretch the differences add up to the last value minus
the first.
-/

namespace Hemem.Lib

variable {T V D : Type*} [DecidableEq T] {f : V → V → D}

/-- The differences of neighbours with the same label, under that label. -/
def diffsWithin (f : V → V → D) : List (T × V) → List (T × D)
  | a :: b :: xs => (if a.1 = b.1 then [(b.1, f a.2 b.2)] else []) ++ diffsWithin f (b :: xs)
  | _ => []

@[simp] theorem diffsWithin_nil : diffsWithin f ([] : List (T × V)) = [] := rfl

@[simp] theorem diffsWithin_singleton (a : T × V) : diffsWithin f [a] = [] := rfl

theorem diffsWithin_cons_cons (a b : T × V) (xs : List (T × V)) :
    diffsWithin f (a :: b :: xs) =
      (if a.1 = b.1 then [(b.1, f a.2 b.2)] else []) ++ diffsWithin f (b :: xs) := rfl

/-- What a new last value adds. -/
theorem diffsWithin_concat (xs : List (T × V)) (a b : T × V) :
    diffsWithin f (xs ++ [a] ++ [b]) = diffsWithin f (xs ++ [a]) ++
      if a.1 = b.1 then [(b.1, f a.2 b.2)] else [] := by
  induction xs with
  | nil => simp [diffsWithin]
  | cons x xs ih =>
    cases xs with
    | nil => simp [diffsWithin]
    | cons y ys =>
      simp only [List.cons_append] at ih ⊢
      rw [diffsWithin_cons_cons, diffsWithin_cons_cons, ih, List.append_assoc]

/-- A difference is that of two neighbours with its label. -/
theorem mem_diffsWithin {xs : List (T × V)} {d : T × D} (h : d ∈ diffsWithin f xs) :
    ∃ pre a b post, xs = pre ++ (d.1, a) :: (d.1, b) :: post ∧ d.2 = f a b := by
  induction xs with
  | nil => cases h
  | cons x xs ih =>
    cases xs with
    | nil => cases h
    | cons y ys =>
      rw [diffsWithin_cons_cons, List.mem_append] at h
      rcases h with h | h
      · split at h
        · rename_i heq
          obtain rfl := List.mem_singleton.mp h
          refine ⟨[], x.2, y.2, ys, ?_, rfl⟩
          rw [List.nil_append, ← heq]
          exact congrArg (x :: · :: ys) (Prod.ext heq.symm rfl)
        · cases h
      · rcases ih h with ⟨pre, a, b, post, heq, hd⟩
        exact ⟨x :: pre, a, b, post, by rw [heq, List.cons_append], hd⟩

theorem label_of_mem_diffsWithin {xs : List (T × V)} {d : T × D} (h : d ∈ diffsWithin f xs) :
    ∃ x ∈ xs, x.1 = d.1 := by
  rcases mem_diffsWithin h with ⟨pre, a, b, post, rfl, -⟩
  exact ⟨(d.1, a), by simp, rfl⟩

section Sum

variable {G : Type*} [AddCommGroup G] [PartialOrder T]

/-- What comes after a larger label has not the label `t`. -/
theorem filter_eq_nil_of_lt {t : T} {y : T × V} {xs : List (T × V)}
    (hsorted : ((y :: xs).map Prod.fst).Pairwise (· ≤ ·)) (hy : t < y.1) :
    (y :: xs).filter (fun x => x.1 = t) = [] ∧
      (diffsWithin f (y :: xs)).filter (fun d => d.1 = t) = [] := by
  have hlt : ∀ x ∈ y :: xs, t < x.1 := by
    rw [List.map_cons, List.pairwise_cons] at hsorted
    intro x hx
    rcases List.mem_cons.mp hx with rfl | hx
    · exact hy
    · exact lt_of_lt_of_le hy (hsorted.1 x.1 (List.mem_map_of_mem hx))
  constructor
  · refine List.filter_eq_nil_iff.mpr fun x hx heq => ?_
    exact (hlt x hx).ne' (of_decide_eq_true heq)
  · refine List.filter_eq_nil_iff.mpr fun d hd heq => ?_
    rcases label_of_mem_diffsWithin hd with ⟨x, hx, hxd⟩
    exact (hlt x hx).ne' (hxd.trans (of_decide_eq_true heq))

/-- The differences within the stretch of a label add up to the last value minus the first. -/
theorem sum_diffsWithin (g : V → G) (h : D → G) (hf : ∀ a b, h (f a b) = g b - g a) {t : T}
    {xs : List (T × V)} (hsorted : (xs.map Prod.fst).Pairwise (· ≤ ·)) {a b : T × V}
    (ha : (xs.filter fun x => x.1 = t).head? = some a)
    (hb : (xs.filter fun x => x.1 = t).getLast? = some b) :
    (((diffsWithin f xs).filter fun d => d.1 = t).map fun d => h d.2).sum = g b.2 - g a.2 := by
  induction xs generalizing a with
  | nil => cases ha
  | cons x xs ih =>
    cases xs with
    | nil =>
      by_cases hx : x.1 = t
      · simp [hx] at ha hb
        simp [← ha, ← hb]
      · simp [hx] at ha
    | cons y ys =>
      have hrest : ((y :: ys).map Prod.fst).Pairwise (· ≤ ·) := (List.pairwise_cons.mp hsorted).2
      have hxy : x.1 ≤ y.1 := (List.pairwise_cons.mp hsorted).1 y.1 (by simp)
      rw [diffsWithin_cons_cons]
      by_cases hx : x.1 = t
      · rw [List.filter_cons_of_pos (by simpa using hx)] at ha hb
        obtain rfl := Option.some.inj ha
        by_cases hy : y.1 = t
        · -- the stretch goes on with `y`
          rw [List.filter_cons_of_pos (by simpa using hy)] at hb ih
          rw [List.getLast?_cons_cons] at hb
          rw [if_pos (hx.trans hy.symm), List.filter_append, List.map_append, List.sum_append,
            ih hrest rfl hb]
          simp [hy, hf]
        · -- the stretch ends with `x`
          have hlt : t < y.1 := lt_of_le_of_ne (hx ▸ hxy) (Ne.symm hy)
          rcases filter_eq_nil_of_lt (f := f) hrest hlt with ⟨hnil, hnone⟩
          rw [hnil] at hb
          obtain rfl := Option.some.inj hb
          rw [if_neg (fun heq => hy (heq.symm.trans hx)), List.nil_append, hnone]
          simp
      · -- the difference with `y`, if there is one, has the label of `x`
        rw [List.filter_cons_of_neg (by simpa using hx)] at ha hb
        have hhead : (if x.1 = y.1 then [(y.1, f x.2 y.2)] else []).filter
            (fun d => d.1 = t) = [] := by
          split
          · rename_i heq
            simpa using fun hy => hx (heq.trans hy)
          · rfl
        rw [List.filter_append, hhead, List.nil_append]
        exact ih hrest ha hb

end Sum

end Hemem.Lib
