import Mathlib.Data.List.Perm.Basic

/-!
# Hemem.Lib.Transfer — copies within one memory

A transfer writes some locations of a memory with values that it computes from the memory.
Transfers that write different locations, and none of what another one reads, can run in any
order: each location ends with the value that the one transfer writing it computes from the
memory they all started with.
-/

namespace Hemem.Lib

variable {Loc Val : Type*}

/-- The locations that are written, and what is written to them. -/
structure Transfer (Loc Val : Type*) where
  target : Loc → Bool
  value : (Loc → Val) → Loc → Val

namespace Transfer

def run (x : Transfer Loc Val) (mem : Loc → Val) : Loc → Val :=
  fun a => if x.target a then x.value mem a else mem a

def runAll (xs : List (Transfer Loc Val)) (mem : Loc → Val) : Loc → Val :=
  xs.foldl (fun mem x => x.run mem) mem

/-- No location is written by both, and neither changes what the other writes. -/
structure Independent (x y : Transfer Loc Val) : Prop where
  apart : ∀ {a}, x.target a → y.target a → False
  left : ∀ mem {a}, x.target a → x.value (y.run mem) a = x.value mem a
  right : ∀ mem {a}, y.target a → y.value (x.run mem) a = y.value mem a

variable {x y : Transfer Loc Val} {xs ys : List (Transfer Loc Val)} {mem : Loc → Val} {a : Loc}

theorem run_target (h : x.target a) : x.run mem a = x.value mem a := if_pos h

theorem run_other (h : ¬ x.target a) : x.run mem a = mem a := if_neg h

theorem Independent.comm (h : Independent x y) (mem : Loc → Val) :
    y.run (x.run mem) = x.run (y.run mem) := by
  funext a
  by_cases hx : x.target a
  · have hy : ¬ y.target a := h.apart hx
    rw [run_other hy, run_target hx, run_target hx, h.left mem hx]
  · by_cases hy : y.target a
    · rw [run_target hy, run_other hx, run_target hy, h.right mem hy]
    · rw [run_other hy, run_other hx, run_other hx, run_other hy]

/-- What no transfer writes stays. -/
theorem runAll_other (h : ∀ x ∈ xs, ¬ x.target a) : runAll xs mem a = mem a := by
  induction xs generalizing mem with
  | nil => rfl
  | cons x xs ih =>
    have hx : ¬ x.target a := h x List.mem_cons_self
    have hrest : ∀ y ∈ xs, ¬ y.target a := fun y hy => h y (List.mem_cons_of_mem _ hy)
    exact (ih hrest).trans (run_other hx)

/-- What a transfer writes is computed from the memory that all of them start with. -/
theorem runAll_target (h : xs.Pairwise Independent) (hx : x ∈ xs) (ha : x.target a) :
    runAll xs mem a = x.value mem a := by
  induction xs generalizing mem with
  | nil => cases hx
  | cons y xs ih =>
    rw [List.pairwise_cons] at h
    rcases h with ⟨hy, hxs⟩
    rcases List.mem_cons.mp hx with rfl | hx
    · -- the later ones write elsewhere
      have hlater : ∀ z ∈ xs, ¬ z.target a := fun z hz => (hy z hz).apart ha
      exact (runAll_other hlater).trans (run_target ha)
    · exact (ih hxs hx).trans ((hy x hx).right mem ha)

/-- The order in which independent transfers run does not matter. -/
theorem runAll_perm (hperm : xs.Perm ys) (h : xs.Pairwise Independent) :
    runAll xs mem = runAll ys mem := by
  have hcomm : xs.Pairwise fun x y => ∀ mem : Loc → Val, y.run (x.run mem) = x.run (y.run mem) :=
    h.imp fun hxy => hxy.comm
  have hflip := hcomm.imp fun hxy mem => (hxy mem).symm
  have hall := hcomm.forall_of_forall_of_flip (fun _ _ _ => rfl) hflip
  refine hperm.foldl_eq' ?_ mem
  intro x hx y hy mem
  exact hall hx hy mem

end Transfer

end Hemem.Lib
