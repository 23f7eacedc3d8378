import Mathlib.Data.Fintype.Card
import Mathlib.Data.Finset.Card

/-!
# Hemem.Lib.Barrier — a barrier used again and again

A barrier counts the parties that arrive. When as many have arrived as its count says, it
releases them and begins a new generation; a party that waits in a generation goes on once
that generation has passed. `Counts` says which parties wait and in which generation: with as
many parties as the count, a release finds all of them at the barrier, and a party that is
slow to go on does not hold up or fall behind by more than one generation.
-/

namespace Hemem.Lib

universe u

structure Barrier where
  arrived : Nat
  generation : Nat
deriving DecidableEq, Repr

/-- A barrier at which nobody has arrived. -/
def Barrier.init : Barrier := ⟨0, 0⟩

/-- One more party arrives at a barrier of this count. -/
def Barrier.arrive (count : Nat) (b : Barrier) : Barrier :=
  if b.arrived + 1 = count then ⟨0, b.generation + 1⟩ else ⟨b.arrived + 1, b.generation⟩

variable {P : Type u} [Fintype P] [DecidableEq P]

/-- `wait p` is the generation in which the party `p` has arrived, if it has not gone on. -/
structure Barrier.Counts (b : Barrier) (wait : P → Option Nat) : Prop where
  arrived : b.arrived = (Finset.univ.filter fun p => wait p = some b.generation).card
  room : b.arrived < Fintype.card P
  past : ∀ p g, wait p = some g → g ≤ b.generation

variable {b : Barrier} {wait : P → Option Nat} {p : P}

omit [DecidableEq P] in
theorem Barrier.counts_init [Nonempty P] : Barrier.init.Counts (fun _ : P => none) where
  arrived := by simp [Barrier.init]
  room := Fintype.card_pos
  past := by simp

/-- The parties at the barrier after the arrival of `p`. -/
theorem filter_arrive (hp : wait p = none) :
    (Finset.univ.filter fun q => Function.update wait p (some b.generation) q =
      some b.generation) = insert p (Finset.univ.filter fun q => wait q = some b.generation) := by
  ext q
  rcases eq_or_ne q p with rfl | hne
  · simp
  · simp [hne]

theorem card_arrive (hb : b.Counts wait) (hp : wait p = none) :
    (Finset.univ.filter fun q => Function.update wait p (some b.generation) q =
      some b.generation).card = b.arrived + 1 := by
  rw [filter_arrive hp, Finset.card_insert_of_notMem (by simp [hp]), hb.arrived]

/-- The last arrival finds all other parties at the barrier. -/
theorem Barrier.Counts.all_arrived (hb : b.Counts wait) (hp : wait p = none)
    (hlast : b.arrived + 1 = Fintype.card P) {q : P} (hq : q ≠ p) :
    wait q = some b.generation := by
  have hall := Finset.eq_univ_of_card _ ((card_arrive hb hp).trans hlast)
  have hmem : q ∈ Finset.univ.filter fun q =>
      Function.update wait p (some b.generation) q = some b.generation := by
    rw [hall]
    exact Finset.mem_univ q
  simpa [hq] using hmem

/-- An arrival releases nobody, or everybody. -/
theorem Barrier.Counts.arrive_generation (hb : b.Counts wait) (hp : wait p = none) :
    (b.arrive (Fintype.card P)).generation = b.generation ∨
      (b.arrive (Fintype.card P)).generation = b.generation + 1 ∧
        ∀ q, q ≠ p → wait q = some b.generation := by
  unfold Barrier.arrive
  split
  · rename_i hlast
    exact Or.inr ⟨rfl, fun q hq => hb.all_arrived hp hlast hq⟩
  · exact Or.inl rfl

theorem Barrier.Counts.arrive (hb : b.Counts wait) (hp : wait p = none) :
    (b.arrive (Fintype.card P)).Counts (Function.update wait p (some b.generation)) := by
  have hpast : ∀ q g, Function.update wait p (some b.generation) q = some g →
      g ≤ b.generation := by
    intro q g hq
    rcases eq_or_ne q p with rfl | hne
    · rw [Function.update_self, Option.some.injEq] at hq
      exact hq.ge
    · rw [Function.update_of_ne hne] at hq
      exact hb.past q g hq
  unfold Barrier.arrive
  split
  · -- nobody has arrived in the new generation
    refine ⟨?_, Fintype.card_pos_iff.mpr ⟨p⟩, fun q g hq => (hpast q g hq).trans (Nat.le_succ _)⟩
    symm
    rw [Finset.card_eq_zero, Finset.filter_eq_empty_iff]
    intro q _ hq
    exact Nat.not_succ_le_self _ (hpast q _ hq)
  · rename_i hlast
    refine ⟨(card_arrive hb hp).symm, ?_, hpast⟩
    have hroom := hb.room
    simp only
    omega

/-- A party whose generation has passed goes on. -/
theorem Barrier.Counts.leave (hb : b.Counts wait) {g : Nat} (hp : wait p = some g)
    (hg : g < b.generation) : b.Counts (Function.update wait p none) where
  arrived := by
    rw [hb.arrived]
    congr 1
    ext q
    rcases eq_or_ne q p with rfl | hne
    · have hne : g ≠ b.generation := hg.ne
      simp [hp, hne]
    · simp [hne]
  room := hb.room
  past := by
    intro q g' hq
    rcases eq_or_ne q p with rfl | hne
    · simp at hq
    · rw [Function.update_of_ne hne] at hq
      exact hb.past q g' hq

end Hemem.Lib
