import Mathlib.Logic.Function.Basic

/-!
# Hemem.Lib.Paging — memory seen through an address map

A map sends addresses to locations, a store gives the contents of locations, and
`load` is what an address reads. When no two addresses share a location, a store
at one address is invisible at every other, and addresses can be moved to fresh
locations: nothing is read differently if the contents move along.
-/

namespace Hemem.Lib

universe u v w

variable {A : Type u} {L : Type v} {V : Type w}

/-- What the address `a` reads. -/
def load (map : A → Option L) (mem : L → V) (a : A) : Option V := (map a).map mem

/-- Some address is mapped to the location. -/
def MappedTo (map : A → Option L) (l : L) : Prop := ∃ a, map a = some l

/-- No two addresses are mapped to one location. -/
def Unaliased (map : A → Option L) : Prop :=
  ∀ ⦃a b : A⦄ ⦃l : L⦄, map a = some l → map b = some l → a = b

variable {map map' : A → Option L} {mem mem' : L → V}

theorem load_of_eq_some {a : A} {l : L} (h : map a = some l) : load map mem a = some (mem l) := by
  simp [load, h]

/-- Locations that are not mapped are not read. -/
theorem load_congr (h : ∀ l, MappedTo map l → mem' l = mem l) : load map mem' = load map mem := by
  funext a
  unfold load
  cases ha : map a with
  | none => rfl
  | some l => simp [h l ⟨a, ha⟩]

/-- A store through an unaliased map changes what its own address reads. -/
theorem Unaliased.load_update [DecidableEq A] [DecidableEq L] (h : Unaliased map) {a : A} {l : L}
    (ha : map a = some l) (v : V) :
    load map (Function.update mem l v) = Function.update (load map mem) a (some v) := by
  funext b
  by_cases hba : b = a
  · subst hba
    simp [load, ha]
  · rw [Function.update_of_ne hba]
    unfold load
    cases hb : map b with
    | none => rfl
    | some k =>
      have hk : k ≠ l := fun hkl => hba (h (hkl ▸ hb) ha)
      simp [Function.update_of_ne hk]

/-- The addresses of `R` move to the locations `new`, which were not mapped; the
others stay. -/
structure Relocates (map map' : A → Option L) (R : A → Prop) (new : A → L) : Prop where
  inside : ∀ a, R a → map' a = some (new a)
  outside : ∀ a, ¬ R a → map' a = map a
  inj : ∀ a b, R a → R b → new a = new b → a = b
  fresh : ∀ a, R a → ¬ MappedTo map (new a)

variable {R : A → Prop} {new : A → L}

theorem Relocates.unaliased (h : Relocates map map' R new) (hu : Unaliased map) :
    Unaliased map' := by
  intro a b l ha hb
  by_cases haR : R a <;> by_cases hbR : R b
  · have hal := (h.inside a haR).symm.trans ha
    have hbl := (h.inside b hbR).symm.trans hb
    exact h.inj a b haR hbR (Option.some.inj (hal.trans hbl.symm))
  · have hal := (h.inside a haR).symm.trans ha
    have hbl := (h.outside b hbR).symm.trans hb
    exact absurd ⟨b, hbl.trans hal.symm⟩ (h.fresh a haR)
  · have hal := (h.outside a haR).symm.trans ha
    have hbl := (h.inside b hbR).symm.trans hb
    exact absurd ⟨a, hal.trans hbl.symm⟩ (h.fresh b hbR)
  · exact hu ((h.outside a haR).symm.trans ha) ((h.outside b hbR).symm.trans hb)

/-- What is mapped afterwards was mapped before or is a new location. -/
theorem Relocates.mappedTo (h : Relocates map map' R new) {l : L} (hl : MappedTo map' l) :
    MappedTo map l ∨ ∃ a, R a ∧ new a = l := by
  rcases hl with ⟨a, ha⟩
  by_cases haR : R a
  · exact Or.inr ⟨a, haR, Option.some.inj ((h.inside a haR).symm.trans ha)⟩
  · exact Or.inl ⟨a, (h.outside a haR).symm.trans ha⟩

/-- When the contents have moved along, every address reads what it read. -/
theorem Relocates.load_eq (h : Relocates map map' R new)
    (hmoved : ∀ a, R a → load map mem a = some (mem (new a))) : load map' mem = load map mem := by
  funext a
  by_cases haR : R a
  · rw [load_of_eq_some (h.inside a haR), hmoved a haR]
  · unfold load
    rw [h.outside a haR]

/-- When the new locations all hold `v`, the addresses that have moved read `v`. -/
theorem Relocates.load_fill (h : Relocates map map' R new) {v : V} [DecidablePred R]
    (hkept : ∀ l, MappedTo map l → mem' l = mem l) (hfill : ∀ a, R a → mem' (new a) = v) :
    load map' mem' = fun a => if R a then some v else load map mem a := by
  funext a
  by_cases haR : R a
  · rw [if_pos haR, load_of_eq_some (h.inside a haR), hfill a haR]
  · rw [if_neg haR, ← load_congr hkept]
    unfold load
    rw [h.outside a haR]

end Hemem.Lib
