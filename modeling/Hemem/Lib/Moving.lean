import Hemem.Lib.Paging

/-!
# Hemem.Lib.Moving — contents that move while others write to them

Some of the addresses of a memory move to new locations: their contents are copied
there, a part at a time, and then they are mapped to the new location. Meanwhile anyone
may write through the map. No write is lost when an address is fenced off before its
contents are copied and the fence falls only when it is mapped to the new location.

A state of the protocol is a `Transit`, what can happen to it is `Transit.Step`, and
`Transit.Safe` is the invariant: every address reads the value last written to it, and
no write gets at a location that has been copied.
-/

namespace Hemem.Lib

universe u v w

variable {A : Type u} {L : Type v} {V : Type w}

structure Transit (A : Type u) (L : Type v) (V : Type w) where
  map : A → Option L
  mem : L → V
  /-- the value of the last write -/
  last : A → V
  /-- writes to the address are held off -/
  fenced : A → Prop
  /-- the location that the address moves to -/
  target : A → L → Prop
  /-- the contents of the address are at the location that it moves to -/
  copied : A → Prop
  /-- the contents of the location have been copied -/
  stale : L → Prop

namespace Transit

/-- No fence falls, and nothing is planned or copied. -/
structure Tame (t t' : Transit A L V) : Prop where
  fenced : ∀ {a}, t.fenced a → t'.fenced a
  target : ∀ {a l}, t'.target a l → t.target a l
  copied : ∀ {a}, t'.copied a → t.copied a
  stale : ∀ {l}, t'.stale l → t.stale l

inductive Step [DecidableEq A] [DecidableEq L] (t t' : Transit A L V) : Prop where
  | tame (map : t'.map = t.map) (mem : t'.mem = t.mem) (last : t'.last = t.last)
      (tame : Tame t t')
  /-- a write that is not held off -/
  | write (a : A) (l : L) (v : V) (here : t.map a = some l) (free : ¬ t.fenced a)
      (map : t'.map = t.map) (mem : t'.mem = Function.update t.mem l v)
      (last : t'.last = Function.update t.last a v) (tame : Tame t t')
  /-- the next addresses are chosen, with locations that are not mapped -/
  | plan (map : t'.map = t.map) (mem : t'.mem = t.mem) (last : t'.last = t.last)
      (fresh : ∀ {a l}, t'.target a l → ¬ MappedTo t.map l)
      (inj : ∀ {a b l}, t'.target a l → t'.target b l → a = b)
      (copied : ∀ a, ¬ t'.copied a) (stale : ∀ l, ¬ t'.stale l)
  /-- the contents of the addresses `R`, which are fenced off, are copied -/
  | copy (R : A → Prop) (held : ∀ {a}, R a → t.fenced a)
      (inside : ∀ {a l}, R a → t.target a l → ∃ k, t.map a = some k ∧ t'.mem l = t.mem k)
      (outside : ∀ {l}, (∀ a, R a → ¬ t.target a l) → t'.mem l = t.mem l)
      (map : t'.map = t.map) (last : t'.last = t.last)
      (fenced : ∀ {a}, t.fenced a → t'.fenced a)
      (target : ∀ {a l}, t'.target a l → t.target a l)
      (copied : ∀ {a}, t'.copied a → t.copied a ∨ R a)
      (stale : ∀ {l}, t'.stale l → t.stale l ∨ ∃ a, R a ∧ t.map a = some l)
  /-- the addresses `R`, whose contents have been copied, are mapped to the new locations -/
  | remap (R : A → Prop) (new : A → L)
      (ready : ∀ {a}, R a → t.copied a ∧ t.target a (new a) ∧ ∃ k, t.map a = some k)
      (inside : ∀ a, R a → t'.map a = some (new a)) (outside : ∀ a, ¬ R a → t'.map a = t.map a)
      (mem : t'.mem = t.mem) (last : t'.last = t.last)
      (fenced : ∀ {a}, ¬ R a → t.fenced a → t'.fenced a)
      (target : ∀ {a l}, t'.target a l → t.target a l ∧ ¬ R a)
      (copied : ∀ {a}, t'.copied a → t.copied a ∧ ¬ R a)
      (stale : ∀ {l}, t'.stale l → t.stale l)

structure Safe (t : Transit A L V) : Prop where
  unaliased : Unaliased t.map
  reads : ∀ {a l}, t.map a = some l → t.mem l = t.last a
  fresh : ∀ {a l}, t.target a l → ¬ MappedTo t.map l
  inj : ∀ {a b l}, t.target a l → t.target b l → a = b
  /-- what has been copied is fenced off -/
  held : ∀ {a}, t.copied a → t.fenced a
  same : ∀ {a l k}, t.copied a → t.target a l → t.map a = some k → t.mem l = t.mem k
  clean : ∀ {a l}, t.target a l → ¬ t.stale l
  /-- no write gets at a location that has been copied -/
  shut : ∀ {a l}, t.map a = some l → t.stale l → t.fenced a

variable {t t' : Transit A L V}

theorem Safe.tame (h : t.Safe) (hmap : t'.map = t.map) (hmem : t'.mem = t.mem)
    (hlast : t'.last = t.last) (htame : Tame t t') : t'.Safe where
  unaliased := hmap ▸ h.unaliased
  reads ha := by
    rw [hmem, hlast]
    exact h.reads (hmap ▸ ha)
  fresh ha := hmap ▸ h.fresh (htame.target ha)
  inj ha hb := h.inj (htame.target ha) (htame.target hb)
  held ha := htame.fenced (h.held (htame.copied ha))
  same ha hl hk := by
    rw [hmem]
    exact h.same (htame.copied ha) (htame.target hl) (hmap ▸ hk)
  clean ha hl := h.clean (htame.target ha) (htame.stale hl)
  shut ha hl := htame.fenced (h.shut (hmap ▸ ha) (htame.stale hl))

theorem Safe.write [DecidableEq A] [DecidableEq L] (h : t.Safe) {a : A} {l : L} {v : V}
    (here : t.map a = some l) (free : ¬ t.fenced a) (hmap : t'.map = t.map)
    (hmem : t'.mem = Function.update t.mem l v) (hlast : t'.last = Function.update t.last a v)
    (htame : Tame t t') : t'.Safe where
  unaliased := hmap ▸ h.unaliased
  reads {b k} hb := by
    rw [hmap] at hb
    rw [hmem, hlast]
    by_cases hba : b = a
    · subst hba
      obtain rfl : l = k := Option.some.inj (here.symm.trans hb)
      simp
    · have hkl : k ≠ l := fun hkl => hba (h.unaliased (hkl ▸ hb) here)
      rw [Function.update_of_ne hkl, Function.update_of_ne hba]
      exact h.reads hb
  fresh hb := hmap ▸ h.fresh (htame.target hb)
  inj hb hc := h.inj (htame.target hb) (htame.target hc)
  held hb := htame.fenced (h.held (htame.copied hb))
  same {b m k} hb hm hk := by
    rw [hmap] at hk
    -- the target is not mapped, and an address that has been copied is not written to
    have hml : m ≠ l := fun hml => h.fresh (htame.target hm) ⟨a, hml ▸ here⟩
    have hkl : k ≠ l := by
      rintro rfl
      obtain rfl := h.unaliased hk here
      exact free (h.held (htame.copied hb))
    rw [hmem, Function.update_of_ne hml, Function.update_of_ne hkl]
    exact h.same (htame.copied hb) (htame.target hm) hk
  clean hb hm := h.clean (htame.target hb) (htame.stale hm)
  shut hb hm := htame.fenced (h.shut (hmap ▸ hb) (htame.stale hm))

theorem Safe.copy (h : t.Safe) {R : A → Prop} (held : ∀ {a}, R a → t.fenced a)
    (inside : ∀ {a l}, R a → t.target a l → ∃ k, t.map a = some k ∧ t'.mem l = t.mem k)
    (outside : ∀ {l}, (∀ a, R a → ¬ t.target a l) → t'.mem l = t.mem l)
    (hmap : t'.map = t.map) (hlast : t'.last = t.last)
    (fenced : ∀ {a}, t.fenced a → t'.fenced a)
    (target : ∀ {a l}, t'.target a l → t.target a l)
    (copied : ∀ {a}, t'.copied a → t.copied a ∨ R a)
    (stale : ∀ {l}, t'.stale l → t.stale l ∨ ∃ a, R a ∧ t.map a = some l) : t'.Safe := by
  -- what is mapped is not a target, so it is left alone
  have hmapped : ∀ {a l}, t.map a = some l → t'.mem l = t.mem l :=
    fun ha => outside fun b _ hb => h.fresh hb ⟨_, ha⟩
  have hfenced : ∀ {a}, t'.copied a → t.fenced a := fun ha => (copied ha).elim h.held held
  constructor
  case unaliased => exact hmap ▸ h.unaliased
  case reads =>
    intro a l ha
    rw [hmap] at ha
    rw [hmapped ha, hlast]
    exact h.reads ha
  case fresh => exact fun ha => hmap ▸ h.fresh (target ha)
  case inj => exact fun ha hb => h.inj (target ha) (target hb)
  case held => exact fun ha => fenced (hfenced ha)
  case same =>
    intro a l k ha hl hk
    rw [hmap] at hk
    rw [hmapped hk]
    by_cases hR : R a
    · rcases inside hR (target hl) with ⟨k', hk', hmem⟩
      obtain rfl : k' = k := Option.some.inj (hk'.symm.trans hk)
      exact hmem
    · have hout : t'.mem l = t.mem l := by
        refine outside fun b hb hbl => hR ?_
        rwa [h.inj (target hl) hbl]
      rw [hout]
      exact h.same ((copied ha).resolve_right hR) (target hl) hk
  case clean =>
    intro a l ha hl
    rcases stale hl with hold | ⟨b, -, hb⟩
    · exact h.clean (target ha) hold
    · exact h.fresh (target ha) ⟨b, hb⟩
  case shut =>
    intro a l ha hl
    rw [hmap] at ha
    rcases stale hl with hold | ⟨b, hR, hb⟩
    · exact fenced (h.shut ha hold)
    · obtain rfl := h.unaliased ha hb
      exact fenced (held hR)

theorem Safe.remap (h : t.Safe) {R : A → Prop} {new : A → L}
    (ready : ∀ {a}, R a → t.copied a ∧ t.target a (new a) ∧ ∃ k, t.map a = some k)
    (inside : ∀ a, R a → t'.map a = some (new a)) (outside : ∀ a, ¬ R a → t'.map a = t.map a)
    (hmem : t'.mem = t.mem) (hlast : t'.last = t.last)
    (fenced : ∀ {a}, ¬ R a → t.fenced a → t'.fenced a)
    (target : ∀ {a l}, t'.target a l → t.target a l ∧ ¬ R a)
    (copied : ∀ {a}, t'.copied a → t.copied a ∧ ¬ R a)
    (stale : ∀ {l}, t'.stale l → t.stale l) : t'.Safe := by
  have hmoves : Relocates t.map t'.map R new := by
    refine ⟨inside, outside, fun a b ha hb hab => ?_, fun a ha => h.fresh (ready ha).2.1⟩
    exact h.inj (ready ha).2.1 (hab ▸ (ready hb).2.1)
  constructor
  case unaliased => exact hmoves.unaliased h.unaliased
  case reads =>
    intro a l ha
    rw [hmem, hlast]
    -- an address of the page reads the copy, which is the same as the original
    by_cases hR : R a
    · rcases ready hR with ⟨hcopied, htarget, k, hk⟩
      obtain rfl : new a = l := Option.some.inj ((inside a hR).symm.trans ha)
      rw [h.same hcopied htarget hk]
      exact h.reads hk
    · exact h.reads ((outside a hR).symm.trans ha)
  case fresh =>
    intro a l ha hl
    rcases hmoves.mappedTo hl with hold | ⟨b, hb, rfl⟩
    · exact h.fresh (target ha).1 hold
    · obtain rfl := h.inj (target ha).1 (ready hb).2.1
      exact (target ha).2 hb
  case inj => exact fun ha hb => h.inj (target ha).1 (target hb).1
  case held => exact fun ha => fenced (copied ha).2 (h.held (copied ha).1)
  case same =>
    intro a l k ha hl hk
    rw [hmem]
    exact h.same (copied ha).1 (target hl).1 ((outside a (copied ha).2).symm.trans hk)
  case clean => exact fun ha hl => h.clean (target ha).1 (stale hl)
  -- the new location is not stale: it was fresh
  case shut =>
    intro a l ha hl
    by_cases hR : R a
    · obtain rfl : new a = l := Option.some.inj ((inside a hR).symm.trans ha)
      exact absurd (stale hl) (h.clean (ready hR).2.1)
    · exact fenced hR (h.shut ((outside a hR).symm.trans ha) (stale hl))

/-- Every step keeps the invariant. -/
theorem Safe.step [DecidableEq A] [DecidableEq L] (h : t.Safe) (hs : Step t t') : t'.Safe := by
  cases hs with
  | tame map mem last tame => exact h.tame map mem last tame
  | write a l v here free map mem last tame => exact h.write here free map mem last tame
  | plan map mem last fresh inj copied stale =>
    refine ⟨map ▸ h.unaliased, fun ha => ?_, fun ha => map ▸ fresh ha, inj,
      fun ha => absurd ha (copied _), fun ha => absurd ha (copied _), fun _ hl => stale _ hl,
      fun _ hl => absurd hl (stale _)⟩
    rw [mem, last]
    exact h.reads (map ▸ ha)
  | copy R held inside outside map last fenced target copied stale =>
    exact h.copy held inside outside map last fenced target copied stale
  | remap R new ready inside outside mem last fenced target copied stale =>
    exact h.remap ready inside outside mem last fenced target copied stale

/-- What an address reads is what was last written to it. -/
theorem Safe.load_eq (h : t.Safe) {a : A} {v : V} (ha : load t.map t.mem a = some v) :
    v = t.last a := by
  unfold load at ha
  rcases Option.map_eq_some_iff.mp ha with ⟨l, hl, rfl⟩
  exact h.reads hl

end Transit

end Hemem.Lib
