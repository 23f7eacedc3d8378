import Mathlib.Algebra.BigOperators.Group.Finset.Basic
import Mathlib.Data.Fintype.Basic
import Mathlib.Tactic.Abel

/-!
# Hemem.Lib.Sections — read-modify-write sections under several mutexes

Parties that add to shared values in sections: a section takes its mutex, adds to one value
after the other, each by a load and a store, and gives the mutex back. Sections of one mutex
exclude each other and sections of two do not, so an addition is lost when a value is loaded
while a party with another mutex is about to store it. `Kept` is what holds as long as no
value is loaded then: the values, and what is still to be added, account for every addition.
-/

namespace Hemem.Lib

universe u v w

/-- How a sum over threads changes when one of them moves on. -/
theorem sum_update {ι : Type u} {β : Type v} {M : Type w} [Fintype ι] [DecidableEq ι]
    [AddCommMonoid M] (f : β → M) (g : ι → β) (i : ι) (b : β) :
    (∑ j, f (Function.update g i b j)) + f (g i) = (∑ j, f (g j)) + f b := by
  have hrest : ∑ j ∈ Finset.univ.erase i, f (Function.update g i b j) =
      ∑ j ∈ Finset.univ.erase i, f (g j) := by
    refine Finset.sum_congr rfl fun j hj => ?_
    rw [Function.update_of_ne (Finset.ne_of_mem_erase hj)]
  have hnew := Finset.sum_erase_add Finset.univ (fun j => f (Function.update g i b j))
    (Finset.mem_univ i)
  have hold := Finset.sum_erase_add Finset.univ (fun j => f (g j)) (Finset.mem_univ i)
  simp only [Function.update_self] at hnew
  rw [← hnew, ← hold, hrest, add_right_comm]

/-! ## Sections -/

/-- Where a party is: `update m todo` is about to load the first value of `todo`, or to give
the mutex `m` back; `store m k δ v todo` has loaded `v` and adds `δ`. -/
inductive SectionPc (μ κ M : Type) where
  | outside
  | locked (m : μ)
  | update (m : μ) (todo : List (κ × M))
  | store (m : μ) (k : κ) (δ v : M) (todo : List (κ × M))
deriving DecidableEq, Repr

/-- The mutexes and the parties; `added` records what the sections add, in the order in which
they begin to. -/
structure Sections (Party μ κ M : Type) where
  owner : μ → Option Party
  pc : Party → SectionPc μ κ M
  added : List (κ × M)

/-- All parties are outside, and the mutexes free. -/
def Sections.quiet {Party μ κ M : Type} : Sections Party μ κ M :=
  ⟨fun _ => none, fun _ => .outside, []⟩

variable {Party μ κ M : Type}

/-- The next step of a party in a section of `m` that adds `adds`. The last component says
that the section ends; a party that waits for the mutex stays where it is. -/
def sectionStep [DecidableEq Party] [DecidableEq μ] [DecidableEq κ] [Add M] (t : Party) (m : μ)
    (adds : List (κ × M)) (value : κ → M)
    (x : Sections Party μ κ M) : (κ → M) × Sections Party μ κ M × Bool :=
  match x.pc t with
  | .outside =>
    match x.owner m with
    | none => (value,
        { x with
          owner := Function.update x.owner m (some t)
          pc := Function.update x.pc t (.locked m) }, false)
    | some _ => (value, x, false)
  | .locked m => (value,
      { x with pc := Function.update x.pc t (.update m adds), added := x.added ++ adds }, false)
  | .update m ((k, δ) :: todo) => (value,
      { x with pc := Function.update x.pc t (.store m k δ (value k) todo) }, false)
  | .store m k δ v todo => (Function.update value k (v + δ),
      { x with pc := Function.update x.pc t (.update m todo) }, false)
  | .update m [] => (value,
      { x with
        owner := Function.update x.owner m none
        pc := Function.update x.pc t .outside }, true)

section frame

variable [DecidableEq Party] [DecidableEq μ] [DecidableEq κ] [Add M] {t : Party} {m : μ}
  {adds : List (κ × M)} {value value' : κ → M} {x x' : Sections Party μ κ M} {done : Bool}

theorem sectionStep_pc_of_ne (h : sectionStep t m adds value x = (value', x', done)) {u : Party}
    (hu : u ≠ t) : x'.pc u = x.pc u := by
  unfold sectionStep at h
  split at h
  case h_1 =>
    split at h
    · cases h
      exact Function.update_of_ne hu _ _
    · cases h
      rfl
  all_goals
    cases h
    exact Function.update_of_ne hu _ _

/-- A party at the end of its section is outside again. -/
theorem sectionStep_pc_self (h : sectionStep t m adds value x = (value', x', true)) :
    x'.pc t = .outside := by
  unfold sectionStep at h
  split at h
  case h_1 => split at h <;> cases h
  case h_5 =>
    cases h
    exact Function.update_self ..
  all_goals cases h

end frame

/-- The mutex that a party holds. -/
def SectionPc.holds : SectionPc μ κ M → Option μ
  | .outside => none
  | .locked m | .update m _ | .store m _ _ _ _ => some m

/-- The mutex it holds and the value it is about to load. -/
def SectionPc.loads : SectionPc μ κ M → Option (μ × κ)
  | .update m ((k, _) :: _) => some (m, k)
  | _ => none

/-- The mutex it holds and the value that it has loaded and is about to store. -/
def SectionPc.stores : SectionPc μ κ M → Option (μ × κ)
  | .store m k _ _ _ => some (m, k)
  | _ => none

/-- The party does not load a value that a party with another mutex is about to store. -/
def Sections.Apart (x : Sections Party μ κ M) (t : Party) : Prop :=
  ∀ u, ∀ a ∈ (x.pc t).loads, ∀ b ∈ (x.pc u).stores, b.2 = a.2 → b.1 = a.1

instance [Fintype Party] [DecidableEq μ] [DecidableEq κ] (x : Sections Party μ κ M)
    (t : Party) : Decidable (x.Apart t) :=
  inferInstanceAs (Decidable (∀ u, ∀ a ∈ (x.pc t).loads, ∀ b ∈ (x.pc u).stores,
    b.2 = a.2 → b.1 = a.1))

/-! ## The account of a value -/

variable [DecidableEq κ] [AddCommGroup M]

/-- What a list of additions adds to `k`. -/
def addedTo (k : κ) (adds : List (κ × M)) : M :=
  (adds.map fun u => if u.1 = k then u.2 else 0).sum

@[simp] theorem addedTo_nil (k : κ) : addedTo k ([] : List (κ × M)) = 0 := rfl

theorem addedTo_cons (k : κ) (u : κ × M) (adds : List (κ × M)) :
    addedTo k (u :: adds) = (if u.1 = k then u.2 else 0) + addedTo k adds := by
  simp [addedTo]

theorem addedTo_append (k : κ) (adds adds' : List (κ × M)) :
    addedTo k (adds ++ adds') = addedTo k adds + addedTo k adds' := by
  simp [addedTo]

/-- What a party has still to add to `k`. -/
def SectionPc.pending (k : κ) : SectionPc μ κ M → M
  | .outside | .locked _ => 0
  | .update _ todo => addedTo k todo
  | .store _ l δ _ todo => addedTo k ((l, δ) :: todo)

variable [Fintype Party]

/-- From the values `start` on no addition has been lost. -/
structure Kept (start value : κ → M) (x : Sections Party μ κ M) : Prop where
  owned : ∀ t, ∀ m ∈ (x.pc t).holds, x.owner m = some t
  /-- a value that is about to be stored is still what was loaded -/
  fresh : ∀ t m k δ v todo, x.pc t = .store m k δ v todo → v = value k
  alone : ∀ t u, ∀ a ∈ (x.pc t).stores, ∀ b ∈ (x.pc u).stores, a.2 = b.2 → t = u
  balance : ∀ k, value k + ∑ t, (x.pc t).pending k = start k + addedTo k x.added

theorem kept_quiet (start : κ → M) :
    Kept start start (Sections.quiet : Sections Party μ κ M) where
  owned := by simp [Sections.quiet, SectionPc.holds]
  fresh := by simp [Sections.quiet]
  alone := by simp [Sections.quiet, SectionPc.stores]
  balance := by simp [Sections.quiet, SectionPc.pending]

/-- With all parties outside, the values are those at the start with everything added. -/
theorem Kept.value_eq {start value : κ → M} {x : Sections Party μ κ M} (hx : Kept start value x)
    (hout : ∀ t, x.pc t = .outside) (k : κ) : value k = start k + addedTo k x.added := by
  have hbalance := hx.balance k
  simpa [hout, SectionPc.pending] using hbalance

variable [DecidableEq Party] [DecidableEq μ]

omit [DecidableEq μ] in
/-- Party `t` moves on to `b`, and what this changes does not concern the other parties. -/
theorem Kept.move {start value value' : κ → M} {x : Sections Party μ κ M} {t : Party}
    {b : SectionPc μ κ M} {owner : μ → Option Party} {added : List (κ × M)}
    (hx : Kept start value x) (hself : ∀ m ∈ b.holds, owner m = some t)
    (howner : ∀ u, u ≠ t → ∀ m ∈ (x.pc u).holds, owner m = some u)
    (hfresh : ∀ m k δ v todo, b = .store m k δ v todo → v = value' k)
    (hvalue : ∀ u, u ≠ t → ∀ a ∈ (x.pc u).stores, value' a.2 = value a.2)
    (halone : ∀ u, u ≠ t → ∀ a ∈ (x.pc u).stores, ∀ c ∈ b.stores, a.2 ≠ c.2)
    (hbalance : ∀ k, value' k + b.pending k + addedTo k x.added =
      value k + (x.pc t).pending k + addedTo k added) :
    Kept start value' ⟨owner, Function.update x.pc t b, added⟩ where
  owned := (Function.forall_update_iff x.pc fun u c => ∀ m ∈ c.holds, owner m = some u).mpr
    ⟨hself, howner⟩
  fresh := by
    refine (Function.forall_update_iff x.pc fun _ c =>
      ∀ m k δ v todo, c = .store m k δ v todo → v = value' k).mpr ⟨hfresh, ?_⟩
    intro u hu m k δ v todo hpc
    rw [hx.fresh u m k δ v todo hpc]
    exact (hvalue u hu (m, k) (by simp [hpc, SectionPc.stores])).symm
  alone := by
    intro u w a ha c hc hac
    change a ∈ (Function.update x.pc t b u).stores at ha
    change c ∈ (Function.update x.pc t b w).stores at hc
    -- one of the two is `t`, or both are as before
    rcases eq_or_ne u t with rfl | hu <;> rcases eq_or_ne w u with rfl | hw
    · rfl
    · rw [Function.update_self] at ha
      rw [Function.update_of_ne hw] at hc
      exact absurd hac.symm (halone w hw c hc a ha)
    · rfl
    · rw [Function.update_of_ne hu] at ha
      rcases eq_or_ne w t with rfl | hwt
      · rw [Function.update_self] at hc
        exact absurd hac (halone u hu a ha c hc)
      · rw [Function.update_of_ne hwt] at hc
        exact hx.alone u w a ha c hc hac
  balance := by
    intro k
    have hsum := sum_update (SectionPc.pending k) x.pc t b
    have hbefore := hx.balance k
    have hmove := hbalance k
    apply add_right_cancel (b := (x.pc t).pending k + addedTo k x.added)
    calc value' k + ∑ u, (Function.update x.pc t b u).pending k +
          ((x.pc t).pending k + addedTo k x.added)
        = value' k + (∑ u, (Function.update x.pc t b u).pending k + (x.pc t).pending k) +
            addedTo k x.added := by abel
      _ = value' k + b.pending k + addedTo k x.added + ∑ u, (x.pc u).pending k := by
        rw [hsum]
        abel
      _ = value k + ∑ u, (x.pc u).pending k + ((x.pc t).pending k + addedTo k added) := by
        rw [hmove]
        abel
      _ = start k + addedTo k added + ((x.pc t).pending k + addedTo k x.added) := by
        rw [hbefore]
        abel

/-- A step of a section keeps every addition, if it does not load a value that another party
is about to store. -/
theorem Kept.step {start value : κ → M} {x : Sections Party μ κ M} (hx : Kept start value x)
    {t : Party} (hapart : x.Apart t) (m : μ) (adds : List (κ × M)) :
    Kept start (sectionStep t m adds value x).1 (sectionStep t m adds value x).2.1 := by
  unfold sectionStep
  split
  -- the mutex is taken
  case h_1 hpc =>
    split
    · rename_i hfree
      refine hx.move ?_ ?_ (by simp) (by simp) (by simp [SectionPc.stores])
        (by simp [hpc, SectionPc.pending])
      · simp [SectionPc.holds]
      · -- the mutex was free, so nobody else holds it
        intro u _ l hl
        have hne : l ≠ m := by
          rintro rfl
          simp [hx.owned u l hl] at hfree
        rw [Function.update_of_ne hne]
        exact hx.owned u l hl
    · exact hx
  -- the section begins to add
  case h_2 l hpc =>
    refine hx.move ?_ (fun u _ => hx.owned u) (by simp) (by simp) (by simp [SectionPc.stores]) ?_
    · simpa [hpc, SectionPc.holds] using hx.owned t
    · intro k
      simp only [hpc, SectionPc.pending, addedTo_append]
      abel
  -- a value is loaded
  case h_3 l k δ todo hpc =>
    have hown := hx.owned t l (by simp [hpc, SectionPc.holds])
    refine hx.move ?_ (fun u _ => hx.owned u) ?_ (by simp) ?_ (by simp [hpc, SectionPc.pending])
    · simpa [SectionPc.holds] using hown
    · rintro _ _ _ _ _ ⟨⟩
      rfl
    · -- another party with the same value would hold the same mutex
      rintro u hu a ha c hc hac
      obtain rfl : (l, k) = c := by simpa [SectionPc.stores] using hc
      have hmutex := hapart u (l, k) (by simp [hpc, SectionPc.loads]) a ha hac
      have hheld : l ∈ (x.pc u).holds := by
        unfold SectionPc.stores at ha
        split at ha
        · rename_i hpcu
          cases ha
          simpa [hpcu, SectionPc.holds] using hmutex
        · cases ha
      rw [hx.owned u l hheld] at hown
      exact hu (Option.some.inj hown)
  -- the sum is stored
  case h_4 l k δ v todo hpc =>
    have hv := hx.fresh t l k δ v todo hpc
    refine hx.move ?_ (fun u _ => hx.owned u) (by simp) ?_ (by simp [SectionPc.stores]) ?_
    · simpa [hpc, SectionPc.holds] using hx.owned t
    · intro u hu a ha
      refine Function.update_of_ne (fun hak => hu ?_) _ _
      exact hx.alone u t a ha (l, k) (by simp [hpc, SectionPc.stores]) hak
    · intro j
      simp only [hpc, SectionPc.pending, addedTo_cons, hv]
      rcases eq_or_ne j k with rfl | hj
      · simp only [Function.update_self, if_true]
        abel
      · simp only [Function.update_of_ne hj, if_neg hj.symm, zero_add]
  -- the mutex is given back
  case h_5 l hpc =>
    have hown := hx.owned t l (by simp [hpc, SectionPc.holds])
    refine hx.move (by simp [SectionPc.holds]) ?_ (by simp) (by simp) (by simp [SectionPc.stores])
      (by simp [hpc, SectionPc.pending])
    -- nobody else holds the mutex that is given back
    intro u hu j hj
    have hne : j ≠ l := by
      rintro rfl
      rw [hx.owned u j hj] at hown
      exact hu (Option.some.inj hown)
    rw [Function.update_of_ne hne]
    exact hx.owned u j hj

end Hemem.Lib
