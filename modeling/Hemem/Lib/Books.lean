import Hemem.Lib.Custody

/-!
# Hemem.Lib.Books — who holds which item, and in which state

Every place keeps a book of the items it holds with the state it believes each of
them to be in; the true state is a function of the item. `Books` says that the
books are exclusive and true. A place may hand an item over with its entry, and a
place that holds an item may change its state and its entry together: nobody else
has an entry of the item that this could make false.
-/

namespace Hemem.Lib

universe u v w

variable {ι : Type u} {α : Type v} {σ : Type w}

/-- The items of a book, without their states. -/
def entries (box : ι → List (α × σ)) (i : ι) : List α := (box i).map Prod.fst

theorem mem_entries {box : ι → List (α × σ)} {i : ι} {x : α} :
    x ∈ entries box i ↔ ∃ v, (x, v) ∈ box i := by
  simp [entries]

structure Books (box : ι → List (α × σ)) (status : α → σ) : Prop where
  /-- no item has two entries -/
  excl : Exclusive (entries box)
  /-- an entry tells the state of its item -/
  agree : ∀ {i x v}, (x, v) ∈ box i → status x = v

variable {box box' : ι → List (α × σ)} {status status' : α → σ}

theorem HandOver.entries {i j : ι} (h : HandOver box box' i j) :
    HandOver (entries box) (entries box') i j := by
  refine ⟨h.ne, ?_, fun k hi hj => ?_⟩
  · simpa [Lib.entries] using h.perm.map Prod.fst
  · simp [Lib.entries, h.rest k hi hj]

/-- The books of an unchanged state stay true when one of them is reordered. -/
theorem Books.reorder (h : Books box status) {i : ι} (hi : (box' i).Perm (box i))
    (hrest : ∀ k, k ≠ i → box' k = box k) (hstatus : status' = status) : Books box' status' := by
  have hmem : ∀ {k e}, e ∈ box' k → e ∈ box k := by
    intro k e he
    by_cases hk : k = i
    · subst hk
      exact hi.mem_iff.mp he
    · exact hrest k hk ▸ he
  refine ⟨h.excl.reorder (i := i) (hi.map Prod.fst) ?_, fun he => ?_⟩
  · intro k hk
    simp [entries, hrest k hk]
  · rw [hstatus]
    exact h.agree (hmem he)

/-- An entry is handed over as it is. -/
theorem Books.handOver (h : Books box status) {i j : ι} (hho : HandOver box box' i j)
    (hstatus : status' = status) : Books box' status' := by
  refine ⟨h.excl.handOver hho.entries, fun {k x v} he => ?_⟩
  rcases hho.held_iff.mp ⟨k, he⟩ with ⟨l, hl⟩
  rw [hstatus]
  exact h.agree hl

/-- The holder of `x` changes the state of `x` and its entry. -/
theorem Books.retag (h : Books box status) {i : ι} {x : α} {v v' : σ} {rest : List (α × σ)}
    (hi : (box i).Perm ((x, v) :: rest)) (hi' : (box' i).Perm ((x, v') :: rest))
    (hrest : ∀ k, k ≠ i → box' k = box k)
    (hx : status' x = v') (hother : ∀ y, y ≠ x → status' y = status y) : Books box' status' := by
  have hxi : x ∈ entries box i := mem_entries.mpr ⟨v, hi.mem_iff.mpr (by simp)⟩
  -- no place lists an item twice
  have hnd : ((x, v) :: rest).map Prod.fst |>.Nodup := (hi.map Prod.fst).nodup_iff.mp (h.excl.nodup i)
  rw [List.map_cons, List.nodup_cons] at hnd
  have hfst : (entries box' i).Perm (entries box i) :=
    (hi'.map Prod.fst).trans (hi.map Prod.fst).symm
  refine ⟨h.excl.reorder hfst fun k hk => by simp [entries, hrest k hk], fun {k y u} he => ?_⟩
  by_cases hk : k = i
  · subst hk
    rcases List.mem_cons.mp (hi'.mem_iff.mp he) with heq | hold
    · rcases Prod.mk.inj heq with ⟨rfl, rfl⟩
      exact hx
    · -- the other entries of the place are of other items
      have hy : y ≠ x := by
        rintro rfl
        exact hnd.1 (List.mem_map.mpr ⟨(y, u), hold, rfl⟩)
      rw [hother y hy]
      exact h.agree (hi.mem_iff.mpr (List.mem_cons_of_mem _ hold))
  · rw [hrest k hk] at he
    have hy : y ≠ x := by
      rintro rfl
      exact hk (h.excl.unique (mem_entries.mpr ⟨u, he⟩) hxi)
    rw [hother y hy]
    exact h.agree he

/-- A change of state and entry loses no item. -/
theorem held_entries_of_perm {i : ι} (hi : (entries box' i).Perm (entries box i))
    (hrest : ∀ k, k ≠ i → box' k = box k) {x : α} :
    Held (entries box') x ↔ Held (entries box) x :=
  held_reorder hi fun k hk => by simp [entries, hrest k hk]

end Hemem.Lib
