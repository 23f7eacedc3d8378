import Mathlib.Algebra.Ring.Nat
import Mathlib.Data.Fintype.Card
import Hemem.Fifo

/-!
# Hemem.Links — the heap refines sequences

`Refines h seq`: the heap `h` links the pages of every list `l` in the order `seq l`. Each
function of `fifo.c` has a closed form on the heap, `linked` or `unlinked`, that keeps
`Refines` for the sequence it is meant to produce; `heap_refines` puts them together for
any sequence of calls.
-/

namespace Hemem

open Lib

variable {Page Q : Type} {h h' : Heap Page Q} {seq : Q → List Page} {l : Q} {p : Page}

def Heap.next (h : Heap Page Q) (p : Page) : Option Page := (h.page p).next
def Heap.prev (h : Heap Page Q) (p : Page) : Option Page := (h.page p).prev

/-- The heap stands for the sequences `seq`, oldest page first. -/
structure Refines (h : Heap Page Q) (seq : Q → List Page) : Prop where
  excl : Exclusive seq
  first : ∀ l, (h.queue l).first = (seq l).getLast?
  last : ∀ l, (h.queue l).last = (seq l).head?
  links : ∀ l, Segment h.next h.prev none (seq l) none
  numentries : ∀ l, (h.queue l).numentries.toNat = (seq l).length
  /-- every page names the list it is on -/
  list : ∀ p l, (h.page p).list = some l ↔ p ∈ seq l
  /-- a page on no list has no links -/
  off : ∀ p, ¬ Held seq p → h.next p = none ∧ h.prev p = none

/-- Nothing has been put on a list yet. -/
def Heap.empty : Heap Page Q := ⟨fun _ => ⟨none, none, none⟩, fun _ => ⟨none, none, 0⟩⟩

/-- The empty heap stands for empty lists. -/
theorem refines_empty : Refines (Heap.empty : Heap Page Q) fun _ => [] :=
  ⟨⟨fun _ => List.nodup_nil, fun hx => nomatch hx⟩, fun _ => rfl, fun _ => rfl, fun _ => trivial,
    fun _ => rfl, fun _ _ => by simp [Heap.empty], fun _ _ => ⟨rfl, rfl⟩⟩

/-- The links of a page on a list. -/
theorem Refines.links_at (hr : Refines h seq) {as bs : List Page} (hl : seq l = as ++ p :: bs) :
    h.next p = as.getLast? ∧ h.prev p = bs.head? := by
  have hlinks := hr.links l
  rw [hl] at hlinks
  simpa using hlinks.links

/-- The counter of a list with pages is not zero. -/
theorem Refines.numentries_pos (hr : Refines h seq) (hp : p ∈ seq l) :
    (h.queue l).numentries > 0 := by
  apply UInt64.lt_iff_toNat_lt.mpr
  rw [hr.numentries]
  exact List.length_pos_of_mem hp

/-- That of an empty list is. -/
theorem Refines.numentries_nil (hr : Refines h seq) (hl : seq l = []) :
    (h.queue l).numentries = 0 := by
  apply UInt64.toNat_inj.mp
  rw [hr.numentries, hl]
  rfl

/-- The pages next to a page on a list are other pages. -/
theorem Refines.neighbour_ne (hr : Refines h seq) (hp : p ∈ seq l) :
    h.next p ≠ some p ∧ h.prev p ≠ some p := by
  rcases List.append_of_mem hp with ⟨as, bs, hl⟩
  have hnd := hr.excl.nodup l
  rw [hl, List.nodup_append, List.nodup_cons] at hnd
  rcases hr.links_at hl with ⟨hnext, hprev⟩
  rw [hnext, hprev]
  refine ⟨fun hlast => ?_, fun hhead => hnd.2.1.1 (List.mem_of_mem_head? hhead)⟩
  exact hnd.2.2 p (List.mem_of_getLast? hlast) p List.mem_cons_self rfl

/-- The two chains of every list, from its two ends. -/
structure TwoWay (h : Heap Page Q) (seq : Q → List Page) : Prop where
  inverse : ∀ p q, h.prev p = some q ↔ h.next q = some p
  prev : ∀ l, Chain h.prev (h.queue l).last (seq l)
  next : ∀ l, Chain h.next (h.queue l).first (seq l).reverse

theorem Refines.twoWay (hr : Refines h seq) : TwoWay h seq := by
  refine ⟨fun p q => ⟨fun hpq => ?_, fun hqp => ?_⟩, fun l => ?_, fun l => ?_⟩
  · by_cases hp : Held seq p
    · rcases hp with ⟨l, hp⟩
      exact ((hr.links l).prev_iff.mp ⟨hp, hpq⟩).2
    · rw [(hr.off p hp).2] at hpq
      cases hpq
  · by_cases hq : Held seq q
    · rcases hq with ⟨l, hq⟩
      exact ((hr.links l).prev_iff.mpr ⟨hq, hqp⟩).2
    · rw [(hr.off q hq).1] at hqp
      cases hqp
  · rw [hr.last]
    exact (hr.links l).chain_prev
  · rw [hr.first]
    exact (hr.links l).chain_next

variable [DecidableEq Q]

/-! ## `next_page` -/

/-- `next_page` gives the page that follows in the list. -/
theorem Refines.nextPage (hr : Refines h seq) {as bs : List Page} (hl : seq l = as ++ bs) :
    h.nextPage l as.getLast? = .ok bs.head? := by
  rcases List.eq_nil_or_concat as with rfl | ⟨ys, y, rfl⟩
  · rw [List.getLast?_nil, Heap.nextPage, hr.last, hl, List.nil_append]
  · rw [List.concat_eq_append, List.append_assoc, List.singleton_append] at hl
    have hlist : (h.page y).list = some l := (hr.list y l).mpr (by simp [hl])
    have hprev : (h.page y).prev = bs.head? := (hr.links_at hl).2
    rw [List.concat_eq_append, List.getLast?_concat, Heap.nextPage, require_eq hlist, hprev]
    rfl

/-- Following `next_page` visits the rest of the list in order. -/
theorem Refines.visit_from (hr : Refines h seq) {as bs : List Page} (hl : seq l = as ++ bs)
    {fuel : Nat} (hfuel : bs.length < fuel) : h.visit l fuel as.getLast? = .ok bs := by
  induction bs generalizing as fuel with
  | nil =>
    cases fuel with
    | zero => exact absurd hfuel (Nat.not_lt_zero _)
    | succ fuel =>
      simp only [Heap.visit, hr.nextPage hl, List.head?_nil, bind, Except.bind]
  | cons p bs ih =>
    cases fuel with
    | zero => exact absurd hfuel (Nat.not_lt_zero _)
    | succ fuel =>
      have hl' : seq l = (as ++ [p]) ++ bs := by simp [hl]
      have hrest := ih hl' (Nat.lt_of_succ_lt_succ hfuel)
      rw [List.getLast?_concat] at hrest
      simp only [Heap.visit, hr.nextPage hl, List.head?_cons, hrest, bind, Except.bind]

/-- `next_page` goes through the pages of a list, oldest first. -/
theorem Refines.visit (hr : Refines h seq) {fuel : Nat} (hfuel : (seq l).length < fuel) :
    h.visit l fuel none = .ok (seq l) := by
  have hl : seq l = [] ++ seq l := rfl
  exact hr.visit_from hl hfuel

theorem mem_update_concat {k : Q} {x : Page} :
    x ∈ Function.update seq l (seq l ++ [p]) k ↔ x ∈ seq k ∨ (k = l ∧ x = p) := by
  by_cases hk : k = l
  · subst hk
    simp
  · simp [hk]

variable [DecidableEq Page]

/-! ## `enqueue_fifo` -/

/-- The heap after `p` has been put in front of the list. -/
def Heap.linked (h : Heap Page Q) (l : Q) (p : Page) : Heap Page Q where
  page x :=
    if x = p then ⟨(h.queue l).first, h.prev p, some l⟩
    else { h.page x with prev := if (h.queue l).first = some x then some p else h.prev x }
  queue := Function.update h.queue l ⟨some p,
    if (h.queue l).first = none then some p else (h.queue l).last, (h.queue l).numentries + 1⟩

/-- Enqueuing a page that is on no list passes the assertions. -/
theorem Refines.enqueueFifo (hr : Refines h seq) (hp : ¬ Held seq p) :
    h.enqueueFifo l p = .ok (h.linked l p) := by
  have hprev : (h.page p).prev = none := (hr.off p hp).2
  have hfirst := hr.first l
  rcases List.eq_nil_or_concat (seq l) with hl | ⟨ys, y, hl⟩
  · have hlast := hr.last l
    rw [hl] at hfirst hlast
    simp only [List.getLast?_nil, List.head?_nil] at hfirst hlast
    have hqueue : ((h.modPage p fun g => { g with next := none }).queue l) = h.queue l := rfl
    simp only [Heap.enqueueFifo, require_eq hprev, hfirst, hlast, bind, Except.bind, hqueue,
      require_eq (hr.numentries_nil hl), require_eq, Except.ok.injEq]
    ext1
    · funext x
      by_cases hx : x = p <;> simp [Heap.linked, Heap.modPage, Heap.modQueue, hx, hfirst, Heap.prev]
    · funext k
      by_cases hk : k = l <;> simp [Heap.linked, Heap.modPage, Heap.modQueue, hk, hfirst]
  · rw [List.concat_eq_append] at hl
    have hyp : y ≠ p := by
      rintro rfl
      exact hp ⟨l, by simp [hl]⟩
    have hy : (h.page y).prev = none := (hr.links_at hl).2
    rw [hl] at hfirst
    simp only [List.getLast?_append, List.getLast?_singleton, Option.some_or] at hfirst
    have hy' : ((h.modPage p fun g => { g with next := some y }).page y).prev = none := by
      simpa [Heap.modPage, hyp] using hy
    have hqueue : ((h.modPage p fun g => { g with next := some y }).queue l) = h.queue l := rfl
    simp only [Heap.enqueueFifo, require_eq hprev, hfirst, bind, Except.bind, hqueue,
      require_eq hy', Except.ok.injEq]
    ext1
    · funext x
      by_cases hx : x = p
      · simp [Heap.linked, Heap.modPage, Heap.modQueue, hx, hfirst, Heap.prev, hyp.symm]
      · by_cases hxy : y = x
        · simp [Heap.linked, Heap.modPage, Heap.modQueue, hx, hfirst, Heap.prev, hxy]
        · have hyx : x ≠ y := fun he => hxy he.symm
          simp [Heap.linked, Heap.modPage, Heap.modQueue, hx, hfirst, Heap.prev, hxy, hyx]
    · funext k
      by_cases hk : k = l <;> simp [Heap.linked, Heap.modPage, Heap.modQueue, hk, hfirst]

/-- The sequences after the call. -/
theorem Refines.linked (hr : Refines h seq) (hp : ¬ Held seq p)
    (hlen : (seq l).length + 1 < 2 ^ 64) :
    Refines (h.linked l p) (Function.update seq l (seq l ++ [p])) := by
  have hnot : ∀ {k x}, x ∈ seq k → x ≠ p := fun hx he => hp ⟨_, he ▸ hx⟩
  have hpage : ∀ {k x}, x ∈ seq k → (h.linked l p).page x =
      { h.page x with prev := if (seq l).getLast? = some x then some p else h.prev x } := by
    intro k x hx
    simp only [Heap.linked, if_neg (hnot hx), hr.first]
  refine ⟨?excl, ?first, ?last, ?links, ?numentries, ?list, ?off⟩
  case excl =>
    constructor
    · intro k
      by_cases hk : k = l
      · subst hk
        rw [Function.update_self]
        exact List.nodup_append.mpr ⟨hr.excl.nodup k, List.nodup_singleton p,
          fun x hx y hy => List.mem_singleton.mp hy ▸ hnot hx⟩
      · rw [Function.update_of_ne hk]
        exact hr.excl.nodup k
    · intro i j x hi hj
      rw [mem_update_concat] at hi hj
      rcases hi with hi | ⟨rfl, rfl⟩ <;> rcases hj with hj | ⟨rfl, hx⟩
      · exact hr.excl.unique hi hj
      · exact absurd hx (hnot hi)
      · exact absurd rfl (hnot hj)
      · rfl
  case first =>
    intro k
    by_cases hk : k = l
    · subst hk
      simp [Heap.linked]
    · simp [Heap.linked, hk, hr.first]
  case last =>
    intro k
    by_cases hk : k = l
    · subst hk
      rcases List.eq_nil_or_concat (seq k) with hl | ⟨ys, y, hl⟩ <;>
        simp [Heap.linked, hr.first, hr.last, hl]
    · simp [Heap.linked, hk, hr.last]
  case links =>
    intro k
    by_cases hk : k = l
    · subst hk
      rw [Function.update_self, segment_append, segment_singleton]
      -- the last page of the list gets `p` as its neighbour
      refine ⟨(hr.links k).relinkLast (hr.excl.nodup k) (fun x hx => ?_) fun x hx => ?_, ?_, ?_⟩
      · simp only [Heap.next, hpage hx]
      · simp only [Heap.prev, hpage hx]
        rfl
      · simp [Heap.next, Heap.linked, hr.first]
      · simpa [Heap.prev, Heap.linked] using (hr.off p hp).2
    · rw [Function.update_of_ne hk]
      refine (hr.links k).congr fun x hx => ⟨by simp only [Heap.next, hpage hx], ?_⟩
      -- the page whose pointer is set is on the list `l`
      have hne : (seq l).getLast? ≠ some x := fun hlast =>
        hk (hr.excl.unique hx (List.mem_of_getLast? hlast))
      simp only [Heap.prev, hpage hx, if_neg hne]
  case numentries =>
    intro k
    by_cases hk : k = l
    · subst hk
      have hnum := hr.numentries k
      simp only [Heap.linked, Function.update_self, List.length_append, List.length_singleton,
        UInt64.toNat_add, hnum]
      exact Nat.mod_eq_of_lt hlen
    · simp [Heap.linked, hk, hr.numentries]
  case list =>
    intro x k
    rw [mem_update_concat]
    by_cases hx : x = p
    · subst hx
      have hk : x ∉ seq k := fun hx => hp ⟨k, hx⟩
      simp [Heap.linked, hk, eq_comm]
    · simp [Heap.linked, hx, hr.list]
  case off =>
    intro x hx
    have hxp : x ≠ p := fun he => hx ⟨l, by simp [he]⟩
    have hoff : ¬ Held seq x := fun ⟨k, hk⟩ => hx ⟨k, mem_update_concat.mpr (Or.inl hk)⟩
    have hne : (seq l).getLast? ≠ some x := fun hlast =>
      hoff ⟨l, List.mem_of_getLast? hlast⟩
    have hpagex : (h.linked l p).page x = h.page x := by
      simp [Heap.linked, hxp, hr.first, hne, Heap.prev]
    simpa only [Heap.next, Heap.prev, hpagex] using hr.off x hoff

/-! ## `dequeue_fifo` and `page_list_remove_page` -/

/-- The heap after `p` has been taken off the list. -/
def Heap.unlinked (h : Heap Page Q) (l : Q) (p : Page) : Heap Page Q where
  page x :=
    if x = p then ⟨none, none, none⟩
    else ⟨if h.prev p = some x then h.next p else h.next x,
      if h.next p = some x then h.prev p else h.prev x, (h.page x).list⟩
  queue := Function.update h.queue l
    ⟨if (h.queue l).first = some p then h.next p else (h.queue l).first,
      if (h.queue l).last = some p then h.prev p else (h.queue l).last,
      (h.queue l).numentries - 1⟩

omit [DecidableEq Q] in
/-- An assignment to a page that a pointer may lead to. -/
theorem Heap.modPtr_eq (o : Option Page) (f : Node Page Q → Node Page Q) (h : Heap Page Q) :
    h.modPtr o f = { h with page := fun x => if o = some x then f (h.page x) else h.page x } := by
  cases o with
  | none => rfl
  | some y =>
    ext1
    · funext x
      by_cases hx : y = x
      · subst hx
        simp [Heap.modPtr, Heap.modPage]
      · simp [Heap.modPtr, Heap.modPage, hx, Function.update_of_ne (Ne.symm hx)]
    · rfl

/-- What `page_list_remove_page` writes, where its assertions hold. -/
theorem Heap.pageListRemovePage_eq (hfirst : (h.queue l).first ≠ none)
    (hnum : (h.queue l).numentries > 0) (hnext : h.next p ≠ some p) :
    h.pageListRemovePage l p = .ok (h.unlinked l p) := by
  simp only [Heap.next] at hnext
  -- neither of the two writes to the ends touches the counter
  have hpos : ∀ q : FifoList Page, q.numentries > 0 →
      (if q.first = some p then { q with first := (h.page p).next } else q).numentries > 0 := by
    intro q hq
    split <;> exact hq
  have hpos' : ∀ q : FifoList Page, q.numentries > 0 →
      (if q.last = some p then { q with last := (h.page p).prev } else q).numentries > 0 := by
    intro q hq
    split <;> exact hq
  rw [Heap.pageListRemovePage, if_neg hfirst]
  simp only [Heap.modQueue, Heap.modPtr_eq, if_neg hnext, Function.update_self,
    Function.update_idem, require_eq (hpos' _ (hpos _ hnum)), bind, Except.bind, Except.ok.injEq]
  ext1
  · funext x
    -- the page itself, then its neighbours
    by_cases hx : x = p
    · simp [Heap.modPage, Heap.unlinked, hx]
    · simp only [Heap.modPage, Heap.unlinked, hx, Function.update_of_ne, ne_eq,
        not_false_eq_true, if_false, Heap.next, Heap.prev]
      by_cases h1 : (h.page p).prev = some x <;> by_cases h2 : (h.page p).next = some x <;>
        simp [h1, h2]
  · simp only [Heap.modPage, Heap.unlinked, Heap.next, Heap.prev]
    congr 1
    split <;> split <;> simp_all

/-- What `dequeue_fifo` writes: the last page is taken out in the same way. -/
theorem Heap.dequeueFifo_eq (hlast : (h.queue l).last = some p)
    (hnum : (h.queue l).numentries > 0) (hnext : h.next p = none) (hprev : h.prev p ≠ some p)
    (hfirst : (h.queue l).first = some p ↔ h.prev p = none) :
    h.dequeueFifo l = .ok (some p, h.unlinked l p) := by
  simp only [Heap.next, Heap.prev] at hnext hprev hfirst
  rw [Heap.dequeueFifo, hlast]
  -- whether a page stands before it, which becomes the last
  cases hy : (h.page p).prev with
  | none =>
    simp only [Heap.modQueue, Function.update_self, hy, Function.update_idem, Heap.modPage,
      require_eq hnum, bind, Except.bind, Except.ok.injEq, Prod.mk.injEq, true_and]
    ext1
    · funext x
      by_cases hx : x = p <;> simp [Heap.unlinked, hx, Heap.next, Heap.prev, hnext, hy]
    · simp [Heap.unlinked, Heap.next, Heap.prev, hlast, hfirst.mpr hy, hnext, hy]
  | some y =>
    have hyp : p ≠ y := fun he => hprev (he ▸ hy)
    have hne : (h.queue l).first ≠ some p := fun hf => by simpa [hy] using hfirst.mp hf
    simp only [Heap.modQueue, Function.update_self, hy, Function.update_idem, Heap.modPage,
      require_eq hnum, bind, Except.bind, Except.ok.injEq, Prod.mk.injEq, true_and]
    ext1
    · funext x
      by_cases hx : x = p
      · simp [Heap.unlinked, hx]
      · by_cases hxy : y = x
        · subst hxy
          simp [Heap.unlinked, hx, Heap.next, Heap.prev, hnext, hy]
        · simp [Heap.unlinked, hx, Heap.next, Heap.prev, hnext, hy, hxy, Ne.symm hxy]
    · simp [Heap.unlinked, Heap.next, Heap.prev, hlast, hnext, hy, hne]

/-- Removing a page of the list passes the assertions. -/
theorem Refines.pageListRemovePage (hr : Refines h seq) (hp : p ∈ seq l) :
    h.pageListRemovePage l p = .ok (h.unlinked l p) := by
  refine Heap.pageListRemovePage_eq ?_ (hr.numentries_pos hp) (hr.neighbour_ne hp).1
  rw [hr.first]
  simpa using List.ne_nil_of_mem hp

/-- On an empty list nothing is removed. -/
theorem Refines.pageListRemovePage_nil (hr : Refines h seq) (hl : seq l = []) :
    h.pageListRemovePage l p = .ok h := by
  have hfirst : (h.queue l).first = none := by rw [hr.first, hl, List.getLast?_nil]
  have hlast : (h.queue l).last = none := by rw [hr.last, hl, List.head?_nil]
  rw [Heap.pageListRemovePage, if_pos hfirst, require_eq hlast,
    require_eq (hr.numentries_nil hl)]
  rfl

/-- Dequeuing gives the head of the sequence. -/
theorem Refines.dequeueFifo (hr : Refines h seq) {rest : List Page} (hl : seq l = p :: rest) :
    h.dequeueFifo l = .ok (some p, h.unlinked l p) := by
  have hp : p ∈ seq l := by simp [hl]
  have hl' : seq l = [] ++ p :: rest := hl
  have hlinks := hr.links_at hl'
  have hfirst := hr.first l
  refine Heap.dequeueFifo_eq ?_ (hr.numentries_pos hp) hlinks.1 (hr.neighbour_ne hp).2 ?_
  · rw [hr.last, hl, List.head?_cons]
  · rw [hlinks.2, hfirst, hl]
    cases rest with
    | nil => simp
    | cons y rest =>
      have hnd := hr.excl.nodup l
      rw [hl, List.nodup_cons] at hnd
      simp only [List.head?_cons, reduceCtorEq, iff_false, List.getLast?_cons_cons]
      exact fun hlast => hnd.1 (List.mem_of_getLast? hlast)

/-- Or `NULL`, and then the heap stays as it is. -/
theorem Refines.dequeueFifo_nil (hr : Refines h seq) (hl : seq l = []) :
    h.dequeueFifo l = .ok (none, h) := by
  rw [Heap.dequeueFifo, hr.last, hl, List.head?_nil]

theorem mem_update_erase (hx : Exclusive seq) (hp : p ∈ seq l) {k : Q} {x : Page} :
    x ∈ Function.update seq l ((seq l).erase p) k ↔ x ∈ seq k ∧ x ≠ p := by
  by_cases hk : k = l
  · subst hk
    rw [Function.update_self, (hx.nodup k).mem_erase_iff, and_comm]
  · rw [Function.update_of_ne hk]
    exact ⟨fun h => ⟨h, fun he => hk (hx.unique h (he ▸ hp))⟩, And.left⟩

/-- The sequences after a page has been taken off its list. -/
theorem Refines.unlinked (hr : Refines h seq) (hp : p ∈ seq l) :
    Refines (h.unlinked l p) (Function.update seq l ((seq l).erase p)) := by
  have hmem : ∀ {k x}, _ ↔ _ := @mem_update_erase _ _ _ l p _ _ hr.excl hp
  rcases List.append_of_mem hp with ⟨as, bs, hl⟩
  rcases hr.links_at hl with ⟨hnext, hprev⟩
  have hnd := hr.excl.nodup l
  rw [hl, List.nodup_append, List.nodup_cons] at hnd
  rcases hnd with ⟨has, ⟨hpbs, hbs⟩, hdisj⟩
  have hpas : p ∉ as := fun h => hdisj p h p List.mem_cons_self rfl
  have herase : (seq l).erase p = as ++ bs := by
    rw [hl, List.erase_append_right _ hpas, List.erase_cons_head]
  -- only the neighbours of `p` are linked anew
  have hpage : ∀ {x}, x ≠ p → (h.unlinked l p).next x =
      (if bs.head? = some x then h.next p else h.next x) ∧ (h.unlinked l p).prev x =
      if as.getLast? = some x then h.prev p else h.prev x := by
    intro x hx
    rw [← hnext, ← hprev]
    simp only [Heap.next, Heap.prev, Heap.unlinked, if_neg hx, and_self]
  have hother : ∀ {x}, x ≠ p → x ∉ as → x ∉ bs → (h.unlinked l p).next x = h.next x ∧
      (h.unlinked l p).prev x = h.prev x := by
    intro x hx hxas hxbs
    rw [(hpage hx).1, (hpage hx).2, if_neg fun h : bs.head? = some x => hxbs (List.mem_of_mem_head? h),
      if_neg fun h => hxas (List.mem_of_getLast? h)]
    exact ⟨rfl, rfl⟩
  refine ⟨?excl, ?first, ?last, ?links, ?numentries, ?list, ?off⟩
  case excl =>
    constructor
    · intro k
      by_cases hk : k = l
      · subst hk
        rw [Function.update_self]
        exact (hr.excl.nodup k).erase p
      · rw [Function.update_of_ne hk]
        exact hr.excl.nodup k
    · exact fun hi hj => hr.excl.unique (hmem.mp hi).1 (hmem.mp hj).1
  case first =>
    intro k
    by_cases hk : k = l
    · subst hk
      rw [Function.update_self, herase]
      simp only [Heap.unlinked, Function.update_self, hr.first, hl, hnext]
      rcases List.eq_nil_or_concat bs with rfl | ⟨ys, y, rfl⟩
      · simp
      · have hyp : y ≠ p := fun he => hpbs (by simp [he])
        simp [List.getLast?_cons, hyp]
    · simp [Heap.unlinked, hk, hr.first]
  case last =>
    intro k
    by_cases hk : k = l
    · subst hk
      rw [Function.update_self, herase]
      simp only [Heap.unlinked, Function.update_self, hr.last, hl, hprev]
      cases as with
      | nil => simp
      | cons y ys =>
        have hyp : y ≠ p := fun he => hpas (by simp [he])
        simp [hyp]
    · simp [Heap.unlinked, hk, hr.last]
  case links =>
    intro k
    by_cases hk : k = l
    · subst hk
      have hlinks := hr.links k
      rw [hl, segment_append] at hlinks
      rw [Function.update_self, herase, segment_append]
      constructor
      · refine hlinks.1.relinkLast has (fun x hx => ?_) fun x hx => ?_
        · have hxp : x ≠ p := fun he => hpas (he ▸ hx)
          rw [(hpage hxp).1, if_neg fun hhead : bs.head? = some x => hdisj x hx x
            (List.mem_cons_of_mem p (List.mem_of_mem_head? hhead)) rfl]
        · have hxp : x ≠ p := fun he => hpas (he ▸ hx)
          rw [(hpage hxp).2, hprev, Option.or_none]
      · refine hlinks.2.2.2.relinkHead hbs (fun x hx => ?_) fun x hx => ?_
        · have hxp : x ≠ p := fun he => hpbs (he ▸ hx)
          rw [(hpage hxp).1, hnext, Option.or_none]
        · have hxp : x ≠ p := fun he => hpbs (he ▸ hx)
          rw [(hpage hxp).2, if_neg fun hlast => hdisj x (List.mem_of_getLast? hlast) x
            (List.mem_cons_of_mem p hx) rfl]
    · rw [Function.update_of_ne hk]
      refine (hr.links k).congr fun x hx => ?_
      have hxl : x ∉ seq l := fun h => hk (hr.excl.unique hx h)
      rw [hl, List.mem_append, List.mem_cons, not_or, not_or] at hxl
      exact hother hxl.2.1 hxl.1 hxl.2.2
  case numentries =>
    intro k
    by_cases hk : k = l
    · subst hk
      have hpos : 1 ≤ (h.queue k).numentries := hr.numentries_pos hp
      simp only [Heap.unlinked, Function.update_self, List.length_erase_of_mem hp]
      rw [UInt64.toNat_sub_of_le _ _ hpos, hr.numentries]
      rfl
    · simp [Heap.unlinked, hk, hr.numentries]
  case list =>
    intro x k
    rw [hmem]
    by_cases hx : x = p
    · subst hx
      simp [Heap.unlinked]
    · simp [Heap.unlinked, hx, hr.list]
  case off =>
    intro x hx
    by_cases hxp : x = p
    · subst hxp
      simp [Heap.unlinked, Heap.next, Heap.prev]
    · have hoff : ¬ Held seq x := fun ⟨k, hk⟩ => hx ⟨k, hmem.mpr ⟨hk, hxp⟩⟩
      have hxl : x ∉ seq l := fun h => hoff ⟨l, h⟩
      rw [hl, List.mem_append, List.mem_cons, not_or, not_or] at hxl
      rw [(hother hxl.2.1 hxl.1 hxl.2.2).1, (hother hxl.2.1 hxl.1 hxl.2.2).2]
      exact hr.off x hoff

/-! ## Calls -/

/-- A call on the sequences, oldest page first, with the page that it returns. -/
def FifoCall.seqRun : FifoCall Page Q → (Q → List Page) → Option Page × (Q → List Page)
  | .enqueue l p, seq => (none, Function.update seq l (seq l ++ [p]))
  | .dequeue l, seq => ((seq l).head?, Function.update seq l (seq l).tail)
  | .remove l p, seq => (none, Function.update seq l ((seq l).erase p))

/-- What the callers see to: a page is put on a list when it is on none, and removed from a
list that it is on, or that is empty. -/
def FifoCall.Ok : FifoCall Page Q → (Q → List Page) → Prop
  | .enqueue _ p, seq => ¬ Held seq p
  | .dequeue _, _ => True
  | .remove l p, seq => p ∈ seq l ∨ seq l = []

def seqRunCalls : List (FifoCall Page Q) → (Q → List Page) → List (Option Page) × (Q → List Page)
  | [], seq => ([], seq)
  | c :: calls, seq =>
    ((c.seqRun seq).1 :: (seqRunCalls calls (c.seqRun seq).2).1,
      (seqRunCalls calls (c.seqRun seq).2).2)

def CallsOk : List (FifoCall Page Q) → (Q → List Page) → Prop
  | [], _ => True
  | c :: calls, seq => c.Ok seq ∧ CallsOk calls (c.seqRun seq).2

/-- One call on a heap that has room to count the pages of a list. -/
theorem Refines.run (hr : Refines h seq) {c : FifoCall Page Q} (hok : c.Ok seq)
    (hlen : ∀ l p, c = .enqueue l p → (seq l).length + 1 < 2 ^ 64) :
    ∃ h', c.run h = .ok ((c.seqRun seq).1, h') ∧ Refines h' (c.seqRun seq).2 := by
  cases c with
  | enqueue l p =>
    refine ⟨h.linked l p, ?_, hr.linked hok (hlen l p rfl)⟩
    simp only [FifoCall.run, hr.enqueueFifo hok, bind, Except.bind, FifoCall.seqRun]
  | dequeue l =>
    -- `dequeue_fifo` of an empty list writes nothing
    cases hl : seq l with
    | nil =>
      refine ⟨h, ?_, ?_⟩
      · simp only [FifoCall.run, hr.dequeueFifo_nil hl, FifoCall.seqRun, hl, List.head?_nil]
      · have hsame : Function.update seq l [] = seq := by rw [← hl, Function.update_eq_self]
        simpa only [FifoCall.seqRun, hl, List.tail_nil, hsame] using hr
    | cons p rest =>
      have hunl := hr.unlinked (show p ∈ seq l by simp [hl])
      refine ⟨h.unlinked l p, ?_, ?_⟩
      · simp only [FifoCall.run, hr.dequeueFifo hl, FifoCall.seqRun, hl, List.head?_cons]
      · simpa only [FifoCall.seqRun, hl, List.tail_cons, List.erase_cons_head] using hunl
  | remove l p =>
    -- the page is in the list, or the list is empty and nothing is written
    rcases hok with hp | hl
    · refine ⟨h.unlinked l p, ?_, hr.unlinked hp⟩
      simp only [FifoCall.run, hr.pageListRemovePage hp, bind, Except.bind, FifoCall.seqRun]
    · refine ⟨h, ?_, ?_⟩
      · simp only [FifoCall.run, hr.pageListRemovePage_nil hl, bind, Except.bind, FifoCall.seqRun]
      · have hsame : Function.update seq l [] = seq := by rw [← hl, Function.update_eq_self]
        simpa only [FifoCall.seqRun, hl, List.erase_nil, hsame] using hr

/-- Two sequences of calls are run one after the other. -/
theorem Heap.runCalls_append (calls calls' : List (FifoCall Page Q)) (h : Heap Page Q) :
    h.runCalls (calls ++ calls') = (do
      let (rs, h) ← h.runCalls calls
      let (rs', h) ← h.runCalls calls'
      .ok (rs ++ rs', h)) := by
  induction calls generalizing h with
  | nil =>
    simp only [List.nil_append, Heap.runCalls, bind, Except.bind]
    cases h.runCalls calls' <;> rfl
  | cons c calls ih =>
    simp only [List.cons_append, Heap.runCalls, bind, Except.bind]
    cases c.run h with
    | error e => rfl
    | ok x =>
      simp only [ih, bind, Except.bind]
      cases x.2.runCalls calls with
      | error e => rfl
      | ok y =>
        simp only
        cases y.2.runCalls calls' <;> rfl

/-- Pages that are put on a list one after the other. -/
theorem Refines.enqueueAll {ps : List Page} (hr : Refines h seq) (hnd : ps.Nodup)
    (hoff : ∀ p ∈ ps, ¬ Held seq p) (hlen : (seq l).length + ps.length < 2 ^ 64) :
    ∃ rs h', h.runCalls (ps.map (.enqueue l)) = .ok (rs, h') ∧
      Refines h' (Function.update seq l (seq l ++ ps)) := by
  induction ps generalizing h seq with
  | nil => exact ⟨[], h, rfl, by simpa using hr⟩
  | cons p ps ih =>
    rw [List.nodup_cons] at hnd
    rw [List.length_cons] at hlen
    have hp := hoff p List.mem_cons_self
    have hr₁ := hr.linked (l := l) hp (by omega)
    have hoff₁ : ∀ q ∈ ps, ¬ Held (Function.update seq l (seq l ++ [p])) q := by
      rintro q hq ⟨k, hk⟩
      rcases mem_update_concat.mp hk with hk | ⟨-, rfl⟩
      · exact hoff q (List.mem_cons_of_mem p hq) ⟨k, hk⟩
      · exact hnd.1 hq
    rcases ih hr₁ hnd.2 hoff₁ (by simpa [Nat.add_assoc, Nat.add_comm 1] using hlen) with
      ⟨rs, h', hcalls, hr'⟩
    refine ⟨none :: rs, h', ?_, by simpa using hr'⟩
    simp only [List.map_cons, Heap.runCalls, FifoCall.run, hr.enqueueFifo hp, hcalls, bind,
      Except.bind]

/-- There are fewer addresses than a counter has values. -/
theorem PagePtr.length_lt {ps : List PagePtr} (hnd : ps.Nodup) : ps.length < 2 ^ 64 := by
  have hmap : ((0 : UInt64) :: ps.map Subtype.val).Nodup := by
    rw [List.nodup_cons]
    refine ⟨fun hmem => ?_, hnd.map Subtype.val_injective⟩
    rcases List.mem_map.mp hmem with ⟨p, -, hp⟩
    exact p.2 hp
  have hcard := List.Nodup.length_le_card
    (hmap.map (f := UInt64.toFin) fun a b => UInt64.toFin_inj.mp)
  rw [Fintype.card_fin, List.length_map, List.length_cons, List.length_map] at hcard
  exact hcard

variable {h : Heap PagePtr Q} {seq : Q → List PagePtr}

/-- By induction on the calls: each does on the heap what it does on the sequences. -/
theorem Refines.runCalls {calls : List (FifoCall PagePtr Q)} (hr : Refines h seq)
    (hok : CallsOk calls seq) :
    ∃ h', h.runCalls calls = .ok ((seqRunCalls calls seq).1, h') ∧
      Refines h' (seqRunCalls calls seq).2 := by
  induction calls generalizing h seq with
  | nil => exact ⟨h, rfl, hr⟩
  | cons c calls ih =>
    have hlen : ∀ l p, c = .enqueue l p → (seq l).length + 1 < 2 ^ 64 := by
      -- with the new page the list is still one of distinct addresses
      rintro l p rfl
      have hp : p ∉ seq l := fun hp => hok.1 ⟨l, hp⟩
      exact PagePtr.length_lt (List.nodup_cons.mpr ⟨hp, hr.excl.nodup l⟩)
    rcases hr.run hok.1 hlen with ⟨h₁, hc, hr₁⟩
    rcases ih hr₁ hok.2 with ⟨h', hcalls, hr'⟩
    refine ⟨h', ?_, hr'⟩
    simp only [Heap.runCalls, hc, hcalls, bind, Except.bind, seqRunCalls]

/-- In every sequence of calls of `fifo.c` no assertion fails, the calls return what they
return on the sequences, and the heap is linked as the sequences say. -/
theorem heap_refines (calls : List (FifoCall PagePtr Q)) (hr : Refines h seq)
    (hok : CallsOk calls seq) :
    ∃ h', h.runCalls calls = .ok ((seqRunCalls calls seq).1, h') ∧
      Refines h' (seqRunCalls calls seq).2 ∧ TwoWay h' (seqRunCalls calls seq).2 ∧
      ∀ l fuel, ((seqRunCalls calls seq).2 l).length < fuel →
        h'.visit l fuel none = .ok ((seqRunCalls calls seq).2 l) := by
  rcases hr.runCalls hok with ⟨h', hcalls, hr'⟩
  exact ⟨h', hcalls, hr', hr'.twoWay, fun l fuel hfuel => hr'.visit hfuel⟩

/-- Two lists share three pages. -/
theorem heap_refines_three :
    ∃ h : Heap PagePtr Bool,
      Heap.empty.runCalls [.enqueue true ⟨16, by decide⟩, .enqueue true ⟨32, by decide⟩,
          .enqueue true ⟨48, by decide⟩, .remove true ⟨32, by decide⟩, .dequeue true,
          .enqueue false ⟨16, by decide⟩, .dequeue false, .dequeue false] =
        .ok ([none, none, none, none, some ⟨16, by decide⟩, none, some ⟨16, by decide⟩, none], h) ∧
      h.visit true 2 none = .ok [⟨48, by decide⟩] := by
  rcases heap_refines (Q := Bool) [.enqueue true ⟨16, by decide⟩, .enqueue true ⟨32, by decide⟩,
      .enqueue true ⟨48, by decide⟩, .remove true ⟨32, by decide⟩, .dequeue true,
      .enqueue false ⟨16, by decide⟩, .dequeue false, .dequeue false] refines_empty
      (by simp [CallsOk, FifoCall.Ok, FifoCall.seqRun, Held]) with ⟨h, hcalls, -, -, hvisit⟩
  exact ⟨h, hcalls, hvisit true 2 (by decide)⟩

end Hemem
