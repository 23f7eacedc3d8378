import Hemem.Lib.Selection
import Hemem.Counters

/-!
# Hemem.Requests — how many pages a request moves, and which

A request that runs alone. The sequential branch takes pages off the mmap list until it
has enough or the list is empty. The random branch rotates the list by
`rand() % mmap_list_num` before it takes a page: this is `Hemem.Lib.Selection` as long as
there is a page to take, and a division by zero when there is none.
-/

namespace Hemem

open Lib

variable {s s' : St} {d : Dir} {rand : Nat → Nat}

/-- The pages that a request may take are in its tier and present, and their counter is
exact. -/
structure Requestable (d : Dir) (s : St) : Prop where
  num : (s.num (.mmap d.src)).toNat = (s.list (.mmap d.src)).length
  inDram : ∀ p ∈ s.list (.mmap d.src), (s.page p).inDram = d.src.inDram
  present : ∀ p ∈ s.list (.mmap d.src), (s.page p).present = true

/-- Between complete operations the flags are those of the list. -/
theorem Wf.requestable {cfg : Config} (h : Wf cfg s) (d : Dir)
    (hnum : (s.num (.mmap d.src)).toNat = (s.list (.mmap d.src)).length) : Requestable d s :=
  ⟨hnum, fun _ hp => h.inDram hp, fun _ hp => h.present hp⟩

theorem Requestable.length_lt (h : Requestable d s) :
    (s.list (.mmap d.src)).length < 2 ^ 64 := h.num ▸ (s.num (.mmap d.src)).toNat_lt

/-- The state after a request has moved the pages `taken`, in this order, and has left
`rest` on the mmap list. -/
@[simps -fullyApplied] def St.requested (s : St) (d : Dir) (taken rest : List PageId) : St :=
  { s with
    list := Function.update (Function.update s.list (.mmap d.src) rest) (.queue d)
      (s.list (.queue d) ++ taken)
    num := Function.update
      (Function.update s.num (.queue d) (s.num (.queue d) + UInt64.ofNat taken.length))
      (.mmap d.src) (s.num (.mmap d.src) - UInt64.ofNat taken.length) }

theorem requested_nil (s : St) (d : Dir) : s.requested d [] (s.list (.mmap d.src)) = s := by
  ext1 <;> simp [St.requested]

@[simp] theorem requested_list_mmap (s : St) (d : Dir) (taken rest : List PageId) :
    (s.requested d taken rest).list (.mmap d.src) = rest := by
  simp

/-- The counter of the mmap list falls by the number of pages taken. -/
theorem requested_num_mmap (s : St) (d : Dir) (taken rest : List PageId) :
    (s.requested d taken rest).num (.mmap d.src) =
      s.num (.mmap d.src) - UInt64.ofNat taken.length := by
  simp

theorem sub_sub_uint64 (a b c : UInt64) : a - b - c = a - (b + c) := by
  rw [UInt64.sub_eq_add_neg a (b + c), UInt64.neg_add, UInt64.sub_eq_add_neg (-b),
    UInt64.sub_eq_add_neg (a - b), UInt64.sub_eq_add_neg a, UInt64.add_assoc]

/-- Rearranging the mmap list. -/
@[simp] theorem requested_setList (s : St) (d : Dir) (taken rest rest' : List PageId) :
    (s.requested d taken rest).setList (.mmap d.src) rest' = s.requested d taken rest' := by
  ext1 <;> try rfl
  funext l
  simp only [St.requested_list, St.setList_list, Function.update_apply]
  split <;> simp_all

/-- Moving one more page. -/
theorem requested_put (s : St) (d : Dir) (taken rest rest' : List PageId) (p : PageId) :
    (s.requested d taken rest).put d p rest' = s.requested d (taken ++ [p]) rest' := by
  ext1 <;> try rfl
  · funext l
    simp only [St.put, St.requested_list, St.subNum_list, St.addNum_list, St.setList_list,
      Function.update_apply]
    split <;> simp_all
  · funext l
    simp only [St.put, St.requested_num, St.subNum_num, St.addNum_num, St.setList_num,
      Function.update_apply, List.length_append, List.length_singleton, UInt64.ofNat_add,
      UInt64.reduceOfNat]
    split <;> split <;> simp_all [UInt64.add_assoc, sub_sub_uint64]

/-! ## What a request does -/

/-- Rotating by `n` is taking the head to the end `n` times. -/
theorem rotate_eq {l : ListId} {n : Nat} (h : s.list l ≠ []) :
    rotate l n s = .ok (s.setList l ((s.list l).rotate n)) := by
  induction n generalizing s with
  | zero => simp [rotate, setList_self]
  | succ n ih =>
    rcases List.exists_cons_of_ne_nil h with ⟨p, rest, hl⟩
    rw [rotate_cons hl, ih (by simp)]
    simp [hl]

/-- The head of the list goes to the queue. -/
theorem putPage_eq {p : PageId} {rest : List PageId} (hl : s.list (.mmap d.src) = p :: rest)
    (hdram : (s.page p).inDram = d.src.inDram) (hpresent : (s.page p).present = true) :
    putPage d s = .ok (1, s.put d p rest) := by
  simp [putPage, dequeueFifo_cons hl, check, hdram, hpresent, bind, Except.bind, St.put,
    St.setList, Function.update_of_ne]

theorem putPage_nil (hl : s.list (.mmap d.src) = []) : putPage d s = .ok (0, s) := by
  simp [putPage, dequeueFifo_nil hl]

/-! ## The random branch -/

/-- The state after the random branch has moved `k` pages. -/
def St.randomly (s : St) (d : Dir) (rand : Nat → Nat) (k : Nat) : St :=
  s.requested d (selection rand (s.list (.mmap d.src)) k) (remaining rand (s.list (.mmap d.src)) k)

/-- The counter keeps up with the list. -/
theorem Requestable.num_randomly (h : Requestable d s) (rand : Nat → Nat) {i : Nat}
    (hi : i ≤ (s.list (.mmap d.src)).length) :
    ((s.randomly d rand i).num (.mmap d.src)).toNat = (s.list (.mmap d.src)).length - i := by
  rw [St.randomly, requested_num_mmap, length_selection hi,
    toNat_sub_ofNat (by rw [h.num]; exact hi), h.num]

/-- What remains has been on the list. -/
theorem remaining_subset {r : Nat → Nat} {xs : List PageId} {k : Nat} (h : k ≤ xs.length)
    {p : PageId} (hp : p ∈ remaining r xs k) : p ∈ xs :=
  (selection_append_remaining_perm h).subset (List.mem_append_right _ hp)

/-- One iteration with a page to take. -/
theorem Requestable.choosePage_randomly (h : Requestable d s) {i : Nat}
    (hi : i < (s.list (.mmap d.src)).length) :
    choosePage d.src (rand i) (s.randomly d rand i) =
      .ok ((s.randomly d rand i).setList (.mmap d.src)
        ((remaining rand (s.list (.mmap d.src)) i).rotate
          (Lib.place rand (s.list (.mmap d.src)) i))) := by
  have hnum := h.num_randomly rand hi.le
  have hne : (s.randomly d rand i).num (.mmap d.src) ≠ 0 := by
    intro hzero
    rw [hzero, UInt64.toNat_zero] at hnum
    omega
  have hlist : (s.randomly d rand i).list (.mmap d.src) ≠ [] := by
    rw [St.randomly, requested_list_mmap]
    exact List.ne_nil_of_length_pos (length_remaining (r := rand) hi.le ▸ Nat.sub_pos_of_lt hi)
  simp only [choosePage, check, hnum, rotate_eq hlist, bne_iff_ne, ne_eq, hne, not_false_eq_true,
    if_true, bind, Except.bind]
  rw [St.randomly, requested_list_mmap, Lib.place]

/-- An iteration with a drawn number takes the page that the selection takes. -/
theorem Requestable.random_step (h : Requestable d s) {i : Nat}
    (hi : i < (s.list (.mmap d.src)).length) {n k : Nat} :
    requestLoop d true rand (n + 1) i k (s.randomly d rand i) =
      requestLoop d true rand n (i + 1) (k + 1) (s.randomly d rand (i + 1)) := by
  have hmem := remaining_subset (r := rand) hi.le (next_mem hi)
  have hlist : ((s.randomly d rand i).setList (.mmap d.src)
      ((remaining rand (s.list (.mmap d.src)) i).rotate
        (Lib.place rand (s.list (.mmap d.src)) i))).list (.mmap d.src) =
      next rand (s.list (.mmap d.src)) i hi :: remaining rand (s.list (.mmap d.src)) (i + 1) := by
    rw [St.setList_list, Function.update_self, rotate_remaining hi]
  have hput := putPage_eq hlist (h.inDram _ hmem) (h.present _ hmem)
  simp only [requestLoop, beforeTake, if_true, h.choosePage_randomly hi, hput, bind, Except.bind]
  rw [St.randomly, requested_setList, requested_put, ← selection_succ hi, ← St.randomly]

/-- As long as there are pages, the random branch moves one in every iteration. -/
theorem Requestable.random_loop (h : Requestable d s) (rand : Nat → Nat) {n : Nat} :
    ∀ {i k : Nat}, i + n ≤ (s.list (.mmap d.src)).length →
      requestLoop d true rand n i k (s.randomly d rand i) =
        .ok (k + n, s.randomly d rand (i + n)) := by
  induction n with
  | zero => exact fun _ => rfl
  | succ n ih =>
    intro i k hi
    rw [h.random_step (by omega), ih (by omega), Nat.add_right_comm, Nat.add_assoc,
      Nat.add_right_comm, Nat.add_assoc]

/-- When there are none, it divides by zero. -/
theorem Requestable.random_empty (h : Requestable d s) {n k : Nat} :
    requestLoop d true rand (n + 1) (s.list (.mmap d.src)).length k
      (s.randomly d rand (s.list (.mmap d.src)).length) = .error .divByZero := by
  have hnum := h.num_randomly rand (Nat.le_refl _)
  have hzero : (s.randomly d rand (s.list (.mmap d.src)).length).num (.mmap d.src) = 0 :=
    UInt64.toNat.inj (by rw [hnum, Nat.sub_self, UInt64.toNat_zero])
  simp [requestLoop, beforeTake, choosePage, check, hzero, bind, Except.bind]

theorem randomly_zero (s : St) (d : Dir) (rand : Nat → Nat) : s.randomly d rand 0 = s :=
  requested_nil s d

/-- So a request with drawn numbers takes the pages of the selection, in order. -/
theorem Requestable.random_eq (h : Requestable d s) {n : Int}
    (hn : n.toNat ≤ (s.list (.mmap d.src)).length) :
    request d n true rand s = .ok (n.toNat, s.randomly d rand n.toNat) := by
  have hloop := h.random_loop rand (n := n.toNat) (i := 0) (k := 0) (by omega)
  rw [randomly_zero, Nat.zero_add] at hloop
  exact hloop

/-- A request for more pages than there are divides by zero. -/
theorem Requestable.random_fails (h : Requestable d s) {n : Int}
    (hn : (s.list (.mmap d.src)).length < n.toNat) :
    request d n true rand s = .error .divByZero := by
  -- all pages are moved first
  have hstop : ∀ m i k, i + m = (s.list (.mmap d.src)).length → ∀ extra,
      requestLoop d true rand (m + (extra + 1)) i k (s.randomly d rand i) = .error .divByZero := by
    intro m
    induction m with
    | zero =>
      intro i k hi extra
      obtain rfl : i = (s.list (.mmap d.src)).length := hi
      rw [Nat.zero_add]
      exact h.random_empty
    | succ m ih =>
      intro i k hi extra
      rw [Nat.succ_add, h.random_step (by omega)]
      exact ih (i + 1) (k + 1) (by omega) extra
  rcases Nat.exists_eq_add_of_lt hn with ⟨extra, hextra⟩
  have hloop := hstop _ 0 0 (Nat.zero_add _) extra
  rw [randomly_zero] at hloop
  rw [request, hextra, Nat.add_assoc]
  exact hloop

/-- Which pages a random request selects: its draws move through the mmap list as
`Hemem.Lib.Selection` describes, every page is selected or left, and whatever has been
selected so far, the next draw can select any page that is left. -/
theorem random_request_selects (d : Dir) {s : St} (h : Requestable d s) {k : Nat}
    (hk : k ≤ (s.list (.mmap d.src)).length) (rand : Nat → Nat) :
    request d k true rand s = .ok (k, s.requested d (selection rand (s.list (.mmap d.src)) k)
        (remaining rand (s.list (.mmap d.src)) k)) ∧
      (selection rand (s.list (.mmap d.src)) k ++ remaining rand (s.list (.mmap d.src)) k).Perm
        (s.list (.mmap d.src)) ∧
      ∀ i < (s.list (.mmap d.src)).length, ∀ p ∈ remaining rand (s.list (.mmap d.src)) i,
        ∃ c, selection (Function.update rand i c) (s.list (.mmap d.src)) (i + 1) =
          selection rand (s.list (.mmap d.src)) i ++ [p] :=
  ⟨h.random_eq (n := (k : Int)) hk, selection_append_remaining_perm hk,
    fun _ hi _ hp => exists_selection hi hp⟩

/-! ## The sequential branch -/

/-- The state after the sequential branch has moved `k` pages. -/
def St.inOrder (s : St) (d : Dir) (k : Nat) : St :=
  s.requested d ((s.list (.mmap d.src)).take k) ((s.list (.mmap d.src)).drop k)

theorem inOrder_zero (s : St) (d : Dir) : s.inOrder d 0 = s := requested_nil s d

/-- An iteration without takes the head. -/
theorem Requestable.sequential_step (h : Requestable d s) {i : Nat}
    (hi : i < (s.list (.mmap d.src)).length) :
    putPage d (s.inOrder d i) = .ok (1, s.inOrder d (i + 1)) := by
  have hmem := List.getElem_mem hi
  have hlist : (s.inOrder d i).list (.mmap d.src) =
      (s.list (.mmap d.src))[i] :: (s.list (.mmap d.src)).drop (i + 1) := by
    rw [St.inOrder, requested_list_mmap, List.drop_eq_getElem_cons hi]
  rw [putPage_eq hlist (h.inDram _ hmem) (h.present _ hmem), St.inOrder, requested_put,
    List.take_append_getElem, ← St.inOrder]

/-- The sequential branch moves pages until it has enough or there are none. -/
theorem Requestable.sequential_loop (h : Requestable d s) (rand : Nat → Nat) {n : Nat} :
    ∀ {i j k : Nat}, i ≤ (s.list (.mmap d.src)).length →
      requestLoop d false rand n j k (s.inOrder d i) =
        .ok (k + min n ((s.list (.mmap d.src)).length - i),
          s.inOrder d (i + min n ((s.list (.mmap d.src)).length - i))) := by
  induction n with
  | zero => simp [requestLoop]
  | succ n ih =>
    intro i j k hi
    rcases Nat.lt_or_eq_of_le hi with hlt | rfl
    · simp only [requestLoop, beforeTake, Bool.false_eq_true, if_false, h.sequential_step hlt,
        bind, Except.bind]
      have hmin : min (n + 1) ((s.list (.mmap d.src)).length - i) =
          min n ((s.list (.mmap d.src)).length - (i + 1)) + 1 := by omega
      rw [ih hlt, hmin, Nat.add_right_comm k, Nat.succ_add_eq_add_succ]
      rfl
    · -- the list has run dry
      have hempty : (s.inOrder d (s.list (.mmap d.src)).length).list (.mmap d.src) = [] := by
        rw [St.inOrder, requested_list_mmap, List.drop_length]
      simp only [requestLoop, beforeTake, Bool.false_eq_true, if_false, putPage_nil hempty, bind,
        Except.bind]
      rw [ih (Nat.le_refl _), Nat.sub_self, Nat.min_zero, Nat.min_zero]

/-- A request without drawn numbers takes the first pages, as many as there are. -/
theorem Requestable.sequential_eq (h : Requestable d s) (n : Int) :
    request d n false rand s = .ok (min n.toNat (s.list (.mmap d.src)).length,
      s.inOrder d (min n.toNat (s.list (.mmap d.src)).length)) := by
  have hloop := h.sequential_loop rand (n := n.toNat) (i := 0) (j := 0) (k := 0)
    (Nat.zero_le _)
  rw [inOrder_zero, Nat.sub_zero, Nat.zero_add] at hloop
  exact hloop

/-! ## The two branches -/

/-- The random and the sequential request both return the number of pages asked for, as far
as there are any, and leave the same counters. -/
def AgreeOnQuantity (d : Dir) (pagesNum : Int) (rand : Nat → Nat) (s : St) : Prop :=
  ∃ s₁ s₂, request d pagesNum true rand s =
      .ok (min pagesNum.toNat (s.list (.mmap d.src)).length, s₁) ∧
    request d pagesNum false rand s =
      .ok (min pagesNum.toNat (s.list (.mmap d.src)).length, s₂) ∧ s₁.num = s₂.num

/-- The two branches agree precisely when no more pages are asked for than there are. -/
theorem agreeOnQuantity_iff (d : Dir) (pagesNum : Int) (rand : Nat → Nat) {s : St}
    (h : Requestable d s) :
    AgreeOnQuantity d pagesNum rand s ↔ pagesNum.toNat ≤ (s.list (.mmap d.src)).length := by
  constructor
  · rintro ⟨s₁, -, hrandom, -⟩
    by_contra hn
    rw [h.random_fails (Nat.lt_of_not_le hn)] at hrandom
    cases hrandom
  · intro hn
    refine ⟨s.randomly d rand pagesNum.toNat, _, ?_, h.sequential_eq pagesNum, ?_⟩
    · rw [Nat.min_eq_left hn]
      exact h.random_eq hn
    · rw [Nat.min_eq_left hn, St.randomly, St.inOrder, St.requested_num, St.requested_num,
        length_selection hn, List.length_take, Nat.min_eq_left hn]

/-- On an empty mmap list the random branch divides by zero. -/
theorem agreeOnQuantity_fails_empty :
    CountersExact (pebsInit smallConfig) ∧
      ¬ AgreeOnQuantity .dramToNvm 1 (fun _ => 0) (pebsInit smallConfig) := by
  have hcounters := countersExact_pebsInit smallConfig
  refine ⟨hcounters, ?_⟩
  rintro ⟨s₁, -, hrandom, -⟩
  have h := (wf_pebsInit smallConfig).requestable .dramToNvm (hcounters _)
  rw [h.random_fails (by decide)] at hrandom
  cases hrandom

/-- Two pages on the DRAM mmap list. -/
def twoMapped : St :=
  (runs (exec smallConfig) [.mmap 0x40000000 (2 * pageSize) true]
    (pebsInit smallConfig)).toOption.getD (pebsInit smallConfig)

/-- Two pages in DRAM may be requested. -/
theorem requestable_twoMapped : Requestable .dramToNvm twoMapped :=
  ⟨rfl, by decide, by decide⟩

/-- As many are put as are asked for. -/
theorem agreeOnQuantity_two : AgreeOnQuantity .dramToNvm 2 (fun _ => 1) twoMapped :=
  (agreeOnQuantity_iff .dramToNvm 2 (fun _ => 1) requestable_twoMapped).mpr (by decide)

/-- With the draws 1 and 1 the second page goes first. -/
theorem random_request_selects_two :
    request .dramToNvm 2 true (fun _ => 1) twoMapped =
      .ok (2, twoMapped.requested .dramToNvm [1, 0] []) :=
  (random_request_selects .dramToNvm requestable_twoMapped (k := 2) (by decide) fun _ => 1).1

end Hemem
