import Mathlib.Data.List.Rotate
import Hemem.System

/-!
# Hemem.Spec — what each function does when it returns

One inversion lemma per function of `Hemem.Pebs` and `Hemem.Mapping` other than
the migration batch: a function that returns has found the state in a certain
shape and leaves it in another. Loops get an induction rule instead: what every
iteration preserves, the loop preserves.
-/

namespace Hemem

open Lib

/-! ## Queues -/

/-- An empty list gives `NULL`. -/
theorem dequeueFifo_nil {l : ListId} {s : St} (h : s.list l = []) :
    dequeueFifo l s = (none, s) := by
  simp [dequeueFifo, h]

/-- Otherwise the head leaves the list. -/
theorem dequeueFifo_cons {l : ListId} {s : St} {p : PageId} {rest : List PageId}
    (h : s.list l = p :: rest) : dequeueFifo l s = (some p, s.setList l rest) := by
  simp [dequeueFifo, h]

@[simp] theorem enqueueFifo_some (l : ListId) (p : PageId) (s : St) :
    enqueueFifo l (some p) s = .ok (s.setList l (s.list l ++ [p])) := rfl

@[simp] theorem enqueueFifo_none (l : ListId) (s : St) :
    enqueueFifo l none s = .error .nullDeref := rfl

theorem setList_self (s : St) (l : ListId) : s.setList l (s.list l) = s := by
  simp [St.setList]

@[simp] theorem setList_setList (s : St) (l : ListId) (ps qs : List PageId) :
    (s.setList l ps).setList l qs = s.setList l qs := by
  simp [St.setList]

/-- A rotation of an empty list hands `NULL` to `enqueue_fifo`. -/
theorem rotate_nil {l : ListId} {n : Nat} {s : St} (h : s.list l = []) :
    rotate l (n + 1) s = .error .nullDeref := by
  simp [rotate, dequeueFifo_nil h, bind, Except.bind]

/-- A rotation takes the head to the end. -/
theorem rotate_cons {l : ListId} {n : Nat} {s : St} {p : PageId} {rest : List PageId}
    (h : s.list l = p :: rest) :
    rotate l (n + 1) s = rotate l n (s.setList l (rest ++ [p])) := by
  simp [rotate, dequeueFifo_cons h, bind, Except.bind]

/-- A rotation that returns has rotated the list. -/
theorem rotate_ok {l : ListId} {n : Nat} {s s' : St} (h : rotate l n s = .ok s') :
    s' = s.setList l ((s.list l).rotate n) := by
  induction n generalizing s with
  | zero =>
    simp only [rotate, Except.ok.injEq] at h
    simp [← h, setList_self]
  | succ n ih =>
    cases hl : s.list l with
    | nil => simp [rotate_nil hl] at h
    | cons p rest =>
      rw [rotate_cons hl] at h
      simpa using ih h

/-- The page that is drawn comes to the head of the list. -/
theorem choosePage_ok {t : Tier} {r : Nat} {s s' : St} (h : choosePage t r s = .ok s') :
    s' = s.setList (.mmap t) ((s.list (.mmap t)).rotate (r % (s.num (.mmap t)).toNat)) := by
  simp only [choosePage, bind_eq_ok, check_eq_ok] at h
  rcases h with ⟨_, -, h⟩
  exact rotate_ok h

/-! ## Requests -/

/-- The state after a request has moved the page `p` to its queue; `rest` is what
it leaves on the mmap list. -/
def St.put (s : St) (d : Dir) (p : PageId) (rest : List PageId) : St :=
  (((s.setList (.mmap d.src) rest).setList (.queue d) (s.list (.queue d) ++ [p])).addNum
    (.queue d) 1).subNum (.mmap d.src) 1

/-- What a request does to the next page: nothing on an empty list, else the head goes to the
queue. -/
theorem putPage_ok {d : Dir} {s s' : St} {k : Nat} (h : putPage d s = .ok (k, s')) :
    (k = 0 ∧ s.list (.mmap d.src) = [] ∧ s' = s) ∨
    (∃ p rest, k = 1 ∧ s.list (.mmap d.src) = p :: rest ∧
      (s.page p).inDram = d.src.inDram ∧ (s.page p).present = true ∧ s' = s.put d p rest) := by
  unfold putPage at h
  cases hl : s.list (.mmap d.src) with
  | nil =>
    simp only [dequeueFifo_nil hl, Except.ok.injEq, Prod.mk.injEq] at h
    exact Or.inl ⟨h.1.symm, rfl, h.2.symm⟩
  | cons p rest =>
    simp only [dequeueFifo_cons hl, bind_eq_ok, check_eq_ok, enqueueFifo_some,
      Except.ok.injEq, Prod.mk.injEq, beq_iff_eq, St.setList_page, exists_const] at h
    rcases h with ⟨hdram, hpresent, s₁, rfl, hk, rfl⟩
    refine Or.inr ⟨p, rest, hk.symm, rfl, hdram, hpresent, ?_⟩
    simp [St.put, St.setList, Function.update_of_ne]

/-- What rotations of the mmap list and single moves preserve, a request
preserves. -/
theorem requestLoop_preserves {P : St → Prop} {d : Dir} {random : Bool} {rand : Nat → Nat}
    (hrotate : ∀ s n, P s → P (s.setList (.mmap d.src) ((s.list (.mmap d.src)).rotate n)))
    (hput : ∀ s p rest, P s → s.list (.mmap d.src) = p :: rest → P (s.put d p rest))
    {n i k k' : Nat} {s s' : St} (hP : P s)
    (h : requestLoop d random rand n i k s = .ok (k', s')) : P s' := by
  induction n generalizing i k s with
  | zero =>
    simp only [requestLoop, Except.ok.injEq, Prod.mk.injEq] at h
    exact h.2 ▸ hP
  | succ n ih =>
    simp only [requestLoop, bind_eq_ok, Prod.exists] at h
    rcases h with ⟨s₁, hchoose, k₁, s₂, hputPage, hrest⟩
    have hP₁ : P s₁ := by
      cases random with
      | false =>
        simp only [beforeTake, Bool.false_eq_true, if_false, Except.ok.injEq] at hchoose
        exact hchoose ▸ hP
      | true =>
        simp only [beforeTake, if_true] at hchoose
        rw [choosePage_ok hchoose]
        exact hrotate s _ hP
    refine ih ?_ hrest
    rcases putPage_ok hputPage with ⟨-, -, rfl⟩ | ⟨p, rest, -, hl, -, -, rfl⟩
    · exact hP₁
    · exact hput s₁ p rest hP₁ hl

/-! ## Allocation -/

/-- A descriptor that is taken was free and of the right tier. -/
theorem takeFree_ok {t : Tier} {p q : PageId} {s s' : St} (h : takeFree t p s = .ok (q, s')) :
    q = p ∧ (s.page p).inDram = t.inDram ∧ (s.page p).present = false ∧
      s' = (s.modPage p fun g => { g with present := true }).setList (.mmap t)
        (s.list (.mmap t) ++ [p]) := by
  simp only [takeFree, bind_eq_ok, check_eq_ok, enqueueFifo_some, Except.ok.injEq,
    Prod.mk.injEq, beq_iff_eq, Bool.not_eq_eq_eq_not, Bool.not_true, St.modPage_list,
    exists_const] at h
  rcases h with ⟨hdram, hpresent, s₁, rfl, rfl, rfl⟩
  exact ⟨rfl, hdram, hpresent, rfl⟩

/-- The tier that `pebs_allocate_page` takes from: NVM only when DRAM is full. -/
structure AllocFrom (s : St) (t : Tier) (p : PageId) (rest : List PageId) : Prop where
  head : s.list (.free t) = p :: rest
  dramFull : t = .nvm → s.list dramFreeList = []
  inDram : (s.page p).inDram = t.inDram
  absent : (s.page p).present = false

/-- The state after `pebs_allocate_page` has moved `p` from the free list, where
`rest` remains, to the mmap list. -/
def St.alloc (s : St) (t : Tier) (p : PageId) (rest : List PageId) : St :=
  ((s.modPage p fun g => { g with present := true }).setList (.free t) rest).setList (.mmap t)
    (s.list (.mmap t) ++ [p])

/-- An allocation takes the head of the DRAM list, or of the NVM list if that one is empty. -/
theorem pebsAllocatePage_ok {s s' : St} {p : PageId} (h : pebsAllocatePage s = .ok (p, s')) :
    ∃ t rest, AllocFrom s t p rest ∧ s' = s.alloc t p rest := by
  unfold pebsAllocatePage at h
  cases hd : s.list dramFreeList with
  | cons q rest =>
    simp only [dequeueFifo_cons hd] at h
    rcases takeFree_ok h with ⟨rfl, hdram, habsent, rfl⟩
    exact ⟨.dram, rest, ⟨hd, by simp, hdram, habsent⟩, by simp [St.alloc, St.setList, St.modPage]⟩
  | nil =>
    simp only [dequeueFifo_nil hd] at h
    cases hn : s.list nvmFreeList with
    | cons q rest =>
      simp only [dequeueFifo_cons hn] at h
      rcases takeFree_ok h with ⟨rfl, hdram, habsent, rfl⟩
      exact ⟨.nvm, rest, ⟨hn, fun _ => hd, hdram, habsent⟩,
        by simp [St.alloc, St.setList, St.modPage]⟩
    | nil => simp [dequeueFifo_nil hn] at h

/-- Conversely a free descriptor of the right tier is taken. -/
theorem takeFree_eq {t : Tier} {p : PageId} {s : St} (hdram : (s.page p).inDram = t.inDram)
    (habsent : (s.page p).present = false) :
    takeFree t p s = .ok (p, (s.modPage p fun g => { g with present := true }).setList (.mmap t)
      (s.list (.mmap t) ++ [p])) := by
  simp [takeFree, check, hdram, habsent, bind, Except.bind]

/-- With a page to take, `pebs_allocate_page` takes it. -/
theorem AllocFrom.pebsAllocatePage_eq {s : St} {t : Tier} {p : PageId} {rest : List PageId}
    (h : AllocFrom s t p rest) : pebsAllocatePage s = .ok (p, s.alloc t p rest) := by
  unfold pebsAllocatePage
  cases t with
  | dram =>
    simp only [dequeueFifo_cons h.head]
    rw [takeFree_eq (by simpa using h.inDram) (by simpa using h.absent)]
    simp [St.alloc, St.setList, St.modPage]
  | nvm =>
    simp only [dequeueFifo_nil (h.dramFull rfl), dequeueFifo_cons h.head]
    rw [takeFree_eq (by simpa using h.inDram) (by simpa using h.absent)]
    simp [St.alloc, St.setList, St.modPage]

/-- `pebs_allocate_page` stops on "Out of memory" only when both free lists are
empty. -/
theorem pebsAllocatePage_outOfMemory {s : St} (h : pebsAllocatePage s = .error .outOfMemory) :
    s.list dramFreeList = [] ∧ s.list nvmFreeList = [] := by
  have htake : ∀ t p s, takeFree t p s ≠ .error .outOfMemory := by
    intro t p s
    simp only [takeFree, check, enqueueFifo_some, bind, Except.bind]
    grind
  unfold pebsAllocatePage at h
  cases hd : s.list dramFreeList with
  | cons q rest =>
    simp only [dequeueFifo_cons hd] at h
    exact absurd h (htake _ _ _)
  | nil =>
    simp only [dequeueFifo_nil hd] at h
    cases hn : s.list nvmFreeList with
    | cons q rest =>
      simp only [dequeueFifo_cons hn] at h
      exact absurd h (htake _ _ _)
    | nil => exact ⟨rfl, rfl⟩

/-- The state after the page `p` of tier `t` has been cleared, mapped at `va`,
registered and entered in the table. -/
def St.place (s : St) (t : Tier) (p : PageId) (va : Nat) : St where
  page := Function.update s.page p
    { s.page p with va := va, migrating := false, migrationsUp := 0, migrationsDown := 0 }
  list := s.list
  num := s.num
  pages := Function.update s.pages va (some p)
  vm a := if inRange va (ptToPagesize (s.page p).pt) a then
    some (.slot t ((s.page p).devdaxOffset + (a - va))) else s.vm a
  registered a := if inRange va (ptToPagesize (s.page p).pt) a then true else s.registered a
  wp a := if inRange va (ptToPagesize (s.page p).pt) a then false else s.wp a
  mem u o := if u = t ∧ inRange (s.page p).devdaxOffset (ptToPagesize (s.page p).pt) o then 0
    else s.mem u o

/-- The counter updates of `hemem_mmap_populate` for a page of tier `t`. -/
@[simps! -fullyApplied] def St.countAlloc (s : St) (t : Tier) : St :=
  (s.addNum (.mmap t) 1).subNum (.free t) 1

/-- `hemem_mmap_populate` counts for the tier of the page. -/
theorem countPopulate_inDram (t : Tier) (s : St) :
    countPopulate t.inDram s = s.countAlloc t := by
  cases t <;> rfl

/-- What placing a page requires. -/
structure Placeable (cfg : Config) (s : St) (t : Tier) (p : PageId) (va : Nat) : Prop where
  fits : (s.page p).devdaxOffset + ptToPagesize (s.page p).pt ≤ cfg.size t
  va_ne : va ≠ 0
  aligned : va % pageSize = 0
  fresh : s.pages va = none

theorem ptToPagesize_pos (pt : Pagetype) : 0 < ptToPagesize pt := by
  cases pt <;> simp [ptToPagesize]

/-- No page is larger than a huge page. -/
theorem ptToPagesize_le (pt : Pagetype) : ptToPagesize pt ≤ pageSize := by
  cases pt <;> decide

theorem inRange_start {start len : Nat} (h : 0 < len) : inRange start len start = true := by
  simp [h]

/-- What a missing fault does: an allocation and a placement, and no counter. -/
theorem handleMissingFault_ok {cfg : Config} {va : Nat} {s s' : St}
    (h : handleMissingFault cfg va s = .ok s') :
    ∃ t p rest, AllocFrom s t p rest ∧ Placeable cfg s t p va ∧
      s' = (s.alloc t p rest).place t p va := by
  simp only [handleMissingFault, pebsPagefault, bind_eq_ok, check_eq_ok, Prod.exists,
    clearSlot, uffdioRegister, addPage, findPage, Except.ok.injEq, decide_eq_true_eq, exists_const,
    bne_iff_ne, beq_iff_eq] at h
  rcases h with ⟨hva, p, s₁, halloc, s₂, ⟨hfits, rfl⟩, s₃, ⟨-, rfl⟩, -, haligned, hfresh, rfl⟩
  rcases pebsAllocatePage_ok halloc with ⟨t, rest, hfrom, rfl⟩
  have ht : Tier.ofInDram (s.page p).inDram = t := by rw [hfrom.inDram, Tier.ofInDram_inDram]
  refine ⟨t, p, rest, hfrom, ⟨?_, hva, ?_, ?_⟩, ?_⟩
  · simpa [St.alloc, ht] using hfits
  · simpa using haligned
  · simpa [St.alloc] using hfresh
  · ext1 <;> simp [St.alloc, St.place, ht]
    grind

/-- The same for an iteration of `hemem_mmap_populate`, which counts. -/
theorem populatePage_ok {cfg : Config} {va n : Nat} {s s' : St}
    (h : populatePage cfg va s = .ok (n, s')) :
    ∃ t p rest, AllocFrom s t p rest ∧ Placeable cfg s t p va ∧
      n = ptToPagesize (s.page p).pt ∧
      s' = ((s.alloc t p rest).place t p va).countAlloc t := by
  simp only [populatePage, pebsPagefault, bind_eq_ok, check_eq_ok, Prod.exists,
    clearSlot, uffdioRegister, addPage, findPage, Except.ok.injEq, decide_eq_true_eq,
    exists_const, bne_iff_ne, beq_iff_eq, Prod.mk.injEq] at h
  obtain ⟨p, s₁, halloc, s₂, ⟨hfits, rfl⟩, s₃, ⟨-, rfl⟩, hva, haligned, s₄, ⟨hfresh, rfl⟩,
    rfl, rfl⟩ := h
  rcases pebsAllocatePage_ok halloc with ⟨t, rest, hfrom, rfl⟩
  have ht : Tier.ofInDram (s.page p).inDram = t := by rw [hfrom.inDram, Tier.ofInDram_inDram]
  have hin : (s.page p).inDram = t.inDram := hfrom.inDram
  refine ⟨t, p, rest, hfrom, ⟨?_, ?_, ?_, ?_⟩, ?_, ?_⟩
  · simpa [St.alloc, ht] using hfits
  · simpa [hin, countPopulate_inDram, St.alloc] using hva
  · simpa [hin, countPopulate_inDram, St.alloc] using haligned
  · simpa [St.alloc, hin, countPopulate_inDram] using hfresh
  · simp [St.alloc]
  · clear hfits hva haligned hfresh halloc
    ext1 <;> simp [St.alloc, St.place, countPopulate_inDram, hin]
    grind

/-- A page that can be placed is placed. -/
theorem AllocFrom.handleMissingFault_eq {cfg : Config} {s : St} {t : Tier} {p va : Nat}
    {rest : List PageId} (h : AllocFrom s t p rest) (hfit : Placeable cfg s t p va) :
    handleMissingFault cfg va s = .ok ((s.alloc t p rest).place t p va) := by
  have ht : Tier.ofInDram (s.page p).inDram = t := by rw [h.inDram, Tier.ofInDram_inDram]
  have hpos := ptToPagesize_pos (s.page p).pt
  simp only [handleMissingFault, pebsPagefault, bind_eq_ok, check_eq_ok, Prod.exists,
    clearSlot, uffdioRegister, addPage, findPage, Except.ok.injEq, decide_eq_true_eq, exists_const,
    bne_iff_ne, beq_iff_eq]
  refine ⟨hfit.va_ne, p, _, h.pebsAllocatePage_eq, _, ⟨?_, rfl⟩, _, ⟨?_, rfl⟩, ?_, ?_, ?_, ?_⟩
  · simpa [St.alloc, ht] using hfit.fits
  · simp [St.alloc, hpos]
  · simpa using hfit.va_ne
  · simpa using hfit.aligned
  · simpa [St.alloc] using hfit.fresh
  · ext1 <;> simp [St.alloc, St.place, ht]
    grind

/-- `hemem_mmap_populate` places and counts it. -/
theorem AllocFrom.populatePage_eq {cfg : Config} {s : St} {t : Tier} {p va : Nat}
    {rest : List PageId} (h : AllocFrom s t p rest) (hfit : Placeable cfg s t p va) :
    populatePage cfg va s =
      .ok (ptToPagesize (s.page p).pt, ((s.alloc t p rest).place t p va).countAlloc t) := by
  have ht : Tier.ofInDram (s.page p).inDram = t := by rw [h.inDram, Tier.ofInDram_inDram]
  have hin : (s.page p).inDram = t.inDram := h.inDram
  have hpos := ptToPagesize_pos (s.page p).pt
  simp only [populatePage, pebsPagefault, bind_eq_ok, check_eq_ok, Prod.exists,
    clearSlot, uffdioRegister, addPage, findPage, Except.ok.injEq, decide_eq_true_eq,
    exists_const, bne_iff_ne, beq_iff_eq, Prod.mk.injEq]
  refine ⟨p, _, h.pebsAllocatePage_eq, _, ⟨?_, rfl⟩, _, ⟨?_, rfl⟩, ?_, ?_, _, ⟨?_, rfl⟩, ?_, ?_⟩
  · simpa [St.alloc, ht] using hfit.fits
  · simp [St.alloc, hin, countPopulate_inDram, hpos]
  · simpa [hin, countPopulate_inDram] using hfit.va_ne
  · simpa [hin, countPopulate_inDram] using hfit.aligned
  · simpa [St.alloc, hin, countPopulate_inDram] using hfit.fresh
  · simp [St.alloc]
  · ext1 <;> simp [St.alloc, St.place, countPopulate_inDram, hin]
    grind

/-- What placing a counted page preserves, `hemem_mmap_populate` preserves. -/
theorem populateLoop_preserves {cfg : Config} {P : St → Prop}
    (hplace : ∀ s t p rest va, P s → AllocFrom s t p rest → Placeable cfg s t p va →
      P (((s.alloc t p rest).place t p va).countAlloc t))
    {fuel va stop : Nat} {s s' : St} (hP : P s)
    (h : populateLoop cfg fuel va stop s = .ok s') : P s' := by
  induction fuel generalizing va s with
  | zero => simp [populateLoop] at h
  | succ fuel ih =>
    unfold populateLoop at h
    split at h
    · simp only [bind_eq_ok, Prod.exists] at h
      rcases h with ⟨n, s₁, hpage, hrest⟩
      rcases populatePage_ok hpage with ⟨t, p, rest, hfrom, hfit, -, rfl⟩
      exact ih (hplace s t p rest va hP hfrom hfit) hrest
    · simp only [Except.ok.injEq] at h
      exact h ▸ hP

/-- What `hemem_mmap` does: the reservation, and the loop if the pages are asked for. -/
theorem hememMmap_ok {cfg : Config} {p length : Nat} {populate : Bool} {s s' : St}
    (h : hememMmap cfg p length populate s = .ok s') :
    ∃ s₀, s₀ = registerRange p (pageRoundUp length) (mmapReserve p (pageRoundUp length) s) ∧
      ((populate = false ∧ s' = s₀) ∨
        (populate = true ∧ populateLoop cfg (cfg.total + 1) p
          ((p + pageRoundUp length) % 2 ^ 64) s₀ = .ok s')) := by
  simp only [hememMmap, bind_eq_ok, check_eq_ok, uffdioRegister, exists_const] at h
  rcases h with ⟨-, -, s₀, ⟨-, hs₀⟩, h⟩
  refine ⟨s₀, (Except.ok.inj hs₀).symm, ?_⟩
  cases populate with
  | false =>
    simp only [Bool.false_eq_true, if_false, Except.ok.injEq] at h
    exact Or.inl ⟨rfl, h.symm⟩
  | true =>
    simp only [if_true, hememMmapPopulate, bind_eq_ok, check_eq_ok, exists_const] at h
    exact Or.inr ⟨rfl, h.2.2⟩

/-! ## `hemem_munmap` -/

/-- What untracking a page of the table preserves, the scan preserves. -/
theorem munmapScan_preserves {P : St → Prop}
    (huntrack : ∀ s va p, P s → s.pages va = some p → P (untrackPage p s))
    {fuel va stop : Nat} {s s' : St} (hP : P s)
    (h : munmapScan fuel va stop s = .ok s') : P s' := by
  induction fuel generalizing va s with
  | zero => simp [munmapScan] at h
  | succ fuel ih =>
    unfold munmapScan at h
    split at h
    · cases hf : findPage va s with
      | some p =>
        rw [hf] at h
        exact ih (huntrack s va p hP hf) h
      | none =>
        rw [hf] at h
        exact ih hP h
    · simp only [Except.ok.injEq] at h
      exact h ▸ hP

/-- The kernel unmaps the range or refuses. -/
theorem libcMunmap_cases (addr length : Nat) (accept : Bool) (s : St) :
    libcMunmap addr length accept s = (-1, s) ∨
    libcMunmap addr length accept s =
      (0, unmapRange addr (munmapStop addr length - addr) s) := by
  unfold libcMunmap
  split
  · exact Or.inr rfl
  · exact Or.inl rfl

end Hemem
