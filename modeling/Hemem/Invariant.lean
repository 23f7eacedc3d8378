import Hemem.Lib.Custody
import Hemem.Batch

/-!
# Hemem.Invariant — what every run keeps

`Wf` collects what holds between complete operations in every run, whatever its
operations are: each descriptor is on exactly one list, its flags are those of
the list, the counters of the four migration queues are exact, and the pages
that are not free have a `va` and lie within their device.

The initial state is `wf_pebsInit`, one lemma per operation keeps the invariant,
and `wf_exec` puts them together.
-/

namespace Hemem

open Lib

structure Wf (cfg : Config) (s : St) : Prop where
  /-- no descriptor is on two lists, or twice on one -/
  excl : Exclusive s.list
  /-- the descriptors on the lists are those that `pebs_init` allocates -/
  held : ∀ p, Held s.list p ↔ p < cfg.total
  inDram : ∀ {l p}, p ∈ s.list l → (s.page p).inDram = l.tier.inDram
  present : ∀ {l p}, p ∈ s.list l → (s.page p).present = l.present
  /-- the counters of the migration queues are exact -/
  queueNum : ∀ d, (s.num (.queue d)).toNat = (s.list (.queue d)).length
  pt : ∀ p, (s.page p).pt = .hugep
  va_ne : ∀ {l p}, p ∈ s.list l → l.present = true → (s.page p).va ≠ 0
  aligned : ∀ {l p}, p ∈ s.list l → l.present = true → (s.page p).va % pageSize = 0
  fits : ∀ {l p}, p ∈ s.list l → l.present = true →
    (s.page p).devdaxOffset + pageSize ≤ cfg.size l.tier
  offAligned : ∀ p, (s.page p).devdaxOffset % pageSize = 0

variable {cfg : Config} {s s' : St}

/-- No list is longer than the number of descriptors. -/
theorem Wf.length_le (h : Wf cfg s) (l : ListId) : (s.list l).length ≤ cfg.total :=
  length_le_of_lt (h.excl.nodup l) fun p hp => (h.held p).mp ⟨l, hp⟩

/-- The length of a list fits into its counter. -/
theorem Wf.length_lt (h : Wf cfg s) (l : ListId) : (s.list l).length < 2 ^ 64 :=
  Nat.lt_of_le_of_lt (h.length_le l) cfg.total_lt

/-- The slot of a descriptor is in the tier of its list. -/
theorem Wf.slot_of_mem (h : Wf cfg s) {l : ListId} {p : PageId} (hp : p ∈ s.list l) :
    (s.page p).slot = (l.tier, (s.page p).devdaxOffset) := by
  simp [HememPage.slot, HememPage.tier, h.inDram hp]

/-- `Wf` looks at the descriptors, the lists and the four queue counters only. -/
theorem Wf.congr (h : Wf cfg s) (hpage : s'.page = s.page) (hlist : s'.list = s.list)
    (hnum : ∀ d, s'.num (.queue d) = s.num (.queue d)) : Wf cfg s' := by
  constructor
  case excl => exact hlist ▸ h.excl
  case held => exact hlist ▸ h.held
  case inDram =>
    rw [hlist, hpage]; exact h.inDram
  case present =>
    rw [hlist, hpage]; exact h.present
  case queueNum =>
    intro d
    rw [hnum, hlist]
    exact h.queueNum d
  case pt =>
    rw [hpage]; exact h.pt
  case va_ne =>
    rw [hlist, hpage]; exact h.va_ne
  case aligned =>
    rw [hlist, hpage]; exact h.aligned
  case fits =>
    rw [hlist, hpage]; exact h.fits
  case offAligned =>
    rw [hpage]; exact h.offAligned

/-! ## Requests -/

/-- Reordering one list keeps the invariant. -/
theorem Wf.reorder (h : Wf cfg s) {l : ListId} {ps : List PageId}
    (hperm : ps.Perm (s.list l)) : Wf cfg (s.setList l ps) := by
  have hself : ((s.setList l ps).list l).Perm (s.list l) := by simpa using hperm
  have hrest : ∀ k, k ≠ l → (s.setList l ps).list k = s.list k := by
    intro k hk
    simp [hk]
  -- the lists have the same members, and so everything that is said of these goes over
  have hmem : ∀ {k p}, p ∈ (s.setList l ps).list k → p ∈ s.list k := by
    intro k p hp
    by_cases hk : k = l
    · subst hk
      exact hself.mem_iff.mp hp
    · exact hrest k hk ▸ hp
  constructor
  case excl => exact h.excl.reorder hself hrest
  case held =>
    intro p
    rw [held_reorder hself hrest]
    exact h.held p
  case inDram => exact fun hp => h.inDram (hmem hp)
  case present => exact fun hp => h.present (hmem hp)
  case queueNum =>
    intro d
    by_cases hk : ListId.queue d = l
    · subst hk
      simp only [St.setList_num, St.setList_list, Function.update_self]
      rw [h.queueNum d, hperm.length_eq]
    · rw [hrest _ hk]
      exact h.queueNum d
  case pt => exact h.pt
  case va_ne => exact fun hp => h.va_ne (hmem hp)
  case aligned => exact fun hp => h.aligned (hmem hp)
  case fits => exact fun hp => h.fits (hmem hp)
  case offAligned => exact h.offAligned

theorem toNat_add_one {x : UInt64} (h : x.toNat + 1 < 2 ^ 64) : (x + 1).toNat = x.toNat + 1 := by
  rw [UInt64.toNat_add]
  simp only [UInt64.reduceToNat]
  omega

/-- The hand-over of a request: from the mmap list to the queue. -/
theorem put_handOver {d : Dir} {p : PageId} {rest : List PageId}
    (hl : s.list (.mmap d.src) = p :: rest) :
    HandOver s.list (s.put d p rest).list (.mmap d.src) (.queue d) := by
  refine ⟨by simp, ?_, ?_⟩
  · simp [St.put, hl]
    grind
  · intro k hk hk'
    simp [St.put, hk, hk']

/-- A page that a request puts on a queue changes lists, and the counters with them. -/
theorem Wf.put (h : Wf cfg s) {d : Dir} {p : PageId} {rest : List PageId}
    (hl : s.list (.mmap d.src) = p :: rest) : Wf cfg (s.put d p rest) := by
  have hho := put_handOver hl
  have hpm : p ∈ s.list (.mmap d.src) := by simp [hl]
  -- every page is on a list of the same tier and the same `present` as before
  have hmem : ∀ {k q}, q ∈ (s.put d p rest).list k →
      ∃ k', q ∈ s.list k' ∧ k'.tier = k.tier ∧ k'.present = k.present := by
    intro k q hq
    simp only [St.put, St.subNum_list, St.addNum_list, St.setList_list,
      Function.update_apply] at hq
    split at hq
    · rename_i hk
      subst hk
      rcases List.mem_append.mp hq with hq | hq
      · exact ⟨_, hq, rfl, rfl⟩
      · rw [List.mem_singleton.mp hq]
        exact ⟨_, hpm, rfl, rfl⟩
    · split at hq
      · rename_i hk
        subst hk
        exact ⟨_, hl ▸ List.mem_cons_of_mem _ hq, rfl, rfl⟩
      · exact ⟨_, hq, rfl, rfl⟩
  have hexcl := h.excl.handOver hho
  have hheld : ∀ q, Held (s.put d p rest).list q ↔ q < cfg.total := by
    intro q
    rw [hho.held_iff]
    exact h.held q
  constructor
  case excl => exact hexcl
  case held => exact hheld
  case inDram =>
    intro k q hq
    rcases hmem hq with ⟨k', hk', ht, -⟩
    exact ht ▸ h.inDram hk'
  case present =>
    intro k q hq
    rcases hmem hq with ⟨k', hk', -, hp⟩
    exact hp ▸ h.present hk'
  case queueNum =>
    intro e
    by_cases he : e = d
    · subst he
      have hlen : (s.list (.queue e) ++ [p]).length ≤ cfg.total := by
        refine length_le_of_lt ?_ ?_
        · simpa [St.put] using hexcl.nodup (.queue e)
        · intro q hq
          exact (hheld q).mp ⟨.queue e, by simpa [St.put] using hq⟩
      have hlt := cfg.total_lt
      have hq := h.queueNum e
      simp only [List.length_append, List.length_singleton] at hlen
      simp only [St.put, St.subNum_num, St.addNum_num, St.setList_num, St.subNum_list,
        St.addNum_list, St.setList_list, Function.update_self,
        Function.update_of_ne (by simp : ListId.queue e ≠ .mmap e.src), List.length_append,
        List.length_singleton]
      rw [toNat_add_one (by omega), hq]
    · simp [St.put, he, h.queueNum e]
  case pt => exact h.pt
  case va_ne =>
    intro k q hq hk
    rcases hmem hq with ⟨k', hk', -, hp⟩
    exact h.va_ne hk' (hp ▸ hk)
  case aligned =>
    intro k q hq hk
    rcases hmem hq with ⟨k', hk', -, hp⟩
    exact h.aligned hk' (hp ▸ hk)
  case fits =>
    intro k q hq hk
    rcases hmem hq with ⟨k', hk', ht, hp⟩
    exact ht ▸ h.fits hk' (hp ▸ hk)
  case offAligned => exact h.offAligned

/-- A request keeps the invariant. -/
theorem Wf.request (h : Wf cfg s) {d : Dir} {n : Int} {random : Bool} {rand : Nat → Nat}
    {k : Nat} (hr : request d n random rand s = .ok (k, s')) : Wf cfg s' :=
  requestLoop_preserves (fun _ n h => h.reorder (List.rotate_perm _ n))
    (fun _ _ _ h hl => h.put hl) h hr

/-! ## Allocation -/

/-- The hand-over of an allocation: from the free list to the mmap list. -/
theorem alloc_handOver {t : Tier} {p : PageId} {rest : List PageId}
    (hl : s.list (.free t) = p :: rest) :
    HandOver s.list (s.alloc t p rest).list (.free t) (.mmap t) := by
  refine ⟨by simp, ?_, ?_⟩
  · simp [St.alloc, hl]
    grind
  · intro k hk hk'
    simp [St.alloc, hk, hk']

/-- On which list a page is after an allocation. -/
theorem mem_alloc {t : Tier} {p : PageId} {rest : List PageId}
    (hl : s.list (.free t) = p :: rest) (hx : Exclusive s.list) {k : ListId} {q : PageId}
    (hq : q ∈ (s.alloc t p rest).list k) :
    (q = p ∧ k = .mmap t) ∨ (q ≠ p ∧ q ∈ s.list k) := by
  have hpm : p ∈ s.list (.free t) := by simp [hl]
  have hnd := hx.nodup (.free t)
  rw [hl, List.nodup_cons] at hnd
  simp only [St.alloc, St.setList_list, Function.update_apply] at hq
  split at hq
  · rename_i hk
    subst hk
    rcases List.mem_append.mp hq with hold | hnew
    · refine Or.inr ⟨?_, hold⟩
      rintro rfl
      exact absurd (hx.unique hpm hold) (by simp)
    · exact Or.inl ⟨List.mem_singleton.mp hnew, rfl⟩
  · split at hq
    · rename_i hk
      subst hk
      exact Or.inr ⟨fun h => hnd.1 (h ▸ hq), hl ▸ List.mem_cons_of_mem _ hq⟩
    · rename_i hk
      refine Or.inr ⟨?_, hq⟩
      rintro rfl
      exact hk (hx.unique hq hpm)

/-- A page that is allocated and placed gets a `va` and lies within its device. -/
theorem Wf.place (h : Wf cfg s) {t : Tier} {p va : Nat} {rest : List PageId}
    (hfrom : AllocFrom s t p rest) (hfit : Placeable cfg s t p va) :
    Wf cfg ((s.alloc t p rest).place t p va) := by
  have hho := alloc_handOver hfrom.head
  have hpm : p ∈ s.list (.free t) := by simp [hfrom.head]
  -- the descriptors other than `p` are untouched
  have hother : ∀ {q}, q ≠ p → ((s.alloc t p rest).place t p va).page q = s.page q := by
    intro q hq
    simp [St.place, St.alloc, hq]
  have hself : ((s.alloc t p rest).place t p va).page p =
      { s.page p with
        va := va, present := true, migrating := false, migrationsUp := 0, migrationsDown := 0 } := by
    simp [St.place, St.alloc]
  -- `p` is on the mmap list now, and every other page is where it was
  have hmem : ∀ {k q}, q ∈ ((s.alloc t p rest).place t p va).list k →
      (q = p ∧ k = .mmap t) ∨ (q ≠ p ∧ q ∈ s.list k) := fun hq => mem_alloc hfrom.head h.excl hq
  constructor
  case excl => exact h.excl.handOver hho
  case held =>
    intro q
    rw [← h.held q]
    exact hho.held_iff
  case inDram =>
    intro k q hq
    rcases hmem hq with ⟨rfl, rfl⟩ | ⟨hne, hq⟩
    · rw [hself]
      exact hfrom.inDram
    · rw [hother hne]
      exact h.inDram hq
  case present =>
    intro k q hq
    rcases hmem hq with ⟨rfl, rfl⟩ | ⟨hne, hq⟩
    · rw [hself]
      rfl
    · rw [hother hne]
      exact h.present hq
  case queueNum =>
    intro d
    have hd : ((s.alloc t p rest).place t p va).list (.queue d) = s.list (.queue d) := by
      simp [St.place, St.alloc]
    rw [hd]
    exact h.queueNum d
  case pt =>
    intro q
    by_cases hq : q = p
    · subst hq
      rw [hself]
      exact h.pt q
    · rw [hother hq]
      exact h.pt q
  case va_ne =>
    intro k q hq hk
    rcases hmem hq with ⟨rfl, rfl⟩ | ⟨hne, hq⟩
    · rw [hself]
      exact hfit.va_ne
    · rw [hother hne]
      exact h.va_ne hq hk
  case aligned =>
    intro k q hq hk
    rcases hmem hq with ⟨rfl, rfl⟩ | ⟨hne, hq⟩
    · rw [hself]
      exact hfit.aligned
    · rw [hother hne]
      exact h.aligned hq hk
  case fits =>
    intro k q hq hk
    rcases hmem hq with ⟨rfl, rfl⟩ | ⟨hne, hq⟩
    · have hfits := hfit.fits
      rw [h.pt, ptToPagesize] at hfits
      rw [hself]
      exact hfits
    · rw [hother hne]
      exact h.fits hq hk
  case offAligned =>
    intro q
    by_cases hq : q = p
    · subst hq
      rw [hself]
      exact h.offAligned q
    · rw [hother hq]
      exact h.offAligned q

/-- The counters of the tiers are not part of the invariant. -/
theorem Wf.countAlloc (h : Wf cfg s) (t : Tier) : Wf cfg (s.countAlloc t) :=
  h.congr rfl rfl fun d => by simp

/-- A missing fault keeps the invariant. -/
theorem Wf.missingFault (h : Wf cfg s) {va : Nat}
    (hr : handleMissingFault cfg va s = .ok s') : Wf cfg s' := by
  rcases handleMissingFault_ok hr with ⟨t, p, rest, hfrom, hfit, rfl⟩
  exact h.place hfrom hfit

/-- A mapping keeps the invariant, with its pages or without. -/
theorem Wf.mmap (h : Wf cfg s) {p length : Nat} {populate : Bool}
    (hr : hememMmap cfg p length populate s = .ok s') : Wf cfg s' := by
  rcases hememMmap_ok hr with ⟨s₀, rfl, hcase⟩
  have h₀ : Wf cfg (registerRange p (pageRoundUp length)
      (mmapReserve p (pageRoundUp length) s)) := h.congr rfl rfl fun _ => rfl
  rcases hcase with ⟨-, rfl⟩ | ⟨-, hloop⟩
  · exact h₀
  · exact populateLoop_preserves (fun _ _ _ _ _ h hfrom hfit => (h.place hfrom hfit).countAlloc _)
      h₀ hloop

/-! ## `hemem_munmap` and stores -/

/-- `hemem_munmap` leaves the descriptor of a page on its list. -/
theorem Wf.untrack (h : Wf cfg s) (p : PageId) : Wf cfg (untrackPage p s) := by
  refine h.congr ?_ ?_ fun d => ?_ <;>
    · unfold untrackPage countMunmap
      split <;> simp

/-- An unmapping keeps the invariant. -/
theorem Wf.munmap (h : Wf cfg s) {fuel addr length : Nat} {accept : Bool} {ret : Int}
    (hr : hememMunmap fuel addr length accept s = .ok (ret, s')) : Wf cfg s' := by
  simp only [hememMunmap, bind_eq_ok, Except.ok.injEq] at hr
  rcases hr with ⟨s₁, hscan, hs'⟩
  have h₁ : Wf cfg s₁ := munmapScan_preserves (fun _ _ p h _ => h.untrack p) h hscan
  rcases libcMunmap_cases addr length accept s₁ with hcase | hcase
  · obtain rfl := (Prod.mk.inj (hcase.symm.trans hs')).2
    exact h₁
  · obtain rfl := (Prod.mk.inj (hcase.symm.trans hs')).2
    exact h₁.congr rfl rfl fun _ => rfl

/-- A store of the application keeps the invariant. -/
theorem Wf.write (h : Wf cfg s) {a : Nat} {v : Byte} (hr : appWrite a v s = .ok s') :
    Wf cfg s' := by
  unfold appWrite at hr
  split at hr
  · simp only [bind_eq_ok, check_eq_ok, Except.ok.injEq] at hr
    rcases hr with ⟨-, -, rfl⟩
    exact h.congr rfl rfl fun _ => rfl
  · cases hr

/-! ## Batches -/

/-- `n` pages of a queue and `n` free descriptors for them. -/
structure Ready (d : Dir) (n : Nat) (s : St) : Prop where
  queue : n ≤ (s.list (.queue d)).length
  free : n ≤ (s.list (.free d.dst)).length

/-- A page that waits is not free. -/
theorem Wf.queue_notMem_free (h : Wf cfg s) {d : Dir} {t : Tier} {p : PageId}
    (hp : p ∈ s.list (.queue d)) : p ∉ s.list (.free t) :=
  fun hf => by simpa using h.excl.unique hp hf

/-- No page is twice in a batch. -/
theorem Wf.live_nodup (h : Wf cfg s) {d : Dir} {n : Nat} (hr : Ready d n s) :
    ((batchPairs d n s).map Prod.fst).Nodup := by
  rw [batchPairs_fst hr.queue hr.free]
  exact (h.excl.nodup _).sublist (List.take_sublist _ _)

/-- No descriptor is twice in a batch. -/
theorem Wf.free_nodup (h : Wf cfg s) {d : Dir} {n : Nat} (hr : Ready d n s) :
    ((batchPairs d n s).map Prod.snd).Nodup := by
  rw [batchPairs_snd hr.queue hr.free]
  exact (h.excl.nodup _).sublist (List.take_sublist _ _)

theorem mem_queue_of_pair {d : Dir} {n : Nat} {b : Pair} (hb : b ∈ batchPairs d n s) :
    b.1 ∈ s.list (.queue d) := List.mem_of_mem_take (List.of_mem_zip hb).1

theorem mem_free_of_pair {d : Dir} {n : Nat} {b : Pair} (hb : b ∈ batchPairs d n s) :
    b.2 ∈ s.list (.free d.dst) := List.mem_of_mem_take (List.of_mem_zip hb).2

@[simp] theorem countBatch_page (d : Dir) (n : UInt64) (s : St) :
    (countBatch d n s).page = s.page := by
  cases d <;> rfl

@[simp] theorem countBatch_list (d : Dir) (n : UInt64) (s : St) :
    (countBatch d n s).list = s.list := by
  cases d <;> rfl

@[simp] theorem countBatch_pages (d : Dir) (n : UInt64) (s : St) :
    (countBatch d n s).pages = s.pages := by
  cases d <;> rfl

/-- The page of a pair after the batch. -/
theorem Wf.batched_live (h : Wf cfg s) {d : Dir} {n : Nat} (hr : Ready d n s) {b : Pair}
    (hb : b ∈ batchPairs d n s) :
    (s.batched d n).page b.1 = moved d (s.page b.2).devdaxOffset (s.page b.1) := by
  have hfst : ((batchPairs d n s).map (moveOf s)).map Prod.fst =
      (batchPairs d n s).map Prod.fst := by simp [moveOf]
  have hnot : b.1 ∉ (batchPairs d n s).map Prod.snd := by
    rw [batchPairs_snd hr.queue hr.free]
    exact fun hm => h.queue_notMem_free (mem_queue_of_pair hb) (List.mem_of_mem_take hm)
  have hpage := migrated_page_mem (s := s.dequeued d n) (d := d)
    (hfst ▸ h.live_nodup hr) (List.mem_map_of_mem hb : moveOf s b ∈ _)
  simp only [St.batched, countBatch_page, St.enqueued, if_neg hnot]
  exact hpage

/-- The free descriptor of a pair after the batch. -/
theorem Wf.batched_free (h : Wf cfg s) {d : Dir} {n : Nat} (hr : Ready d n s) {b : Pair}
    (hb : b ∈ batchPairs d n s) :
    (s.batched d n).page b.2 = freed d (s.page b.2) := by
  have hfst : ((batchPairs d n s).map (moveOf s)).map Prod.fst =
      (batchPairs d n s).map Prod.fst := by simp [moveOf]
  have hmem : b.2 ∈ (batchPairs d n s).map Prod.snd := List.mem_map_of_mem hb
  have hnot : b.2 ∉ ((batchPairs d n s).map (moveOf s)).map Prod.fst := by
    rw [hfst, batchPairs_fst hr.queue hr.free]
    exact fun hm => h.queue_notMem_free (List.mem_of_mem_take hm) (mem_free_of_pair hb)
  have hpage := migrated_page_other (s := s.dequeued d n) (d := d) hnot
  simp only [St.batched, countBatch_page, St.enqueued, if_pos hmem, hpage, dequeued_page]

/-- A descriptor that takes no part in the batch. -/
theorem batched_other {d : Dir} {n : Nat} {x : PageId}
    (h1 : x ∉ (batchPairs d n s).map Prod.fst) (h2 : x ∉ (batchPairs d n s).map Prod.snd) :
    (s.batched d n).page x = s.page x := by
  have hnot : x ∉ ((batchPairs d n s).map (moveOf s)).map Prod.fst := by
    simpa [moveOf] using h1
  have hpage := migrated_page_other (s := s.dequeued d n) (d := d) hnot
  simp only [St.batched, countBatch_page, St.enqueued, if_neg h2, hpage, dequeued_page]

/-- The lists after the pages have changed from their queue to the mmap list. -/
def moveLive (d : Dir) (n : Nat) (list : ListId → List PageId) : ListId → List PageId :=
  Function.update
    (Function.update list (.queue d) ((list (.queue d)).drop n)) (.mmap d.dst)
    (list (.mmap d.dst) ++ (list (.queue d)).take n)

/-- The lists after the free descriptors have changed from the free list of the
destination to that of the source. -/
def moveFree (d : Dir) (n : Nat) (list : ListId → List PageId) : ListId → List PageId :=
  Function.update
    (Function.update list (.free d.dst) ((list (.free d.dst)).drop n)) (.free d.src)
    (Function.update list (.free d.dst) ((list (.free d.dst)).drop n) (.free d.src) ++
      (list (.free d.dst)).take n)

/-- A batch makes the two hand-overs one after the other. -/
theorem batched_list {d : Dir} {n : Nat} (hr : Ready d n s) :
    (s.batched d n).list = moveFree d n (moveLive d n s.list) := by
  simp only [St.batched, countBatch_list, St.enqueued, migrated_list, St.dequeued,
    St.setList_list, batchPairs_fst hr.queue hr.free, batchPairs_snd hr.queue hr.free,
    moveFree, moveLive]
  funext l
  cases l <;> simp [Function.update_apply]

theorem drop_append_take_perm {α : Type*} (n : Nat) (q m : List α) :
    (q.drop n ++ (m ++ q.take n)).Perm (q ++ m) := by
  have hswap : (q.drop n ++ (m ++ q.take n)).Perm ((m ++ q.take n) ++ q.drop n) :=
    List.perm_append_comm
  rw [List.append_assoc, List.take_append_drop] at hswap
  exact hswap.trans List.perm_append_comm

/-- The pages of a batch go from the queue to the mmap list. -/
theorem moveLive_handOver (d : Dir) (n : Nat) (list : ListId → List PageId) :
    HandOver list (moveLive d n list) (.queue d) (.mmap d.dst) := by
  refine ⟨by simp, ?_, ?_⟩
  · simp only [moveLive, Function.update_self, Function.update_of_ne
      (by simp : ListId.queue d ≠ .mmap d.dst)]
    exact drop_append_take_perm n _ _
  · intro k hk hk'
    simp [moveLive, hk, hk']

/-- Between two tiers the free descriptors change lists. -/
theorem moveFree_handOver {d : Dir} (hd : d.dst ≠ d.src) (n : Nat)
    (list : ListId → List PageId) :
    HandOver list (moveFree d n list) (.free d.dst) (.free d.src) := by
  refine ⟨by simpa using hd, ?_, ?_⟩
  · have hne : ListId.free d.dst ≠ .free d.src := by simpa using hd
    simp only [moveFree, Function.update_self, Function.update_of_ne hne,
      Function.update_of_ne hne.symm]
    exact drop_append_take_perm n _ _
  · intro k hk hk'
    simp [moveFree, hk, hk']

/-- Within one tier they go to the end of their list. -/
theorem moveFree_same {d : Dir} (hd : d.dst = d.src) (n : Nat) (list : ListId → List PageId) :
    (moveFree d n list (.free d.src)).Perm (list (.free d.src)) ∧
      ∀ k, k ≠ .free d.src → moveFree d n list k = list k := by
  constructor
  · simp only [moveFree, hd, Function.update_self]
    exact List.perm_append_comm.trans (by rw [List.take_append_drop])
  · intro k hk
    simp [moveFree, hd, hk]

/-- A batch hands pages and descriptors over, so that each stays on one list. -/
theorem Wf.batched_excl (h : Wf cfg s) {d : Dir} {n : Nat} (hr : Ready d n s) :
    Exclusive (s.batched d n).list ∧ ∀ p, Held (s.batched d n).list p ↔ p < cfg.total := by
  have h1 := moveLive_handOver d n s.list
  have hx := h.excl.handOver h1
  rw [batched_list hr]
  by_cases hd : d.dst = d.src
  · have h2 := moveFree_same hd n (moveLive d n s.list)
    refine ⟨hx.reorder h2.1 h2.2, fun p => ?_⟩
    rw [held_reorder h2.1 h2.2, h1.held_iff]
    exact h.held p
  · have h2 := moveFree_handOver hd n (moveLive d n s.list)
    refine ⟨hx.handOver h2, fun p => ?_⟩
    rw [h2.held_iff, h1.held_iff]
    exact h.held p

/-- Where a descriptor is after a batch: moved, freed, or where it was. -/
theorem mem_batched {d : Dir} {n : Nat} (hr : Ready d n s) {k : ListId} {x : PageId}
    (hx : x ∈ (s.batched d n).list k) :
    (x ∈ (batchPairs d n s).map Prod.fst ∧ k = .mmap d.dst) ∨
    (x ∈ (batchPairs d n s).map Prod.snd ∧ k = .free d.src) ∨ x ∈ s.list k := by
  rw [batched_list hr] at hx
  rw [batchPairs_fst hr.queue hr.free, batchPairs_snd hr.queue hr.free]
  -- where an entry of the list has come from, list by list
  cases k with
  | queue e =>
    refine Or.inr (Or.inr ?_)
    by_cases he : e = d
    · subst he
      simp only [moveFree, moveLive, ne_eq, reduceCtorEq, not_false_eq_true,
        Function.update_of_ne, Function.update_self] at hx
      exact List.mem_of_mem_drop hx
    · simpa [moveFree, moveLive, he] using hx
  | mmap t =>
    by_cases ht : t = d.dst
    · subst ht
      simp only [moveFree, moveLive, ne_eq, reduceCtorEq, not_false_eq_true,
        Function.update_of_ne, Function.update_self, List.mem_append] at hx
      rcases hx with hx | hx
      · exact Or.inr (Or.inr hx)
      · exact Or.inl ⟨hx, rfl⟩
    · refine Or.inr (Or.inr ?_)
      simpa [moveFree, moveLive, ht] using hx
  | free t =>
    have hlive : ∀ u, moveLive d n s.list (.free u) = s.list (.free u) := by
      intro u
      simp [moveLive]
    simp only [moveFree, hlive, Function.update_apply, ListId.free.injEq] at hx
    -- source and destination may be the same tier: then one list loses and gains descriptors
    split at hx
    · rename_i ht
      subst ht
      rcases List.mem_append.mp hx with hx | hx
      · split at hx
        · rename_i hsd
          exact Or.inr (Or.inr (hsd ▸ List.mem_of_mem_drop hx))
        · exact Or.inr (Or.inr hx)
      · exact Or.inr (Or.inl ⟨hx, rfl⟩)
    · split at hx
      · rename_i ht
        subst ht
        exact Or.inr (Or.inr (List.mem_of_mem_drop hx))
      · exact Or.inr (Or.inr hx)

theorem toNat_sub_ofNat {x : UInt64} {n : Nat} (h : n ≤ x.toNat) :
    (x - UInt64.ofNat n).toNat = x.toNat - n := by
  have hlt := x.toNat_lt
  have hn : (UInt64.ofNat n).toNat = n := by
    rw [UInt64.toNat_ofNat']
    omega
  rw [UInt64.toNat_sub, hn]
  omega

/-- The counter of the queue of the batch goes down by its size; the other three
queue counters stay. -/
theorem countBatch_queue (d e : Dir) (n : UInt64) (s : St) :
    (countBatch d n s).num (.queue e) =
      if e = d then s.num (.queue e) - n else s.num (.queue e) := by
  cases d <;> cases e <;> simp [countBatch]

/-- A batch takes the head of its queue. -/
theorem batched_queue {d e : Dir} {n : Nat} (hr : Ready d n s) :
    (s.batched d n).list (.queue e) =
      if e = d then (s.list (.queue e)).drop n else s.list (.queue e) := by
  rw [batched_list hr]
  by_cases he : e = d
  · subst he
    simp [moveFree, moveLive]
  · simp [moveFree, moveLive, he]

/-- The counter of the queue falls by the size of the batch. -/
theorem batched_queueNum {d : Dir} {n : Nat} (e : Dir) :
    (s.batched d n).num (.queue e) =
      if e = d then s.num (.queue e) - UInt64.ofNat n else s.num (.queue e) := by
  simp [St.batched, countBatch_queue, St.enqueued, St.dequeued]

/-- A batch that can be completed keeps the invariant. -/
theorem Wf.batched (h : Wf cfg s) {d : Dir} {n : Nat} (hr : Ready d n s)
    (hc : Completable cfg d n s) : Wf cfg (s.batched d n) := by
  rcases h.batched_excl hr with ⟨hexcl, hheld⟩
  -- a descriptor that stays on its list takes no part in the batch, or is rewritten
  -- by it and then is on the list that `mem_batched` names
  have hcase : ∀ {k x}, x ∈ (s.batched d n).list k →
      (∃ b ∈ batchPairs d n s, x = b.1 ∧ k = .mmap d.dst) ∨
      (∃ b ∈ batchPairs d n s, x = b.2 ∧ k = .free d.src) ∨
      ((s.batched d n).page x = s.page x ∧ x ∈ s.list k) := by
    intro k x hx
    by_cases h1 : x ∈ (batchPairs d n s).map Prod.fst
    · rcases List.mem_map.mp h1 with ⟨b, hb, rfl⟩
      have hin : b.1 ∈ (s.batched d n).list (.mmap d.dst) := by
        rw [batched_list hr]
        have htake : b.1 ∈ (s.list (.queue d)).take n := (List.of_mem_zip hb).1
        simp [moveFree, moveLive, htake]
      exact Or.inl ⟨b, hb, rfl, hexcl.unique hx hin⟩
    · by_cases h2 : x ∈ (batchPairs d n s).map Prod.snd
      · rcases List.mem_map.mp h2 with ⟨b, hb, rfl⟩
        have hin : b.2 ∈ (s.batched d n).list (.free d.src) := by
          rw [batched_list hr]
          have htake : b.2 ∈ (s.list (.free d.dst)).take n := (List.of_mem_zip hb).2
          simp [moveFree, moveLive, htake]
        exact Or.inr (Or.inl ⟨b, hb, rfl, hexcl.unique hx hin⟩)
      · refine Or.inr (Or.inr ⟨batched_other h1 h2, ?_⟩)
        rcases mem_batched hr hx with ⟨h1', -⟩ | ⟨h2', -⟩ | hx
        · exact absurd h1' h1
        · exact absurd h2' h2
        · exact hx
  constructor
  case excl => exact hexcl
  case held => exact hheld
  case inDram =>
    intro k x hx
    rcases hcase hx with ⟨b, hb, rfl, rfl⟩ | ⟨b, hb, rfl, rfl⟩ | ⟨hpage, hx⟩
    · rw [h.batched_live hr hb]
      rfl
    · rw [h.batched_free hr hb]
      rfl
    · rw [hpage]
      exact h.inDram hx
  case present =>
    intro k x hx
    rcases hcase hx with ⟨b, hb, rfl, rfl⟩ | ⟨b, hb, rfl, rfl⟩ | ⟨hpage, hx⟩
    · rw [h.batched_live hr hb, moved_present, h.present (mem_queue_of_pair hb)]
      rfl
    · rw [h.batched_free hr hb]
      rfl
    · rw [hpage]
      exact h.present hx
  case queueNum =>
    intro e
    rw [batched_queueNum, batched_queue hr]
    split
    · rename_i he
      subst he
      rw [toNat_sub_ofNat (by rw [h.queueNum]; exact hr.queue), h.queueNum, List.length_drop]
    · exact h.queueNum e
  case pt =>
    intro x
    by_cases h1 : x ∈ (batchPairs d n s).map Prod.fst
    · rcases List.mem_map.mp h1 with ⟨b, hb, rfl⟩
      rw [h.batched_live hr hb, moved_pt]
      exact h.pt _
    · by_cases h2 : x ∈ (batchPairs d n s).map Prod.snd
      · rcases List.mem_map.mp h2 with ⟨b, hb, rfl⟩
        rw [h.batched_free hr hb, freed_pt]
        exact h.pt _
      · rw [batched_other h1 h2]
        exact h.pt x
  case va_ne =>
    intro k x hx hk
    rcases hcase hx with ⟨b, hb, rfl, rfl⟩ | ⟨b, hb, rfl, rfl⟩ | ⟨hpage, hx⟩
    · rw [h.batched_live hr hb, moved_va]
      exact h.va_ne (mem_queue_of_pair hb) rfl
    · cases hk
    · rw [hpage]
      exact h.va_ne hx hk
  case aligned =>
    intro k x hx hk
    rcases hcase hx with ⟨b, hb, rfl, rfl⟩ | ⟨b, hb, rfl, rfl⟩ | ⟨hpage, hx⟩
    · rw [h.batched_live hr hb, moved_va]
      exact h.aligned (mem_queue_of_pair hb) rfl
    · cases hk
    · rw [hpage]
      exact h.aligned hx hk
  case fits =>
    intro k x hx hk
    rcases hcase hx with ⟨b, hb, rfl, rfl⟩ | ⟨b, hb, rfl, rfl⟩ | ⟨hpage, hx⟩
    · have hfit := (hc.migratable b hb).copyable.fitsNew
      rw [h.pt] at hfit
      rw [h.batched_live hr hb]
      exact hfit
    · cases hk
    · rw [hpage]
      exact h.fits hx hk
  case offAligned =>
    intro x
    by_cases h1 : x ∈ (batchPairs d n s).map Prod.fst
    · rcases List.mem_map.mp h1 with ⟨b, hb, rfl⟩
      rw [h.batched_live hr hb, moved_devdaxOffset]
      exact h.offAligned _
    · by_cases h2 : x ∈ (batchPairs d n s).map Prod.snd
      · rcases List.mem_map.mp h2 with ⟨b, hb, rfl⟩
        rw [h.batched_free hr hb, freed_devdaxOffset]
        exact h.offAligned _
      · rw [batched_other h1 h2]
        exact h.offAligned x

/-- A batch takes no more than the counter says. -/
theorem batchSize_le (numBatchs : Nat) (d : Dir) (s : St) :
    batchSize numBatchs d s ≤ (s.num (.queue d)).toNat := by
  unfold batchSize
  split <;> omega

/-- The queue of a batch is long enough, since its counter is exact. -/
theorem Wf.batchSize_le_length (h : Wf cfg s) (numBatchs : Nat) (d : Dir) :
    batchSize numBatchs d s ≤ (s.list (.queue d)).length :=
  h.queueNum d ▸ batchSize_le numBatchs d s

/-- In a state with the invariant a batch succeeds exactly when it can be completed. -/
theorem Wf.migrateBatch_ok (h : Wf cfg s) {numBatchs : Nat} {d : Dir} :
    migrateBatch cfg numBatchs d s = .ok s' ↔
      Completable cfg d (batchSize numBatchs d s) s ∧
        s' = s.batched d (batchSize numBatchs d s) :=
  Hemem.migrateBatch_ok rfl (h.batchSize_le_length numBatchs d) h.pt
    fun _ hp => h.queue_notMem_free hp

/-- The counter of a queue is its length, so a batch finds its pages. -/
theorem Wf.ready (h : Wf cfg s) {numBatchs : Nat} {d : Dir}
    (hc : Completable cfg d (batchSize numBatchs d s) s) :
    Ready d (batchSize numBatchs d s) s :=
  ⟨h.batchSize_le_length numBatchs d, hc.enough⟩

/-- An iteration of the migration thread keeps the invariant. -/
theorem Wf.migrate (h : Wf cfg s) {numBatchs : Nat} {d : Dir}
    (hr : migrationRequest cfg numBatchs d s = .ok s') : Wf cfg s' := by
  unfold migrationRequest at hr
  split at hr
  · simp only [Except.ok.injEq] at hr
    exact hr ▸ h
  · rcases h.migrateBatch_ok.mp hr with ⟨hc, rfl⟩
    exact h.batched (h.ready hc) hc

/-! ## `pebs_init` -/

/-- The loop of `pebs_init` over a tier, in one assignment. -/
theorem initLoop_eq (t : Tier) (first n : Nat) (s : St) :
    initLoop t first n s =
      { s with
        page := fun (p : Nat) =>
          if first ≤ p ∧ p < first + n then newPage t (p - first) else s.page p
        list := Function.update s.list (.free t)
          (s.list (.free t) ++ (List.range n).map (first + ·))
        num := Function.update s.num (.free t) (s.num (.free t) + UInt64.ofNat n) } := by
  induction n with
  | zero =>
    ext1 <;> simp [initLoop]
    funext (p : Nat)
    rw [if_neg (by omega)]
  | succ n ih =>
    -- the last page is initialised over the state of the others
    have hstep : initLoop t first (n + 1) s = initPage t (first + n) n (initLoop t first n s) := by
      simp [initLoop, List.range_succ]
    rw [hstep, ih]
    ext1 <;> simp [initPage, List.range_succ, UInt64.ofNat_add, UInt64.add_assoc]
    funext (p : Nat)
    by_cases hp : p = first + n
    · subst hp
      simp
    · rw [Function.update_of_ne hp]
      by_cases hlt : first ≤ p ∧ p < first + n
      · rw [if_pos hlt, if_pos (by omega)]
      · rw [if_neg hlt, if_neg (by omega)]

/-- The descriptors that `pebs_init` leaves. -/
theorem pebsInit_page (cfg : Config) (p : Nat) :
    (pebsInit cfg).page p =
      if p < cfg.npages .dram then newPage .dram p
      else if p < cfg.total then newPage .nvm (p - cfg.npages .dram) else newPage .nvm 0 := by
  have htotal : cfg.total = cfg.npages .dram + cfg.npages .nvm := rfl
  simp only [pebsInit, initLoop_eq, St.empty]
  by_cases hd : p < cfg.npages .dram
  · rw [if_neg (by omega), if_pos (by omega), if_pos hd, Nat.sub_zero]
  · rw [if_neg hd]
    by_cases hn : p < cfg.total
    · rw [if_pos (by omega), if_pos hn]
    · rw [if_neg (by omega), if_neg (by omega), if_neg hn]

/-- The lists that `pebs_init` leaves. -/
theorem pebsInit_list (cfg : Config) (l : ListId) :
    (pebsInit cfg).list l =
      match l with
      | .free .dram => List.range (cfg.npages .dram)
      | .free .nvm => (List.range (cfg.npages .nvm)).map (cfg.npages .dram + ·)
      | _ => [] := by
  simp only [pebsInit, initLoop_eq, St.empty]
  rcases l with (_ | _) | (_ | _) | d <;> simp

/-- The counters with which `pebs_init` begins. -/
theorem pebsInit_num (cfg : Config) (l : ListId) :
    (pebsInit cfg).num l =
      match l with
      | .free t => UInt64.ofNat (cfg.npages t)
      | _ => 0 := by
  simp only [pebsInit, initLoop_eq, St.empty]
  rcases l with (_ | _) | (_ | _) | d <;> simp

/-- On which free list a descriptor starts. -/
theorem mem_pebsInit {l : ListId} {p : Nat} :
    p ∈ (pebsInit cfg).list l ↔
      (l = dramFreeList ∧ p < cfg.npages .dram) ∨
      (l = nvmFreeList ∧ cfg.npages .dram ≤ p ∧ p < cfg.total) := by
  rw [pebsInit_list]
  rcases l with (_ | _) | (_ | _) | d <;> simp [Config.total]
  constructor
  · rintro ⟨i, hi, rfl⟩
    exact ⟨Nat.le_add_right _ _, Nat.add_lt_add_left hi _⟩
  · rintro ⟨h1, h2⟩
    exact ⟨p - cfg.npages .dram, by omega, by omega⟩

/-- The initial state has the invariant. -/
theorem wf_pebsInit (cfg : Config) : Wf cfg (pebsInit cfg) := by
  constructor
  case excl =>
    constructor
    · intro l
      rw [pebsInit_list]
      split
      · exact List.nodup_range
      · exact List.nodup_range.map fun a b h => Nat.add_left_cancel h
      · exact List.nodup_nil
    · intro i j x hi hj
      rw [mem_pebsInit] at hi hj
      rcases hi with ⟨rfl, hi⟩ | ⟨rfl, hi⟩ <;> rcases hj with ⟨rfl, hj⟩ | ⟨rfl, hj⟩ <;>
        first | rfl | omega
  case held =>
    intro p
    simp only [Held, mem_pebsInit]
    constructor
    · rintro ⟨l, ⟨-, h⟩ | ⟨-, -, h⟩⟩
      · exact Nat.lt_of_lt_of_le h (Nat.le_add_right _ _)
      · exact h
    · intro h
      -- the first descriptors are those of DRAM
      by_cases hp : p < cfg.npages .dram
      · exact ⟨_, Or.inl ⟨rfl, hp⟩⟩
      · exact ⟨_, Or.inr ⟨rfl, Nat.le_of_not_lt hp, h⟩⟩
  case inDram =>
    intro l p hp
    rw [mem_pebsInit] at hp
    rw [pebsInit_page]
    rcases hp with ⟨rfl, h⟩ | ⟨rfl, h1, h2⟩
    · rw [if_pos h]
      rfl
    · rw [if_neg (Nat.not_lt_of_le h1), if_pos h2]
      rfl
  case present =>
    intro l p hp
    rw [mem_pebsInit] at hp
    rw [pebsInit_page]
    rcases hp with ⟨rfl, h⟩ | ⟨rfl, h1, h2⟩
    · rw [if_pos h]
      rfl
    · rw [if_neg (Nat.not_lt_of_le h1), if_pos h2]
      rfl
  case queueNum =>
    intro d
    rw [pebsInit_num, pebsInit_list]
    rfl
  case pt =>
    intro p
    rw [pebsInit_page]
    split <;> [rfl; split <;> rfl]
  case va_ne =>
    intro l p hp hl
    rw [mem_pebsInit] at hp
    rcases hp with ⟨rfl, -⟩ | ⟨rfl, -⟩ <;> cases hl
  case aligned =>
    intro l p hp hl
    rw [mem_pebsInit] at hp
    rcases hp with ⟨rfl, -⟩ | ⟨rfl, -⟩ <;> cases hl
  case fits =>
    intro l p hp hl
    rw [mem_pebsInit] at hp
    rcases hp with ⟨rfl, -⟩ | ⟨rfl, -⟩ <;> cases hl
  case offAligned =>
    intro p
    rw [pebsInit_page]
    split <;> [skip; split] <;> simp [newPage]

/-! ## All operations -/

/-- Every completed operation keeps the invariant. -/
theorem wf_exec {op : Op} (h : Wf cfg s) (hr : exec cfg op s = .ok s') : Wf cfg s' := by
  cases op with
  | mmap p length populate => exact h.mmap hr
  | missingFault va => exact h.missingFault hr
  | request d n random rand =>
    simp only [exec, bind_eq_ok, Prod.exists, Except.ok.injEq] at hr
    rcases hr with ⟨k, s₁, hr, rfl⟩
    exact h.request hr
  | migrate numBatchs d => exact h.migrate hr
  | munmap fuel addr length accept =>
    simp only [exec, bind_eq_ok, Prod.exists, Except.ok.injEq] at hr
    rcases hr with ⟨ret, s₁, hr, rfl⟩
    exact h.munmap hr
  | write a v => exact h.write hr

end Hemem
