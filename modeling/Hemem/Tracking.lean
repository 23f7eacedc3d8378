import Mathlib.Data.Finset.Card
import Mathlib.Data.Finset.Range
import Hemem.Faults
import Hemem.Table

/-!
# Hemem.Tracking — tracked if and only if allocated

A descriptor is allocated when it is on a list other than a free list, and
tracked when the table has it under its `va`. The two agree as long as
`hemem_munmap` finds nothing: it takes a page out of the table and leaves it on
its list. While they agree, the allocator runs out of memory only when more pages
are asked for than there are descriptors, and requests select mapped pages.
-/

namespace Hemem

open Lib

variable {cfg : Config} {s s' : St}

/-- Every allocated descriptor is in the table under its `va`. -/
def LiveTracked (s : St) : Prop := ∀ p, Live s p → s.pages (s.page p).va = some p

/-- The number of descriptors in the table under their `va`. -/
def trackedCount (cfg : Config) (s : St) : Nat :=
  ((Finset.range cfg.total).filter fun p => s.pages (s.page p).va = some p).card

/-- The number of pages with which `hemem_mmap_populate` fills `[va, stop)`. -/
def pagesBetween (va stop : Nat) : Nat := (stop - va + (pageSize - 1)) / pageSize

/-- The number of pages that an operation allocates. -/
def allocations : Op → Nat
  | .mmap p length true => pagesBetween p ((p + pageRoundUp length) % 2 ^ 64)
  | .missingFault _ => 1
  | _ => 0

structure TrackedIffAllocated (cfg : Config) (s : St) : Prop where
  /-- on a list other than a free list iff in the table -/
  live_iff : ∀ p, p < cfg.total → (Live s p ↔ s.pages (s.page p).va = some p)
  /-- every other descriptor is free -/
  free : ∀ p, p < cfg.total → ¬ Live s p →
    ∃ t, p ∈ s.list (.free t) ∧ (s.page p).present = false
  /-- an operation runs out of memory only if it asks for more pages than are left -/
  room : ∀ op, exec cfg op s = .error .outOfMemory →
    cfg.total < trackedCount cfg s + allocations op
  /-- every page that a request puts on its queue is in the table -/
  selects : ∀ d n random rand k s', request d n random rand s = .ok (k, s') →
    ∀ p ∈ s'.list (.queue d), p ∉ s.list (.queue d) → s.pages (s.page p).va = some p

/-- An operation other than a `hemem_munmap` that comes to a page of the table. -/
def KeepsTable (s : St) : Op → Prop
  | .munmap _ addr length _ => ¬ MunmapHits addr length s
  | _ => True

/-! ## Preservation -/

theorem LiveTracked.mono (h : LiveTracked s) (hlive : ∀ {p}, Live s' p → Live s p)
    (hpages : s'.pages = s.pages) (hva : ∀ {p}, Live s p → (s'.page p).va = (s.page p).va) :
    LiveTracked s' := by
  intro p hp
  rw [hpages, hva (hlive hp)]
  exact h p (hlive hp)

theorem Wf.liveTracked_place (h : Wf cfg s) (hl : LiveTracked s) {t : Tier} {p va : Nat}
    {rest : List PageId} (hfrom : AllocFrom s t p rest) (hfit : Placeable cfg s t p va) :
    LiveTracked ((s.alloc t p rest).place t p va) := by
  intro q hlive
  rcases (live_alloc hfrom.head h.excl).mp hlive with rfl | hq
  · simp [St.place]
  · -- another page keeps its entry, which is not the one for `va`
    have hqp : q ≠ p := by
      rintro rfl
      exact h.live_not_free hq t (hfrom.head ▸ List.mem_cons_self)
    have hold := hl q hq
    have hva : (s.page q).va ≠ va := fun hva => by
      rw [hva, hfit.fresh] at hold
      cases hold
    simpa [St.place, St.alloc, Function.update_of_ne hqp, Function.update_of_ne hva] using hold

/-- Only a `hemem_munmap` that finds a page separates the lists from the table. -/
theorem Wf.liveTracked_exec (h : Wf cfg s) (ht : Tabled s) (hl : LiveTracked s) {op : Op}
    (hr : exec cfg op s = .ok s') : LiveTracked s' ↔ KeepsTable s op := by
  cases op with
  | mmap p length populate =>
    refine iff_of_true ?_ trivial
    rcases hememMmap_ok hr with ⟨s₀, rfl, hcase⟩
    have h₀ : Wf cfg (registerRange p (pageRoundUp length)
        (mmapReserve p (pageRoundUp length) s)) := h.congr rfl rfl fun _ => rfl
    rcases hcase with ⟨-, rfl⟩ | ⟨-, hloop⟩
    · exact hl
    · refine (populateLoop_preserves (P := fun s => Wf cfg s ∧ LiveTracked s) ?_
        ⟨h₀, hl⟩ hloop).2
      intro s t p rest va hs hfrom hfit
      exact ⟨(hs.1.place hfrom hfit).countAlloc t, hs.1.liveTracked_place hs.2 hfrom hfit⟩
  | missingFault va =>
    rcases handleMissingFault_ok hr with ⟨t, p, rest, hfrom, hfit, rfl⟩
    exact iff_of_true (h.liveTracked_place hl hfrom hfit) trivial
  | request d n random rand =>
    refine iff_of_true ?_ trivial
    simp only [exec, bind_eq_ok, Prod.exists, Except.ok.injEq] at hr
    rcases hr with ⟨k, s₁, hr, rfl⟩
    refine requestLoop_preserves (P := LiveTracked) ?_ ?_ hl hr
    · exact fun s n hs => hs.mono (live_reorder (List.rotate_perm _ n)).mp rfl fun _ => rfl
    · exact fun s p rest hs hlist => hs.mono (live_put hlist).mp rfl fun _ => rfl
  | migrate numBatchs d =>
    refine iff_of_true ?_ trivial
    simp only [exec, migrationRequest] at hr
    split at hr
    · exact Except.ok.inj hr ▸ hl
    · rcases h.migrateBatch_ok.mp hr with ⟨hc, rfl⟩
      have hready := h.ready hc
      exact hl.mono (h.live_batched hready).mp (batched_pages s d _)
        fun _ => h.batched_va hready _
  | munmap fuel addr length accept =>
    simp only [exec, bind_eq_ok, Prod.exists, Except.ok.injEq] at hr
    rcases hr with ⟨ret, s₁, hr, rfl⟩
    rcases hememMunmap_ok hr with ⟨ps, -, htab, hhits, hs'⟩
    -- `libc_munmap` changes neither lists nor table
    have hkeep : LiveTracked s₁ ↔ LiveTracked (s.untrackAll ps) := by
      rcases hs' with rfl | rfl <;> exact Iff.rfl
    rw [hkeep, KeepsTable, ← hhits, not_not]
    constructor
    · intro hl'
      by_contra hne
      rcases List.exists_mem_of_ne_nil ps hne with ⟨p, hp⟩
      rcases htab p hp with ⟨va, hva⟩
      -- the page is still on its list, and its entry is gone
      rcases ht.live hva with ⟨l, hlp, hmem⟩
      have hentry := hl' p ⟨l, hlp, by simpa using hmem⟩
      exact (untrackAll_pages.mp hentry).2 hp
    · rintro rfl
      exact hl
  | write a v =>
    refine iff_of_true ?_ trivial
    simp only [exec, appWrite] at hr
    split at hr
    · simp only [bind_eq_ok, check_eq_ok, Except.ok.injEq] at hr
      rcases hr with ⟨-, -, rfl⟩
      exact hl
    · cases hr

/-! ## Running out of memory -/

/-- With both free lists empty every descriptor is in the table. -/
theorem Wf.trackedCount_full (h : Wf cfg s) (hl : LiveTracked s)
    (hempty : s.list dramFreeList = [] ∧ s.list nvmFreeList = []) :
    trackedCount cfg s = cfg.total := by
  have hall : ∀ p ∈ Finset.range cfg.total, s.pages (s.page p).va = some p := by
    intro p hp
    apply hl p
    by_contra hnot
    rcases h.free_of_not_live (Finset.mem_range.mp hp) hnot with ⟨t, ht⟩
    cases t
    · rw [hempty.1] at ht
      cases ht
    · rw [hempty.2] at ht
      cases ht
  rw [trackedCount, Finset.filter_true_of_mem hall, Finset.card_range]

/-- A placed page is one more in the table. -/
theorem Wf.trackedCount_place (h : Wf cfg s) (ht : Tabled s) (hl : LiveTracked s) {t : Tier}
    {p va : Nat} {rest : List PageId} (hfrom : AllocFrom s t p rest)
    (hfit : Placeable cfg s t p va) :
    trackedCount cfg ((s.alloc t p rest).place t p va) = trackedCount cfg s + 1 := by
  have hwf := h.place hfrom hfit
  have htab : Tabled ((s.alloc t p rest).place t p va) := h.tabled_place ht hfrom
  have hltr := h.liveTracked_place hl hfrom hfit
  have hfree : p ∈ s.list (.free t) := hfrom.head ▸ List.mem_cons_self
  have hp : p < cfg.total := (h.held p).mp ⟨_, hfree⟩
  have hnot : ¬ Live s p := fun hlive => h.live_not_free hlive t hfree
  -- the page placed is the one that becomes tracked
  have hset : ((Finset.range cfg.total).filter fun q =>
      ((s.alloc t p rest).place t p va).pages
        (((s.alloc t p rest).place t p va).page q).va = some q) =
      insert p ((Finset.range cfg.total).filter fun q => s.pages (s.page q).va = some q) := by
    ext q
    simp only [Finset.mem_filter, Finset.mem_insert, Finset.mem_range]
    constructor
    · rintro ⟨hq, hentry⟩
      rcases (live_alloc hfrom.head h.excl).mp (htab.live hentry) with rfl | hlive
      · exact Or.inl rfl
      · exact Or.inr ⟨hq, hl q hlive⟩
    · rintro (rfl | ⟨hq, hentry⟩)
      · exact ⟨hp, hltr _ ((live_alloc hfrom.head h.excl).mpr (Or.inl rfl))⟩
      · exact ⟨hq, hltr _ ((live_alloc hfrom.head h.excl).mpr (Or.inr (ht.live hentry)))⟩
  rw [trackedCount, hset, Finset.card_insert_of_notMem, trackedCount]
  simp only [Finset.mem_filter, not_and]
  exact fun _ hentry => hnot (ht.live hentry)

theorem pagesBetween_pos {va stop : Nat} (h : va < stop) : 0 < pagesBetween va stop := by
  simp only [pagesBetween, pageSize_eq]
  omega

/-- An aligned position has one page less before it after an iteration. -/
theorem pagesBetween_next {va stop : Nat} (h : va < stop) (hstop : stop < 2 ^ 64)
    (hal : va % pageSize = 0) (hstopal : stop % pageSize = 0) :
    pagesBetween va stop = pagesBetween ((va + pageSize) % 2 ^ 64) stop + 1 ∧
      (va + pageSize) % 2 ^ 64 % pageSize = 0 := by
  simp only [pagesBetween, pageSize_eq] at *
  have hle : va + 2097152 ≤ stop := by omega
  rw [Nat.mod_eq_of_lt (by omega)]
  omega

theorem Wf.populateLoop_room (h : Wf cfg s) (ht : Tabled s) (hl : LiveTracked s)
    {fuel va stop : Nat} (hstop : stop < 2 ^ 64) (hal : va % pageSize = 0 → stop % pageSize = 0)
    (hr : populateLoop cfg fuel va stop s = .error .outOfMemory) :
    cfg.total < trackedCount cfg s + pagesBetween va stop := by
  induction fuel generalizing va s with
  | zero => simp [populateLoop] at hr
  | succ fuel ih =>
    unfold populateLoop at hr
    split at hr
    · rename_i hlt
      cases hpage : populatePage cfg va s with
      | error e =>
        rw [hpage] at hr
        obtain rfl : e = .outOfMemory := Except.error.inj hr
        rw [h.trackedCount_full hl (populatePage_outOfMemory hpage)]
        exact Nat.lt_add_of_pos_right (pagesBetween_pos hlt)
      | ok r =>
        rcases r with ⟨n, s₁⟩
        rw [hpage] at hr
        rcases populatePage_ok hpage with ⟨t, p, rest, hfrom, hfit, rfl, rfl⟩
        have hpt : ptToPagesize (s.page p).pt = pageSize := by
          rw [h.pt]
          rfl
        simp only [bind, Except.bind, hpt] at hr
        rcases pagesBetween_next hlt hstop hfit.aligned (hal hfit.aligned) with ⟨hcount, hal'⟩
        have htab : Tabled ((s.alloc t p rest).place t p va) := h.tabled_place ht hfrom
        have hrec := ih ((h.place hfrom hfit).countAlloc t)
          (htab.mono id id fun _ => rfl)
          (h.liveTracked_place hl hfrom hfit) (fun _ => hal hfit.aligned) hr
        have hplaced := h.trackedCount_place ht hl hfrom hfit
        have hsame : trackedCount cfg (((s.alloc t p rest).place t p va).countAlloc t) =
            trackedCount cfg ((s.alloc t p rest).place t p va) := rfl
        omega
    · cases hr

theorem pageRoundUp_aligned (length : Nat) : pageRoundUp length % pageSize = 0 :=
  Nat.mul_mod_left _ _

/-- An operation runs out of memory only if the tracked pages and those that it asks for are more
than there are. -/
theorem Wf.room (h : Wf cfg s) (ht : Tabled s) (hl : LiveTracked s) {op : Op}
    (hr : exec cfg op s = .error .outOfMemory) :
    cfg.total < trackedCount cfg s + allocations op := by
  cases op with
  | mmap p length populate =>
    have h₀ : Wf cfg (registerRange p (pageRoundUp length)
        (mmapReserve p (pageRoundUp length) s)) := h.congr rfl rfl fun _ => rfl
    have ht₀ : Tabled (registerRange p (pageRoundUp length)
        (mmapReserve p (pageRoundUp length) s)) := ht.mono id id fun _ => rfl
    have hal : p % pageSize = 0 → (p + pageRoundUp length) % 2 ^ 64 % pageSize = 0 := by
      have hlen := pageRoundUp_aligned length
      simp only [pageSize_eq] at *
      omega
    -- only the loop of `hemem_mmap_populate` allocates
    rcases hememMmap_outOfMemory hr with ⟨rfl, hloop⟩
    have hroom := h₀.populateLoop_room ht₀ hl (Nat.mod_lt _ (by decide)) hal hloop
    simp only [allocations]
    exact hroom
  | missingFault va =>
    rw [h.trackedCount_full hl (handleMissingFault_outOfMemory hr)]
    exact Nat.lt_succ_self _
  | request d n random rand =>
    have hstop : StopsIn RequestFault (exec cfg (.request d n random rand) s) :=
      StopsIn.bind (requestLoop_stopsIn d random rand _ _ _ s) fun _ _ => StopsIn.ok
    simpa [RequestFault] using hstop _ hr
  | migrate numBatchs d =>
    simp only [exec, migrationRequest] at hr
    split at hr
    · cases hr
    · by_cases hf : batchSize numBatchs d s ≤ (s.list (.free d.dst)).length
      · simpa [MigrateFault] using h.migrateBatch_stopsIn hf _ hr
      · simp [migrateBatch, dequeueBatch_short (Nat.lt_of_not_le hf), bind, Except.bind] at hr
  | munmap fuel addr length accept =>
    have hstop : StopsIn (· = .running) (exec cfg (.munmap fuel addr length accept) s) :=
      StopsIn.bind (StopsIn.bind (munmapScan_stopsIn _ _ _ s) fun _ _ => StopsIn.ok)
        fun _ _ => StopsIn.ok
    exact absurd (hstop _ hr) (by simp)
  | write a v => exact absurd (appWrite_stopsIn a v s _ hr) (by simp)

/-! ## What requests select -/

/-- A page that a request puts on its queue was on the mmap list. -/
theorem request_selects {d : Dir} {n : Int} {random : Bool} {rand : Nat → Nat} {k : Nat}
    (hr : request d n random rand s = .ok (k, s')) {p : PageId} (hp : p ∈ s'.list (.queue d)) :
    p ∈ s.list (.queue d) ∨ p ∈ s.list (.mmap d.src) := by
  have hboth : (∀ q ∈ s'.list (.queue d), q ∈ s.list (.queue d) ∨ q ∈ s.list (.mmap d.src)) ∧
      ∀ q ∈ s'.list (.mmap d.src), q ∈ s.list (.mmap d.src) := by
    refine requestLoop_preserves (P := fun s' =>
      (∀ q ∈ s'.list (.queue d), q ∈ s.list (.queue d) ∨ q ∈ s.list (.mmap d.src)) ∧
        ∀ q ∈ s'.list (.mmap d.src), q ∈ s.list (.mmap d.src)) ?_ ?_
      ⟨fun _ h => Or.inl h, fun _ h => h⟩ hr
    · rintro s₁ n ⟨h1, h2⟩
      exact ⟨by simpa using h1, by simpa [List.mem_rotate] using h2⟩
    · rintro s₁ q rest ⟨h1, h2⟩ hl
      rw [hl] at h2
      refine ⟨?_, ?_⟩
      · intro x hx
        have hx : x ∈ s₁.list (.queue d) ∨ x = q := by simpa [St.put] using hx
        rcases hx with hx | rfl
        · exact h1 x hx
        · exact Or.inr (h2 x List.mem_cons_self)
      · intro x hx
        have hx : x ∈ rest := by simpa [St.put] using hx
        exact h2 x (List.mem_cons_of_mem _ hx)
  exact hboth.1 p hp

/-! ## Runs -/

/-- Everything that is said of tracked pages follows from the lists and the table
agreeing. -/
theorem Wf.trackedIffAllocated_iff (h : Wf cfg s) (ht : Tabled s) :
    TrackedIffAllocated cfg s ↔ LiveTracked s := by
  constructor
  · exact fun hta p hp => (hta.live_iff p (h.live_lt hp)).mp hp
  · intro hl
    constructor
    · exact fun p _ => ⟨hl p, ht.live⟩
    · intro p hp hnot
      rcases h.free_of_not_live hp hnot with ⟨t, hf⟩
      exact ⟨t, hf, h.present hf⟩
    · exact fun op hr => h.room ht hl hr
    · intro d n random rand k s' hr p hp hnew
      exact hl p ⟨_, rfl, (request_selects hr hp).resolve_left hnew⟩

theorem liveTracked_pebsInit (cfg : Config) : LiveTracked (pebsInit cfg) := by
  rintro p ⟨l, hl, hp⟩
  rcases mem_pebsInit.mp hp with ⟨rfl, -⟩ | ⟨rfl, -⟩ <;> cases hl

/-- In a run from `pebs_init` a descriptor is tracked iff it is allocated, in every
state, precisely when no `hemem_munmap` of the run comes to a page of the table. -/
theorem trackedIffAllocated_throughout_iff (cfg : Config) (ops : List Op) :
    Throughout (exec cfg) (TrackedIffAllocated cfg) ops (pebsInit cfg) ↔
      Along (exec cfg) KeepsTable ops (pebsInit cfg) := by
  have hinv : ∀ s op s', Wf cfg s ∧ Tabled s → exec cfg op s = .ok s' → Wf cfg s' ∧ Tabled s' :=
    fun _ _ _ h hr => ⟨wf_exec h.1 hr, h.1.tabled_exec h.2 hr⟩
  have hstep : ∀ s op s', Wf cfg s ∧ Tabled s → TrackedIffAllocated cfg s →
      exec cfg op s = .ok s' → (TrackedIffAllocated cfg s' ↔ KeepsTable s op) := by
    intro s op s' h hta hr
    have h' := hinv s op s' h hr
    rw [h'.1.trackedIffAllocated_iff h'.2]
    exact h.1.liveTracked_exec h.2 ((h.1.trackedIffAllocated_iff h.2).mp hta) hr
  have h₀ : Wf cfg (pebsInit cfg) ∧ Tabled (pebsInit cfg) :=
    ⟨wf_pebsInit cfg, tabled_pebsInit cfg⟩
  rw [throughout_iff_along hinv hstep h₀, h₀.1.trackedIffAllocated_iff h₀.2]
  exact and_iff_right (liveTracked_pebsInit cfg)

/-- A fault on a page of a mapped gigabyte, which is unmapped again. -/
def unmapRun : List Op :=
  [.mmap 0x40000000 0x40000000 false, .missingFault 0x40000000,
    .munmap 2 0x40000000 pageSize true]

/-- After `unmapRun` the page is still on `dram_mmap_list`. -/
theorem trackedIffAllocated_fails_munmap :
    ¬ Throughout (exec smallConfig) (TrackedIffAllocated smallConfig) unmapRun
      (pebsInit smallConfig) := by
  refine not_throughout_of_map
    (f := fun s => decide (0 ∈ s.list dramMmapList ∧ s.pages (s.page 0).va ≠ some 0))
    (b := true) rfl fun s' hs' ht => ?_
  rcases of_decide_eq_true hs' with ⟨hmem, hpages⟩
  exact hpages ((ht.live_iff 0 (by decide)).mp ⟨dramMmapList, rfl, hmem⟩)

end Hemem
