import Hemem.Mapped

/-!
# Hemem.Scan — the scan of `hemem_munmap` on every range

`hemem_munmap` hands its two arguments to its scan as they are, and the scan computes on
`uint64_t`. It ends in time when no step carries its position past the end of the address
space: a step of `BASEPAGE_SIZE` from the last base page, or one of `PAGE_SIZE` from a page
of the table that is the last of the address space. Such a scan finds the pages of the
range, each once, and takes them out of the table. One that wraps begins the address space
again and is late, however many pages it finds to jump over.
-/

namespace Hemem

open Lib

variable {cfg : Config} {s s' : St}

/-- The scan from `pos` makes `n` iterations, in which `find_page` returns the pages `ps`,
and leaves `s'`. -/
inductive Scanned (stop : Nat) : Nat → St → List PageId → Nat → St → Prop where
  | exit {pos s} (hge : ¬ pos < stop) : Scanned stop pos s [] 0 s
  | found {pos s p ps n s'} (hlt : pos < stop) (hp : findPage pos s = some p)
      (hrest : Scanned stop ((pos + ptToPagesize (s.page p).pt) % 2 ^ 64) (untrackPage p s) ps n s') :
      Scanned stop pos s (p :: ps) (n + 1) s'
  | missed {pos s ps n s'} (hlt : pos < stop) (hp : findPage pos s = none)
      (hrest : Scanned stop ((pos + basepageSize) % 2 ^ 64) s ps n s') :
      Scanned stop pos s ps (n + 1) s'

theorem Scanned.munmapScan {stop pos n : Nat} {ps : List PageId} (h : Scanned stop pos s ps n s')
    {fuel : Nat} (hfuel : n < fuel) : munmapScan fuel pos stop s = .ok s' := by
  induction h generalizing fuel with
  | exit hge =>
    cases fuel with
    | zero => cases hfuel
    | succ fuel => rw [Hemem.munmapScan, if_neg hge]
  | found hlt hp _ ih =>
    cases fuel with
    | zero => cases hfuel
    | succ fuel =>
      rw [Hemem.munmapScan, if_pos hlt, hp]
      exact ih (Nat.lt_of_succ_lt_succ hfuel)
  | missed hlt hp _ ih =>
    cases fuel with
    | zero => cases hfuel
    | succ fuel =>
      rw [Hemem.munmapScan, if_pos hlt, hp]
      exact ih (Nat.lt_of_succ_lt_succ hfuel)

/-- The step bound is the only reason for which the scan does not return. -/
theorem munmapScan_iff {fuel pos stop : Nat} :
    munmapScan fuel pos stop s = .ok s' ↔ ∃ ps n, n < fuel ∧ Scanned stop pos s ps n s' := by
  constructor
  · intro h
    induction fuel generalizing pos s with
    | zero => simp [munmapScan] at h
    | succ fuel ih =>
      unfold munmapScan at h
      split at h
      · rename_i hlt
        cases hp : findPage pos s with
        | some p =>
          rw [hp] at h
          rcases ih h with ⟨ps, n, hn, hrest⟩
          exact ⟨p :: ps, n + 1, Nat.succ_lt_succ hn, .found hlt hp hrest⟩
        | none =>
          rw [hp] at h
          rcases ih h with ⟨ps, n, hn, hrest⟩
          exact ⟨ps, n + 1, Nat.succ_lt_succ hn, .missed hlt hp hrest⟩
      · rename_i hge
        obtain rfl := Except.ok.inj h
        exact ⟨[], 0, Nat.succ_pos _, .exit hge⟩
  · rintro ⟨ps, n, hn, h⟩
    exact h.munmapScan hn

/-- The scan is a program: it has one course. -/
theorem Scanned.unique {stop pos n m : Nat} {ps qs : List PageId} {s'' : St}
    (h : Scanned stop pos s ps n s') (h' : Scanned stop pos s qs m s'') :
    ps = qs ∧ n = m ∧ s' = s'' := by
  induction h generalizing qs m s'' with
  | exit hge =>
    cases h' with
    | exit => exact ⟨rfl, rfl, rfl⟩
    | found hlt => exact absurd hlt hge
    | missed hlt => exact absurd hlt hge
  | found hlt hp _ ih =>
    cases h' with
    | exit hge => exact absurd hlt hge
    | found _ hp' hrest =>
      obtain rfl := Option.some.inj (hp.symm.trans hp')
      rcases ih hrest with ⟨rfl, rfl, rfl⟩
      exact ⟨rfl, rfl, rfl⟩
    | missed _ hp' => cases hp.symm.trans hp'
  | missed hlt hp _ ih =>
    cases h' with
    | exit hge => exact absurd hlt hge
    | found _ hp' => cases hp.symm.trans hp'
    | missed _ _ hrest =>
      rcases ih hrest with ⟨rfl, rfl, rfl⟩
      exact ⟨rfl, rfl, rfl⟩

/-- What it leaves is determined by the pages that it finds. -/
theorem Scanned.untrackAll {stop pos n : Nat} {ps : List PageId}
    (h : Scanned stop pos s ps n s') : s' = s.untrackAll ps := by
  induction h with
  | exit => rfl
  | found _ _ _ ih => exact ih
  | missed _ _ _ ih => exact ih

/-! ## What it finds -/

/-- Every entry of the table has been visited at most once, and belongs to it. -/
theorem Scanned.tracked {stop pos n : Nat} {ps : List PageId} (h : Scanned stop pos s ps n s')
    (ht : HugeTable s) : ps.Nodup ∧ ∀ p ∈ ps, s.pages (s.page p).va = some p := by
  induction h with
  | exit => exact ⟨List.nodup_nil, by simp⟩
  | missed _ _ _ ih => exact ih ht
  | @found pos s p ps n s' hlt hp _ ih =>
    have hkey : (s.page p).va = pos := ht.va_eq hp
    rcases ih (ht.untrack p) with ⟨hnd, hold⟩
    -- what is found later is still in the table after `p` has left it
    have hrest : ∀ q ∈ ps, q ≠ p ∧ s.pages (s.page q).va = some q := by
      intro q hq
      have hkept := hold q hq
      rw [untrackPage_page, ht.untrack_pages hp] at hkept
      split at hkept
      · cases hkept
      · rename_i hne
        refine ⟨?_, hkept⟩
        rintro rfl
        exact hne hkey
    refine ⟨List.nodup_cons.mpr ⟨fun hmem => (hrest p hmem).1 rfl, hnd⟩, ?_⟩
    intro q hq
    rcases List.mem_cons.mp hq with rfl | hq
    · rw [hkey]
      exact hp
    · exact (hrest q hq).2

/-! ## The end of the address space -/

/-- The last page of the address space. -/
def topPage : Nat := 2 ^ 64 - pageSize

/-- No step of the scan from `pos` to `stop` wraps: the base page that ends the address
space is not in its way, nor is a tracked page that does. -/
structure ScanStays (pos stop : Nat) (s : St) : Prop where
  base : stop ≤ 2 ^ 64 - basepageSize + pos % basepageSize
  huge : pos % basepageSize = 0 → pos ≤ topPage → topPage < stop → s.pages topPage = none

/-- A scan that is past its end stays. -/
theorem ScanStays.of_le {pos stop : Nat} (hpos : pos < 2 ^ 64) (h : stop ≤ pos) :
    ScanStays pos stop s := by
  constructor
  · simp only [basepageSize_eq]
    omega
  · intro _ hle hlt
    omega

/-- A step over a base page. -/
theorem ScanStays.miss_iff {pos stop : Nat} (hlt : pos < stop) (hnone : s.pages pos = none)
    (hstop : stop < 2 ^ 64) :
    ScanStays pos stop s ↔
      pos + basepageSize < 2 ^ 64 ∧ ScanStays (pos + basepageSize) stop s := by
  have hmod : (pos + basepageSize) % basepageSize = pos % basepageSize := Nat.add_mod_right _ _
  constructor
  · intro h
    have hbase := h.base
    refine ⟨?_, ⟨?_, fun hal hle => ?_⟩⟩
    · simp only [basepageSize_eq] at hbase ⊢
      omega
    · rw [hmod]
      exact hbase
    · rw [hmod] at hal
      exact h.huge hal (by omega)
  · rintro ⟨-, h⟩
    have hbase := h.base
    rw [hmod] at hbase
    refine ⟨hbase, fun hal hle htop => ?_⟩
    -- a scan that is at the last huge page has just found none there
    by_cases hnext : pos + basepageSize ≤ topPage
    · exact h.huge (hmod.trans hal) hnext htop
    · have heq : pos = topPage := by
        simp only [topPage, basepageSize_eq, pageSize_eq] at *
        omega
      rw [← heq]
      exact hnone

/-- A step over a page of the table. -/
theorem ScanStays.hit_iff {pos stop : Nat} {p : PageId} (ht : HugeTable s) (hlt : pos < stop)
    (hp : s.pages pos = some p) (hstop : stop < 2 ^ 64) :
    ScanStays pos stop s ↔
      pos + pageSize < 2 ^ 64 ∧ ScanStays (pos + pageSize) stop (untrackPage p s) := by
  have hal := ht.aligned hp
  have hgrid : pos % basepageSize = 0 := by
    simp only [pageSize_eq, basepageSize_eq] at *
    omega
  have hmod : (pos + pageSize) % basepageSize = pos % basepageSize := by
    simp only [pageSize_eq, basepageSize_eq] at *
    omega
  have hpages : (untrackPage p s).pages topPage =
      if topPage = pos then none else s.pages topPage := ht.untrack_pages hp
  constructor
  · intro h
    -- a tracked page at the end of the address space is what `huge` excludes
    have hne : pos ≠ topPage := by
      intro heq
      have hnone := h.huge hgrid (Nat.le_of_eq heq) (heq ▸ hlt)
      rw [← heq, hp] at hnone
      cases hnone
    have hbelow : pos + pageSize ≤ topPage := by
      simp only [topPage, pageSize_eq] at *
      omega
    have hbase := h.base
    refine ⟨?_, ⟨?_, fun _ _ htop => ?_⟩⟩
    · simp only [topPage, pageSize_eq] at *
      omega
    · rw [hmod]
      exact hbase
    · rw [hpages, if_neg (Ne.symm hne)]
      exact h.huge hgrid (by omega) htop
  · rintro ⟨hfits, h⟩
    have hbase := h.base
    rw [hmod] at hbase
    refine ⟨hbase, fun _ hle htop => ?_⟩
    have hnext : pos + pageSize ≤ topPage := by
      simp only [topPage, pageSize_eq] at *
      omega
    have hnone := h.huge (hmod.trans hgrid) hnext htop
    rw [hpages, if_neg] at hnone
    · exact hnone
    · simp only [topPage, pageSize_eq] at *
      omega

/-! ## How far the scan travels -/

/-- The bytes that `n` iterations step over, when they find `m` pages. -/
def travelled (n m : Nat) : Nat := basepageSize * n + (pageSize - basepageSize) * m

/-- A page is found at a position before the end. -/
theorem Scanned.va_lt {stop pos n : Nat} {ps : List PageId} (h : Scanned stop pos s ps n s')
    (ht : HugeTable s) : ∀ p ∈ ps, (s.page p).va < stop := by
  induction h with
  | exit => simp
  | missed _ _ _ ih => exact ih ht
  | @found pos s p ps n s' hlt hp _ ih =>
    intro q hq
    rcases List.mem_cons.mp hq with rfl | hq
    · rw [ht.va_eq hp]
      exact hlt
    · simpa using ih (ht.untrack p) q hq

/-- A scan that exits has come to its end; when it does not stay it has gone once around
the address space before. -/
theorem Scanned.travelled {stop pos n : Nat} {ps : List PageId} (h : Scanned stop pos s ps n s')
    (ht : HugeTable s) (hpos : pos < 2 ^ 64) (hstop : stop < 2 ^ 64) :
    stop ≤ pos + travelled n ps.length ∧
      (ScanStays pos stop s ∨ 2 ^ 64 + stop ≤ pos + travelled n ps.length) := by
  induction h with
  | exit hge =>
    have hle := Nat.le_of_not_lt hge
    exact ⟨Nat.le_add_right_of_le hle, Or.inl (ScanStays.of_le hpos hle)⟩
  | @missed pos s ps n s' hlt hp _ ih =>
    rcases ih ht (Nat.mod_lt _ (by decide)) with ⟨hend, hcase⟩
    have hstep : Hemem.travelled (n + 1) ps.length =
        Hemem.travelled n ps.length + basepageSize := by
      simp only [Hemem.travelled, basepageSize_eq]
      omega
    rw [hstep]
    -- as long as the step does not wrap, the way of the rest is added to it
    by_cases hwrap : pos + basepageSize < 2 ^ 64
    · rw [Nat.mod_eq_of_lt hwrap] at hend hcase
      refine ⟨by omega, ?_⟩
      rcases hcase with hstays | hround
      · exact Or.inl ((ScanStays.miss_iff hlt hp hstop).mpr ⟨hwrap, hstays⟩)
      · exact Or.inr (by omega)
    · -- the step wraps, and the rest of the way is that of a scan from the bottom
      simp only [basepageSize_eq] at *
      omega
  | @found pos s p ps n s' hlt hp _ ih =>
    have hpage : ptToPagesize (s.page p).pt = pageSize := by
      rw [ht.pt hp]
      rfl
    rw [hpage] at ih
    rcases ih (ht.untrack p) (Nat.mod_lt _ (by decide)) with ⟨hend, hcase⟩
    have hstep : Hemem.travelled (n + 1) (p :: ps).length =
        Hemem.travelled n ps.length + pageSize := by
      simp only [Hemem.travelled, List.length_cons, basepageSize_eq, pageSize_eq]
      omega
    rw [hstep]
    by_cases hwrap : pos + pageSize < 2 ^ 64
    · rw [Nat.mod_eq_of_lt hwrap] at hend hcase
      refine ⟨by omega, ?_⟩
      rcases hcase with hstays | hround
      · exact Or.inl ((ScanStays.hit_iff ht hlt hp hstop).mpr ⟨hwrap, hstays⟩)
      · exact Or.inr (by omega)
    · -- the same for a page
      simp only [pageSize_eq] at *
      omega

/-- There are no more pages to find than the address space has. -/
theorem Scanned.length_le {stop pos n : Nat} {ps : List PageId} (h : Scanned stop pos s ps n s')
    (ht : HugeTable s) (hstop : stop < 2 ^ 64) : ps.length ≤ 2 ^ 64 / pageSize := by
  rcases h.tracked ht with ⟨hnd, htracked⟩
  -- the pages that are found begin at different multiples of the page size
  have hindex : (ps.map fun p => (s.page p).va / pageSize).Nodup := by
    refine List.Nodup.map_on (fun p hp q hq heq => ?_) hnd
    have hpal := ht.aligned (htracked p hp)
    have hqal := ht.aligned (htracked q hq)
    have hva : (s.page p).va = (s.page q).va := by
      simp only [pageSize_eq] at *
      omega
    have hkey := htracked p hp
    rw [hva, htracked q hq] at hkey
    exact (Option.some.inj hkey).symm
  have hle := length_le_of_lt hindex (n := 2 ^ 64 / pageSize) fun i hi => by
    rcases List.mem_map.mp hi with ⟨p, hp, rfl⟩
    have hlt := h.va_lt ht p hp
    simp only [pageSize_eq] at *
    omega
  simpa using hle

/-- A scan that wraps is late: the pages that shorten its way cannot make up for the way
around the address space. -/
theorem Scanned.late {stop pos n : Nat} {ps : List PageId} (h : Scanned stop pos s ps n s')
    (ht : HugeTable s) (hpos : pos < 2 ^ 64) (hstop : stop < 2 ^ 64)
    (hwraps : ¬ ScanStays pos stop s) : (stop - pos) / basepageSize + 1 < n := by
  have hlt : pos < stop := Nat.lt_of_not_le fun hle => hwraps (ScanStays.of_le hpos hle)
  have hround := (h.travelled ht hpos hstop).2.resolve_left hwraps
  have hle := h.length_le ht hstop
  simp only [Hemem.travelled, basepageSize_eq, pageSize_eq] at *
  omega

/-- A scan that stays exits in time, and finds pages of its range only. -/
theorem ScanStays.scanned {pos stop : Nat} (h : ScanStays pos stop s) (ht : HugeTable s)
    (hstop : stop < 2 ^ 64) :
    ∃ ps n s', Scanned stop pos s ps n s' ∧ basepageSize * n < stop - pos + basepageSize ∧
      ∀ p ∈ ps, pos ≤ (s.page p).va := by
  -- induction on the bytes that are left, since a miss and a hit step by different amounts
  induction hd : stop - pos using Nat.strong_induction_on generalizing pos s with
  | _ d ih =>
    subst hd
    by_cases hlt : pos < stop
    · cases hp : findPage pos s with
      | none =>
        rcases (ScanStays.miss_iff hlt hp hstop).mp h with ⟨hwrap, h'⟩
        rcases ih _ (by simp only [basepageSize_eq]; omega) h' ht rfl with ⟨ps, n, s', hs, hn, hps⟩
        refine ⟨ps, n + 1, s', .missed hlt hp ?_, ?_, fun p hp => ?_⟩
        · rwa [Nat.mod_eq_of_lt hwrap]
        · simp only [basepageSize_eq] at *
          omega
        · exact Nat.le_trans (Nat.le_add_right _ _) (hps p hp)
      | some p =>
        rcases (ScanStays.hit_iff ht hlt hp hstop).mp h with ⟨hwrap, h'⟩
        rcases ih _ (by simp only [pageSize_eq]; omega) h' (ht.untrack p) rfl with
          ⟨ps, n, s', hs, hn, hps⟩
        refine ⟨p :: ps, n + 1, s', .found hlt hp ?_, ?_, fun q hq => ?_⟩
        · have hpage : ptToPagesize (s.page p).pt = pageSize := by
            rw [ht.pt hp]
            rfl
          rwa [hpage, Nat.mod_eq_of_lt hwrap]
        · simp only [basepageSize_eq, pageSize_eq] at *
          omega
        · rcases List.mem_cons.mp hq with rfl | hq
          · exact Nat.le_of_eq (ht.va_eq hp).symm
          · have hle := hps q hq
            rw [untrackPage_page] at hle
            exact Nat.le_trans (Nat.le_add_right _ _) hle
    · exact ⟨[], 0, s, .exit hlt, by simp, by simp⟩

/-! ## Termination -/

/-- The scan of `hemem_munmap(addr, length)` reaches its exit after at most
`length / BASEPAGE_SIZE + 1` iterations, and no page outside of the range is examined. -/
structure ScanBounded (addr length : Nat) (s : St) : Prop where
  exits : ∃ s', munmapScan (length / basepageSize + 2) addr ((addr + length) % 2 ^ 64) s = .ok s'
  examined : ∀ {ps n s'}, Scanned ((addr + length) % 2 ^ 64) addr s ps n s' →
    ∀ p ∈ ps, inRange addr length (s.page p).va = true

/-- A range that wraps is empty to the scan. -/
theorem scanEnd_le {addr length : Nat} (haddr : addr < 2 ^ 64) (hlen : length < 2 ^ 64)
    (hwrap : 2 ^ 64 ≤ addr + length) : (addr + length) % 2 ^ 64 ≤ addr := by
  omega

theorem ScanStays.bounded {addr length : Nat} (haddr : addr < 2 ^ 64) (hlen : length < 2 ^ 64)
    (ht : HugeTable s) (h : ScanStays addr ((addr + length) % 2 ^ 64) s) :
    ScanBounded addr length s := by
  have hstop : (addr + length) % 2 ^ 64 < 2 ^ 64 := Nat.mod_lt _ (by decide)
  rcases h.scanned ht hstop with ⟨ps, n, s', hs, hn, hps⟩
  refine ⟨⟨s', hs.munmapScan ?_⟩, fun hs' p hp => ?_⟩
  · by_cases hwrap : addr + length < 2 ^ 64
    · rw [Nat.mod_eq_of_lt hwrap] at hn
      simp only [basepageSize_eq] at *
      omega
    · have hle := scanEnd_le haddr hlen (Nat.le_of_not_lt hwrap)
      simp only [basepageSize_eq] at *
      omega
  · rcases hs.unique hs' with ⟨rfl, -, -⟩
    have hlt := hs.va_lt ht p hp
    have hle := hps p hp
    rw [inRange_iff]
    omega

theorem ScanBounded.stays {addr length : Nat} (haddr : addr < 2 ^ 64) (hlen : length < 2 ^ 64)
    (ht : HugeTable s) (h : ScanBounded addr length s) :
    ScanStays addr ((addr + length) % 2 ^ 64) s := by
  have hstop : (addr + length) % 2 ^ 64 < 2 ^ 64 := Nat.mod_lt _ (by decide)
  by_contra hwraps
  rcases h.exits with ⟨s', hexit⟩
  rcases munmapScan_iff.mp hexit with ⟨ps, n, hn, hs⟩
  have hlate := hs.late ht haddr hstop hwraps
  -- a range that is not empty to the scan is as long as it seems
  have hinside : addr + length < 2 ^ 64 := by
    refine Nat.lt_of_not_le fun hwrap => hwraps (ScanStays.of_le haddr ?_)
    exact scanEnd_le haddr hlen hwrap
  rw [Nat.mod_eq_of_lt hinside, Nat.add_sub_cancel_left] at hlate
  omega

/-- The scan is bounded exactly when none of its steps wraps. -/
theorem munmapScan_bounded_iff {s : St} (ht : HugeTable s) (addr length : UInt64) :
    ScanBounded addr.toNat length.toNat s ↔
      ScanStays addr.toNat ((addr.toNat + length.toNat) % 2 ^ 64) s :=
  ⟨ScanBounded.stays addr.toNat_lt length.toNat_lt ht,
    ScanStays.bounded addr.toNat_lt length.toNat_lt ht⟩

/-- The whole address space but its last byte: the scan never comes past the end. -/
theorem munmapScan_bounded_fails :
    HugeTable (pebsInit smallConfig) ∧
      ¬ ScanBounded 4096 (2 ^ 64 - 4097) (pebsInit smallConfig) := by
  have ht := (wf_pebsInit smallConfig).hugeTable (tabled_pebsInit smallConfig)
  refine ⟨ht, fun h => ?_⟩
  have hbase := (h.stays (by decide) (by decide) ht).base
  revert hbase
  decide

/-- Two pages are mapped. -/
def twoPages : List Op := [.mmap 0x40000000 (2 * pageSize) true]

theorem hugeTable_runs {ops : List Op} (hr : runs (exec cfg) ops (pebsInit cfg) = .ok s) :
    HugeTable s := by
  have hinv : Wf cfg s ∧ Tabled s :=
    of_runs (I := fun s => Wf cfg s ∧ Tabled s)
      (fun _ _ _ h hr => ⟨wf_exec h.1 hr, h.1.tabled_exec h.2 hr⟩)
      ⟨wf_pebsInit cfg, tabled_pebsInit cfg⟩ hr
  exact hinv.1.hugeTable hinv.2

/-- The scan of two pages in the middle of the address space. -/
theorem munmapScan_bounded_twoPages :
    ∃ s, runs (exec smallConfig) twoPages (pebsInit smallConfig) = .ok s ∧
      ScanBounded 0x40000000 (2 * pageSize) s := by
  have hruns : ∃ s, runs (exec smallConfig) twoPages (pebsInit smallConfig) = .ok s := ⟨_, rfl⟩
  rcases hruns with ⟨s, hr⟩
  refine ⟨s, hr, (munmapScan_bounded_iff (hugeTable_runs hr) 0x40000000 0x400000).mpr ?_⟩
  constructor
  · decide
  · exact fun _ _ htop => absurd htop (by decide)

end Hemem
