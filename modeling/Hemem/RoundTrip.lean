import Hemem.Munmap
import Hemem.Populate

/-!
# Hemem.RoundTrip — a region is mapped and unmapped again

`hemem_mmap` rounds the length up to whole pages, `hemem_munmap` takes it as it is. The scan
still finds every page of the region, since each begins within the length, and undoes what
`hemem_mmap_populate` has counted. The kernel rounds the length up to base pages only: where
these do not come to whole pages it is asked for less than the region, and it refuses to
split the last page.
-/

namespace Hemem

open Lib

variable {cfg : Config} {s s' s₁ : St}

/-- `hemem_munmap(p, length)` after `hemem_mmap(length)` has returned `p`, from `s` to `s₁`:
the table and the counters are those of `s`, the kernel is asked for the region that has been
reserved, and none of its addresses remains mapped. -/
def RoundTrip (p length : Nat) (s s₁ : St) : Prop :=
  ∃ fuel s₂, hememMunmap fuel p length true s₁ = .ok (0, s₂) ∧ s₂.pages = s.pages ∧
    s₂.num = s.num ∧ munmapStop p length = p + pageRoundUp length ∧
    ∀ a, inRange p (pageRoundUp length) a = true → s₂.vm a = none

/-! ## The region -/

/-- The pages of the region are those whose addresses lie within the length. -/
theorem pageAt_inRange {p length m va : Nat} (hlen : length < 2 ^ 64) (hal : p % pageSize = 0)
    (hround : pageRoundUp length = m * pageSize) (hm : 0 < m) (hva : va % pageSize = 0) :
    inRange p length va = true ↔ ∃ i < m, va = pageAt p i := by
  rw [inRange_iff]
  constructor
  · rintro ⟨hle, hlt⟩
    refine ⟨(va - p) / pageSize, ?_, ?_⟩
    · simp only [pageRoundUp, pageSize_eq] at *
      omega
    · simp only [pageAt, pageSize_eq] at *
      omega
  · rintro ⟨i, hi, rfl⟩
    simp only [pageRoundUp, pageAt, pageSize_eq] at *
    omega

theorem pageAt_aligned {p : Nat} (hal : p % pageSize = 0) (i : Nat) :
    pageAt p i % pageSize = 0 := by
  simp only [pageAt, pageSize_eq] at *
  omega

/-! ## The bookkeeping -/

/-- The first `n` free descriptors by their tiers. -/
theorem Wf.tierCount_freeOrder (hw : Wf cfg s) {n : Nat} (henough : n ≤ (freeOrder s).length)
    (t : Tier) : tierCount s t ((freeOrder s).take n) = takenFrom s n t := by
  -- a free list holds descriptors of its own tier only
  have hall : ∀ u k, tierCount s t ((s.list (.free u)).take k) =
      if u = t then ((s.list (.free u)).take k).length else 0 := by
    intro u k
    have htier : ∀ q ∈ (s.list (.free u)).take k, (s.page q).tier = u := by
      intro q hq
      rw [HememPage.tier, hw.inDram (List.mem_of_mem_take hq), Tier.ofInDram_inDram]
      rfl
    split
    · rename_i hu
      exact List.countP_eq_length.mpr fun q hq => by simp [htier q hq, hu]
    · rename_i hu
      exact List.countP_eq_zero.mpr fun q hq => by simp [htier q hq, hu]
  rw [freeOrder, List.length_append] at henough
  rw [freeOrder, List.take_append, tierCount, List.countP_append]
  have hdram := hall .dram n
  have hnvm := hall .nvm (n - (s.list dramFreeList).length)
  rw [tierCount] at hdram hnvm
  rw [hdram, hnvm]
  cases t with
  | dram => simp [takenFrom]
  | nvm =>
    rw [if_neg (by simp), if_pos rfl, List.length_take, takenFrom]
    simp only [dramFreeList, nvmFreeList] at henough ⊢
    omega

theorem mem_take_iff {ps : List PageId} {n : Nat} {q : PageId} :
    q ∈ ps.take n ↔ ∃ i < n, ps[i]? = some q := by
  rw [List.mem_iff_getElem?]
  simp [List.getElem?_take]

/-- The pages that the scan finds are those that have been placed. -/
theorem Populated.found {p m length : Nat} {ps : List PageId}
    (h : Populated cfg p m (s.reserved p m) s₁) (hw : Wf cfg s) (ht : HugeTable s₁)
    (hlen : length < 2 ^ 64) (hal : p % pageSize = 0) (hm : 0 < m)
    (hround : pageRoundUp length = m * pageSize) (hscan : UntracksRange p length s₁ ps s') :
    ps.Perm ((freeOrder s).take m) := by
  have hpages : ∀ i < m, s₁.pages (pageAt p i) = (freeOrder s)[i]? := h.pages
  have hnd := hw.freeOrder_nodup.sublist (List.take_sublist m (freeOrder s))
  -- both sides name the pages of the region, and each names a page once
  refine (List.perm_ext_iff_of_nodup hscan.once hnd).mpr fun q => ?_
  rw [hscan.visited, mem_take_iff]
  constructor
  · rintro ⟨htracked, hin⟩
    rw [pageAt_inRange hlen hal hround hm (ht.aligned htracked)] at hin
    rcases hin with ⟨i, hi, hva⟩
    exact ⟨i, hi, (hpages i hi).symm.trans (hva ▸ htracked)⟩
  · rintro ⟨i, hi, hq⟩
    have htracked : s₁.pages (pageAt p i) = some q := (hpages i hi).trans hq
    rw [ht.va_eq htracked]
    refine ⟨htracked, ?_⟩
    rw [pageAt_inRange hlen hal hround hm (pageAt_aligned hal i)]
    exact ⟨i, hi, rfl⟩

/-- The scan of `hemem_munmap` undoes what `hemem_mmap_populate` has entered and counted. -/
theorem Populated.undone {p m length : Nat} {ps : List PageId}
    (h : Populated cfg p m (s.reserved p m) s₁) (hw : Wf cfg s) (ht : HugeTable s)
    (ht₁ : HugeTable s₁) (hlen : length < 2 ^ 64) (hal : p % pageSize = 0) (hm : 0 < m)
    (hround : pageRoundUp length = m * pageSize) (hscan : UntracksRange p length s₁ ps s') :
    s'.pages = s.pages ∧ s'.num = s.num := by
  have hfound := h.found hw ht₁ hlen hal hm hround hscan
  have hcount : ∀ t, tierCount s₁ t ps = takenFrom s m t := by
    intro t
    have htier : ∀ q, (s₁.page q).tier = (s.page q).tier := fun q =>
      (Prod.mk.inj (h.slot q)).1
    rw [← hw.tierCount_freeOrder h.enough t]
    simp only [tierCount, htier]
    exact hfound.countP_eq _
  constructor
  · funext va
    rw [hscan.table]
    split
    · rename_i hin
      -- what the region held before would have stopped `add_page`
      cases hq : s.pages va with
      | none => rfl
      | some q =>
        rcases (pageAt_inRange hlen hal hround hm (ht.aligned hq)).mp hin with ⟨i, hi, rfl⟩
        have hfresh : s.pages (pageAt p i) = none := h.fresh i hi
        exact hfresh.symm.trans hq
    · rename_i hin
      apply h.pages_other
      rintro i hi rfl
      exact hin ((pageAt_inRange hlen hal hround hm (pageAt_aligned hal i)).mpr ⟨i, hi, rfl⟩)
  · funext l
    cases l with
    | free t =>
      have hnum : s₁.num (.free t) = s.num (.free t) - UInt64.ofNat (takenFrom s m t) :=
        (h.tierNum t).1
      rw [hscan.freeNum, hcount, hnum, UInt64.sub_add_cancel]
    | mmap t =>
      have hnum : s₁.num (.mmap t) = s.num (.mmap t) + UInt64.ofNat (takenFrom s m t) :=
        (h.tierNum t).2
      rw [hscan.mmapNum, hcount, hnum, UInt64.add_sub_cancel]
    | queue d => exact (hscan.queueNum d).trans (h.queue d).2

/-! ## The kernel -/

/-- The base pages that the kernel counts come to whole pages. -/
theorem munmapStop_eq_iff {p length m : Nat} (hround : pageRoundUp length = m * pageSize)
    (hlen : length < 2 ^ 64) (hm : 0 < m) :
    munmapStop p length = p + m * pageSize ↔
      length % pageSize = 0 ∨ pageSize - basepageSize < length % pageSize := by
  simp only [munmapStop, pageRoundUp, pageSize_eq, basepageSize_eq] at *
  omega

/-- Where they do not, the end of the range lies in the last page of the region, which the
kernel does not split. -/
theorem munmapStop_splits {p length m : Nat} (hal : p % pageSize = 0)
    (hround : pageRoundUp length = m * pageSize) (hlen : length < 2 ^ 64) (hm : 0 < m)
    (hne : munmapStop p length ≠ p + m * pageSize) :
    munmapStop p length % pageSize ≠ 0 ∧
      munmapStop p length - munmapStop p length % pageSize = pageAt p (m - 1) := by
  simp only [munmapStop, pageRoundUp, pageAt, pageSize_eq, basepageSize_eq] at *
  omega

/-! ## The round trip -/

/-- The state after both calls, whatever the kernel says. -/
theorem Wf.munmap_populated (hw : Wf cfg s) (ht : Tabled s) {p length : Nat}
    (hlen : length < 2 ^ 64) (hal : p % pageSize = 0) (hinside : p + pageRoundUp length < 2 ^ 64)
    (hr : hememMmap cfg p length true s = .ok s₁) :
    ∃ n s', (∀ fuel, n < fuel → munmapScan fuel p ((p + length) % 2 ^ 64) s₁ = .ok s') ∧
      s'.pages = s.pages ∧ s'.num = s.num ∧ s'.vm = s₁.vm := by
  rcases hw.populated_of_mmap hlen hinside hr with ⟨m, hm, hround, h⟩
  have hexec : exec cfg (.mmap p length true) s = .ok s₁ := hr
  have hht := hw.hugeTable ht
  have hht₁ := (wf_exec hw hexec).hugeTable (hw.tabled_exec ht hexec)
  -- a rounded length is at least the length, so the region ends below the last page
  have htop : p + length ≤ topPage := by
    simp only [pageRoundUp, topPage, pageSize_eq] at *
    omega
  have hbase : p % basepageSize = 0 := by
    simp only [pageSize_eq, basepageSize_eq] at *
    omega
  rcases hht₁.scanned_range hbase htop with ⟨ps, n, s', hs, hrange⟩
  -- hence the end of the range does not wrap
  have hwrap : (p + length) % 2 ^ 64 = p + length := by
    apply Nat.mod_eq_of_lt
    simp only [topPage, pageSize_eq] at htop
    omega
  rcases h.undone hw hht hht₁ hlen hal hm hround hrange with ⟨hpages, hnum⟩
  refine ⟨n, s', fun fuel hn => ?_, hpages, hnum, ?_⟩
  · rw [hwrap]
    exact hs.munmapScan hn
  · obtain rfl := hs.untrackAll
    exact untrackAll_vm s₁ ps

/-- When the length is a multiple of the page size, or less than a base page short of one, nothing
is left behind. -/
theorem roundTrip_of (hw : Wf cfg s) (ht : Tabled s) {p length : Nat} (hlen : length < 2 ^ 64)
    (hal : p % pageSize = 0) (hinside : p + pageRoundUp length < 2 ^ 64)
    (hr : hememMmap cfg p length true s = .ok s₁)
    (hwhole : length % pageSize = 0 ∨ pageSize - basepageSize < length % pageSize) :
    RoundTrip p length s s₁ := by
  rcases hw.populated_of_mmap hlen hinside hr with ⟨m, hm, hround, h⟩
  rcases hw.munmap_populated ht hlen hal hinside hr with ⟨n, s', hscan, hpages, hnum, -⟩
  have hstop : munmapStop p length = p + m * pageSize :=
    (munmapStop_eq_iff hround hlen hm).mpr hwhole
  have hp : p % 2 ^ 64 = p := Nat.mod_eq_of_lt (by omega)
  have haccept : libcMunmap p length true s' = (0, unmapRange p (m * pageSize) s') := by
    have hzero : (length != 0) = true := by
      rw [bne_iff_ne]
      rintro rfl
      simp only [pageRoundUp, pageSize_eq] at hround
      omega
    have hbase : p % basepageSize = 0 := by
      simp only [pageSize_eq, basepageSize_eq] at *
      omega
    have hend : (p + m * pageSize) % pageSize = 0 := by
      rw [Nat.add_mul_mod_self_right]
      exact hal
    -- both ends of the range are borders of pages
    have hsplits : splitsPage p (p + m * pageSize) s' = false := by
      simp only [splitsPage, hal, hend, bne_self_eq_false, Bool.false_and, Bool.or_self]
    rw [hround] at hinside
    rw [libcMunmap, hstop, hbase, hzero, hsplits, decide_eq_true hinside, Nat.add_sub_cancel_left]
    rfl
  refine ⟨n + 1, unmapRange p (m * pageSize) s', ?_, hpages, hnum, hstop.trans (by rw [hround]),
    fun a ha => ?_⟩
  · rw [hememMunmap, hp, hscan (n + 1) (Nat.lt_succ_self n)]
    exact congrArg Except.ok haccept
  · rw [hround] at ha
    exact if_pos ha

/-- The call that falls short is refused, and the whole region stays mapped, without pages. -/
theorem Wf.munmap_refused (hw : Wf cfg s) (ht : Tabled s) {p length : Nat} (hlen : length < 2 ^ 64)
    (hal : p % pageSize = 0) (hinside : p + pageRoundUp length < 2 ^ 64)
    (hr : hememMmap cfg p length true s = .ok s₁)
    (hnot : ¬ (length % pageSize = 0 ∨ pageSize - basepageSize < length % pageSize)) :
    ∃ fuel s', hememMunmap fuel p length true s₁ = .ok (-1, s') ∧ s'.pages = s.pages ∧
      s'.vm = s₁.vm := by
  rcases hw.populated_of_mmap hlen hinside hr with ⟨m, hm, hround, h⟩
  rcases hw.munmap_populated ht hlen hal hinside hr with ⟨n, s', hscan, hpages, -, hvm⟩
  have hne : munmapStop p length ≠ p + m * pageSize := by
    rw [Ne, munmapStop_eq_iff hround hlen hm]
    exact hnot
  rcases munmapStop_splits hal hround hlen hm hne with ⟨hend, hlast⟩
  have hp : p % 2 ^ 64 = p := Nat.mod_eq_of_lt (by omega)
  -- the last page of the region, which the end of the range lies in, is mapped
  have hmapped : (s'.vm (pageAt p (m - 1))).isSome = true := by
    have hi : m - 1 < m := Nat.sub_lt hm Nat.one_pos
    have henough : m ≤ (freeOrder s).length := h.enough
    have hfree := List.getElem?_eq_getElem (Nat.lt_of_lt_of_le hi henough)
    have hbyte := h.vm (hw.congr rfl rfl fun _ => rfl) (m - 1) hi _ hfree 0 (by decide)
    rw [Nat.add_zero] at hbyte
    rw [hvm, hbyte]
    rfl
  have hsplits : splitsPage p (munmapStop p length) s' = true := by
    rw [splitsPage, hlast, hmapped, bne_iff_ne.mpr hend, Bool.and_self, Bool.or_true]
  refine ⟨n + 1, s', ?_, hpages, hvm⟩
  rw [hememMunmap, hp, hscan (n + 1) (Nat.lt_succ_self n)]
  refine congrArg Except.ok ?_
  rw [libcMunmap, hsplits, Bool.not_true, Bool.and_false, if_neg Bool.false_ne_true]

theorem RoundTrip.whole (hw : Wf cfg s) {p length : Nat}
    (hlen : length < 2 ^ 64) (hinside : p + pageRoundUp length < 2 ^ 64)
    (hr : hememMmap cfg p length true s = .ok s₁) (h : RoundTrip p length s s₁) :
    length % pageSize = 0 ∨ pageSize - basepageSize < length % pageSize := by
  rcases hw.populated_of_mmap hlen hinside hr with ⟨m, hm, hround, -⟩
  rcases h with ⟨-, -, -, -, -, hstop, -⟩
  exact (munmapStop_eq_iff hround hlen hm).mp (hround ▸ hstop)

/-- Unmapping a region with the length it was mapped with undoes the mapping exactly when
the base pages of the length come to whole pages. -/
theorem mmap_munmap_roundTrip_iff (cfg : Config) {s s₁ : St} (hw : Wf cfg s) (ht : Tabled s)
    {p length : Nat} (hlen : length < 2 ^ 64) (hal : p % pageSize = 0)
    (hinside : p + pageRoundUp length < 2 ^ 64)
    (hr : hememMmap cfg p length true s = .ok s₁) :
    RoundTrip p length s s₁ ↔
      length % pageSize = 0 ∨ pageSize - basepageSize < length % pageSize :=
  ⟨RoundTrip.whole hw hlen hinside hr, roundTrip_of hw ht hlen hal hinside hr⟩

/-- Two gigabytes of DRAM and of NVM. -/
def gigConfig : Config := ⟨2 ^ 31, 2 ^ 31, by decide, by decide⟩

/-- One byte more than a gigabyte: the kernel is asked for one base page of the last page,
refuses, and the region stays mapped without any of its pages in the table. -/
theorem mmap_munmap_fails_oneByte :
    ∃ s₁, hememMmap gigConfig 0x40000000 (2 ^ 30 + 1) true (pebsInit gigConfig) = .ok s₁ ∧
      ¬ RoundTrip 0x40000000 (2 ^ 30 + 1) (pebsInit gigConfig) s₁ ∧
      ∃ fuel s', hememMunmap fuel 0x40000000 (2 ^ 30 + 1) true s₁ = .ok (-1, s') ∧
        s'.pages = (pebsInit gigConfig).pages ∧ s'.vm = s₁.vm := by
  have hw := wf_pebsInit gigConfig
  rcases pebsInit_populates gigConfig 0x40000000 (2 ^ 30 + 1) (by decide)
    (by decide) (by decide) (by decide) (by decide) (by decide) with ⟨s₁, hr, -⟩
  refine ⟨s₁, hr, fun h => ?_, ?_⟩
  · exact absurd (h.whole hw (by decide) (by decide) hr) (by decide)
  · exact hw.munmap_refused (tabled_pebsInit gigConfig) (by decide) (by decide) (by decide) hr
      (by decide)

/-- A gigabyte is mapped with its pages and unmapped. -/
theorem mmap_munmap_roundTrip_gigabyte :
    ∃ s₁, hememMmap gigConfig 0x40000000 (2 ^ 30) true (pebsInit gigConfig) = .ok s₁ ∧
      RoundTrip 0x40000000 (2 ^ 30) (pebsInit gigConfig) s₁ := by
  rcases pebsInit_populates gigConfig 0x40000000 (2 ^ 30) (by decide)
    (by decide) (by decide) (by decide) (by decide) (by decide) with ⟨s₁, hr, -⟩
  exact ⟨s₁, hr, (mmap_munmap_roundTrip_iff gigConfig (wf_pebsInit gigConfig)
    (tabled_pebsInit gigConfig) (by decide) (by decide) (by decide) hr).mpr (by decide)⟩

end Hemem
