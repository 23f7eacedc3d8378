import Hemem.Scan

/-!
# Hemem.Munmap — what `hemem_munmap` leaves behind

The scan of an aligned range takes exactly the pages of the range out of the table. It does
so before `libc_munmap` is called, and nothing is put back when the kernel refuses the
range: a failing call leaves the table as it was only when there has been nothing to find.
-/

namespace Hemem

open Lib

variable {cfg : Config} {s s' : St}

/-! ## The pages of a range -/

/-- The scan visits the pages of the table in the range, each once, and takes them out of
the table; the counters of their tiers follow. -/
structure UntracksRange (addr length : Nat) (s : St) (ps : List PageId) (s' : St) : Prop where
  once : ps.Nodup
  visited : ∀ p, p ∈ ps ↔
    s.pages (s.page p).va = some p ∧ inRange addr length (s.page p).va = true
  table : ∀ va, s'.pages va = if inRange addr length va then none else s.pages va
  mmapNum : ∀ t, s'.num (.mmap t) = s.num (.mmap t) - UInt64.ofNat (tierCount s t ps)
  freeNum : ∀ t, s'.num (.free t) = s.num (.free t) + UInt64.ofNat (tierCount s t ps)
  queueNum : ∀ d, s'.num (.queue d) = s.num (.queue d)

theorem Scanned.untracksRange {addr length n : Nat} {ps : List PageId}
    (h : Scanned (addr + length) addr s ps n s') (ht : HugeTable s)
    (hbase : addr % basepageSize = 0) (hstop : addr + length < 2 ^ 64)
    (hge : ∀ p ∈ ps, addr ≤ (s.page p).va) : UntracksRange addr length s ps s' := by
  have hgone : ∀ {va}, inRange addr length va = true → s'.pages va = none := by
    intro va hin
    rw [inRange_iff] at hin
    exact ht.munmapScan_untracks hbase (h.munmapScan (Nat.lt_succ_self n)) hin.1 hin.2 hstop
  rcases h.tracked ht with ⟨hnd, htracked⟩
  have hlt := h.va_lt ht
  obtain rfl := h.untrackAll
  have hin : ∀ p ∈ ps, inRange addr length (s.page p).va = true := by
    intro p hp
    rw [inRange_iff]
    exact ⟨hge p hp, hlt p hp⟩
  -- a page of the range that the scan had left out would still be in the table
  have hmem : ∀ {va p}, s.pages va = some p → inRange addr length va = true → p ∈ ps := by
    intro va p hp hva
    by_contra hnot
    cases (untrackAll_pages.mpr ⟨hp, hnot⟩).symm.trans (hgone hva)
  refine ⟨hnd, fun p => ⟨fun hp => ⟨htracked p hp, hin p hp⟩, fun hp => hmem hp.1 hp.2⟩, ?table,
    ?mmapNum,
    ?freeNum, ?queueNum⟩
  case table =>
    intro va
    split
    · rename_i hva
      exact hgone hva
    · rename_i hva
      cases hp : s.pages va with
      | none =>
        cases hq : (s.untrackAll ps).pages va with
        | none => rfl
        | some q => exact (untrackAll_pages.mp hq).1.symm.trans hp
      | some p =>
        refine untrackAll_pages.mpr ⟨hp, fun hmemp => hva ?_⟩
        rw [← ht.va_eq hp]
        exact hin p hmemp
  case mmapNum => exact fun t => untrackAll_num s ps (.mmap t)
  case freeNum => exact fun t => untrackAll_num s ps (.free t)
  case queueNum => exact fun d => untrackAll_num s ps (.queue d)

/-- A range that ends before the last page of the address space does not wrap. -/
theorem HugeTable.scanned_range (ht : HugeTable s) {addr length : Nat}
    (hbase : addr % basepageSize = 0) (hinside : addr + length ≤ topPage) :
    ∃ ps n s', Scanned (addr + length) addr s ps n s' ∧ UntracksRange addr length s ps s' := by
  have hstop : addr + length < 2 ^ 64 := by
    simp only [topPage, pageSize_eq] at hinside
    omega
  have hstays : ScanStays addr (addr + length) s := by
    constructor
    · simp only [topPage, basepageSize_eq, pageSize_eq] at *
      omega
    · exact fun _ _ htop => absurd htop (Nat.not_lt_of_le hinside)
  rcases hstays.scanned ht hstop with ⟨ps, n, s', hs, -, hge⟩
  exact ⟨ps, n, s', hs, hs.untracksRange ht hbase hstop hge⟩

/-- On an aligned range that ends a page before the address space does, the scan takes out
exactly the pages of the range. -/
theorem munmapScan_untracksRange {s : St} (ht : HugeTable s) {addr length : Nat}
    (hbase : addr % basepageSize = 0) (hinside : addr + length + pageSize < 2 ^ 64) :
    ∃ ps n s', Scanned ((addr + length) % 2 ^ 64) addr s ps n s' ∧
      (∀ fuel, n < fuel → munmapScan fuel addr ((addr + length) % 2 ^ 64) s = .ok s') ∧
      UntracksRange addr length s ps s' := by
  have htop : addr + length ≤ topPage := by
    simp only [topPage, pageSize_eq] at *
    omega
  rcases ht.scanned_range hbase htop with ⟨ps, n, s', hs, hrange⟩
  rw [Nat.mod_eq_of_lt (Nat.lt_of_le_of_lt (Nat.le_add_right _ _) hinside)]
  exact ⟨ps, n, s', hs, fun fuel hn => hs.munmapScan hn, hrange⟩

/-- Of two mapped pages the first is unmapped. -/
theorem munmapScan_untracksRange_twoPages :
    ∃ s, runs (exec smallConfig) twoPages (pebsInit smallConfig) = .ok s ∧
      ∃ ps n s', Scanned ((0x40000000 + 4096) % 2 ^ 64) 0x40000000 s ps n s' ∧
        (∀ fuel, n < fuel →
          munmapScan fuel 0x40000000 ((0x40000000 + 4096) % 2 ^ 64) s = .ok s') ∧
        UntracksRange 0x40000000 4096 s ps s' := by
  have hruns : ∃ s, runs (exec smallConfig) twoPages (pebsInit smallConfig) = .ok s := ⟨_, rfl⟩
  rcases hruns with ⟨s, hr⟩
  exact ⟨s, hr, munmapScan_untracksRange (hugeTable_runs hr) (by decide) (by decide)⟩

/-! ## Ranges that the kernel refuses -/

/-- When `libc_munmap` fails, `hemem_munmap` returns its failure with the table, the lists
and the counters as they were; a write-protect fault finds the pages that it found before. -/
def MunmapAtomic (addr length : Nat) (accept : Bool) (s : St) : Prop :=
  (libcMunmap addr length accept s).1 = -1 →
    ∃ fuel s', hememMunmap fuel addr length accept s = .ok (-1, s') ∧ s'.pages = s.pages ∧
      s'.list = s.list ∧ s'.num = s.num ∧ ∀ va, findPage va s' = findPage va s

@[simp] theorem untrackAll_vm (s : St) (ps : List PageId) : (s.untrackAll ps).vm = s.vm := by
  induction ps generalizing s with
  | nil => rfl
  | cons p ps ih =>
    refine (ih (untrackPage p s)).trans ?_
    unfold untrackPage countMunmap
    split <;> rfl

/-- A refused range changes nothing. -/
theorem libcMunmap_refused {addr length : Nat} {accept : Bool}
    (h : (libcMunmap addr length accept s).1 = -1) :
    libcMunmap addr length accept s = (-1, s) := by
  rcases libcMunmap_cases addr length accept s with hcase | hcase
  · exact hcase
  · rw [hcase] at h
    cases h

/-- A scan that finds nothing never leaves the base pages it begins with, so it ends only
when one of these is past the end. -/
theorem Scanned.base {stop pos n : Nat} (h : Scanned stop pos s [] n s') (hpos : pos < 2 ^ 64) :
    stop ≤ 2 ^ 64 - basepageSize + pos % basepageSize := by
  generalize hps : ([] : List PageId) = ps at h
  induction h with
  | exit hge =>
    simp only [basepageSize_eq]
    omega
  | found => cases hps
  | missed hlt _ _ ih =>
    have hbase := ih (Nat.mod_lt _ (by decide)) hps
    simp only [basepageSize_eq] at *
    omega

/-- Where there is nothing to find the scan ends, unless it wraps. -/
theorem scanned_nil {stop pos : Nat} (hpos : pos < 2 ^ 64) (hmiss : ¬ ScanHits pos stop s)
    (hbase : stop ≤ 2 ^ 64 - basepageSize + pos % basepageSize) :
    ∃ n, Scanned stop pos s [] n s := by
  induction hd : stop - pos using Nat.strong_induction_on generalizing pos with
  | _ d ih =>
    subst hd
    by_cases hlt : pos < stop
    · have hnone : s.pages pos = none := by
        cases hp : s.pages pos with
        | none => rfl
        | some p =>
          -- otherwise the first position is a hit
          refine absurd ⟨0, fun i hi => ?_, ?_⟩ hmiss
          · rw [Nat.le_zero.mp hi, scan_zero hpos]
            exact hlt
          · rw [scan_zero hpos, hp]
            rfl
      have hwrap : pos + basepageSize < 2 ^ 64 := by
        simp only [basepageSize_eq] at *
        omega
      have hmiss' := hmiss
      rw [← scanHits_next hpos hlt hnone, Nat.mod_eq_of_lt hwrap] at hmiss'
      have hbase' : stop ≤ 2 ^ 64 - basepageSize + (pos + basepageSize) % basepageSize := by
        rw [Nat.add_mod_right]
        exact hbase
      rcases ih _ (by simp only [basepageSize_eq]; omega) hwrap hmiss' hbase' rfl with ⟨n, hn⟩
      refine ⟨n + 1, .missed hlt hnone ?_⟩
      rwa [Nat.mod_eq_of_lt hwrap]
    · exact ⟨0, .exit hlt⟩

theorem Scanned.mem_pages {stop pos n : Nat} {ps : List PageId} (h : Scanned stop pos s ps n s') :
    ∀ p ∈ ps, ∃ va, s.pages va = some p := by
  induction h with
  | exit => simp
  | missed _ _ _ ih => exact ih
  | @found pos s p ps n s' hlt hp _ ih =>
    intro q hq
    rcases List.mem_cons.mp hq with rfl | hq
    · exact ⟨pos, hp⟩
    · rcases ih q hq with ⟨va, hva⟩
      rw [untrackPage_pages] at hva
      split at hva
      · cases hva
      · exact ⟨va, hva⟩

/-- Whatever is found is missing from the table afterwards. -/
theorem untrackAll_pages_ne {ps : List PageId} (hps : ∀ p ∈ ps, ∃ va, s.pages va = some p)
    (hpages : (s.untrackAll ps).pages = s.pages) : ps = [] := by
  apply List.eq_nil_iff_forall_not_mem.mpr
  intro p hp
  rcases hps p hp with ⟨va, hva⟩
  have hkept : (s.untrackAll ps).pages va = some p := by rw [hpages, hva]
  exact (untrackAll_pages.mp hkept).2 hp

/-- A scan that leaves the table as it was has found nothing, and has ended. -/
theorem munmapScan_unchanged {fuel pos stop : Nat} (hpos : pos < 2 ^ 64)
    (h : munmapScan fuel pos stop s = .ok s') (hpages : s'.pages = s.pages) :
    ¬ ScanHits pos stop s ∧ stop ≤ 2 ^ 64 - basepageSize + pos % basepageSize := by
  constructor
  · rcases munmapScan_ok hpos h with ⟨ps, rfl, -, htab, hiff⟩
    have hnil := untrackAll_pages_ne htab hpages
    exact fun hhits => hiff.mpr hhits hnil
  · rcases munmapScan_iff.mp h with ⟨ps, n, -, hs⟩
    obtain rfl := hs.untrackAll
    obtain rfl := untrackAll_pages_ne hs.mem_pages hpages
    exact hs.base hpos

theorem munmapScan_nothing {pos stop : Nat} (hpos : pos < 2 ^ 64) (hmiss : ¬ ScanHits pos stop s)
    (hbase : stop ≤ 2 ^ 64 - basepageSize + pos % basepageSize) :
    ∃ fuel, munmapScan fuel pos stop s = .ok s := by
  rcases scanned_nil hpos hmiss hbase with ⟨n, hs⟩
  exact ⟨n + 1, hs.munmapScan (Nat.lt_succ_self n)⟩

theorem MunmapAtomic.nothing {addr length : Nat} {accept : Bool} (haddr : addr < 2 ^ 64)
    (h : MunmapAtomic addr length accept s)
    (hrefused : (libcMunmap addr length accept s).1 = -1) :
    ¬ MunmapHits addr length s ∧
      (addr + length) % 2 ^ 64 ≤ 2 ^ 64 - basepageSize + addr % basepageSize := by
  have hmod : addr % 2 ^ 64 = addr := Nat.mod_eq_of_lt haddr
  rcases h hrefused with ⟨fuel, s', hr, hpages, -, -, -⟩
  simp only [hememMunmap, hmod, bind_eq_ok, Except.ok.injEq] at hr
  rcases hr with ⟨s₁, hscan, hret⟩
  -- the refusal itself changes nothing, so what is unchanged is what the scan has left
  have hs₁ : s₁ = s' := by
    rw [libcMunmap_refused (congrArg Prod.fst hret)] at hret
    exact (Prod.mk.inj hret).2
  rw [← hs₁] at hpages
  unfold MunmapHits
  rw [hmod]
  exact munmapScan_unchanged haddr hscan hpages

theorem munmapAtomic_of_nothing {addr length : Nat} {accept : Bool} (haddr : addr < 2 ^ 64)
    (hmiss : ¬ MunmapHits addr length s)
    (hbase : (addr + length) % 2 ^ 64 ≤ 2 ^ 64 - basepageSize + addr % basepageSize) :
    MunmapAtomic addr length accept s := by
  intro hrefused
  have hmod : addr % 2 ^ 64 = addr := Nat.mod_eq_of_lt haddr
  unfold MunmapHits at hmiss
  rw [hmod] at hmiss
  rcases munmapScan_nothing haddr hmiss hbase with ⟨fuel, hscan⟩
  refine ⟨fuel, s, ?_, rfl, rfl, rfl, fun _ => rfl⟩
  rw [hememMunmap, hmod, hscan]
  exact congrArg Except.ok (libcMunmap_refused hrefused)

/-- A failing `hemem_munmap` has no effect exactly when its scan finds no page, and ends. -/
theorem munmapAtomic_iff (s : St) (addr length : UInt64) (accept : Bool) :
    MunmapAtomic addr.toNat length.toNat accept s ↔
      ((libcMunmap addr.toNat length.toNat accept s).1 = -1 →
        ¬ MunmapHits addr.toNat length.toNat s ∧
          (addr.toNat + length.toNat) % 2 ^ 64 ≤
            2 ^ 64 - basepageSize + addr.toNat % basepageSize) := by
  constructor
  · exact fun h hrefused => h.nothing addr.toNat_lt hrefused
  · intro h hrefused
    rcases h hrefused with ⟨hmiss, hbase⟩
    exact munmapAtomic_of_nothing addr.toNat_lt hmiss hbase hrefused

/-- The first base page of a mapped huge page: the kernel does not split it, and it stays
mapped, but it has left the table. -/
theorem munmapAtomic_fails_split :
    ∃ s s', runs (exec smallConfig) twoPages (pebsInit smallConfig) = .ok s ∧
      findPage 0x40000000 s = some 0 ∧
      hememMunmap 2 0x40000000 4096 true s = .ok (-1, s') ∧ findPage 0x40000000 s' = none ∧
      (s'.vm 0x40000000).isSome ∧ ¬ MunmapAtomic 0x40000000 4096 true s := by
  refine ⟨_, _, rfl, rfl, rfl, rfl, rfl, fun h => ?_⟩
  refine (h.nothing (by decide) rfl).1 ⟨0, fun i hi => ?_, rfl⟩
  rw [Nat.le_zero.mp hi]
  decide

end Hemem
