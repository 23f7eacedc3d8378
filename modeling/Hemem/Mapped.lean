import Mathlib.Data.Set.Card
import Hemem.Counters

/-!
# Hemem.Mapped — the total of the mapped pages

`get_total_mmap` adds up the six counters of the lists that are not free lists. Requests
and batches move pages between these counters; `hemem_mmap_populate` adds one for every
page that it enters in the table and `hemem_munmap` subtracts one for every page that it
takes out, whichever counter that is. So the sum is the number of pages in the table,
whatever the single counters have come to.
-/

namespace Hemem

open Lib

variable {cfg : Config} {s s' : St}

/-- The sum in `get_total_mmap`. -/
def mmapTotal (s : St) : UInt64 :=
  s.num dramToDramList + s.num dramToNvmList + s.num dramMmapList + s.num nvmToNvmList +
    s.num nvmToDramList + s.num nvmMmapList

/-- `get_total_mmap`, which returns an `int`. -/
def getTotalMmap (s : St) : Int32 := (mmapTotal s).toUInt32.toInt32

/-- The keys of the table. -/
def trackedAddrs (s : St) : Set Nat := {va | ∃ p, s.pages va = some p}

/-- The sum is the number of pages in the table. -/
structure TotalExact (s : St) : Prop where
  finite : (trackedAddrs s).Finite
  total : mmapTotal s = UInt64.ofNat (trackedAddrs s).ncard

/-- Only the table and the two counters matter. -/
theorem TotalExact.congr (h : TotalExact s) (hpages : s'.pages = s.pages)
    (htotal : mmapTotal s' = mmapTotal s) : TotalExact s' := by
  have hkeys : trackedAddrs s' = trackedAddrs s := by
    unfold trackedAddrs
    rw [hpages]
  exact ⟨hkeys ▸ h.finite, by rw [htotal, hkeys, h.total]⟩

/-! ## The sum -/

/-- A request counts the page on the queue instead. -/
theorem mmapTotal_put (d : Dir) (p : PageId) (rest : List PageId) :
    mmapTotal (s.put d p rest) = mmapTotal s := by
  cases d <;> simp [mmapTotal, St.put, Dir.src] <;> grind

/-- A page that is mapped is one more. -/
theorem mmapTotal_countAlloc (t : Tier) :
    mmapTotal (s.countAlloc t) = mmapTotal s + 1 := by
  cases t <;> simp [mmapTotal] <;> grind

/-- A page that is unmapped is one less. -/
theorem mmapTotal_untrackPage (p : PageId) :
    mmapTotal (untrackPage p s) = mmapTotal s - 1 := by
  unfold mmapTotal
  simp only [untrackPage_num]
  cases (s.page p).tier <;> simp <;> grind

/-- A batch changes no total. -/
theorem mmapTotal_batched (d : Dir) (n : Nat) : mmapTotal (s.batched d n) = mmapTotal s := by
  unfold mmapTotal
  simp only [batched_num]
  cases d <;> simp [Dir.dst] <;> grind

/-! ## The table -/

/-- Placing a page adds its address. -/
theorem trackedAddrs_place {t : Tier} {p va : Nat} {rest : List PageId} :
    trackedAddrs (((s.alloc t p rest).place t p va).countAlloc t) =
      insert va (trackedAddrs s) := by
  ext vb
  by_cases hvb : vb = va
  · simp [trackedAddrs, St.place, hvb]
  · simp [trackedAddrs, St.place, St.alloc, hvb]

/-- A new page is counted once. -/
theorem TotalExact.place (h : TotalExact s) {t : Tier} {p va : Nat} {rest : List PageId}
    (hfresh : s.pages va = none) :
    TotalExact (((s.alloc t p rest).place t p va).countAlloc t) := by
  have hnew : va ∉ trackedAddrs s := by simp [trackedAddrs, hfresh]
  have htotal : mmapTotal (((s.alloc t p rest).place t p va).countAlloc t) = mmapTotal s + 1 :=
    mmapTotal_countAlloc t
  refine ⟨trackedAddrs_place ▸ h.finite.insert va, ?_⟩
  rw [htotal, trackedAddrs_place, Set.ncard_insert_of_notMem hnew h.finite, UInt64.ofNat_add, h.total]
  rfl

/-- Untracking a page keeps the others under their addresses. -/
theorem Tabled.untrack (h : Tabled s) (p : PageId) : Tabled (untrackPage p s) := by
  refine h.mono (fun hq => ?_) ?_ fun _ => by rw [untrackPage_page]
  · rw [untrackPage_pages] at hq
    split at hq
    · cases hq
    · exact hq
  · rintro q ⟨l, hl, hq⟩
    exact ⟨l, hl, by rwa [untrackPage_list]⟩

/-- A page that is untracked is counted off once. -/
theorem TotalExact.untrack (h : TotalExact s) (ht : Tabled s) {va : Nat} {p : PageId}
    (hp : s.pages va = some p) : TotalExact (untrackPage p s) := by
  have hkeys : trackedAddrs (untrackPage p s) = trackedAddrs s \ {va} := by
    ext vb
    simp only [trackedAddrs, untrackPage_pages, Set.mem_ofPred_eq, Set.mem_sdiff,
      Set.mem_singleton_iff]
    split
    · rename_i hvb
      simp [ht.inj hvb hp]
    · rename_i hvb
      have hne : vb ≠ va := fun heq => hvb (heq ▸ hp)
      simp [hne]
  have hmem : va ∈ trackedAddrs s := ⟨p, hp⟩
  refine ⟨hkeys ▸ h.finite.sdiff, ?_⟩
  have hcard := Set.ncard_sdiff_singleton_add_one hmem h.finite
  rw [mmapTotal_untrackPage, hkeys, h.total, ← hcard, UInt64.ofNat_add]
  exact UInt64.add_sub_cancel _ _

/-- Only a missing fault enters a page in the table without counting it. -/
def Op.isMissingFault : Op → Bool
  | .missingFault _ => true
  | _ => false

/-- Every operation but a missing fault keeps the total. -/
theorem TotalExact.exec (h : TotalExact s) (hw : Wf cfg s) (ht : Tabled s) {op : Op}
    (hop : op.isMissingFault = false) (hr : exec cfg op s = .ok s') : TotalExact s' := by
  cases op with
  | mmap p length populate =>
    rcases hememMmap_ok hr with ⟨s₀, rfl, ⟨-, rfl⟩ | ⟨-, hloop⟩⟩
    · exact h.congr rfl rfl
    · have h₀ : TotalExact (registerRange p (pageRoundUp length)
          (mmapReserve p (pageRoundUp length) s)) := h.congr rfl rfl
      exact populateLoop_preserves (P := TotalExact)
        (fun _ _ _ _ _ hs _ hfit => hs.place hfit.fresh) h₀ hloop
  -- the other copy of the procedure does not count
  | missingFault va => cases hop
  | request d n random rand =>
    simp only [Hemem.exec, bind_eq_ok, Prod.exists, Except.ok.injEq] at hr
    rcases hr with ⟨k, s₁, hr, rfl⟩
    refine requestLoop_preserves (P := TotalExact) ?_ ?_ h hr
    · exact fun s n hs => hs.congr rfl rfl
    · exact fun s p rest hs _ => hs.congr rfl (mmapTotal_put d p rest)
  | migrate numBatchs d =>
    simp only [Hemem.exec, migrationRequest] at hr
    split at hr
    · exact Except.ok.inj hr ▸ h
    · rcases hw.migrateBatch_ok.mp hr with ⟨-, rfl⟩
      exact h.congr (batched_pages s d _) (mmapTotal_batched d _)
  | munmap fuel addr length accept =>
    simp only [Hemem.exec, hememMunmap, bind_eq_ok, Prod.exists, Except.ok.injEq] at hr
    rcases hr with ⟨ret, s₁, ⟨s₂, hscan, hret⟩, rfl⟩
    -- the scan untracks page after page, and counts each off once
    have h₂ : Tabled s₂ ∧ TotalExact s₂ := by
      refine munmapScan_preserves (P := fun s => Tabled s ∧ TotalExact s) ?_ ⟨ht, h⟩ hscan
      exact fun s va p hs hp => ⟨hs.1.untrack p, hs.2.untrack hs.1 hp⟩
    rcases libcMunmap_cases addr length accept s₂ with hcase | hcase
    · exact (Prod.mk.inj (hcase.symm.trans hret)).2 ▸ h₂.2
    · exact (Prod.mk.inj (hcase.symm.trans hret)).2 ▸ h₂.2.congr rfl rfl
  | write a v =>
    simp only [Hemem.exec, appWrite] at hr
    split at hr
    · simp only [bind_eq_ok, check_eq_ok, Except.ok.injEq] at hr
      rcases hr with ⟨-, -, rfl⟩
      exact h.congr rfl rfl
    · cases hr

theorem trackedAddrs_pebsInit (cfg : Config) : trackedAddrs (pebsInit cfg) = ∅ := by
  ext va
  simp [trackedAddrs, pebsInit, initLoop_eq, St.empty]

/-- At the start nothing is tracked, and the total is zero. -/
theorem totalExact_pebsInit (cfg : Config) : TotalExact (pebsInit cfg) := by
  refine ⟨?_, ?_⟩
  · rw [trackedAddrs_pebsInit]
    exact Set.finite_empty
  · rw [trackedAddrs_pebsInit, Set.ncard_empty]
    simp [mmapTotal, pebsInit_num]

/-- There are no more pages in the table than descriptors. -/
theorem Wf.ncard_trackedAddrs_le (h : Wf cfg s) (ht : Tabled s) :
    (trackedAddrs s).ncard ≤ cfg.total := by
  have hsub : trackedAddrs s ⊆ (fun p => (s.page p).va) '' (Finset.range cfg.total : Set Nat) := by
    rintro va ⟨p, hp⟩
    exact ⟨p, by simpa using h.live_lt (ht.live hp), ht.va_eq hp⟩
  calc (trackedAddrs s).ncard
      ≤ ((fun p => (s.page p).va) '' (Finset.range cfg.total : Set Nat)).ncard :=
        Set.ncard_le_ncard hsub ((Finset.finite_toSet _).image _)
    _ ≤ (Finset.range cfg.total : Set Nat).ncard := Set.ncard_image_le (Finset.finite_toSet _)
    _ = cfg.total := by rw [Set.ncard_coe_finset, Finset.card_range]

/-! ## Regions that have been unmapped -/

/-- The loop never runs on from the end of the address space. -/
theorem populateLoop_zero {fuel stop : Nat} (h : populateLoop cfg fuel 0 stop s = .ok s') :
    stop = 0 := by
  by_contra hstop
  cases fuel with
  | zero => simp [populateLoop] at h
  | succ fuel =>
    rw [populateLoop, if_pos (Nat.pos_of_ne_zero hstop)] at h
    simp only [bind_eq_ok, Prod.exists] at h
    rcases h with ⟨n, s₁, hpage, -⟩
    rcases populatePage_ok hpage with ⟨t, p, rest, -, hfit, -⟩
    exact hfit.va_ne rfl

/-- `hemem_mmap_populate` enters addresses of its region only. -/
theorem Wf.populateLoop_tracked {fuel va stop : Nat} (h : Wf cfg s) (hstop : stop < 2 ^ 64)
    (hr : populateLoop cfg fuel va stop s = .ok s') {vb : Nat} (hvb : vb ∈ trackedAddrs s') :
    vb ∈ trackedAddrs s ∨ (va ≤ vb ∧ vb < stop ∧ va % pageSize = 0) := by
  induction fuel generalizing va s with
  | zero => simp [populateLoop] at hr
  | succ fuel ih =>
    unfold populateLoop at hr
    split at hr
    · rename_i hlt
      simp only [bind_eq_ok, Prod.exists] at hr
      rcases hr with ⟨n, s₁, hpage, hrest⟩
      rcases populatePage_ok hpage with ⟨t, p, rest, hfrom, hfit, rfl, rfl⟩
      have haligned := hfit.aligned
      have hrest' := hrest
      rw [h.pt, ptToPagesize] at hrest'
      rcases ih ((h.place hfrom hfit).countAlloc t) hrest with hold | ⟨hle, hlt', -⟩
      · rw [trackedAddrs_place] at hold
        rcases hold with rfl | hold
        · exact Or.inr ⟨Nat.le_refl _, hlt, haligned⟩
        · exact Or.inl hold
      · refine Or.inr ⟨?_, hlt', haligned⟩
        rw [h.pt, ptToPagesize] at hle
        by_cases hwrap : va + hugepageSize < 2 ^ 64
        · rw [Nat.mod_eq_of_lt hwrap] at hle
          omega
        · -- the last page of the address space has been mapped
          have hzero : (va + hugepageSize) % 2 ^ 64 = 0 := by
            simp only [pageSize_eq, hugepageSize_eq] at *
            omega
          rw [hzero] at hrest'
          have := populateLoop_zero hrest'
          omega
    · exact Or.inl (Except.ok.inj hr ▸ hvb)

/-- The scan adds no page to the table. -/
theorem munmapScan_mono {fuel va stop vb : Nat} (h : munmapScan fuel va stop s = .ok s')
    (hvb : s.pages vb = none) : s'.pages vb = none := by
  refine munmapScan_preserves (P := fun s => s.pages vb = none) (fun s _ p hs _ => ?_) hvb h
  rw [untrackPage_pages, hs]
  simp

/-- The scan of `hemem_munmap` steps over no page: what it is looking for is aligned, and
it advances by a page only where one begins. -/
theorem HugeTable.munmapScan_untracks {fuel va stop : Nat} (ht : HugeTable s)
    (hbase : va % basepageSize = 0) (hr : munmapScan fuel va stop s = .ok s') {vb : Nat}
    (hle : va ≤ vb) (hlt : vb < stop) (hstop : stop < 2 ^ 64) : s'.pages vb = none := by
  induction fuel generalizing va s with
  | zero => simp [munmapScan] at hr
  | succ fuel ih =>
    cases hvb : s.pages vb with
    | none => exact munmapScan_mono hr hvb
    | some q =>
      have hvbal := ht.aligned hvb
      rw [munmapScan, if_pos (Nat.lt_of_le_of_lt hle hlt)] at hr
      cases hf : findPage va s with
      | none =>
        rw [hf] at hr
        -- a page begins at `vb`, so the scan is not there
        have hne : va ≠ vb := by
          rintro rfl
          cases hvb.symm.trans hf
        simp only [pageSize_eq, basepageSize_eq] at hvbal hbase
        refine ih ht ?_ hr ?_
        · simp only [basepageSize_eq]
          omega
        · simp only [basepageSize_eq]
          omega
      | some p =>
        rw [hf] at hr
        have hval := ht.aligned hf
        -- a page that begins before `vb` ends before it as well
        by_cases hvab : va = vb
        · subst hvab
          apply munmapScan_mono hr
          rw [untrackPage_pages]
          exact if_pos hf
        · simp only [ht.pt hf, ptToPagesize] at hr
          simp only [pageSize_eq, basepageSize_eq] at hvbal hval hbase
          refine ih (ht.untrack p) ?_ hr ?_
          · simp only [basepageSize_eq, hugepageSize_eq]
            omega
          · simp only [hugepageSize_eq]
            omega

/-- `va` is in a region that has been populated and not been unmapped since. -/
def StillMapped (ops : List Op) (va : Nat) : Prop :=
  ∃ pre p length post, ops = pre ++ .mmap p length true :: post ∧ p % pageSize = 0 ∧
    p ≤ va ∧ va < (p + pageRoundUp length) % 2 ^ 64 ∧
    ∀ fuel accept, .munmap fuel p length accept ∉ post

/-- Every populated region is unmapped later on. -/
def UnmapsAll (ops : List Op) : Prop :=
  ∀ pre p length post, ops = pre ++ .mmap p length true :: post →
    ∃ fuel accept, .munmap fuel p length accept ∈ post

/-- What is unmapped is not mapped any more. -/
theorem UnmapsAll.not_stillMapped {ops : List Op} (h : UnmapsAll ops) (va : Nat) :
    ¬ StillMapped ops va := by
  rintro ⟨pre, p, length, post, hops, -, -, -, hnot⟩
  rcases h pre p length post hops with ⟨fuel, accept, hmem⟩
  exact hnot fuel accept hmem

/-- An operation that does not unmap the address leaves it mapped. -/
theorem StillMapped.append {ops : List Op} {va : Nat} (h : StillMapped ops va) {op : Op}
    (hop : ∀ fuel p length accept, op = .munmap fuel p length accept → p % pageSize = 0 →
      p ≤ va → ¬ va < (p + pageRoundUp length) % 2 ^ 64) : StillMapped (ops ++ [op]) va := by
  rcases h with ⟨pre, p, length, post, rfl, hal, hle, hlt, hnot⟩
  refine ⟨pre, p, length, post ++ [op], by simp, hal, hle, hlt, fun fuel accept hmem => ?_⟩
  rcases List.mem_append.mp hmem with hmem | hmem
  · exact hnot fuel accept hmem
  · exact hop fuel p length accept (List.mem_singleton.mp hmem).symm hal hle hlt

/-- The pages of a populated region begin within the length that was asked for. -/
theorem lt_of_lt_roundUp {p length va : Nat} (hp : p % pageSize = 0) (hva : va % pageSize = 0)
    (hle : p ≤ va) (hlt : va < (p + pageRoundUp length) % 2 ^ 64) :
    va < (p + length) % 2 ^ 64 ∧ p < 2 ^ 64 := by
  simp only [pageRoundUp, pageSize_eq] at *
  omega

/-- Between operations the table holds pages of regions that are still mapped only. -/
theorem stillMapped_of_tracked {ops : List Op} (hops : ∀ op ∈ ops, op.isMissingFault = false)
    (hr : runs (exec cfg) ops (pebsInit cfg) = .ok s) {va : Nat} (hva : va ∈ trackedAddrs s) :
    StillMapped ops va := by
  induction ops using List.reverseRecOn generalizing s with
  | nil =>
    obtain rfl := Except.ok.inj hr
    rw [trackedAddrs_pebsInit] at hva
    cases hva
  | append_singleton ops op ih =>
    rcases runs_concat.mp hr with ⟨s₁, hr₁, hop⟩
    have hinv : Wf cfg s₁ ∧ Tabled s₁ :=
      of_runs (I := fun s => Wf cfg s ∧ Tabled s)
        (fun _ _ _ h hr => ⟨wf_exec h.1 hr, h.1.tabled_exec h.2 hr⟩)
        ⟨wf_pebsInit cfg, tabled_pebsInit cfg⟩ hr₁
    have hold : va ∈ trackedAddrs s₁ → StillMapped ops va :=
      ih (fun op hmem => hops op (List.mem_append_left _ hmem)) hr₁
    -- an operation that enters nothing, and is no `hemem_munmap`
    have hkeep : s.pages = s₁.pages → (∀ fuel p length accept, op ≠ .munmap fuel p length accept) →
        StillMapped (ops ++ [op]) va := by
      intro hpages hne
      refine (hold ?_).append fun fuel p length accept heq => absurd heq (hne fuel p length accept)
      simpa only [trackedAddrs, hpages] using hva
    cases op with
    | mmap p length populate =>
      rcases hememMmap_ok hop with ⟨s₀, rfl, ⟨-, rfl⟩ | ⟨rfl, hloop⟩⟩
      · exact hkeep rfl (by simp)
      · have h₀ : Wf cfg (registerRange p (pageRoundUp length)
            (mmapReserve p (pageRoundUp length) s₁)) := hinv.1.congr rfl rfl fun _ => rfl
        rcases h₀.populateLoop_tracked (Nat.mod_lt _ (by decide)) hloop hva with h | ⟨hle, hlt, hal⟩
        · exact (hold h).append (by simp)
        · exact ⟨ops, p, length, [], rfl, hal, hle, hlt, by simp⟩
    | missingFault va => cases hops _ (List.mem_append_right _ (List.mem_singleton_self _))
    | request d n random rand =>
      refine hkeep ?_ (by simp)
      simp only [exec, bind_eq_ok, Prod.exists, Except.ok.injEq] at hop
      rcases hop with ⟨k, s₂, hop, rfl⟩
      exact requestLoop_preserves (P := fun s => s.pages = s₁.pages) (fun _ _ hs => hs)
        (fun _ _ _ hs _ => hs) rfl hop
    | migrate numBatchs d =>
      refine hkeep ?_ (by simp)
      simp only [exec, migrationRequest] at hop
      split at hop
      · exact congrArg St.pages (Except.ok.inj hop).symm
      · rcases hinv.1.migrateBatch_ok.mp hop with ⟨-, rfl⟩
        exact batched_pages s₁ d _
    | munmap fuel addr length accept =>
      simp only [exec, hememMunmap, bind_eq_ok, Prod.exists, Except.ok.injEq] at hop
      rcases hop with ⟨ret, s₂, ⟨s₃, hscan, hret⟩, rfl⟩
      have hpages : s₂.pages = s₃.pages := by
        rcases libcMunmap_cases addr length accept s₃ with hcase | hcase <;>
          rw [← (Prod.mk.inj (hcase.symm.trans hret)).2]
        rfl
      rcases hva with ⟨q, hq⟩
      rw [hpages] at hq
      -- the scan enters no page, so it was there before
      have hq₁ : s₁.pages va = some q := by
        cases hnone : s₁.pages va with
        | none => cases (munmapScan_mono hscan hnone).symm.trans hq
        | some q' =>
          rcases munmapScan_ok (Nat.mod_lt _ (by decide)) hscan with ⟨ps, rfl, -⟩
          exact hnone ▸ (untrackAll_pages.mp hq).1
      have hval : va % pageSize = 0 := (hinv.1.hugeTable hinv.2).aligned hq₁
      refine (hold ⟨q, hq₁⟩).append fun fuel' p length' accept' heq hal hle hlt => ?_
      rcases Op.munmap.inj heq with ⟨rfl, rfl, rfl, rfl⟩
      rcases lt_of_lt_roundUp hal hval hle hlt with ⟨hlt', hp⟩
      rw [Nat.mod_eq_of_lt hp] at hscan
      have hbase : addr % basepageSize = 0 := by
        simp only [pageSize_eq, basepageSize_eq] at *
        omega
      -- the scan has taken out every page of its range, and this one is still there
      have hnone := (hinv.1.hugeTable hinv.2).munmapScan_untracks hbase hscan hle hlt'
        (Nat.mod_lt _ (by decide))
      rw [hnone] at hq
      cases hq
    | write a v =>
      refine hkeep ?_ (by simp)
      simp only [exec, appWrite] at hop
      split at hop
      · simp only [bind_eq_ok, check_eq_ok, Except.ok.injEq] at hop
        rcases hop with ⟨-, -, rfl⟩
        rfl
      · cases hop

/-- `hemem_mmap`, requests, batches and `hemem_munmap` in any order: the total is the
number of pages in the table, and 0 when every populated region has been unmapped. -/
theorem mmapTotal_eq_tracked (cfg : Config) (ops : List Op)
    (hops : ∀ op ∈ ops, op.isMissingFault = false) {s : St}
    (hr : runs (exec cfg) ops (pebsInit cfg) = .ok s) :
    (mmapTotal s).toNat = (trackedAddrs s).ncard ∧ (UnmapsAll ops → getTotalMmap s = 0) := by
  have hinv : Wf cfg s ∧ Tabled s ∧ TotalExact s := by
    have halong : Along (exec cfg) (fun _ op => op.isMissingFault = false) ops (pebsInit cfg) :=
      Along.of_forall fun op hop _ => hops op hop
    have hthrough := throughout_of_along (I := fun s => Wf cfg s ∧ Tabled s ∧ TotalExact s)
      (C := fun _ (op : Op) => op.isMissingFault = false)
      (fun _ _ _ h hop hr => ⟨wf_exec h.1 hr, h.1.tabled_exec h.2.1 hr, h.2.2.exec h.1 h.2.1 hop hr⟩)
      ⟨wf_pebsInit cfg, tabled_pebsInit cfg, totalExact_pebsInit cfg⟩
      halong
    exact throughout_iff_runs.mp hthrough ops (List.prefix_refl _) s hr
  rcases hinv with ⟨hw, ht, htotal⟩
  refine ⟨?_, fun hall => ?_⟩
  · have hle := hw.ncard_trackedAddrs_le ht
    have hlt := cfg.total_lt
    rw [htotal.total, UInt64.toNat_ofNat']
    exact Nat.mod_eq_of_lt (by omega)
  · have hempty : trackedAddrs s = ∅ := by
      refine Set.eq_empty_of_forall_notMem fun va hva => ?_
      exact hall.not_stillMapped va (stillMapped_of_tracked hops hr hva)
    rw [getTotalMmap, htotal.total, hempty, Set.ncard_empty]
    rfl

/-- Two pages are populated, one of them goes to NVM and one waits on a queue when both
are unmapped. -/
def totalRun : List Op :=
  [.mmap 0x40000000 (2 * pageSize) true, .request .dramToNvm 1 true fun _ => 1,
    .migrate 1 .dramToNvm, .request .dramToDram 1 false fun _ => 0,
    .munmap 1000 0x40000000 (2 * pageSize) true]

/-- The run unmaps what it maps. -/
theorem unmapsAll_totalRun : UnmapsAll totalRun := by
  intro pre p length post hops
  rcases pre with _ | ⟨op, pre⟩
  · rcases hops with ⟨⟩
    exact ⟨1000, true, by simp⟩
  · have hmem : Op.mmap p length true ∈ totalRun.tail := by
      rw [hops]
      simp
    simp [totalRun] at hmem

/-- After the run the total is zero, although one page has moved and one still waits on a queue. -/
theorem mmapTotal_eq_tracked_totalRun :
    ∃ s, runs (exec smallConfig) totalRun (pebsInit smallConfig) = .ok s ∧
      getTotalMmap s = 0 := by
  refine ⟨_, rfl, ?_⟩
  exact (mmapTotal_eq_tracked smallConfig totalRun (by decide) rfl).2 unmapsAll_totalRun

end Hemem
