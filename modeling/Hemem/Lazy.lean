import Hemem.Mapped

/-!
# Hemem.Lazy — pages mapped at once and pages mapped by faults

`hemem_mmap` with `MAP_POPULATE`, and `hemem_mmap` without it followed by a missing fault
on each page of the region in the order of addresses. The two allocate, clear, map and
register the same pages and enter them in the table in the same way. The first one updates
the counters and the second one does not.
-/

namespace Hemem

open Lib

variable {cfg : Config} {s s' : St}

/-- A missing fault on each of `n` pages, the first one at `va`. -/
def faultPages (cfg : Config) : Nat → Nat → St → Except Fault St
  | 0, _, s => .ok s
  | n + 1, va, s => do
    let s ← handleMissingFault cfg va s
    faultPages cfg n (va + pageSize) s

/-- A region of `m` pages is mapped at `p` with `MAP_POPULATE`. -/
def mmapEager (cfg : Config) (p m : Nat) (s : St) : Except Fault St :=
  hememMmap cfg p (m * pageSize) true s

/-- A region of `m` pages is mapped at `p`, and every page of it is touched. -/
def mmapLazy (cfg : Config) (p m : Nat) (s : St) : Except Fault St := do
  let s ← hememMmap cfg p (m * pageSize) false s
  faultPages cfg m p s

/-! ## The two copies of the procedure -/

/-- The state with other counters. -/
@[simps -fullyApplied] def St.withNum (s : St) (num : ListId → UInt64) : St := { s with num := num }

/-- They differ in the counters only. -/
theorem handleMissingFault_iff {va : Nat} {num : ListId → UInt64} :
    handleMissingFault cfg va (s.withNum num) = .ok s' ↔
      ∃ n s₁, populatePage cfg va s = .ok (n, s₁) ∧ s' = s₁.withNum num := by
  constructor
  · intro h
    rcases handleMissingFault_ok h with ⟨t, p, rest, hfrom, hfit, rfl⟩
    have hfrom' : AllocFrom s t p rest :=
      ⟨hfrom.head, hfrom.dramFull, hfrom.inDram, hfrom.absent⟩
    have hfit' : Placeable cfg s t p va := ⟨hfit.fits, hfit.va_ne, hfit.aligned, hfit.fresh⟩
    exact ⟨_, _, hfrom'.populatePage_eq hfit', rfl⟩
  · rintro ⟨n, s₁, h, rfl⟩
    rcases populatePage_ok h with ⟨t, p, rest, hfrom, hfit, -, rfl⟩
    have hfrom' : AllocFrom (s.withNum num) t p rest :=
      ⟨hfrom.head, hfrom.dramFull, hfrom.inDram, hfrom.absent⟩
    have hfit' : Placeable cfg (s.withNum num) t p va :=
      ⟨hfit.fits, hfit.va_ne, hfit.aligned, hfit.fresh⟩
    exact hfrom'.handleMissingFault_eq hfit'

/-- What a page of the loop leaves behind: huge pages, and one more in the total. -/
theorem populatePage_huge {va n : Nat} (hpt : ∀ p, (s.page p).pt = .hugep)
    (h : populatePage cfg va s = .ok (n, s')) :
    n = pageSize ∧ (∀ p, (s'.page p).pt = .hugep) ∧ mmapTotal s' = mmapTotal s + 1 := by
  rcases populatePage_ok h with ⟨t, p, rest, -, -, rfl, rfl⟩
  refine ⟨by rw [hpt, ptToPagesize]; rfl, fun q => ?_, mmapTotal_countAlloc t⟩
  by_cases hq : q = p
  · subst hq
    simp [St.place, St.alloc, hpt]
  · simp [St.place, St.alloc, hq, hpt]

/-- The first of `n + 1` pages and the rest. -/
theorem pages_succ (va n : Nat) : va + (n + 1) * pageSize = va + pageSize + n * pageSize ∧
    va < va + (n + 1) * pageSize := by
  simp only [pageSize_eq]
  omega

/-- The loop of `hemem_mmap_populate` and faults on the same pages. -/
theorem faultPages_iff (num : ListId → UInt64) {n : Nat} :
    ∀ {fuel va : Nat} {s s' : St}, (∀ p, (s.page p).pt = .hugep) → n < fuel →
      va + n * pageSize < 2 ^ 64 →
      (faultPages cfg n va (s.withNum num) = .ok s' ↔
        ∃ s₁, populateLoop cfg fuel va (va + n * pageSize) s = .ok s₁ ∧ s' = s₁.withNum num) := by
  -- a fault on each page and a round of the loop for each page go together
  induction n with
  | zero =>
    intro fuel va s s' _ hfuel _
    rcases Nat.exists_eq_succ_of_ne_zero (Nat.ne_of_gt hfuel) with ⟨fuel, rfl⟩
    simp [faultPages, populateLoop, eq_comm]
  | succ n ih =>
    intro fuel va s s' hpt hfuel hend
    rcases Nat.exists_eq_succ_of_ne_zero (Nat.ne_zero_of_lt hfuel) with ⟨fuel, rfl⟩
    rcases pages_succ va n with ⟨hstop, hlt⟩
    rw [hstop] at hend
    have hwrap : (va + pageSize) % 2 ^ 64 = va + pageSize := Nat.mod_eq_of_lt (by omega)
    simp only [faultPages, populateLoop, if_pos hlt, bind_eq_ok, handleMissingFault_iff,
      Prod.exists]
    constructor
    · rintro ⟨_, ⟨k, s₁, hpage, rfl⟩, hrest⟩
      rcases populatePage_huge hpt hpage with ⟨rfl, hpt₁, -⟩
      rcases (ih hpt₁ (Nat.lt_of_succ_lt_succ hfuel) hend).mp hrest with ⟨s₂, hloop, rfl⟩
      exact ⟨s₂, ⟨pageSize, s₁, hpage, by rwa [hwrap, hstop]⟩, rfl⟩
    · rintro ⟨s₂, ⟨k, s₁, hpage, hloop⟩, rfl⟩
      rcases populatePage_huge hpt hpage with ⟨rfl, hpt₁, -⟩
      rw [hwrap, hstop] at hloop
      exact ⟨_, ⟨pageSize, s₁, hpage, rfl⟩,
        (ih hpt₁ (Nat.lt_of_succ_lt_succ hfuel) hend).mpr ⟨s₂, hloop, rfl⟩⟩

/-- The loop counts every page. -/
theorem mmapTotal_populateLoop {n : Nat} :
    ∀ {fuel va : Nat} {s : St}, (∀ p, (s.page p).pt = .hugep) → va + n * pageSize < 2 ^ 64 →
      populateLoop cfg fuel va (va + n * pageSize) s = .ok s' →
      mmapTotal s' = mmapTotal s + UInt64.ofNat n := by
  -- on the pages left: the region ends a page before the address space, so no round wraps
  induction n with
  | zero =>
    intro fuel va s _ _ h
    cases fuel with
    | zero => simp [populateLoop] at h
    | succ fuel =>
      simp only [populateLoop, Nat.zero_mul, Nat.add_zero, Nat.lt_irrefl, if_false,
        Except.ok.injEq] at h
      simp [h]
  | succ n ih =>
    intro fuel va s hpt hend h
    rcases pages_succ va n with ⟨hstop, hlt⟩
    cases fuel with
    | zero => simp [populateLoop] at h
    | succ fuel =>
      simp only [populateLoop, if_pos hlt, bind_eq_ok, Prod.exists] at h
      rcases h with ⟨k, s₁, hpage, hloop⟩
      rcases populatePage_huge hpt hpage with ⟨rfl, hpt₁, htotal⟩
      rw [hstop] at hend hloop
      rw [Nat.mod_eq_of_lt (by omega)] at hloop
      rw [ih hpt₁ hend hloop, htotal, UInt64.ofNat_add, UInt64.add_assoc, UInt64.add_comm 1]
      rfl

/-! ## The whole region -/

/-- What `hemem_mmap` does before the first page. -/
def St.reserved (s : St) (p m : Nat) : St :=
  registerRange p (m * pageSize) (mmapReserve p (m * pageSize) s)

/-- A region of `m` pages that begins at the aligned address `p`. -/
structure Region (p m : Nat) : Prop where
  aligned : p % pageSize = 0
  inside : p + m * pageSize < 2 ^ 64

theorem Region.pageRoundUp_eq {p m : Nat} (h : Region p m) :
    pageRoundUp (m * pageSize) = m * pageSize := by
  have haligned := h.aligned
  have hinside := h.inside
  simp only [pageRoundUp, pageSize_eq] at *
  omega

/-- Mapping a length that is a number of pages. -/
theorem hememMmap_eq {p len : Nat} (hround : pageRoundUp len = len) (hp : p ≠ 0) (hlen : len ≠ 0)
    (populate : Bool) : hememMmap cfg p len populate s =
      if populate then hememMmapPopulate cfg p len (registerRange p len (mmapReserve p len s))
      else .ok (registerRange p len (mmapReserve p len s)) := by
  have hin : inRange p len p = true := inRange_start (Nat.pos_of_ne_zero hlen)
  have hvm : ((mmapReserve p len s).vm p).isSome = true := by
    simp only [mmapReserve_vm, hin, if_true, Option.isSome_some]
  have hp' : (p != 0) = true := bne_iff_ne.mpr hp
  have hlen' : (len != 0) = true := bne_iff_ne.mpr hlen
  simp only [hememMmap, hround, check, uffdioRegister, bind, Except.bind, hp', hlen', hvm, if_true]

theorem hememMmapPopulate_eq {p len : Nat} (hp : p ≠ 0) (hlen : len ≠ 0)
    (hinside : p + len < 2 ^ 64) :
    hememMmapPopulate cfg p len s = populateLoop cfg (cfg.total + 1) p (p + len) s := by
  have hp' : (p != 0) = true := bne_iff_ne.mpr hp
  have hlen' : (len != 0) = true := bne_iff_ne.mpr hlen
  simp only [hememMmapPopulate, check, hp', hlen', if_true, bind, Except.bind,
    Nat.mod_eq_of_lt hinside]

theorem Region.hememMmap_eq {p m : Nat} (h : Region p m) (hp : p ≠ 0) (hm : m ≠ 0)
    (populate : Bool) : hememMmap cfg p (m * pageSize) populate s =
      if populate then hememMmapPopulate cfg p (m * pageSize) (s.reserved p m)
      else .ok (s.reserved p m) := by
  have hlen : m * pageSize ≠ 0 := Nat.mul_ne_zero hm (by decide)
  rw [Hemem.hememMmap_eq h.pageRoundUp_eq hp hlen, St.reserved]

theorem Region.mmapEager_eq {p m : Nat} (h : Region p m) (hp : p ≠ 0) (hm : m ≠ 0) :
    mmapEager cfg p m s =
      populateLoop cfg (cfg.total + 1) p (p + m * pageSize) (s.reserved p m) := by
  have hlen : m * pageSize ≠ 0 := Nat.mul_ne_zero hm (by decide)
  rw [mmapEager, h.hememMmap_eq hp hm, if_pos rfl, hememMmapPopulate_eq hp hlen h.inside]

theorem Region.mmapLazy_eq {p m : Nat} (h : Region p m) (hp : p ≠ 0) (hm : m ≠ 0) :
    mmapLazy cfg p m s = faultPages cfg m p (s.reserved p m) := by
  have hmmap : hememMmap cfg p (m * pageSize) false s = .ok (s.reserved p m) :=
    (h.hememMmap_eq hp hm false).trans (if_neg Bool.false_ne_true)
  rw [mmapLazy, hmmap, bind, Monad.toBind, Except.instMonad]
  rfl

/-- Without a region there is nothing to map, and an assertion stops both. -/
theorem mmapEager_degenerate {p m : Nat} (h : p = 0 ∨ m = 0) :
    mmapEager cfg p m s ≠ .ok s' ∧ mmapLazy cfg p m s ≠ .ok s' := by
  have hmmap : ∀ populate s', hememMmap cfg p (m * pageSize) populate s ≠ .ok s' := by
    intro populate s' hr
    simp only [hememMmap, bind_eq_ok, check_eq_ok, bne_iff_ne, exists_const] at hr
    rcases h with rfl | rfl
    · exact hr.2.1 rfl
    · exact hr.1 (Nat.zero_mul _)
  refine ⟨hmmap true s', fun hr => ?_⟩
  simp only [mmapLazy, bind_eq_ok] at hr
  rcases hr with ⟨s₁, hr, -⟩
  exact hmmap false s₁ hr

theorem Wf.free_length_le (h : Wf cfg s) :
    (s.list dramFreeList).length + (s.list nvmFreeList).length ≤ cfg.total := by
  rw [← List.length_append]
  exact h.excl.length_append_le (by simp) fun p hp => (h.held p).mp hp

/-- Mapping a region at once and by faults: each returns when the other does, and all that
differs afterwards are the counters, which do differ. -/
theorem mmapLazy_differs_in_counters (cfg : Config) {s : St} (hw : Wf cfg s) {p m : Nat}
    (h : Region p m)
    (hfree : m ≤ (s.list dramFreeList).length + (s.list nvmFreeList).length) :
    (∀ s', mmapLazy cfg p m s = .ok s' ↔
      ∃ s₁, mmapEager cfg p m s = .ok s₁ ∧ s' = { s₁ with num := s.num }) ∧
    ¬ ∃ s', mmapEager cfg p m s = .ok s' ∧ mmapLazy cfg p m s = .ok s' := by
  by_cases hdegenerate : p = 0 ∨ m = 0
  · have hstop : ∀ {s'}, mmapEager cfg p m s ≠ .ok s' ∧ mmapLazy cfg p m s ≠ .ok s' :=
      mmapEager_degenerate hdegenerate
    refine ⟨fun s' => ⟨fun hr => absurd hr hstop.2, ?_⟩, ?_⟩
    · rintro ⟨s₁, hr, -⟩
      exact absurd hr hstop.1
    · rintro ⟨s', hr, -⟩
      exact hstop.1 hr
  · rcases not_or.mp hdegenerate with ⟨hp, hm⟩
    have hpt : ∀ q, ((s.reserved p m).page q).pt = .hugep := hw.pt
    have hle := hw.free_length_le
    have hiff : ∀ s', mmapLazy cfg p m s = .ok s' ↔
        ∃ s₁, mmapEager cfg p m s = .ok s₁ ∧ s' = { s₁ with num := s.num } := by
      intro s'
      rw [h.mmapLazy_eq hp hm, h.mmapEager_eq hp hm]
      exact faultPages_iff s.num hpt (by omega) h.inside
    refine ⟨hiff, ?_⟩
    rintro ⟨s', heager, hlazy⟩
    rcases (hiff s').mp hlazy with ⟨s₁, -, hs'⟩
    -- the total has not changed, and yet every page has been counted
    have hsame : mmapTotal s' = mmapTotal s := by rw [hs']; rfl
    rw [h.mmapEager_eq hp hm] at heager
    have htotal := mmapTotal_populateLoop hpt h.inside heager
    have hreserved : mmapTotal (s.reserved p m) = mmapTotal s := rfl
    rw [hsame, hreserved] at htotal
    have hzero : UInt64.ofNat m = 0 := by grind
    have hnat := congrArg UInt64.toNat hzero
    have hlt := cfg.total_lt
    rw [UInt64.toNat_ofNat', Nat.mod_eq_of_lt (by omega), UInt64.toNat_zero] at hnat
    exact hm hnat

theorem region_one : Region 0x40000000 1 := ⟨rfl, by decide⟩

/-- A counter of the state that a run leaves, by its value. -/
theorem map_num_of_toNat {x : Except Fault St} {l : ListId} {n : UInt64}
    (h : x.map (fun s => (s.num l).toNat) = .ok n.toNat) : x.map (fun s => s.num l) = .ok n := by
  cases x with
  | error e => cases h
  | ok s => exact congrArg Except.ok (UInt64.toNat_inj.mp (Except.ok.inj h))

/-- One page: `hemem_mmap_populate` counts it and the fault does not. -/
theorem mmapLazy_eq_mmapEager_fails_onePage :
    (mmapEager smallConfig 0x40000000 1 (pebsInit smallConfig)).map (fun s => s.num dramMmapList) =
        .ok 1 ∧
      (mmapLazy smallConfig 0x40000000 1 (pebsInit smallConfig)).map (fun s => s.num dramMmapList) =
        .ok 0 ∧
      ¬ ∃ s', mmapEager smallConfig 0x40000000 1 (pebsInit smallConfig) = .ok s' ∧
        mmapLazy smallConfig 0x40000000 1 (pebsInit smallConfig) = .ok s' := by
  have heager : (mmapEager smallConfig 0x40000000 1 (pebsInit smallConfig)).map
      (fun s => s.num dramMmapList) = .ok 1 := map_num_of_toNat rfl
  have hlazy : (mmapLazy smallConfig 0x40000000 1 (pebsInit smallConfig)).map
      (fun s => s.num dramMmapList) = .ok 0 := map_num_of_toNat rfl
  refine ⟨heager, hlazy, ?_⟩
  rintro ⟨s', h₁, h₂⟩
  rw [h₁] at heager
  rw [h₂] at hlazy
  exact absurd (Except.ok.inj (heager.symm.trans hlazy)) (by decide)

/-- One page, right after `pebs_init`. -/
theorem mmapLazy_differs_in_counters_onePage :
    ¬ ∃ s', mmapEager smallConfig 0x40000000 1 (pebsInit smallConfig) = .ok s' ∧
      mmapLazy smallConfig 0x40000000 1 (pebsInit smallConfig) = .ok s' :=
  (mmapLazy_differs_in_counters smallConfig (wf_pebsInit smallConfig) region_one (by decide)).2

end Hemem
