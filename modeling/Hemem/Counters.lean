import Hemem.Table

/-!
# Hemem.Counters — the eight counters and the lengths of their lists

The counters are updated by hand. Populating a mapping, a request and a batch
update every counter whose list they change. `handle_missing_fault` moves a page
from a free list to an mmap list and updates none; `hemem_munmap` updates two
counters for every page it finds and moves none.
-/

namespace Hemem

open Lib

variable {cfg : Config} {s s' : St}

/-- Every counter equals the number of entries on its list. -/
def CountersExact (s : St) : Prop := ∀ l, (s.num l).toNat = (s.list l).length

/-- An operation other than a missing fault, and other than a `hemem_munmap` that
comes to a page of the table. -/
def KeepsCount (s : St) : Op → Prop
  | .missingFault _ => False
  | .munmap _ addr length _ => ¬ MunmapHits addr length s
  | _ => True

/-- At the start the counters are exact. -/
theorem countersExact_pebsInit (cfg : Config) : CountersExact (pebsInit cfg) := by
  have hlt : ∀ t, cfg.npages t < 2 ^ 64 := by
    intro t
    have := cfg.size_lt t
    simp only [Config.npages, pageSize_eq]
    omega
  have hnpages : ∀ t, (UInt64.ofNat (cfg.npages t)).toNat = cfg.npages t := by
    intro t
    rw [UInt64.toNat_ofNat', Nat.mod_eq_of_lt (hlt t)]
  intro l
  rw [pebsInit_num, pebsInit_list]
  rcases l with (_ | _) | _ | _
  · exact (hnpages .dram).trans List.length_range.symm
  · exact (hnpages .nvm).trans (by rw [List.length_map, List.length_range])
  · rfl
  · rfl

/-! ## Operations that keep the counters exact -/

theorem toNat_sub_one {x : UInt64} (h : 0 < x.toNat) : (x - 1).toNat = x.toNat - 1 := by
  have := toNat_sub_ofNat (x := x) (n := 1) h
  simpa using this

/-- One page changes from the list `i` to the list `j`, and the counters with it. -/
theorem CountersExact.transfer (h : CountersExact s) {i j : ListId} (hij : i ≠ j)
    (hi : (s'.list i).length + 1 = (s.list i).length)
    (hj : (s'.list j).length = (s.list j).length + 1) (hlt : (s'.list j).length < 2 ^ 64)
    (hrest : ∀ k, k ≠ i → k ≠ j → s'.list k = s.list k)
    (hnum : s'.num = ((s.addNum j 1).subNum i 1).num) : CountersExact s' := by
  intro k
  rw [hnum]
  by_cases hkj : k = j
  · subst hkj
    have hk := h k
    simp only [St.subNum_num, St.addNum_num, Function.update_of_ne hij.symm, Function.update_self]
    rw [toNat_add_one (by omega), hk, hj]
  · by_cases hki : k = i
    · subst hki
      have hk := h k
      simp only [St.subNum_num, St.addNum_num, Function.update_self, Function.update_of_ne hij]
      rw [toNat_sub_one (by omega), hk]
      omega
    · simp only [St.subNum_num, St.addNum_num, Function.update_of_ne hki,
        Function.update_of_ne hkj, hrest k hki hkj]
      exact h k

/-- A request counts the page on the queue instead of the mmap list. -/
theorem Wf.countersExact_put (h : Wf cfg s) (hc : CountersExact s) {d : Dir} {p : PageId}
    {rest : List PageId} (hl : s.list (.mmap d.src) = p :: rest) :
    CountersExact (s.put d p rest) := by
  refine hc.transfer (i := .mmap d.src) (j := .queue d) (by simp) ?_ ?_ ?_ ?_ rfl
  · simp [St.put, hl]
  · simp [St.put]
  · exact (h.put hl).length_lt _
  · exact (put_handOver hl).rest

/-- A page that is placed and counted leaves them exact. -/
theorem Wf.countersExact_place (h : Wf cfg s) (hc : CountersExact s) {t : Tier} {p va : Nat}
    {rest : List PageId} (hfrom : AllocFrom s t p rest) (hfit : Placeable cfg s t p va) :
    CountersExact (((s.alloc t p rest).place t p va).countAlloc t) := by
  refine hc.transfer (i := .free t) (j := .mmap t) (by simp) ?_ ?_ ?_ ?_ rfl
  · simp [St.place, St.alloc, hfrom.head]
  · simp [St.place, St.alloc]
  · exact ((h.place hfrom hfit).countAlloc t).length_lt _
  · exact (alloc_handOver hfrom.head).rest

/-- Without the counter updates of `hemem_mmap_populate`, the counter of the free
list is one too high. -/
theorem CountersExact.fails_place (hc : CountersExact s) {t : Tier} {p va : Nat}
    {rest : List PageId} (hfrom : AllocFrom s t p rest) :
    ¬ CountersExact ((s.alloc t p rest).place t p va) := by
  intro hc'
  have h1 := hc (.free t)
  have h2 := hc' (.free t)
  simp only [hfrom.head, List.length_cons] at h1
  simp only [St.place, St.alloc, St.setList_num, St.modPage_num, St.setList_list,
    Function.update_of_ne (by simp : ListId.free t ≠ .mmap t), Function.update_self] at h2
  omega

theorem toNat_add_ofNat {x : UInt64} {n : Nat} (h : x.toNat + n < 2 ^ 64) :
    (x + UInt64.ofNat n).toNat = x.toNat + n := by
  rw [UInt64.toNat_add, UInt64.toNat_ofNat']
  omega

/-- The counters of the batch in closed form. -/
theorem batched_num {d : Dir} {n : Nat} (l : ListId) :
    (s.batched d n).num l =
      match l with
      | .queue e => if e = d then s.num l - UInt64.ofNat n else s.num l
      | .mmap t => if t = d.dst then s.num l + UInt64.ofNat n else s.num l
      | .free t =>
        if d.src = d.dst then s.num l
        else if t = d.src then s.num l + UInt64.ofNat n else s.num l - UInt64.ofNat n := by
  have hnum : (((s.dequeued d n).migrated d ((batchPairs d n s).map (moveOf s))).enqueued d
      (batchPairs d n s)).num = s.num := by
    simp [St.enqueued, St.dequeued]
  cases d <;> rcases l with (_ | _) | (_ | _) | (_ | _ | _ | _) <;>
    simp [St.batched, countBatch, hnum, Dir.src, Dir.dst]

/-- So does a batch. -/
theorem Wf.countersExact_batched (h : Wf cfg s) (hc : CountersExact s) {d : Dir} {n : Nat}
    (hr : Ready d n s) (hcomp : Completable cfg d n s) : CountersExact (s.batched d n) := by
  have hlen : ∀ l, ((s.batched d n).list l).length < 2 ^ 64 := (h.batched hr hcomp).length_lt
  have hq := hr.queue
  have hf := hr.free
  intro l
  have hl := hc l
  have hlt := hlen l
  rw [batched_num]
  cases l with
  | queue e =>
    rw [batched_queue hr] at hlt ⊢
    by_cases he : e = d
    · subst he
      simp only [if_true, List.length_drop] at hlt ⊢
      rw [toNat_sub_ofNat (by omega), hl]
    · simp only [if_neg he] at hlt ⊢
      exact hl
  | mmap t =>
    rw [batched_list hr] at hlt ⊢
    by_cases ht : t = d.dst
    · subst ht
      simp only [moveFree, moveLive, ne_eq, reduceCtorEq, not_false_eq_true,
        Function.update_of_ne, Function.update_self, List.length_append, List.length_take,
        Nat.min_eq_left hq, if_true] at hlt ⊢
      rw [toNat_add_ofNat (by omega), hl]
    · simp only [moveFree, moveLive, ne_eq, reduceCtorEq, not_false_eq_true,
        Function.update_of_ne, ListId.mmap.injEq, ht, if_false]
      exact hl
  | free t =>
    have hlive : moveLive d n s.list (.free d.dst) = s.list (.free d.dst) := by simp [moveLive]
    rw [batched_list hr] at hlt ⊢
    by_cases hd : d.src = d.dst
    · -- within one tier the free descriptors return to their list
      simp only [if_pos hd]
      by_cases ht : t = d.src
      · subst ht
        have hperm := (moveFree_same hd.symm n (moveLive d n s.list)).1
        rw [hperm.length_eq]
        simpa [moveLive] using hl
      · rw [(moveFree_same hd.symm n _).2 _ (by simpa using ht)]
        simpa [moveLive] using hl
    · -- between the tiers the free list of the source grows as that of the destination shrinks
      simp only [if_neg hd]
      by_cases ht : t = d.src
      · subst ht
        simp only [moveFree, hlive, Function.update_self, if_true, List.length_append,
          Function.update_of_ne (by simpa using hd : ListId.free d.src ≠ .free d.dst),
          List.length_take, Nat.min_eq_left hf] at hlt ⊢
        simp only [moveLive, ne_eq, reduceCtorEq, not_false_eq_true, Function.update_of_ne]
          at hlt ⊢
        rw [toNat_add_ofNat (by omega), hl]
      · have htd : t = d.dst := by
          revert ht hd
          cases d <;> cases t <;> simp [Dir.src, Dir.dst]
        subst htd
        simp only [if_neg ht, moveFree, hlive, Function.update_self, List.length_drop,
          Function.update_of_ne (by simpa using ht : ListId.free d.dst ≠ .free d.src)] at hlt ⊢
        rw [toNat_sub_ofNat (by omega), hl]

/-! ## `hemem_munmap` -/

/-- No more pages are counted than there are. -/
theorem Wf.tierCount_lt (h : Wf cfg s) (ht : Tabled s) {ps : List PageId} (hnd : ps.Nodup)
    (htab : ∀ p ∈ ps, ∃ va, s.pages va = some p) (t : Tier) : tierCount s t ps < 2 ^ 64 := by
  have hlen : ps.length ≤ cfg.total := by
    refine length_le_of_lt hnd fun p hp => ?_
    rcases htab p hp with ⟨va, hva⟩
    exact h.live_lt (ht.live hva)
  exact Nat.lt_of_le_of_lt (List.countP_le_length.trans hlen) cfg.total_lt

/-- A counter from which something is subtracted is not what it was. -/
theorem sub_ofNat_ne {x : UInt64} {n : Nat} (h0 : 0 < n) (hn : n < 2 ^ 64) :
    (x - UInt64.ofNat n).toNat ≠ x.toNat := by
  have hlt := x.toNat_lt
  rw [UInt64.toNat_sub, UInt64.toNat_ofNat', Nat.mod_eq_of_lt hn]
  omega

/-- Untracking pages keeps the counters exact only if there are none. -/
theorem Wf.countersExact_untrackAll (h : Wf cfg s) (ht : Tabled s) (hc : CountersExact s)
    {ps : List PageId} (hnd : ps.Nodup) (htab : ∀ p ∈ ps, ∃ va, s.pages va = some p) :
    CountersExact (s.untrackAll ps) ↔ ps = [] := by
  constructor
  · intro hc'
    by_contra hne
    rcases List.exists_mem_of_ne_nil ps hne with ⟨p, hp⟩
    have hpos : 0 < tierCount s (s.page p).tier ps :=
      List.countP_pos_iff.mpr ⟨p, hp, by simp⟩
    have hmmap := hc' (.mmap (s.page p).tier)
    rw [untrackAll_num, untrackAll_list, ← hc (.mmap (s.page p).tier)] at hmmap
    exact sub_ofNat_ne hpos (h.tierCount_lt ht hnd htab _) hmmap
  · rintro rfl
    exact hc

/-! ## Runs -/

/-- An operation keeps the counters exact precisely when it counts what it does. -/
theorem Wf.countersExact_exec (h : Wf cfg s) (ht : Tabled s) (hc : CountersExact s) {op : Op}
    (hr : exec cfg op s = .ok s') : CountersExact s' ↔ KeepsCount s op := by
  cases op with
  | mmap p length populate =>
    refine iff_of_true ?_ trivial
    rcases hememMmap_ok hr with ⟨s₀, rfl, hcase⟩
    have h₀ : Wf cfg (registerRange p (pageRoundUp length)
        (mmapReserve p (pageRoundUp length) s)) := h.congr rfl rfl fun _ => rfl
    rcases hcase with ⟨-, rfl⟩ | ⟨-, hloop⟩
    · exact hc
    · refine (populateLoop_preserves (P := fun s => Wf cfg s ∧ CountersExact s) ?_
        ⟨h₀, hc⟩ hloop).2
      intro s t p rest va hs hfrom hfit
      exact ⟨(hs.1.place hfrom hfit).countAlloc t, hs.1.countersExact_place hs.2 hfrom hfit⟩
  | missingFault va =>
    -- `handle_missing_fault` counts nothing for the page it puts, so the counter is one short.
    rcases handleMissingFault_ok hr with ⟨t, p, rest, hfrom, -, rfl⟩
    exact iff_of_false (hc.fails_place hfrom) id
  | request d n random rand =>
    refine iff_of_true ?_ trivial
    simp only [exec, bind_eq_ok, Prod.exists, Except.ok.injEq] at hr
    rcases hr with ⟨k, s₁, hr, rfl⟩
    refine (requestLoop_preserves (P := fun s => Wf cfg s ∧ CountersExact s) ?_ ?_
      ⟨h, hc⟩ hr).2
    · intro s n hs
      refine ⟨hs.1.reorder (List.rotate_perm _ n), fun l => ?_⟩
      have hl := hs.2 l
      by_cases hm : l = .mmap d.src
      · subst hm
        simpa using hl
      · simpa [hm] using hl
    · exact fun s p rest hs hl => ⟨hs.1.put hl, hs.1.countersExact_put hs.2 hl⟩
  | migrate numBatchs d =>
    refine iff_of_true ?_ trivial
    simp only [exec, migrationRequest] at hr
    split at hr
    · exact Except.ok.inj hr ▸ hc
    · rcases h.migrateBatch_ok.mp hr with ⟨hcomp, rfl⟩
      exact h.countersExact_batched hc (h.ready hcomp) hcomp
  | munmap fuel addr length accept =>
    simp only [exec, bind_eq_ok, Prod.exists, Except.ok.injEq] at hr
    rcases hr with ⟨ret, s₁, hr, rfl⟩
    rcases hememMunmap_ok hr with ⟨ps, hnd, htab, hhits, hs'⟩
    -- The kernel's own `munmap` changes no list and no counter.
    have hexact : CountersExact s₁ ↔ CountersExact (s.untrackAll ps) := by
      rcases hs' with rfl | rfl <;> exact Iff.rfl
    rw [hexact, h.countersExact_untrackAll ht hc hnd htab]
    exact (not_not.symm.trans (not_congr hhits))
  | write a v =>
    refine iff_of_true ?_ trivial
    simp only [exec, appWrite] at hr
    split at hr
    · simp only [bind_eq_ok, check_eq_ok, Except.ok.injEq] at hr
      rcases hr with ⟨-, -, rfl⟩
      exact hc
    · cases hr

/-- In a run from `pebs_init` the counters are exact in every state precisely when
the run completes no missing fault and no `hemem_munmap` that comes to a page of
the table. -/
theorem countersExact_throughout_iff (cfg : Config) (ops : List Op) :
    Throughout (exec cfg) CountersExact ops (pebsInit cfg) ↔
      Along (exec cfg) KeepsCount ops (pebsInit cfg) := by
  have hstep : ∀ s op s', Wf cfg s ∧ Tabled s → CountersExact s → exec cfg op s = .ok s' →
      (CountersExact s' ↔ KeepsCount s op) :=
    fun _ _ _ h hc hr => h.1.countersExact_exec h.2 hc hr
  have hinv : ∀ s op s', Wf cfg s ∧ Tabled s → exec cfg op s = .ok s' → Wf cfg s' ∧ Tabled s' :=
    fun _ _ _ h hr => ⟨wf_exec h.1 hr, h.1.tabled_exec h.2 hr⟩
  rw [throughout_iff_along hinv hstep ⟨wf_pebsInit cfg, tabled_pebsInit cfg⟩]
  exact and_iff_right (countersExact_pebsInit cfg)

/-- A fault on a page of a mapped gigabyte. -/
def faultRun : List Op := [.mmap 0x40000000 0x40000000 false, .missingFault 0x40000000]

/-- After `faultRun` one page is on `dram_mmap_list` and `dram_mmap_list_num` is
zero. -/
theorem countersExact_fails_missingFault :
    ¬ Throughout (exec smallConfig) CountersExact faultRun (pebsInit smallConfig) := by
  refine not_throughout_of_map
    (f := fun s => decide ((s.num dramMmapList).toNat = (s.list dramMmapList).length))
    (b := false) rfl fun s' hs' hc => ?_
  exact of_decide_eq_false hs' (hc dramMmapList)

end Hemem
