import Hemem.Invariant

/-!
# Hemem.Table — the hash table `pages` and the scan of `hemem_munmap`

In every run the table maps addresses to allocated descriptors that carry this
address. `hemem_munmap` walks over its range in steps of a base page as long as
it finds nothing, and takes every page it finds out of the table.
-/

namespace Hemem

open Lib

variable {cfg : Config} {s s' : St}

/-- The descriptor is on one of the six lists that are not free lists. -/
def Live (s : St) (p : PageId) : Prop := ∃ l : ListId, l.present = true ∧ p ∈ s.list l

/-- Every entry of the table is a live page under its own address. -/
structure Tabled (s : St) : Prop where
  live : ∀ {va p}, s.pages va = some p → Live s p
  va_eq : ∀ {va p}, s.pages va = some p → (s.page p).va = va

/-- A page that is not free is one of the descriptors. -/
theorem Wf.live_lt (h : Wf cfg s) {p : PageId} (hp : Live s p) : p < cfg.total := by
  rcases hp with ⟨l, -, hl⟩
  exact (h.held p).mp ⟨l, hl⟩

/-- A page that is on an mmap list or a queue is not free. -/
theorem Wf.live_not_free (h : Wf cfg s) {p : PageId} (hp : Live s p) (t : Tier) :
    p ∉ s.list (.free t) := by
  rcases hp with ⟨l, hl, hpl⟩
  intro hf
  obtain rfl := h.excl.unique hpl hf
  cases hl

/-- A descriptor that is not live is on a free list. -/
theorem Wf.free_of_not_live (h : Wf cfg s) {p : PageId} (hp : p < cfg.total)
    (hnot : ¬ Live s p) : ∃ t, p ∈ s.list (.free t) := by
  rcases (h.held p).mpr hp with ⟨l, hl⟩
  cases l with
  | free t => exact ⟨t, hl⟩
  | mmap t => exact absurd ⟨_, rfl, hl⟩ hnot
  | queue d => exact absurd ⟨_, rfl, hl⟩ hnot

/-- The table has one address for a page. -/
theorem Tabled.inj (h : Tabled s) {va vb : Nat} {p : PageId} (ha : s.pages va = some p)
    (hb : s.pages vb = some p) : va = vb := (h.va_eq ha).symm.trans (h.va_eq hb)

/-- At the start the table is empty. -/
theorem tabled_pebsInit (cfg : Config) : Tabled (pebsInit cfg) := by
  have hpages : (pebsInit cfg).pages = fun _ => none := by
    simp only [pebsInit, initLoop_eq, St.empty]
  constructor <;>
    · intro va p hp
      simp [hpages] at hp

/-- What an operation other than an allocation does to the table: no entry is new,
no live page is lost and none changes its address. -/
theorem Tabled.mono (h : Tabled s) (hpages : ∀ {va p}, s'.pages va = some p → s.pages va = some p)
    (hlive : ∀ {p}, Live s p → Live s' p)
    (hva : ∀ {p}, Live s p → (s'.page p).va = (s.page p).va) : Tabled s' := by
  constructor
  · exact fun hp => hlive (h.live (hpages hp))
  · intro va p hp
    rw [hva (h.live (hpages hp))]
    exact h.va_eq (hpages hp)

/-! ## Requests, batches, stores -/

/-- Rotating a list makes no page live and none free. -/
theorem live_reorder {l : ListId} {ps : List PageId} (hperm : ps.Perm (s.list l)) {p : PageId} :
    Live (s.setList l ps) p ↔ Live s p := by
  refine exists_congr fun k => and_congr_right fun _ => ?_
  by_cases hk : k = l
  · subst hk
    simpa using hperm.mem_iff
  · simp [hk]

/-- Nor does putting a page on a queue. -/
theorem live_put {d : Dir} {p : PageId} {rest : List PageId}
    (hl : s.list (.mmap d.src) = p :: rest) {q : PageId} : Live (s.put d p rest) q ↔ Live s q := by
  have hho := put_handOver hl
  constructor
  · rintro ⟨k, hk, hq⟩
    -- the page leaves one live list for another
    by_cases hkm : k = .mmap d.src ∨ k = .queue d
    · have hor : q ∈ s.list (.mmap d.src) ∨ q ∈ s.list (.queue d) := by
        apply hho.mem_or.mp
        rcases hkm with rfl | rfl
        · exact Or.inl hq
        · exact Or.inr hq
      rcases hor with hor | hor
      · exact ⟨_, rfl, hor⟩
      · exact ⟨_, rfl, hor⟩
    · rw [not_or] at hkm
      exact ⟨k, hk, hho.rest k hkm.1 hkm.2 ▸ hq⟩
  · rintro ⟨k, hk, hq⟩
    by_cases hkm : k = .mmap d.src ∨ k = .queue d
    · have hor : q ∈ (s.put d p rest).list (.mmap d.src) ∨
          q ∈ (s.put d p rest).list (.queue d) := by
        apply hho.mem_or.mpr
        rcases hkm with rfl | rfl
        · exact Or.inl hq
        · exact Or.inr hq
      rcases hor with hor | hor
      · exact ⟨_, rfl, hor⟩
      · exact ⟨_, rfl, hor⟩
    · rw [not_or] at hkm
      exact ⟨k, hk, (hho.rest k hkm.1 hkm.2).symm ▸ hq⟩

/-- What a batch preserves: it moves live pages between lists of live pages. -/
theorem Wf.live_batched (h : Wf cfg s) {d : Dir} {n : Nat} (hr : Ready d n s) {p : PageId} :
    Live (s.batched d n) p ↔ Live s p := by
  rcases h.batched_excl hr with ⟨hexcl, hheld⟩
  have hfst : ∀ b ∈ batchPairs d n s, b.1 ∈ (s.batched d n).list (.mmap d.dst) := by
    intro b hb
    have htake : b.1 ∈ (s.list (.queue d)).take n := (List.of_mem_zip hb).1
    rw [batched_list hr]
    simp [moveFree, moveLive, htake]
  have hsnd : ∀ b ∈ batchPairs d n s, b.2 ∈ (s.batched d n).list (.free d.src) := by
    intro b hb
    have htake : b.2 ∈ (s.list (.free d.dst)).take n := (List.of_mem_zip hb).2
    rw [batched_list hr]
    simp [moveFree, moveLive, htake]
  constructor
  · rintro ⟨k, hk, hp⟩
    rcases mem_batched hr hp with ⟨hmem, -⟩ | ⟨-, rfl⟩ | hp
    · rcases List.mem_map.mp hmem with ⟨b, hb, rfl⟩
      exact ⟨_, rfl, mem_queue_of_pair hb⟩
    · cases hk
    · exact ⟨k, hk, hp⟩
  · rintro hp
    rcases (hheld p).mpr (h.live_lt hp) with ⟨k', hk'⟩
    cases k' with
    | mmap t => exact ⟨_, rfl, hk'⟩
    | queue e => exact ⟨_, rfl, hk'⟩
    | free t =>
      -- the free lists hold no live page after the batch
      rcases mem_batched hr hk' with ⟨-, heq⟩ | ⟨hmem, -⟩ | hf
      · cases heq
      · rcases List.mem_map.mp hmem with ⟨b, hb, rfl⟩
        exact absurd (mem_free_of_pair hb) (h.live_not_free hp _)
      · exact absurd hf (h.live_not_free hp _)

@[simp] theorem batched_pages (s : St) (d : Dir) (n : Nat) :
    (s.batched d n).pages = s.pages := by
  simp [St.batched, St.enqueued, St.dequeued]

/-- A batch changes no address. -/
theorem Wf.batched_va (h : Wf cfg s) {d : Dir} {n : Nat} (hr : Ready d n s) (p : PageId) :
    ((s.batched d n).page p).va = (s.page p).va := by
  by_cases h1 : p ∈ (batchPairs d n s).map Prod.fst
  · rcases List.mem_map.mp h1 with ⟨b, hb, rfl⟩
    rw [h.batched_live hr hb, moved_va]
  · by_cases h2 : p ∈ (batchPairs d n s).map Prod.snd
    · rcases List.mem_map.mp h2 with ⟨b, hb, rfl⟩
      rw [h.batched_free hr hb, freed_va]
    · rw [batched_other h1 h2]

/-! ## Allocation -/

/-- An allocation makes one page live. -/
theorem live_alloc {t : Tier} {p : PageId} {rest : List PageId}
    (hl : s.list (.free t) = p :: rest) (hx : Exclusive s.list) {va : Nat} {q : PageId} :
    Live ((s.alloc t p rest).place t p va) q ↔ q = p ∨ Live s q := by
  have hho := alloc_handOver (t := t) hl
  constructor
  · rintro ⟨k, hk, hq⟩
    rcases mem_alloc hl hx hq with ⟨rfl, -⟩ | ⟨-, hq⟩
    · exact Or.inl rfl
    · exact Or.inr ⟨k, hk, hq⟩
  · rintro (rfl | ⟨k, hk, hq⟩)
    · refine ⟨.mmap t, rfl, ?_⟩
      simp [St.place, St.alloc]
    · refine ⟨k, hk, ?_⟩
      by_cases hkm : k = .mmap t
      · subst hkm
        simp [St.place, St.alloc, hq]
      · have hkf : k ≠ .free t := by
          rintro rfl
          cases hk
        exact (hho.rest k hkf hkm).symm ▸ hq

/-- A page is entered under the address that it is placed at. -/
theorem Wf.tabled_place (h : Wf cfg s) (ht : Tabled s) {t : Tier} {p va : Nat}
    {rest : List PageId} (hfrom : AllocFrom s t p rest) :
    Tabled ((s.alloc t p rest).place t p va) := by
  have hpages : ∀ vb, ((s.alloc t p rest).place t p va).pages vb =
      if vb = va then some p else s.pages vb := by
    intro vb
    simp [St.place, St.alloc, Function.update_apply]
  -- the descriptor was free, so the table did not have it
  have hne : ∀ {vb q}, s.pages vb = some q → q ≠ p := by
    rintro vb q hq rfl
    exact h.live_not_free (ht.live hq) t (hfrom.head ▸ List.mem_cons_self)
  constructor
  · intro vb q hq
    rw [hpages] at hq
    rw [live_alloc hfrom.head h.excl]
    split at hq
    · exact Or.inl (Option.some.inj hq).symm
    · exact Or.inr (ht.live hq)
  · intro vb q hq
    rw [hpages] at hq
    split at hq
    · rename_i hvb
      obtain rfl := Option.some.inj hq
      simp [St.place, hvb]
    · simp only [St.place, St.alloc, St.setList_page, St.modPage_page,
        Function.update_of_ne (hne hq)]
      exact ht.va_eq hq

/-! ## The scan of `hemem_munmap` -/

/-- The state after the scan has found the pages `ps`. -/
def St.untrackAll (s : St) (ps : List PageId) : St := ps.foldl (fun s p => untrackPage p s) s

@[simp] theorem untrackPage_page (p : PageId) (s : St) : (untrackPage p s).page = s.page := by
  unfold untrackPage countMunmap
  split <;> rfl

@[simp] theorem untrackPage_list (p : PageId) (s : St) : (untrackPage p s).list = s.list := by
  unfold untrackPage countMunmap
  split <;> rfl

@[simp] theorem untrackPage_pages (p : PageId) (s : St) (va : Nat) :
    (untrackPage p s).pages va = if s.pages va = some p then none else s.pages va := by
  unfold untrackPage countMunmap
  split <;> rfl

/-- Untracking a page counts it as free in its tier. -/
theorem untrackPage_num (p : PageId) (s : St) (l : ListId) :
    (untrackPage p s).num l =
      match l with
      | .free t => if (s.page p).tier = t then s.num l + 1 else s.num l
      | .mmap t => if (s.page p).tier = t then s.num l - 1 else s.num l
      | .queue _ => s.num l := by
  unfold untrackPage countMunmap HememPage.tier
  by_cases hdram : (s.page p).inDram = true
  · rcases l with (_ | _) | (_ | _) | d <;> simp [hdram, Tier.ofInDram]
  · rcases l with (_ | _) | (_ | _) | d <;> simp [hdram, Tier.ofInDram]

@[simp] theorem untrackAll_page (s : St) (ps : List PageId) : (s.untrackAll ps).page = s.page := by
  induction ps generalizing s with
  | nil => rfl
  | cons p ps ih => exact (ih (untrackPage p s)).trans (untrackPage_page p s)

@[simp] theorem untrackAll_list (s : St) (ps : List PageId) : (s.untrackAll ps).list = s.list := by
  induction ps generalizing s with
  | nil => rfl
  | cons p ps ih => exact (ih (untrackPage p s)).trans (untrackPage_list p s)

/-- The entries that remain are those of the pages that were not found. -/
theorem untrackAll_pages {ps : List PageId} {va : Nat} {p : PageId} :
    (s.untrackAll ps).pages va = some p ↔ s.pages va = some p ∧ p ∉ ps := by
  induction ps generalizing s with
  | nil => simp [St.untrackAll]
  | cons q ps ih =>
    have hrec := ih (s := untrackPage q s)
    rw [untrackPage_pages] at hrec
    rw [show s.untrackAll (q :: ps) = (untrackPage q s).untrackAll ps from rfl, hrec,
      List.mem_cons, not_or]
    constructor
    · rintro ⟨h1, h2⟩
      split at h1
      · cases h1
      · rename_i hne
        exact ⟨h1, fun hpq => hne (hpq ▸ h1), h2⟩
    · rintro ⟨h1, hpq, h2⟩
      refine ⟨?_, h2⟩
      rw [if_neg, h1]
      rw [h1]
      exact fun h => hpq (Option.some.inj h)

/-- The number of pages of a tier among `ps`. -/
def tierCount (s : St) (t : Tier) (ps : List PageId) : Nat :=
  ps.countP fun p => (s.page p).tier = t

theorem tierCount_cons (s : St) (t : Tier) (p : PageId) (ps : List PageId) :
    tierCount s t (p :: ps) = tierCount s t ps + if (s.page p).tier = t then 1 else 0 := by
  simp [tierCount, List.countP_cons]

/-- Untracking pages counts each of them once. -/
theorem untrackAll_num (s : St) (ps : List PageId) (l : ListId) :
    (s.untrackAll ps).num l =
      match l with
      | .free t => s.num l + UInt64.ofNat (tierCount s t ps)
      | .mmap t => s.num l - UInt64.ofNat (tierCount s t ps)
      | .queue _ => s.num l := by
  induction ps generalizing s with
  | nil => cases l <;> simp [St.untrackAll, tierCount]
  -- the tier of the pages that follow is not changed by this one
  | cons p ps ih =>
    have hcount : ∀ t, tierCount (untrackPage p s) t ps = tierCount s t ps := by
      intro t
      simp [tierCount]
    have hone : UInt64.ofNat 1 = 1 := rfl
    rw [show s.untrackAll (p :: ps) = (untrackPage p s).untrackAll ps from rfl, ih]
    cases l with
    | queue d => simp [untrackPage_num]
    | free t =>
      simp only [hcount, untrackPage_num, tierCount_cons]
      split
      · rw [UInt64.ofNat_add, hone, UInt64.add_assoc, UInt64.add_comm 1]
      · rfl
    | mmap t =>
      simp only [hcount, untrackPage_num, tierCount_cons]
      split
      · rw [UInt64.ofNat_add, hone]
        grind
      · rfl

/-! ## Tables of huge pages -/

/-- The entries of the table are huge pages at distinct aligned addresses: each descriptor
carries its key. -/
structure HugeTable (s : St) : Prop where
  pt : ∀ {va p}, s.pages va = some p → (s.page p).pt = .hugep
  va_eq : ∀ {va p}, s.pages va = some p → (s.page p).va = va
  aligned : ∀ {va p}, s.pages va = some p → va % pageSize = 0

/-- Every page of the table is a huge page at a multiple of its size. -/
theorem Wf.hugeTable (h : Wf cfg s) (ht : Tabled s) : HugeTable s := by
  refine ⟨fun _ => h.pt _, ht.va_eq, fun hp => ?_⟩
  rcases ht.live hp with ⟨l, hl, hpl⟩
  rw [← ht.va_eq hp]
  exact h.aligned hpl hl

theorem HugeTable.untrack (h : HugeTable s) (p : PageId) : HugeTable (untrackPage p s) := by
  have hold : ∀ {va q}, (untrackPage p s).pages va = some q → s.pages va = some q := by
    intro va q hq
    rw [untrackPage_pages] at hq
    split at hq
    · cases hq
    · exact hq
  constructor
  · intro va q hq
    rw [untrackPage_page]
    exact h.pt (hold hq)
  · intro va q hq
    rw [untrackPage_page]
    exact h.va_eq (hold hq)
  · exact fun hq => h.aligned (hold hq)

/-- A page that has been found is in the table no more, and the others are. -/
theorem HugeTable.untrack_pages (h : HugeTable s) {va vb : Nat} {p : PageId}
    (hp : s.pages va = some p) :
    (untrackPage p s).pages vb = if vb = va then none else s.pages vb := by
  rw [untrackPage_pages]
  by_cases hvb : vb = va
  · rw [hvb, if_pos hp, if_pos rfl]
  · rw [if_neg hvb, if_neg]
    intro hq
    exact hvb ((h.va_eq hq).symm.trans (h.va_eq hp))

/-! ## What the scan finds -/

/-- The scan from `va` to `stop` comes to the address of a page of the table: it
advances by base pages until it does, or until it is past `stop`. -/
def ScanHits (va stop : Nat) (s : St) : Prop :=
  ∃ j, (∀ i ≤ j, (va + i * basepageSize) % 2 ^ 64 < stop) ∧
    (s.pages ((va + j * basepageSize) % 2 ^ 64)).isSome

/-- The scan begins at `va`. -/
theorem scan_zero {va : Nat} (hva : va < 2 ^ 64) : (va + 0 * basepageSize) % 2 ^ 64 = va := by
  rw [Nat.zero_mul, Nat.add_zero, Nat.mod_eq_of_lt hva]

/-- An address without a page may be skipped. -/
theorem scanHits_next {va stop : Nat} (hva : va < 2 ^ 64) (hlt : va < stop)
    (hnone : s.pages va = none) :
    ScanHits ((va + basepageSize) % 2 ^ 64) stop s ↔ ScanHits va stop s := by
  have hpos : ∀ i, ((va + basepageSize) % 2 ^ 64 + i * basepageSize) % 2 ^ 64 =
      (va + (i + 1) * basepageSize) % 2 ^ 64 := by
    intro i
    simp only [basepageSize_eq]
    omega
  constructor
  · rintro ⟨j, hj, hsome⟩
    refine ⟨j + 1, fun i hi => ?_, hpos j ▸ hsome⟩
    cases i with
    | zero => exact (scan_zero hva).symm ▸ hlt
    | succ i => exact hpos i ▸ hj i (Nat.le_of_succ_le_succ hi)
  · rintro ⟨j, hj, hsome⟩
    cases j with
    | zero =>
      rw [scan_zero hva, hnone] at hsome
      cases hsome
    | succ j =>
      refine ⟨j, fun i hi => ?_, (hpos j).symm ▸ hsome⟩
      exact (hpos i).symm ▸ hj (i + 1) (Nat.succ_le_succ hi)

/-- A scan that returns has untracked pages of the table, each once, and none
exactly when it never comes to one. -/
theorem munmapScan_ok {fuel va stop : Nat} (hva : va < 2 ^ 64)
    (h : munmapScan fuel va stop s = .ok s') :
    ∃ ps : List PageId, s' = s.untrackAll ps ∧ ps.Nodup ∧
      (∀ p ∈ ps, ∃ vb, s.pages vb = some p) ∧ (ps ≠ [] ↔ ScanHits va stop s) := by
  -- Each turn is one page of the scan, so the induction is on the turns.
  induction fuel generalizing va s with
  | zero => simp [munmapScan] at h
  | succ fuel ih =>
    unfold munmapScan at h
    split at h
    · rename_i hlt
      cases hf : findPage va s with
      | some p =>
        rw [hf] at h
        rcases ih (Nat.mod_lt _ (by decide)) h with ⟨ps, rfl, hnd, htab, -⟩
        -- `remove_page` took `p` out of the table, so the rest of the scan cannot come to it
        -- again.
        have htab' : ∀ q ∈ ps, q ≠ p ∧ ∃ vb, s.pages vb = some q := by
          intro q hq
          rcases htab q hq with ⟨vb, hvb⟩
          rw [untrackPage_pages] at hvb
          split at hvb
          · cases hvb
          · rename_i hne
            exact ⟨fun hqp => hne (hqp ▸ hvb), vb, hvb⟩
        refine ⟨p :: ps, rfl, List.nodup_cons.mpr ⟨fun hp => (htab' p hp).1 rfl, hnd⟩, ?_, ?_⟩
        · intro q hq
          rcases List.mem_cons.mp hq with rfl | hq
          · exact ⟨va, hf⟩
          · exact (htab' q hq).2
        · refine ⟨fun _ => ⟨0, fun i hi => ?_, ?_⟩, fun _ => List.cons_ne_nil _ _⟩
          · obtain rfl := Nat.le_zero.mp hi
            rwa [scan_zero hva]
          · rw [scan_zero hva]
            exact Option.isSome_of_mem hf
      | none =>
        rw [hf] at h
        rcases ih (Nat.mod_lt _ (by decide)) h with ⟨ps, rfl, hnd, htab, hiff⟩
        exact ⟨ps, rfl, hnd, htab, hiff.trans (scanHits_next hva hlt hf)⟩
    · rename_i hge
      obtain rfl := Except.ok.inj h
      refine ⟨[], rfl, List.nodup_nil, by simp, ?_⟩
      refine ⟨fun hne => absurd rfl hne, ?_⟩
      rintro ⟨j, hj, -⟩
      have h0 := hj 0 (Nat.zero_le j)
      rw [scan_zero hva] at h0
      exact absurd h0 hge

/-- `hemem_munmap(addr, length)` comes to a page of the table. -/
def MunmapHits (addr length : Nat) (s : St) : Prop :=
  ScanHits (addr % 2 ^ 64) ((addr + length) % 2 ^ 64) s

/-- What `hemem_munmap` does: it untracks distinct pages of the table, at least one if its scan
meets one, and unmaps the range if the kernel accepts it. -/
theorem hememMunmap_ok {fuel addr length : Nat} {accept : Bool} {ret : Int}
    (h : hememMunmap fuel addr length accept s = .ok (ret, s')) :
    ∃ ps : List PageId, ps.Nodup ∧ (∀ p ∈ ps, ∃ vb, s.pages vb = some p) ∧
      (ps ≠ [] ↔ MunmapHits addr length s) ∧
      (s' = s.untrackAll ps ∨
        s' = unmapRange addr (munmapStop addr length - addr) (s.untrackAll ps)) := by
  simp only [hememMunmap, bind_eq_ok, Except.ok.injEq] at h
  rcases h with ⟨s₁, hscan, hs'⟩
  rcases munmapScan_ok (Nat.mod_lt _ (by decide)) hscan with ⟨ps, rfl, hnd, htab, hiff⟩
  refine ⟨ps, hnd, htab, hiff, ?_⟩
  rcases libcMunmap_cases addr length accept (s.untrackAll ps) with hcase | hcase
  · exact Or.inl (Prod.mk.inj (hcase.symm.trans hs')).2.symm
  · exact Or.inr (Prod.mk.inj (hcase.symm.trans hs')).2.symm

/-! ## All operations -/

/-- Every operation keeps the table in step with the descriptors. -/
theorem Wf.tabled_exec (h : Wf cfg s) (ht : Tabled s) {op : Op}
    (hr : exec cfg op s = .ok s') : Tabled s' := by
  cases op with
  | mmap p length populate =>
    rcases hememMmap_ok hr with ⟨s₀, rfl, hcase⟩
    have h₀ : Wf cfg (registerRange p (pageRoundUp length)
        (mmapReserve p (pageRoundUp length) s)) := h.congr rfl rfl fun _ => rfl
    have ht₀ : Tabled (registerRange p (pageRoundUp length)
        (mmapReserve p (pageRoundUp length) s)) := ht.mono id id fun _ => rfl
    rcases hcase with ⟨-, rfl⟩ | ⟨-, hloop⟩
    · exact ht₀
    · refine (populateLoop_preserves (P := fun s => Wf cfg s ∧ Tabled s) ?_ ⟨h₀, ht₀⟩ hloop).2
      intro s t p rest va hs hfrom hfit
      exact ⟨(hs.1.place hfrom hfit).countAlloc t,
        (hs.1.tabled_place hs.2 hfrom).mono id id fun _ => rfl⟩
  | missingFault va =>
    rcases handleMissingFault_ok hr with ⟨t, p, rest, hfrom, -, rfl⟩
    exact h.tabled_place ht hfrom
  | request d n random rand =>
    simp only [exec, bind_eq_ok, Prod.exists, Except.ok.injEq] at hr
    rcases hr with ⟨k, s₁, hr, rfl⟩
    refine requestLoop_preserves (P := Tabled) ?_ ?_ ht hr
    · intro s n hs
      exact hs.mono id (live_reorder (List.rotate_perm _ n)).mpr fun _ => rfl
    · intro s p rest hs hl
      exact hs.mono id (live_put hl).mpr fun _ => rfl
  | migrate numBatchs d =>
    simp only [exec, migrationRequest] at hr
    split at hr
    · exact Except.ok.inj hr ▸ ht
    · rcases h.migrateBatch_ok.mp hr with ⟨hc, rfl⟩
      have hready := h.ready hc
      exact ht.mono (fun hp => batched_pages s d _ ▸ hp) (h.live_batched hready).mpr
        fun _ => h.batched_va hready _
  | munmap fuel addr length accept =>
    simp only [exec, bind_eq_ok, Prod.exists, Except.ok.injEq] at hr
    rcases hr with ⟨ret, s₁, hr, rfl⟩
    -- `hemem_munmap` only takes entries out of the table.
    obtain ⟨ps, -, -, -, rfl | rfl⟩ := hememMunmap_ok hr <;>
    · refine ht.mono (fun hp => (untrackAll_pages.mp hp).1) ?_ ?_
      · rintro p ⟨l, hl, hp⟩
        exact ⟨l, hl, by simpa using hp⟩
      · intro p _
        simp
  | write a v =>
    simp only [exec, appWrite] at hr
    split at hr
    · simp only [bind_eq_ok, check_eq_ok, Except.ok.injEq] at hr
      rcases hr with ⟨-, -, rfl⟩
      exact ht.mono id id fun _ => rfl
    · cases hr

end Hemem
