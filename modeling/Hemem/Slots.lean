import Hemem.Lib.Relabel
import Hemem.Invariant

/-!
# Hemem.Slots — who owns which physical slot

`pebs_init` numbers the slots of the two devices one to one with descriptors.
Only a migration batch changes the slot of a descriptor. It gives each page the
slot of its free descriptor, and the free descriptor the tier of the page with
the offset it already had, so the exchange is one to one only if the offsets that
the pages give up are those that the free descriptors keep.
-/

namespace Hemem

open Lib

variable {cfg : Config} {s s' : St}

/-- The slots of the two devices. -/
def slotSet (cfg : Config) : Set (Tier × Nat) :=
  {x | ∃ i, x.2 = i * pageSize ∧ i * pageSize < cfg.size x.1}

/-- Descriptors and slots correspond one to one. -/
def SlotsOwned (cfg : Config) (s : St) : Prop :=
  Set.BijOn (fun p => (s.page p).slot) {p | p < cfg.total} (slotSet cfg)

/-- The offsets that the pages of a batch give up. -/
def oldOffsets (d : Dir) (n : Nat) (s : St) : List Nat :=
  (batchPairs d n s).map fun b => (s.page b.1).devdaxOffset

/-- The offsets of the free descriptors that a batch takes. -/
def newOffsets (d : Dir) (n : Nat) (s : St) : List Nat :=
  (batchPairs d n s).map fun b => (s.page b.2).devdaxOffset

/-- A batch that is empty, or that moves pages to the other tier with the offsets
of its pages being those of its free descriptors. -/
def ExchangesOffsets (s : St) : Op → Prop
  | .migrate numBatchs d =>
    batchSize numBatchs d s = 0 ∨
      (d.src ≠ d.dst ∧
        (oldOffsets d (batchSize numBatchs d s) s).Perm
          (newOffsets d (batchSize numBatchs d s) s))
  | _ => True

/-! ## Operations that leave every slot where it is -/

/-- No descriptor denotes another slot than before. -/
def SameSlots (s s' : St) : Prop := ∀ p, (s'.page p).slot = (s.page p).slot

theorem SameSlots.trans {s'' : St} (h : SameSlots s s') (h' : SameSlots s' s'') :
    SameSlots s s'' := fun p => (h' p).trans (h p)

/-- Who owns which slot depends on the slots only. -/
theorem SameSlots.slotsOwned_iff (h : SameSlots s s') : SlotsOwned cfg s' ↔ SlotsOwned cfg s := by
  unfold SlotsOwned
  rw [show (fun p => (s'.page p).slot) = fun p => (s.page p).slot from funext h]

/-- A placement moves no descriptor to another slot. -/
theorem sameSlots_place {t : Tier} {p va : Nat} {rest : List PageId} :
    SameSlots s ((s.alloc t p rest).place t p va) := by
  intro q
  by_cases hq : q = p
  · subst hq
    simp [St.place, St.alloc, HememPage.slot, HememPage.tier]
  · simp [St.place, St.alloc, hq]

/-- Nor does untracking a page. -/
theorem sameSlots_untrackPage (p : PageId) : SameSlots s (untrackPage p s) := by
  intro q
  unfold untrackPage countMunmap
  split <;> simp

/-- Only a migration does. -/
theorem sameSlots_exec {op : Op} (hop : ∀ n d, op ≠ .migrate n d)
    (hr : exec cfg op s = .ok s') : SameSlots s s' := by
  cases op with
  | mmap p length populate =>
    rcases hememMmap_ok hr with ⟨s₀, rfl, hcase⟩
    have h₀ : SameSlots s (registerRange p (pageRoundUp length)
        (mmapReserve p (pageRoundUp length) s)) := fun _ => rfl
    rcases hcase with ⟨-, rfl⟩ | ⟨-, hloop⟩
    · exact h₀
    · exact populateLoop_preserves
        (fun _ _ _ _ _ h _ _ => (h.trans sameSlots_place).trans fun _ => rfl) h₀ hloop
  | missingFault va =>
    rcases handleMissingFault_ok hr with ⟨t, p, rest, -, -, rfl⟩
    exact sameSlots_place
  | request d n random rand =>
    simp only [exec, bind_eq_ok, Prod.exists, Except.ok.injEq] at hr
    rcases hr with ⟨k, s₁, hr, rfl⟩
    refine requestLoop_preserves (P := SameSlots s) ?_ ?_ (fun _ => rfl) hr
    · exact fun _ _ h => h.trans fun _ => rfl
    · exact fun _ _ _ h _ => h.trans fun _ => rfl
  -- a migration is excluded
  | migrate numBatchs d => exact absurd rfl (hop numBatchs d)
  | munmap fuel addr length accept =>
    simp only [exec, hememMunmap, bind_eq_ok, Prod.exists, Except.ok.injEq] at hr
    rcases hr with ⟨ret, s₁, ⟨s₂, hscan, hs₁⟩, rfl⟩
    have h₂ : SameSlots s s₂ := munmapScan_preserves (P := SameSlots s)
      (fun _ _ p h _ => h.trans (sameSlots_untrackPage p)) (fun _ => rfl) hscan
    rcases libcMunmap_cases addr length accept s₂ with hcase | hcase
    · obtain rfl := (Prod.mk.inj (hcase.symm.trans hs₁)).2
      exact h₂
    · obtain rfl := (Prod.mk.inj (hcase.symm.trans hs₁)).2
      exact h₂.trans fun _ => rfl
  | write a v =>
    simp only [exec, appWrite] at hr
    split at hr
    · simp only [bind_eq_ok, check_eq_ok, Except.ok.injEq] at hr
      rcases hr with ⟨-, -, rfl⟩
      exact fun _ => rfl
    · cases hr

/-! ## A batch -/

/-- The descriptors that a batch rewrites. -/
def batchSet (d : Dir) (n : Nat) (s : St) : Set PageId :=
  {x | x ∈ (batchPairs d n s).map Prod.fst ∨ x ∈ (batchPairs d n s).map Prod.snd}

theorem batchSet_finite (d : Dir) (n : Nat) (s : St) : (batchSet d n s).Finite :=
  ((List.finite_toSet _).union (List.finite_toSet _)).subset fun _ h => h

/-- After a batch the slots are owned again iff every offset that a page gives up
is one that a free descriptor keeps. -/
theorem Wf.slotsOwned_batched (h : Wf cfg s) {d : Dir} {n : Nat} (hr : Ready d n s)
    (ho : SlotsOwned cfg s) :
    SlotsOwned cfg (s.batched d n) ↔ ∀ o ∈ oldOffsets d n s, o ∈ newOffsets d n s := by
  have hlive : ∀ b ∈ batchPairs d n s, (s.page b.1).slot = (d.src, (s.page b.1).devdaxOffset) :=
    fun b hb => h.slot_of_mem (mem_queue_of_pair hb)
  have hfree : ∀ b ∈ batchPairs d n s, (s.page b.2).slot = (d.dst, (s.page b.2).devdaxOffset) :=
    fun b hb => h.slot_of_mem (mem_free_of_pair hb)
  have hlive' : ∀ b ∈ batchPairs d n s, ((s.batched d n).page b.1).slot =
      (d.dst, (s.page b.2).devdaxOffset) := by
    intro b hb
    rw [h.batched_live hr hb]
    simp [HememPage.slot, HememPage.tier]
  have hfree' : ∀ b ∈ batchPairs d n s, ((s.batched d n).page b.2).slot =
      (d.src, (s.page b.2).devdaxOffset) := by
    intro b hb
    rw [h.batched_free hr hb]
    simp [HememPage.slot, HememPage.tier]
  have hsub : batchSet d n s ⊆ {p | p < cfg.total} := by
    rintro x (hx | hx)
    · rcases List.mem_map.mp hx with ⟨b, hb, rfl⟩
      exact (h.held b.1).mp ⟨_, mem_queue_of_pair hb⟩
    · rcases List.mem_map.mp hx with ⟨b, hb, rfl⟩
      exact (h.held b.2).mp ⟨_, mem_free_of_pair hb⟩
  have hout : ∀ x ∈ {p | p < cfg.total}, x ∉ batchSet d n s →
      ((s.batched d n).page x).slot = (s.page x).slot := by
    intro x _ hx
    rcases not_or.mp hx with ⟨h1, h2⟩
    rw [batched_other h1 h2]
  -- the batch only permutes its own descriptors, so it is enough that no slot is lost
  apply (bijOn_iff_surjOn ho hsub (batchSet_finite d n s) hout).trans
  constructor
  · intro hs o hold
    rcases List.mem_map.mp hold with ⟨b, hb, rfl⟩
    rcases hs ⟨b.1, Or.inl (List.mem_map_of_mem hb), rfl⟩ with ⟨x, hx, hslot⟩
    have hslot : ((s.batched d n).page x).slot = (d.src, (s.page b.1).devdaxOffset) :=
      hslot.trans (hlive b hb)
    rcases hx with hx | hx
    · rcases List.mem_map.mp hx with ⟨b', hb', rfl⟩
      rw [hlive' b' hb'] at hslot
      exact List.mem_map.mpr ⟨b', hb', (Prod.mk.inj hslot).2⟩
    · rcases List.mem_map.mp hx with ⟨b', hb', rfl⟩
      rw [hfree' b' hb'] at hslot
      exact List.mem_map.mpr ⟨b', hb', (Prod.mk.inj hslot).2⟩
  · rintro hs _ ⟨x, hx | hx, rfl⟩
    · -- the old slot of a page goes to the free descriptor with that offset
      rcases List.mem_map.mp hx with ⟨b, hb, rfl⟩
      rcases List.mem_map.mp (hs _ (List.mem_map_of_mem hb)) with ⟨b', hb', ho'⟩
      refine ⟨b'.2, Or.inr (List.mem_map_of_mem hb'), ?_⟩
      show ((s.batched d n).page b'.2).slot = (s.page b.1).slot
      rw [hfree' b' hb', hlive b hb]
      exact Prod.ext rfl ho'
    · -- the slot of a free descriptor goes to its page
      rcases List.mem_map.mp hx with ⟨b, hb, rfl⟩
      refine ⟨b.1, Or.inl (List.mem_map_of_mem hb), ?_⟩
      show ((s.batched d n).page b.1).slot = (s.page b.2).slot
      rw [hlive' b hb, hfree b hb]

/-- The slots that a batch leaves are distinct. -/
theorem Wf.oldOffsets_nodup (h : Wf cfg s) {d : Dir} {n : Nat} (hr : Ready d n s)
    (ho : SlotsOwned cfg s) : (oldOffsets d n s).Nodup := by
  rw [oldOffsets, List.nodup_map_iff_inj_on (List.Nodup.of_map _ (h.live_nodup hr))]
  intro b hb b' hb' heq
  have hslot : (s.page b.1).slot = (s.page b'.1).slot := by
    rw [h.slot_of_mem (mem_queue_of_pair hb), h.slot_of_mem (mem_queue_of_pair hb'), heq]
  have hfst : b.1 = b'.1 := ho.injOn ((h.held _).mp ⟨_, mem_queue_of_pair hb⟩)
    ((h.held _).mp ⟨_, mem_queue_of_pair hb'⟩) hslot
  exact List.inj_on_of_nodup_map (h.live_nodup hr) hb hb' hfst

/-- Within one tier no page of a batch has the offset of a free descriptor. -/
theorem Wf.sameTier_offsets (h : Wf cfg s) {d : Dir} {n : Nat} (ho : SlotsOwned cfg s)
    (hd : d.src = d.dst) {o : Nat} (hold : o ∈ oldOffsets d n s) : o ∉ newOffsets d n s := by
  intro hnew
  rcases List.mem_map.mp hold with ⟨b, hb, rfl⟩
  rcases List.mem_map.mp hnew with ⟨b', hb', heq⟩
  have hslot : (s.page b.1).slot = (s.page b'.2).slot := by
    rw [h.slot_of_mem (mem_queue_of_pair hb), h.slot_of_mem (mem_free_of_pair hb'), heq]
    exact Prod.ext hd rfl
  have hpage : b.1 = b'.2 := ho.injOn ((h.held _).mp ⟨_, mem_queue_of_pair hb⟩)
    ((h.held _).mp ⟨_, mem_free_of_pair hb'⟩) hslot
  exact h.queue_notMem_free (mem_queue_of_pair hb) (hpage ▸ mem_free_of_pair hb')

/-- An iteration keeps the ownership exactly when pages and descriptors exchange their offsets. -/
theorem Wf.slotsOwned_migrate (h : Wf cfg s) {numBatchs : Nat} {d : Dir}
    (ho : SlotsOwned cfg s) (hr : migrationRequest cfg numBatchs d s = .ok s') :
    SlotsOwned cfg s' ↔ ExchangesOffsets s (.migrate numBatchs d) := by
  have hzero : s.num (.queue d) = 0 → batchSize numBatchs d s = 0 := by
    intro h0
    have := batchSize_le numBatchs d s
    simp only [h0, UInt64.toNat_zero] at this
    omega
  unfold migrationRequest at hr
  split at hr
  · rename_i h0
    obtain rfl := Except.ok.inj hr
    exact ⟨fun _ => Or.inl (hzero h0), fun _ => ho⟩
  · rcases h.migrateBatch_ok.mp hr with ⟨hc, rfl⟩
    have hready := h.ready hc
    rw [h.slotsOwned_batched hready ho]
    constructor
    · intro hsub
      by_cases hn : batchSize numBatchs d s = 0
      · exact Or.inl hn
      refine Or.inr ⟨fun hd => ?_, ?_⟩
      · -- a batch that is not empty gives up some offset
        have hlen : (batchPairs d (batchSize numBatchs d s) s).length ≠ 0 := by
          have h1 := hready.queue
          have h2 := hready.free
          simp only [batchPairs, List.length_zip, List.length_take]
          omega
        rcases List.exists_mem_of_length_pos (Nat.pos_of_ne_zero hlen) with ⟨b, hb⟩
        have hold : (s.page b.1).devdaxOffset ∈ oldOffsets d (batchSize numBatchs d s) s :=
          List.mem_map_of_mem hb
        exact h.sameTier_offsets ho hd hold (hsub _ hold)
      · have hle := List.subperm_of_subset (h.oldOffsets_nodup hready ho) hsub
        exact hle.perm_of_length_le (by simp [oldOffsets, newOffsets])
    · rintro (hn | ⟨-, hperm⟩)
      · intro o hold
        rw [hn] at hold
        simp [oldOffsets, batchPairs] at hold
      · exact fun o hold => hperm.mem_iff.mp hold

/-! ## `pebs_init` -/

/-- The pages of a tier lie within its device. -/
theorem npages_mul_le (cfg : Config) (t : Tier) : cfg.npages t * pageSize ≤ cfg.size t :=
  Nat.div_mul_le_self _ _

/-- The slot that a descriptor starts with. -/
theorem pebsInit_slot (cfg : Config) {p : Nat} (hp : p < cfg.total) :
    ((pebsInit cfg).page p).slot =
      if p < cfg.npages .dram then (.dram, p * pageSize)
      else (.nvm, (p - cfg.npages .dram) * pageSize) := by
  rw [pebsInit_page, if_pos hp]
  split <;> rfl

/-- The slots are owned at first iff both devices are whole numbers of pages. -/
theorem slotsOwned_pebsInit (cfg : Config) :
    SlotsOwned cfg (pebsInit cfg) ↔ pageSize ∣ cfg.dramSize ∧ pageSize ∣ cfg.nvmSize := by
  have htotal : cfg.total = cfg.npages .dram + cfg.npages .nvm := rfl
  have hlt : ∀ {t i}, i < cfg.npages t → i * pageSize < cfg.size t := by
    intro t i hi
    have := npages_mul_le cfg t
    simp only [pageSize_eq] at *
    omega
  constructor
  · intro h
    -- a slot beyond the last whole page has no descriptor
    have hdvd : ∀ t, pageSize ∣ cfg.size t := by
      intro t
      by_contra hnot
      have hmem : (t, cfg.npages t * pageSize) ∈ slotSet cfg := by
        refine ⟨_, rfl, ?_⟩
        have := npages_mul_le cfg t
        refine Nat.lt_of_le_of_ne this fun heq => hnot ⟨cfg.npages t, ?_⟩
        rw [← heq, Nat.mul_comm]
      rcases h.surjOn hmem with ⟨(p : Nat), (hp : p < cfg.total), hslot⟩
      have hslot : ((pebsInit cfg).page p).slot = _ := hslot
      rw [pebsInit_slot cfg hp] at hslot
      split at hslot <;> obtain ⟨rfl, heq⟩ := Prod.mk.inj hslot <;>
        · simp only [pageSize_eq] at heq
          omega
    exact ⟨hdvd .dram, hdvd .nvm⟩
  · intro hdvd
    have hdvd : ∀ t, pageSize ∣ cfg.size t := by
      intro t
      cases t
      · exact hdvd.1
      · exact hdvd.2
    refine ⟨fun (p : Nat) (hp : p < cfg.total) => ?_,
      fun (p : Nat) (hp : p < cfg.total) (q : Nat) (hq : q < cfg.total) hpq => ?_, fun x hx => ?_⟩
    · show ((pebsInit cfg).page p).slot ∈ slotSet cfg
      rw [pebsInit_slot cfg hp]
      split
      · rename_i hd
        exact ⟨p, rfl, hlt hd⟩
      · exact ⟨_, rfl, hlt (t := .nvm) (by omega)⟩
    · have hpq : ((pebsInit cfg).page p).slot = ((pebsInit cfg).page q).slot := hpq
      rw [pebsInit_slot cfg hp, pebsInit_slot cfg hq] at hpq
      simp only [pageSize_eq] at hpq
      show @Eq Nat p q
      split at hpq <;> split at hpq <;> simp at hpq <;> omega
    · rcases x with ⟨t, o⟩
      rcases hx with ⟨i, rfl, hi⟩
      have hi : i < cfg.npages t := by
        have := Nat.div_mul_cancel (hdvd t)
        have heq : cfg.npages t * pageSize = cfg.size t := this
        simp only [pageSize_eq] at *
        omega
      cases t with
      | dram =>
        have hp : i < cfg.total := by omega
        refine ⟨i, hp, ?_⟩
        show ((pebsInit cfg).page i).slot = _
        rw [pebsInit_slot cfg hp, if_pos hi]
      | nvm =>
        have hp : cfg.npages .dram + i < cfg.total := by omega
        refine ⟨cfg.npages .dram + i, hp, ?_⟩
        show ((pebsInit cfg).page (cfg.npages .dram + i)).slot = _
        rw [pebsInit_slot cfg hp, if_neg (by omega), Nat.add_sub_cancel_left]

/-! ## Runs -/

/-- In a run from `pebs_init`, descriptors and slots correspond one to one in
every state exactly when both devices are whole numbers of pages and every batch
exchanges the offsets it gives up. -/
theorem slotsOwned_throughout_iff (cfg : Config) (ops : List Op) :
    Throughout (exec cfg) (SlotsOwned cfg) ops (pebsInit cfg) ↔
      (pageSize ∣ cfg.dramSize ∧ pageSize ∣ cfg.nvmSize) ∧
        Along (exec cfg) ExchangesOffsets ops (pebsInit cfg) := by
  have hstep : ∀ s op s', Wf cfg s → SlotsOwned cfg s → exec cfg op s = .ok s' →
      (SlotsOwned cfg s' ↔ ExchangesOffsets s op) := by
    intro s op s' h ho hr
    by_cases hop : ∃ n d, op = .migrate n d
    · rcases hop with ⟨n, d, rfl⟩
      exact h.slotsOwned_migrate ho hr
    · have hsame := sameSlots_exec (fun n d heq => hop ⟨n, d, heq⟩) hr
      have htrue : ExchangesOffsets s op := by
        cases op <;> first | exact trivial | exact absurd ⟨_, _, rfl⟩ hop
      exact ⟨fun _ => htrue, fun _ => hsame.slotsOwned_iff.mpr ho⟩
  rw [throughout_iff_along (fun _ _ _ => wf_exec) hstep (wf_pebsInit cfg), slotsOwned_pebsInit]

/-- A fault on a page of a mapped gigabyte, and a move of this page within DRAM. -/
def sameTierRun : List Op :=
  [.mmap 0x40000000 0x40000000 false, .missingFault 0x40000000,
    .request .dramToDram 1 false fun _ => 0, .migrate 1 .dramToDram]

/-- After `sameTierRun` the moved page and the free descriptor denote one slot. -/
theorem slotsOwned_fails_sameTier :
    ¬ Throughout (exec smallConfig) (SlotsOwned smallConfig) sameTierRun
      (pebsInit smallConfig) := by
  refine not_throughout_of_map (f := fun s => decide ((s.page 0).slot = (s.page 1).slot))
    (b := true) rfl fun s' hs' ho => ?_
  have h01 : (0 : PageId) = 1 := ho.injOn (by decide : 0 < smallConfig.total)
    (by decide : 1 < smallConfig.total) (of_decide_eq_true hs')
  exact absurd h01 (by decide)

end Hemem
