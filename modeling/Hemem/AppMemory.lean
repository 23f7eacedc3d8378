import Hemem.AddressSpace
import Hemem.Tracking

/-!
# Hemem.AppMemory — what the application reads

The abstract memory of the application knows nothing of devices and descriptors:
an allocated page reads zero, a store changes one address, and requests and
migrations change nothing. The page manager refines it in every run without
`hemem_munmap` in which the free descriptors that are taken denote slots that are
distinct and that no tracked page denotes.
-/

namespace Hemem

open Lib

variable {cfg : Config} {s s' : St}

/-- What the application expects to read, or `none` where nothing is mapped. -/
abbrev AppMemory := Nat → Option Byte

/-- The effect of an operation on the abstract memory. -/
def appStep (app : AppMemory) : Op → AppMemory
  | .mmap p length populate => fun a =>
    if inRange p (pageRoundUp length) a then (if populate then some 0 else none) else app a
  | .missingFault va => fun a => if inRange va pageSize a then some 0 else app a
  | .write a v => Function.update app a (some v)
  | .request .. | .migrate .. | .munmap .. => app

/-- The abstract memory after a run. -/
def appMemory (ops : List Op) : AppMemory := ops.foldl appStep fun _ => none

/-! ## The descriptors that an operation takes -/

/-- The free descriptors in the order in which pages are allocated. -/
def freeOrder (s : St) : List PageId := s.list dramFreeList ++ s.list nvmFreeList

/-- The free descriptors that an operation takes. -/
def taken (s : St) : Op → List PageId
  | .mmap p length true =>
    (freeOrder s).take (pagesBetween p ((p + pageRoundUp length) % 2 ^ 64))
  | .missingFault _ => (freeOrder s).take 1
  | .migrate numBatchs d => (s.list (.free d.dst)).take (batchSize numBatchs d s)
  | _ => []

/-- Descriptors of slots that are distinct and that no tracked page denotes. -/
structure FreshSlots (s : St) (qs : List PageId) : Prop where
  distinct : (qs.map fun q => (s.page q).slot).Nodup
  untracked : ∀ q ∈ qs, ∀ va p, s.pages va = some p → (s.page p).slot ≠ (s.page q).slot

def TakesFreshSlots (s : St) (op : Op) : Prop := FreshSlots s (taken s op)

/-- What the kernel documents of the `mmap` of a reservation: the range lies in the
address space and nothing is mapped in it. -/
def KernelMmap (s : St) : Op → Prop
  | .mmap p length _ =>
    p + pageRoundUp length < 2 ^ 64 ∧ ∀ a, inRange p (pageRoundUp length) a = true → s.vm a = none
  | _ => True

def Op.isMunmap : Op → Bool
  | .munmap .. => true
  | _ => false

/-! ## The invariant -/

structure MemInv (cfg : Config) (s : St) (app : AppMemory) : Prop where
  wf : Wf cfg s
  tabled : Tabled s
  tracked : LiveTracked s
  space : AddressSpace (Live s) s
  reads : s.read = app
  /-- nothing is write-protected between operations -/
  unprotected : ∀ a, s.wp a = false

theorem memInv_pebsInit (cfg : Config) : MemInv cfg (pebsInit cfg) fun _ => none := by
  have hvm : (pebsInit cfg).vm = fun _ => none := by simp only [pebsInit, initLoop_eq, St.empty]
  have hwp : (pebsInit cfg).wp = fun _ => false := by simp only [pebsInit, initLoop_eq, St.empty]
  have hdev : ∀ a, device (pebsInit cfg) a = none := by
    intro a
    rw [device, hvm]
    rfl
  have hlive : ∀ p, ¬ Live (pebsInit cfg) p := by
    rintro p ⟨l, hl, hp⟩
    rcases mem_pebsInit.mp hp with ⟨rfl, -⟩ | ⟨rfl, -⟩ <;> cases hl
  refine ⟨wf_pebsInit cfg, tabled_pebsInit cfg, liveTracked_pebsInit cfg, ?_, ?_, ?_⟩
  · constructor
    · intro a b l ha
      rw [hdev] at ha
      cases ha
    · exact fun hp => absurd hp (hlive _)
    · intro a x ha
      rw [hdev] at ha
      cases ha
    · exact fun hp => absurd hp (hlive _)
    · exact fun hp => absurd hp (hlive _)
    · exact (wf_pebsInit cfg).offAligned
  · funext a
    simp only [St.read, hvm]
  · simp [hwp]

/-- `MemInv` after an operation that keeps the mappings, the memory and the pages'
addresses and slots. -/
theorem MemInv.congr {app : AppMemory} (h : MemInv cfg s app) (hwf : Wf cfg s')
    (hlive : ∀ p, Live s' p ↔ Live s p) (hpage : s'.page = s.page) (hpages : s'.pages = s.pages)
    (hvm : s'.vm = s.vm) (hmem : s'.mem = s.mem) (hwp : s'.wp = s.wp) : MemInv cfg s' app := by
  refine ⟨hwf, ?_, ?_, ?_, ?_, ?_⟩
  · exact h.tabled.mono (fun hp => hpages ▸ hp) (hlive _).mpr fun _ => by rw [hpage]
  · exact h.tracked.mono (hlive _).mp hpages fun _ => by rw [hpage]
  · rw [show Live s' = Live s from funext fun p => propext (hlive p)]
    refine h.space.congr (fun a => ?_) ?_ ?_ ?_
    · rw [device, hvm, device]
    all_goals simp [hpage]
  · rw [← h.reads]
    funext a
    simp only [St.read, hvm, hmem]
  · rw [hwp]
    exact h.unprotected

/-! ## Allocation -/

theorem AllocFrom.freeOrder_eq {t : Tier} {p : Nat} {rest : List PageId}
    (hfrom : AllocFrom s t p rest) (va : Nat) :
    freeOrder s = p :: freeOrder ((s.alloc t p rest).place t p va) := by
  have hhead := hfrom.head
  cases t with
  | dram => simp [freeOrder, St.place, St.alloc, hhead]
  | nvm => simp [freeOrder, St.place, St.alloc, hhead, hfrom.dramFull rfl]

/-- A page is placed in the slot of the first free descriptor. -/
theorem MemInv.place {app : AppMemory} (h : MemInv cfg s app) {t : Tier} {p va n : Nat}
    {rest : List PageId} (hfrom : AllocFrom s t p rest) (hfit : Placeable cfg s t p va)
    (hfresh : FreshSlots s ((freeOrder s).take (n + 1))) :
    MemInv cfg ((s.alloc t p rest).place t p va)
        (fun a => if inRange va pageSize a then some 0 else app a) ∧
      FreshSlots ((s.alloc t p rest).place t p va)
        ((freeOrder ((s.alloc t p rest).place t p va)).take n) := by
  have hfree : p ∈ s.list (.free t) := hfrom.head ▸ List.mem_cons_self
  have hnot : ¬ Live s p := fun hlive => h.wf.live_not_free hlive t hfree
  -- taking the descriptor sets its flag and moves nothing
  have hallocPage : ∀ q, ((s.alloc t p rest).page q).va = (s.page q).va ∧
      ((s.alloc t p rest).page q).slot = (s.page q).slot ∧
      ((s.alloc t p rest).page q).devdaxOffset = (s.page q).devdaxOffset ∧
      ((s.alloc t p rest).page q).pt = (s.page q).pt := by
    intro q
    by_cases hq : q = p
    · subst hq
      simp [St.alloc, HememPage.slot, HememPage.tier]
    · simp [St.alloc, hq]
  have hspace : AddressSpace (Live s) (s.alloc t p rest) :=
    h.space.congr (fun _ => rfl) (fun q => (hallocPage q).1) (fun q _ => (hallocPage q).2.1)
      fun q => (hallocPage q).2.2.1
  have hslot : (s.page p).slot = (t, (s.page p).devdaxOffset) := h.wf.slot_of_mem hfree
  rw [hfrom.freeOrder_eq va, List.take_succ_cons] at hfresh
  have hsp : FreshSlot (Live s) (s.alloc t p rest) t
      ((s.alloc t p rest).page p).devdaxOffset := by
    intro q hq
    rw [(hallocPage q).2.1, (hallocPage p).2.2.1, ← hslot]
    exact hfresh.untracked p List.mem_cons_self _ q (h.tracked q hq)
  -- a page at `va` would be in the table
  have hva : ∀ q, Live s q → ((s.alloc t p rest).page q).va ≠ va := by
    intro q hq heq
    have htr := h.tracked q hq
    rw [← (hallocPage q).1, heq, hfit.fresh] at htr
    cases htr
  have htier : ((s.alloc t p rest).page p).tier = t :=
    (Prod.mk.inj ((hallocPage p).2.1.trans hslot)).1
  obtain ⟨hspace', hread⟩ := hspace.place (t := t) (p := p)
    ((hallocPage p).2.2.2.trans (h.wf.pt p)) htier hsp hnot hfit.aligned hva
  have hread₀ : (s.alloc t p rest).read = s.read := rfl
  have hother : ∀ {q}, q ≠ p →
      (((s.alloc t p rest).place t p va).page q).slot = (s.page q).slot := by
    intro q hq
    simp [St.place, St.alloc, hq]
  have hself : (((s.alloc t p rest).place t p va).page p).slot = (s.page p).slot := by
    simp [St.place, St.alloc, HememPage.slot, HememPage.tier]
  have hsame : ∀ q, (((s.alloc t p rest).place t p va).page q).slot = (s.page q).slot := by
    intro q
    by_cases hq : q = p
    · rw [hq]
      exact hself
    · exact hother hq
  constructor
  · refine ⟨h.wf.place hfrom hfit, h.wf.tabled_place h.tabled hfrom,
      h.wf.liveTracked_place h.tracked hfrom hfit, ?space, ?reads, ?unprotected⟩
    case space =>
      rwa [show Live ((s.alloc t p rest).place t p va) = fun q => q = p ∨ Live s q from
        funext fun q => propext (live_alloc hfrom.head h.wf.excl)]
    case reads => rw [hread, hread₀, h.reads]
    case unprotected =>
      intro a
      simp only [St.place]
      split
      · rfl
      · exact h.unprotected a
  · rcases hfresh with ⟨hdist, hun⟩
    rw [List.map_cons, List.nodup_cons] at hdist
    constructor
    · simpa only [hsame] using hdist.2
    · intro q hq vb r hr
      rw [hsame, hsame]
      have hr : (if vb = va then some p else s.pages vb) = some r := by
        simpa [St.place, St.alloc, Function.update_apply] using hr
      split at hr
      · obtain rfl := Option.some.inj hr
        exact fun heq => hdist.1 (heq ▸ List.mem_map_of_mem hq)
      · exact hun q (List.mem_cons_of_mem _ hq) vb r hr

theorem MemInv.populateLoop {app : AppMemory} (h : MemInv cfg s app) {fuel va stop : Nat}
    (hstop : stop < 2 ^ 64) (hal : va % pageSize = 0 → stop % pageSize = 0)
    (hfresh : FreshSlots s ((freeOrder s).take (pagesBetween va stop)))
    (hr : populateLoop cfg fuel va stop s = .ok s') :
    MemInv cfg s' fun a => if va ≤ a ∧ a < stop then some 0 else app a := by
  induction fuel generalizing va s app with
  | zero => simp [Hemem.populateLoop] at hr
  | succ fuel ih =>
    unfold Hemem.populateLoop at hr
    split at hr
    · rename_i hlt
      simp only [bind_eq_ok, Prod.exists] at hr
      rcases hr with ⟨n, s₁, hpage, hrest⟩
      rcases populatePage_ok hpage with ⟨t, p, rest, hfrom, hfit, rfl, rfl⟩
      have hlen : ptToPagesize (s.page p).pt = pageSize := by
        rw [h.wf.pt]
        rfl
      rcases pagesBetween_next hlt hstop hfit.aligned (hal hfit.aligned) with ⟨hcount, hal'⟩
      rw [hcount] at hfresh
      rcases h.place hfrom hfit hfresh with ⟨h₁, hfresh₁⟩
      have h₂ : MemInv cfg (((s.alloc t p rest).place t p va).countAlloc t)
          (fun a => if inRange va pageSize a then some 0 else app a) := h₁.congr
        (h₁.wf.countAlloc t) (fun _ => Iff.rfl) rfl rfl rfl rfl rfl
      rw [hlen] at hrest
      have h₃ := ih h₂ (fun _ => hal hfit.aligned) ⟨hfresh₁.distinct, hfresh₁.untracked⟩ hrest
      -- the next position does not wrap: both ends of the range are aligned
      have hnext : (va + pageSize) % 2 ^ 64 = va + pageSize ∧ va + pageSize ≤ stop := by
        have h1 := hfit.aligned
        have h2 := hal hfit.aligned
        simp only [pageSize_eq] at *
        omega
      have happ : (fun a => if va ≤ a ∧ a < stop then some 0 else app a) = fun a =>
          if (va + pageSize) % 2 ^ 64 ≤ a ∧ a < stop then some 0
          else if inRange va pageSize a then some 0 else app a := by
        funext a
        rw [hnext.1]
        by_cases hina : inRange va pageSize a = true
        · have hin := inRange_iff.mp hina
          rw [if_pos (by omega), if_pos hina]
          split <;> rfl
        · rw [if_neg hina]
          rw [inRange_iff] at hina
          by_cases hge : va + pageSize ≤ a ∧ a < stop
          · rw [if_pos hge, if_pos (by omega)]
          · rw [if_neg hge, if_neg (by omega)]
      rw [happ]
      exact h₃
    · rename_i hge
      obtain rfl := Except.ok.inj hr
      have happ : (fun a => if va ≤ a ∧ a < stop then some 0 else app a) = app := by
        funext a
        rw [if_neg (by omega)]
      rw [happ]
      exact h

/-- The reservation of a range in which nothing is mapped. -/
theorem MemInv.reserve {app : AppMemory} (h : MemInv cfg s app) {p len : Nat}
    (hfree : ∀ a, inRange p len a = true → s.vm a = none) :
    MemInv cfg (registerRange p len (mmapReserve p len s)) app ∧
      ∀ a, inRange p len a = true → app a = none := by
  -- nothing is mapped where the kernel reserves
  have hdev : ∀ a, device (registerRange p len (mmapReserve p len s)) a = device s a := by
    intro a
    unfold device
    simp only [registerRange_vm, mmapReserve_vm]
    split
    · rename_i hin
      rw [hfree a hin]
      rfl
    · rfl
  constructor
  · refine ⟨h.wf.congr rfl rfl fun _ => rfl, h.tabled.mono id id fun _ => rfl,
      h.tracked.mono id rfl fun _ => rfl,
      h.space.congr hdev (fun _ => rfl) (fun _ _ => rfl) fun _ => rfl, ?_, ?_⟩
    · rw [← h.reads, read_eq_load, read_eq_load, funext hdev]
      rfl
    · intro a
      simp only [registerRange_wp, mmapReserve_wp]
      split
      · rfl
      · exact h.unprotected a
  · intro a ha
    rw [← h.reads]
    simp only [St.read, hfree a ha]

/-! ## Batches -/

theorem remapAll_wp {dst : Tier} {f : HememPage → HememPage} {ms : List Move}
    (hf : ∀ g, (f g).va = g.va) (a : Nat) :
    (s.remapAll dst f ms).wp a =
      (s.wp a && !ms.any fun m => inRange (s.page m.1).va pageSize a) := by
  induction ms generalizing s with
  | nil => simp
  | cons m ms ih =>
    have hwp : (s.remap dst f m).wp a =
        if inRange (s.page m.1).va pageSize a then false else s.wp a := rfl
    rw [remapAll_cons, ih, hwp, List.any_cons]
    simp only [remap_va hf]
    cases inRange (s.page m.1).va pageSize a <;> simp

/-- Protecting the pages of a batch and remapping them leaves nothing protected. -/
theorem migrated_wp {d : Dir} {ms : List Move} (hpt : ∀ p, (s.page p).pt = .hugep)
    (hwp : ∀ a, s.wp a = false) (a : Nat) : (s.migrated d ms).wp a = false := by
  -- the flag is all that `set_migrating` writes
  have hflag : ∀ p, ((setMigrating true (ms.map Prod.fst) s).page p).va = (s.page p).va ∧
      ((setMigrating true (ms.map Prod.fst) s).page p).pt = .hugep := by
    intro p
    rw [setMigrating_eq]
    simp only
    split <;> simp [hpt]
  have hset : (setMigrating true (ms.map Prod.fst) s).wp a = false := by
    rw [setMigrating_eq]
    exact hwp a
  have hcopy : ∀ x : St, (x.copyAll d.src d.dst ms).wp = x.wp := by
    intro x
    rw [copyAll_eq]
  have hend : (s.migrated d ms).wp a =
      ((((setMigrating true (ms.map Prod.fst) s).protect (ms.map Prod.fst)).copyAll
        d.src d.dst ms).remapAll d.dst (bump d) ms).wp a := by
    rw [St.migrated, setMigrating_eq]
  rw [hend, remapAll_wp (fun g => (bump_va_pt d g).1), hcopy]
  simp only [St.protect_wp, hset, copyAll_page, St.protect_page, (hflag _).1, (hflag _).2,
    List.any_map, Bool.false_or]
  -- a byte of a page of the batch loses its protection when the page is remapped
  cases hany : ms.any fun m => inRange (s.page m.1).va pageSize a
  · rw [Bool.and_eq_false_iff]
    apply Or.inl
    rw [← hany]
    rfl
  · simp

/-- A migration changes nothing that the application reads. -/
theorem MemInv.batched {app : AppMemory} (h : MemInv cfg s app) {d : Dir} {n : Nat}
    (hr : Ready d n s) (hc : Completable cfg d n s)
    (hfresh : FreshSlots s ((s.list (.free d.dst)).take n)) :
    MemInv cfg (s.batched d n) app := by
  have hwf := h.wf
  have hpairs : ((batchPairs d n s).map (moveOf s)).map Prod.fst =
      (batchPairs d n s).map Prod.fst := by simp [moveOf]
  have hfree : ∀ b ∈ batchPairs d n s, (s.page b.2).slot = (d.dst, (s.page b.2).devdaxOffset) :=
    fun b hb => hwf.slot_of_mem (mem_free_of_pair hb)
  have hlive : ∀ b ∈ batchPairs d n s, Live s b.1 := fun b hb => ⟨_, rfl, mem_queue_of_pair hb⟩
  have hmove : ∀ m ∈ (batchPairs d n s).map (moveOf s), Live s m.1 ∧
      (s.page m.1).tier = d.src ∧ m.2 % pageSize = 0 ∧ FreshSlot (Live s) s d.dst m.2 := by
    intro m hm
    rcases List.mem_map.mp hm with ⟨b, hb, rfl⟩
    refine ⟨hlive b hb, (Prod.mk.inj (hwf.slot_of_mem (mem_queue_of_pair hb))).1,
      hwf.offAligned b.2, fun p hp => ?_⟩
    rw [moveOf, ← hfree b hb]
    exact hfresh.untracked b.2 (List.of_mem_zip hb).2 _ p (h.tracked p hp)
  -- free descriptors with different slots of one tier have different offsets
  have hoffs : (((batchPairs d n s).map (moveOf s)).map Prod.snd).Nodup := by
    have hdist := hfresh.distinct
    rw [← batchPairs_snd hr.queue hr.free, List.map_map] at hdist
    rw [List.map_map]
    rw [List.nodup_map_iff_inj_on (List.Nodup.of_map _ hdist)]
    intro b hb b' hb' heq
    apply List.inj_on_of_nodup_map hdist hb hb'
    show (s.page b.2).slot = (s.page b'.2).slot
    rw [hfree b hb, hfree b' hb']
    exact Prod.ext rfl heq
  -- the flags and the protection change neither mappings nor slots
  obtain ⟨y, hy⟩ : ∃ y, y = (setMigrating true (((batchPairs d n s).map (moveOf s)).map Prod.fst)
      (s.dequeued d n)).protect (((batchPairs d n s).map (moveOf s)).map Prod.fst) := ⟨_, rfl⟩
  have hyp : ∀ p, (y.page p).va = (s.page p).va ∧ (y.page p).slot = (s.page p).slot ∧
      (y.page p).devdaxOffset = (s.page p).devdaxOffset ∧ (y.page p).pt = .hugep := by
    intro p
    rw [hy, St.protect_page, setMigrating_eq]
    simp only [dequeued_page]
    split <;> simp [HememPage.slot, HememPage.tier, hwf.pt]
  have hyvm : y.vm = s.vm := by
    rw [hy, setMigrating_eq]
    rfl
  have hymem : y.mem = s.mem := by
    rw [hy, setMigrating_eq]
    rfl
  have hyspace : AddressSpace (Live s) y :=
    h.space.congr (fun a => by rw [device, hyvm, device]) (fun p => (hyp p).1)
      (fun p _ => (hyp p).2.1) fun p => (hyp p).2.2.1
  have hytier : ∀ p, (y.page p).tier = (s.page p).tier := fun p =>
    (Prod.mk.inj (hyp p).2.1).1
  have hymove : ∀ m ∈ (batchPairs d n s).map (moveOf s), FreshSlot (Live s) y d.dst m.2 := by
    intro m hm p hp
    rw [(hyp p).2.1]
    exact (hmove m hm).2.2.2 p hp
  -- the copies
  obtain ⟨hkept, hcopied, -⟩ := hyspace.copyAll
    (fun p => (hyp p).2.2.2) (fun m hm => (hmove m hm).1)
    (fun m hm => (hytier m.1).trans (hmove m hm).2.1) (fun m hm => (hmove m hm).2.2.1)
    hymove hoffs
  obtain ⟨z, hz⟩ : ∃ z, z = y.copyAll d.src d.dst ((batchPairs d n s).map (moveOf s)) := ⟨_, rfl⟩
  rw [← hz] at hkept hcopied
  have hzpage : z.page = y.page := by rw [hz, copyAll_page]
  have hzdev : ∀ a, device z a = device y a := by
    intro a
    rw [hz, copyAll_eq]
    rfl
  have hzspace : AddressSpace (Live s) z :=
    hyspace.congr hzdev (by simp [hzpage]) (by simp [hzpage]) (by simp [hzpage])
  -- what is mapped is left alone by the copies
  have hzread : z.read = app := by
    rw [← h.reads, read_eq_load, read_eq_load, funext hzdev, load_congr hkept]
    have hbytes : y.bytes = s.bytes := by
      funext x
      rw [St.bytes, hymem, St.bytes]
    have hdev : device y = device s := by
      funext a
      rw [device, hyvm, device]
    rw [hbytes, hdev]
  -- the moves
  have hmovable : ∀ m ∈ (batchPairs d n s).map (moveOf s), Movable (Live s) d.dst z m := by
    intro m hm
    refine ⟨(hmove m hm).1, (hmove m hm).2.2.1, ?_, fun k hk => ?_⟩
    · intro p hp
      rw [hzpage]
      exact hymove m hm p hp
    · rw [hcopied m hm k hk, hzpage]
      exact (hkept _ ⟨_, hyspace.mapped (hmove m hm).1 hk⟩).symm
  obtain ⟨hwspace, hwread⟩ := hzspace.remapAll (f := bump d) hmovable
    (hpairs ▸ hwf.live_nodup hr) hoffs fun g => (bump_va_pt d g).1
  obtain ⟨w, hw⟩ : ∃ w, w = z.remapAll d.dst (bump d) ((batchPairs d n s).map (moveOf s)) :=
    ⟨_, rfl⟩
  rw [← hw] at hwspace hwread
  -- the flags and the free descriptors
  have hfinal : s.batched d n = countBatch d (UInt64.ofNat n)
      ((setMigrating false (((batchPairs d n s).map (moveOf s)).map Prod.fst) w).enqueued d
        (batchPairs d n s)) := by
    rw [hw, hz, hy]
    rfl
  have hnotfree : ∀ p, Live s p → p ∉ (batchPairs d n s).map Prod.snd := by
    intro p hp hmem
    rcases List.mem_map.mp hmem with ⟨b, hb, rfl⟩
    exact hwf.live_not_free hp _ (mem_free_of_pair hb)
  have hvm : (s.batched d n).vm = w.vm := by
    rw [hfinal, setMigrating_eq]
    cases d <;> rfl
  have hmem : (s.batched d n).mem = w.mem := by
    rw [hfinal, setMigrating_eq]
    cases d <;> rfl
  have hpage : ∀ p, ((s.batched d n).page p).va = (w.page p).va ∧
      (Live s p → ((s.batched d n).page p).slot = (w.page p).slot) ∧
      ((s.batched d n).page p).devdaxOffset = (w.page p).devdaxOffset := by
    intro p
    rw [hfinal, countBatch_page, setMigrating_eq]
    simp only [St.enqueued]
    refine ⟨?_, fun hp => ?_, ?_⟩
    · split <;> split <;> rfl
    · rw [if_neg (hnotfree p hp)]
      split <;> rfl
    · split <;> split <;> rfl
  refine ⟨hwf.batched hr hc, ?tabled, ?tracked, ?space, ?reads, ?unprotected⟩
  case tabled =>
    exact h.tabled.mono (fun hp => batched_pages s d n ▸ hp) (hwf.live_batched hr).mpr
      fun _ => hwf.batched_va hr _
  case tracked =>
    exact h.tracked.mono (hwf.live_batched hr).mp (batched_pages s d n)
      fun _ => hwf.batched_va hr _
  case space =>
    rw [show Live (s.batched d n) = Live s from funext fun p => propext (hwf.live_batched hr)]
    exact hwspace.congr (fun a => by rw [device, hvm, device]) (fun p => (hpage p).1)
      (fun p => (hpage p).2.1) fun p => (hpage p).2.2
  case reads =>
    rw [← hzread, ← hwread]
    funext a
    simp only [St.read, hvm, hmem]
  case unprotected =>
    intro a
    have hwp : (s.batched d n).wp a = ((s.dequeued d n).migrated d
        ((batchPairs d n s).map (moveOf s))).wp a := by
      unfold St.batched
      cases d <;> rfl
    rw [hwp]
    exact migrated_wp (s := s.dequeued d n) hwf.pt h.unprotected a

/-! ## Stores -/

/-- A store at a mapped address does not block, and changes what this address reads. -/
theorem MemInv.write_ok {app : AppMemory} (h : MemInv cfg s app) {a : Nat} {v : Byte}
    (ha : (app a).isSome = true) : ∃ s', appWrite a v s = .ok s' := by
  rw [← h.reads, St.read] at ha
  unfold appWrite
  split
  · simp [check, h.unprotected a, bind, Except.bind]
  · rename_i hnone
    split at ha
    · rename_i t o hvm
      exact absurd hvm (hnone t o)
    · cases ha

theorem MemInv.write {app : AppMemory} (h : MemInv cfg s app) {a : Nat} {v : Byte}
    (hr : appWrite a v s = .ok s') : MemInv cfg s' (Function.update app a (some v)) := by
  unfold appWrite at hr
  split at hr
  · rename_i t o hvm
    simp only [bind_eq_ok, check_eq_ok, Except.ok.injEq] at hr
    rcases hr with ⟨-, -, rfl⟩
    refine ⟨h.wf.congr rfl rfl fun _ => rfl, h.tabled.mono id id fun _ => rfl,
      h.tracked.mono id rfl fun _ => rfl,
      h.space.congr (fun _ => rfl) (fun _ => rfl) (fun _ _ => rfl) fun _ => rfl, ?_,
      h.unprotected⟩
    have hdev : device s a = some (t, o) := by
      rw [device, hvm]
      rfl
    rw [← h.reads, read_eq_load, read_eq_load, ← h.space.unaliased.load_update hdev v]
    congr 1
    funext x
    by_cases hx : x = (t, o)
    · subst hx
      simp [St.bytes]
    · have hne : ¬(x.1 = t ∧ x.2 = o) := fun heq => hx (Prod.ext heq.1 heq.2)
      rw [Function.update_of_ne hx]
      simp only [St.bytes, if_neg hne]
  · cases hr

/-! ## Runs -/

/-- One operation of the code and the abstract operation. -/
theorem MemInv.exec {app : AppMemory} (h : MemInv cfg s app) {op : Op}
    (hop : op.isMunmap = false) (hk : KernelMmap s op) (hf : TakesFreshSlots s op)
    (hr : exec cfg op s = .ok s') : MemInv cfg s' (appStep app op) := by
  cases op with
  | mmap p length populate =>
    rcases hememMmap_ok hr with ⟨s₀, rfl, hcase⟩
    rcases h.reserve hk.2 with ⟨h₀, hnone⟩
    rcases hcase with ⟨rfl, rfl⟩ | ⟨rfl, hloop⟩
    · -- Without `MAP_POPULATE` nothing is mapped yet, and the abstract memory had nothing there.
      have happ : appStep app (.mmap p length false) = app := by
        funext a
        simp only [appStep, Bool.false_eq_true, if_false]
        split
        · rename_i hin
          exact (hnone a hin).symm
        · rfl
      rw [happ]
      exact h₀
    · -- The kernel's region does not wrap round the address space.
      have hstop : (p + pageRoundUp length) % 2 ^ 64 = p + pageRoundUp length :=
        Nat.mod_eq_of_lt hk.1
      have hal : p % pageSize = 0 → (p + pageRoundUp length) % 2 ^ 64 % pageSize = 0 := by
        have hlen := pageRoundUp_aligned length
        simp only [pageSize_eq] at *
        omega
      have h₁ := h₀.populateLoop (Nat.mod_lt _ (by decide)) hal ⟨hf.distinct, hf.untracked⟩ hloop
      have happ : appStep app (.mmap p length true) = fun a =>
          if p ≤ a ∧ a < (p + pageRoundUp length) % 2 ^ 64 then some 0 else app a := by
        funext a
        simp only [appStep, if_true, inRange_iff, hstop]
      rw [happ]
      exact h₁
  | missingFault va =>
    rcases handleMissingFault_ok hr with ⟨t, p, rest, hfrom, hfit, rfl⟩
    exact (h.place (n := 0) hfrom hfit hf).1
  | request d n random rand =>
    simp only [Hemem.exec, bind_eq_ok, Prod.exists, Except.ok.injEq] at hr
    rcases hr with ⟨k, s₁, hr, rfl⟩
    refine requestLoop_preserves (P := fun s => MemInv cfg s app) ?_ ?_ h hr
    · intro s n hs
      exact hs.congr (hs.wf.reorder (List.rotate_perm _ n))
        (fun _ => live_reorder (List.rotate_perm _ n)) rfl rfl rfl rfl rfl
    · intro s p rest hs hl
      exact hs.congr (hs.wf.put hl) (fun _ => live_put hl) rfl rfl rfl rfl rfl
  | migrate numBatchs d =>
    simp only [Hemem.exec, migrationRequest] at hr
    split at hr
    · exact Except.ok.inj hr ▸ h
    · rcases h.wf.migrateBatch_ok.mp hr with ⟨hc, rfl⟩
      exact h.batched (h.wf.ready hc) hc hf
  | munmap fuel addr length accept => cases hop
  | write a v => exact h.write hr

/-- The abstract memory is the memory of the application: in a run of allocations,
requests, migrations and stores from `pebs_init` whose operations take fresh slots,
every address reads what the abstract memory says, and a store at a mapped address
never blocks. -/
theorem read_eq_appMemory (cfg : Config) (ops : List Op)
    (hops : ∀ op ∈ ops, op.isMunmap = false)
    (hkernel : Along (exec cfg) KernelMmap ops (pebsInit cfg))
    (hfresh : Along (exec cfg) TakesFreshSlots ops (pebsInit cfg)) :
    ∀ pre, pre <+: ops → ∀ s, runs (exec cfg) pre (pebsInit cfg) = .ok s →
      s.read = appMemory pre ∧
        ∀ a v, (appMemory pre a).isSome = true → ∃ s', appWrite a v s = .ok s' := by
  -- from any state that stands for an abstract memory, to run the induction
  have hinv : ∀ (ops : List Op) (app : AppMemory) (s : St), MemInv cfg s app →
      (∀ op ∈ ops, op.isMunmap = false) → Along (exec cfg) KernelMmap ops s →
      Along (exec cfg) TakesFreshSlots ops s →
      ∀ pre, pre <+: ops → ∀ s', runs (exec cfg) pre s = .ok s' →
        MemInv cfg s' (pre.foldl appStep app) := by
    intro ops
    induction ops with
    | nil =>
      intro app s h _ _ _ pre hpre s' hs'
      obtain rfl := List.prefix_nil.mp hpre
      obtain rfl := Except.ok.inj hs'
      exact h
    | cons op ops ih =>
      intro app s h hops hk hf pre hpre s' hs'
      cases pre with
      | nil =>
        obtain rfl := Except.ok.inj hs'
        exact h
      | cons op' pre =>
        rcases List.cons_prefix_cons.mp hpre with ⟨rfl, hrest⟩
        unfold Along at hk hf
        simp only [runs] at hs'
        split at hs'
        · rename_i s₁ hs₁
          rw [hs₁] at hk hf
          exact ih _ s₁ (h.exec (hops op' List.mem_cons_self) hk.1 hf.1 hs₁)
            (fun op hop => hops op (List.mem_cons_of_mem _ hop)) hk.2 hf.2 pre hrest s' hs'
        · cases hs'
  intro pre hpre s hs
  have h := hinv ops _ _ (memInv_pebsInit cfg) hops hkernel hfresh pre hpre s hs
  exact ⟨h.reads, fun a v ha => h.write_ok ha⟩

/-- A page is stored to and moved down. -/
def downRun : List Op :=
  [.mmap 0x40000000 0x40000000 false, .missingFault 0x40000000, .write 0x40000000 7,
    .request .dramToNvm 1 false fun _ => 0, .migrate 1 .dramToNvm]

/-- A page is written to and migrated to NVM: it reads what was stored, and may be written to. -/
theorem read_eq_appMemory_down :
    ∃ s, runs (exec smallConfig) downRun (pebsInit smallConfig) = .ok s ∧
      s.read = appMemory downRun ∧
        ∀ a v, (appMemory downRun a).isSome = true → ∃ s', appWrite a v s = .ok s' := by
  refine ⟨_, rfl, ?_⟩
  refine read_eq_appMemory smallConfig downRun (by decide) ?_ ?_ downRun (List.prefix_refl _) _ rfl
  · exact ⟨⟨by decide, fun _ _ => rfl⟩, trivial, trivial, trivial, trivial, trivial⟩
  · refine ⟨⟨by decide, by simp [taken]⟩, ⟨by decide, ?_⟩, ⟨by decide, by simp [taken]⟩,
      ⟨by decide, by simp [taken]⟩, ⟨by decide, ?_⟩, trivial⟩
    · intro q hq va p hp
      cases hp
    · -- the only page of the table is in DRAM, the free descriptor in NVM
      intro q hq va p hp
      have hq : q ∈ [2] := hq
      have hp : Function.update (fun _ => none) 0x40000000 (some 0) va = some p := hp
      obtain rfl := List.mem_singleton.mp hq
      rw [Function.update_apply] at hp
      split at hp
      · obtain rfl := Option.some.inj hp
        decide
      · cases hp

/-- A page is stored to and moved within DRAM, and another page is allocated. -/
def reuseRun : List Op :=
  [.mmap 0x40000000 0x40000000 false, .missingFault 0x40000000, .write 0x40000000 7,
    .request .dramToDram 1 false fun _ => 0, .migrate 1 .dramToDram, .missingFault 0x40200000]

/-- The allocation at the end of `reuseRun` clears the slot of the moved page. -/
theorem read_ne_appMemory_reuse :
    (∀ op ∈ reuseRun, op.isMunmap = false) ∧
      Along (exec smallConfig) KernelMmap reuseRun (pebsInit smallConfig) ∧
      ¬ ∀ s, runs (exec smallConfig) reuseRun (pebsInit smallConfig) = .ok s →
        s.read = appMemory reuseRun := by
  refine ⟨by decide, ?_, fun hread => ?_⟩
  · exact ⟨⟨by decide, fun _ _ => rfl⟩, trivial, trivial, trivial, trivial, trivial, trivial⟩
  · have hrun : (runs (exec smallConfig) reuseRun (pebsInit smallConfig)).map
        (fun s => s.read 0x40000000) = .ok (some 0) := rfl
    cases hs : runs (exec smallConfig) reuseRun (pebsInit smallConfig) with
    | error e =>
      rw [hs] at hrun
      cases hrun
    | ok s =>
      rw [hs] at hrun
      have hzero : s.read 0x40000000 = some 0 := Except.ok.inj hrun
      rw [hread s hs] at hzero
      exact absurd hzero (by decide)

end Hemem
