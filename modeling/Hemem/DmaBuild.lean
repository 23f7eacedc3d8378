import Hemem.Lib.Transfer
import Hemem.AppMemory
import Hemem.PageSizes
import Hemem.Scan

/-!
# Hemem.DmaBuild — a batch moves exactly, whatever the order of its copies

With `USE_DMA` the first loop of `hemem_migrate_*` makes its assertions and enters the copies
into one `UFFDIO_DMA_COPY` request, which the kernel carries out in an order of its own;
without it the loop copies page by page. The slots of a batch are apart from each other and
from what is mapped, so the copies are independent, and either build leaves the same state:
the pages have moved, every page reads what it read, and nothing else has changed. The arrays
of the request belong to the kernel's header and are taken to hold the batch.
-/

namespace Hemem

open Lib

variable {cfg : Config} {d : Dir} {src dst : Tier} {ms : List Move} {s s' : St}

/-! ## The first loop with `USE_DMA` -/

/-- `src[i]`, `dst[i]` and `len[i]` of a `struct uffdio_dma_copy`; an address within a device
mapping is the device and the offset. -/
structure DmaEntry where
  srcTier : Tier
  src : Nat
  dstTier : Tier
  dst : Nat
  len : Nat
deriving DecidableEq, Repr

/-- The entry of a page. -/
def dmaEntry (src dst : Tier) (s : St) (m : Move) : DmaEntry :=
  ⟨src, (s.page m.1).devdaxOffset, dst, m.2, ptToPagesize (s.page m.1).pt⟩

/-- One iteration of the first loop: the assertions and the entry. -/
def stagePage (cfg : Config) (src dst : Tier) (m : Move) (s : St) : Except Fault DmaEntry := do
  checkMove cfg src dst m s
  .ok (dmaEntry src dst s m)

/-- The first loop; the result carries the last value of `pagesize` and the request. -/
def stageLoop (cfg : Config) (src dst : Tier) :
    List Move → Nat → St → Except Fault (Nat × List DmaEntry)
  | [], pagesize, _ => .ok (pagesize, [])
  | m :: ms, _, s => do
    let e ← stagePage cfg src dst m s
    let (pagesize, es) ← stageLoop cfg src dst ms (ptToPagesize (s.page m.1).pt) s
    .ok (pagesize, e :: es)

/-- The copies of a request, one after the other. -/
def runEntries (es : List DmaEntry) (s : St) : St :=
  es.foldl (fun s e => copySlot e.srcTier e.src e.dstTier e.dst e.len s) s

/-- `ioctl(uffd, UFFDIO_DMA_COPY)`, where `order` is the order that the kernel chooses. -/
def uffdioDmaCopy (order : List DmaEntry → List DmaEntry) (es : List DmaEntry) (s : St) : St :=
  runEntries (order es) s

/-- The common body of the four functions; `stale` is what becomes of `pagesize` between the
two loops. -/
def migrateDma (cfg : Config) (src dst : Tier) (stale : Nat → Option Nat)
    (f : HememPage → HememPage) (order : List DmaEntry → List DmaEntry) (ms : List Move) (s : St) :
    Except Fault St := do
  let (pagesize, es) ← stageLoop cfg src dst ms 0 s
  remapLoop dst (stale pagesize) f ms (uffdioDmaCopy order es s)

def hememMigrateUpDma (cfg : Config) :=
  migrateDma cfg .nvm .dram (fun _ => none) fun g => { g with migrationsUp := g.migrationsUp + 1 }

def hememMigrateDownDma (cfg : Config) :=
  migrateDma cfg .dram .nvm some fun g => { g with migrationsDown := g.migrationsDown + 1 }

def hememMigrateDramDma (cfg : Config) := migrateDma cfg .dram .dram some id

def hememMigrateNvmDma (cfg : Config) := migrateDma cfg .nvm .nvm (fun _ => none) id

def hememMigrateDma (cfg : Config) : Dir → (List DmaEntry → List DmaEntry) → List Move → St →
    Except Fault St
  | .dramToDram => hememMigrateDramDma cfg
  | .dramToNvm => hememMigrateDownDma cfg
  | .nvmToDram => hememMigrateUpDma cfg
  | .nvmToNvm => hememMigrateNvmDma cfg

/-- The four functions with the values of their direction. -/
theorem hememMigrateDma_def (cfg : Config) (d : Dir) :
    hememMigrateDma cfg d = migrateDma cfg d.src d.dst d.staleSize (bump d) := by
  cases d <;> rfl

/-- A page is put into the request exactly under the assertions of the copy. -/
theorem stagePage_ok {m : Move} {e : DmaEntry} :
    stagePage cfg src dst m s = .ok e ↔ Copyable cfg src dst s m ∧ e = dmaEntry src dst s m := by
  simp only [stagePage, bind_eq_ok, checkMove_ok, exists_const, Except.ok.injEq]
  exact and_congr_right fun _ => eq_comm

/-- The first loop collects the entries of all pages, or stops at an assertion. -/
theorem stageLoop_iff {n : Nat} {r : Nat × List DmaEntry} :
    stageLoop cfg src dst ms n s = .ok r ↔ (∀ m ∈ ms, Copyable cfg src dst s m) ∧
      r = (lastSize s ms n, ms.map (dmaEntry src dst s)) := by
  induction ms generalizing n r with
  | nil => simp [stageLoop, lastSize, eq_comm]
  | cons m ms ih =>
    simp only [stageLoop, bind_eq_ok, stagePage_ok, List.mem_cons, forall_eq_or_imp, ih,
      Except.ok.injEq, List.map_cons]
    constructor
    · rintro ⟨e, ⟨hm, rfl⟩, r', ⟨hms, rfl⟩, rfl⟩
      exact ⟨⟨hm, hms⟩, rfl⟩
    · rintro ⟨⟨hm, hms⟩, rfl⟩
      exact ⟨_, ⟨hm, rfl⟩, _, ⟨hms, rfl⟩, rfl⟩

/-! ## The copies -/

/-- A copy as a transfer between the bytes of the devices. -/
def DmaEntry.transfer (e : DmaEntry) : Transfer (Tier × Nat) Byte where
  target x := x.1 == e.dstTier && inRange e.dst e.len x.2
  value mem x := mem (e.srcTier, e.src + (x.2 - e.dst))

/-- The bytes that an entry writes. -/
theorem transfer_target {e : DmaEntry} {x : Tier × Nat} :
    e.transfer.target x ↔ x.1 = e.dstTier ∧ inRange e.dst e.len x.2 = true := by
  simp [DmaEntry.transfer]

/-- A request is a sequence of transfers between the bytes of the devices. -/
theorem runEntries_eq (es : List DmaEntry) (s : St) : runEntries es s =
    { s with mem := fun t o => Transfer.runAll (es.map DmaEntry.transfer) s.bytes (t, o) } := by
  induction es generalizing s with
  | nil => rfl
  | cons e es ih =>
    have hbytes : (copySlot e.srcTier e.src e.dstTier e.dst e.len s).bytes =
        e.transfer.run s.bytes := by
      funext x
      exact if_congr transfer_target.symm rfl rfl
    rw [runEntries, List.foldl_cons, ← runEntries, ih, hbytes]
    rfl

/-- The loop of the other build makes the copies of the request in its order. -/
theorem copyAll_runEntries : s.copyAll src dst ms = runEntries (ms.map (dmaEntry src dst s)) s := by
  induction ms generalizing s with
  | nil => rfl
  | cons m ms ih =>
    rw [copyAll_cons, ih]
    rfl

/-! ## The remapping -/

section Remap

variable {f : HememPage → HememPage} (hf : ∀ g, (f g).va = g.va)

/-- The page is mapped to its new slot and watched, and not protected. -/
theorem remap_inside {m : Move} {a : Nat} (h : inRange (s.page m.1).va pageSize a = true) :
    (s.remap dst f m).vm a = some (.slot dst (m.2 + (a - (s.page m.1).va))) ∧
      (s.remap dst f m).registered a = true ∧ (s.remap dst f m).wp a = false :=
  ⟨if_pos h, if_pos h, if_pos h⟩

/-- Frame: the addresses outside the page. -/
theorem remap_outside {m : Move} {a : Nat} (h : ¬ inRange (s.page m.1).va pageSize a = true) :
    (s.remap dst f m).vm a = s.vm a ∧ (s.remap dst f m).registered a = s.registered a ∧
      (s.remap dst f m).wp a = s.wp a :=
  ⟨if_neg h, (if_neg h).trans (if_neg h), if_neg h⟩

include hf in
/-- An address outside the pages of the batch. -/
theorem remapAll_outside {a : Nat} (h : ∀ m ∈ ms, inRange (s.page m.1).va pageSize a = false) :
    (s.remapAll dst f ms).vm a = s.vm a ∧
      (s.remapAll dst f ms).registered a = s.registered a ∧ (s.remapAll dst f ms).wp a = s.wp a := by
  induction ms generalizing s with
  | nil => exact ⟨rfl, rfl, rfl⟩
  | cons m ms ih =>
    have hm : ¬ inRange (s.page m.1).va pageSize a = true :=
      Bool.eq_false_iff.mp (h m List.mem_cons_self)
    have hrest := ih (s := s.remap dst f m) fun m' hm' => by
      rw [remap_va hf]
      exact h m' (List.mem_cons_of_mem _ hm')
    rw [remapAll_cons, hrest.1, hrest.2.1, hrest.2.2]
    exact remap_outside hm

include hf in
/-- An address of a page of the batch. -/
theorem remapAll_inside (hal : ∀ m ∈ ms, (s.page m.1).va % pageSize = 0)
    (hva : (ms.map fun m => (s.page m.1).va).Nodup) {m : Move} (hm : m ∈ ms) {k : Nat}
    (hk : k < pageSize) :
    (s.remapAll dst f ms).vm ((s.page m.1).va + k) = some (.slot dst (m.2 + k)) ∧
      (s.remapAll dst f ms).registered ((s.page m.1).va + k) = true ∧
      (s.remapAll dst f ms).wp ((s.page m.1).va + k) = false := by
  induction ms generalizing s with
  | nil => cases hm
  | cons m' ms ih =>
    rw [List.map_cons, List.nodup_cons] at hva
    rcases List.mem_cons.mp hm with rfl | hm
    · -- the pages that follow have other addresses
      have hlater : ∀ m' ∈ ms, inRange ((s.remap dst f m).page m'.1).va pageSize
          ((s.page m.1).va + k) = false := by
        intro m' hm'
        rw [remap_va hf, Bool.eq_false_iff, ne_eq, inRange_iff]
        have hne : (s.page m'.1).va ≠ (s.page m.1).va := fun heq =>
          hva.1 (heq ▸ List.mem_map_of_mem hm')
        have h1 := hal m List.mem_cons_self
        have h2 := hal m' (List.mem_cons_of_mem _ hm')
        simp only [pageSize_eq] at *
        omega
      rcases remapAll_outside hf hlater with ⟨hvm, hreg, hwp⟩
      rw [remapAll_cons, hvm, hreg, hwp]
      have hin : (s.remap dst f m).vm ((s.page m.1).va + k) =
            some (.slot dst (m.2 + ((s.page m.1).va + k - (s.page m.1).va))) ∧
          (s.remap dst f m).registered ((s.page m.1).va + k) = true ∧
          (s.remap dst f m).wp ((s.page m.1).va + k) = false := remap_inside (inRange_add hk)
      rwa [Nat.add_sub_cancel_left] at hin
    -- a later page of the batch: its address is what it was
    · have h := ih (s := s.remap dst f m') (fun m hm => by
        rw [remap_va hf]
        exact hal m (List.mem_cons_of_mem _ hm)) (by simpa only [remap_va hf] using hva.2) hm
      rwa [remap_va hf] at h

end Remap

/-! ## Batches -/

/-- The pages `live` are mapped, each to the slot that its descriptor denotes. -/
structure MappedPages (live : PageId → Prop) (s : St) : Prop where
  mapped : ∀ {p}, live p → ∀ {k}, k < ptToPagesize (s.page p).pt →
    s.vm ((s.page p).va + k) = some (.slot (s.page p).tier ((s.page p).devdaxOffset + k))
  aligned : ∀ {p}, live p → (s.page p).va % pageSize = 0
  va_inj : ∀ {p q}, live p → live q → (s.page p).va = (s.page q).va → p = q
  offAligned : ∀ {p}, live p → (s.page p).devdaxOffset % pageSize = 0

/-- A batch for direction `d`: different mapped pages, and different slots that no mapped page
has. -/
structure MoveBatch (cfg : Config) (live : PageId → Prop) (d : Dir) (s : St)
    (ms : List Move) : Prop where
  isLive : ∀ m ∈ ms, live m.1
  hugep : ∀ m ∈ ms, (s.page m.1).pt = .hugep
  copyable : ∀ m ∈ ms, Copyable cfg d.src d.dst s m
  aligned : ∀ m ∈ ms, m.2 % pageSize = 0
  pages : (ms.map Prod.fst).Nodup
  offsets : (ms.map Prod.snd).Nodup
  fresh : ∀ m ∈ ms, FreshSlot live s d.dst m.2

/-- The pages of the batch have moved to their new slots, and nothing else has changed. -/
structure MovesExactly (live : PageId → Prop) (d : Dir) (ms : List Move) (s s' : St) : Prop where
  moved : ∀ m ∈ ms, s'.page m.1 =
    { bump d (s.page m.1) with inDram := d.dst.inDram, devdaxOffset := m.2 }
  mapped : ∀ m ∈ ms, ∀ k < pageSize,
    s'.vm ((s.page m.1).va + k) = some (.slot d.dst (m.2 + k)) ∧
      s'.registered ((s.page m.1).va + k) = true ∧ s'.wp ((s.page m.1).va + k) = false
  /-- every mapped page reads what it has read -/
  reads : ∀ {p}, live p → ∀ k < ptToPagesize (s.page p).pt,
    s'.read ((s.page p).va + k) = s.read ((s.page p).va + k)
  /-- and so does every other address that is not mapped to one of the new slots -/
  readsElse : ∀ {a}, (∀ m ∈ ms, ∀ k < pageSize, s.vm a ≠ some (.slot d.dst (m.2 + k))) →
    s'.read a = s.read a
  memOther : ∀ {t o}, (∀ m ∈ ms, t = d.dst → inRange m.2 pageSize o = false) →
    s'.mem t o = s.mem t o
  vmOther : ∀ {a}, (∀ m ∈ ms, inRange (s.page m.1).va pageSize a = false) →
    s'.vm a = s.vm a ∧ s'.registered a = s.registered a ∧ s'.wp a = s.wp a
  pageOther : ∀ p, p ∉ ms.map Prod.fst → s'.page p = s.page p
  list : s'.list = s.list
  num : s'.num = s.num
  pages : s'.pages = s.pages

section Batch

variable {live : PageId → Prop} (hs : MappedPages live s) (hms : MoveBatch cfg live d s ms)

/-- Two slots that share a byte are the same. -/
theorem slot_eq {t u : Tier} {x y i j : Nat} (hx : x % pageSize = 0) (hy : y % pageSize = 0)
    (hi : i < pageSize) (hj : j < pageSize) (h : (t, x + i) = (u, y + j)) : (t, x) = (u, y) := by
  rcases Prod.mk.inj h with ⟨rfl, hoff⟩
  rw [aligned_eq hx hy hi hj hoff]

include hms in
/-- An entry writes into the new slot of its page. -/
theorem MoveBatch.entry_target {m : Move} (hm : m ∈ ms) {x : Tier × Nat}
    (hx : (dmaEntry d.src d.dst s m).transfer.target x) :
    ∃ k < pageSize, x = (d.dst, m.2 + k) := by
  rcases transfer_target.mp hx with ⟨htier, hin⟩
  have hlen : (dmaEntry d.src d.dst s m).len = pageSize := by
    rw [dmaEntry, hms.hugep m hm]
    rfl
  rw [hlen, inRange_iff] at hin
  rcases Nat.exists_eq_add_of_le hin.1 with ⟨k, hk⟩
  refine ⟨k, by omega, Prod.ext htier hk⟩

include hms in
/-- The pages of the batch are in the source tier. -/
theorem MoveBatch.tier {m : Move} (hm : m ∈ ms) : (s.page m.1).tier = d.src := by
  rw [HememPage.tier, (hms.copyable m hm).inDram]
  cases d.src <;> rfl

include hs hms in
/-- What is mapped is in no new slot. -/
theorem MoveBatch.mapped_ne {p : PageId} (hp : live p) {k : Nat} (hk : k < pageSize) {m : Move}
    (hm : m ∈ ms) {i : Nat} (hi : i < pageSize) :
    ((s.page p).tier, (s.page p).devdaxOffset + k) ≠ (d.dst, m.2 + i) := by
  intro heq
  exact hms.fresh m hm p hp (slot_eq (hs.offAligned hp) (hms.aligned m hm) hk hi heq)

include hs hms in
/-- No entry reads or writes what another one writes, so their order does not matter. -/
theorem MoveBatch.independent :
    ((ms.map (dmaEntry d.src d.dst s)).map DmaEntry.transfer).Pairwise Transfer.Independent := by
  rw [List.map_map, List.pairwise_map]
  -- what one entry reads is mapped, so the other does not write it
  have hkeep : ∀ m ∈ ms, ∀ m' ∈ ms, ∀ mem {a}, (dmaEntry d.src d.dst s m).transfer.target a →
      (dmaEntry d.src d.dst s m).transfer.value
        ((dmaEntry d.src d.dst s m').transfer.run mem) a =
      (dmaEntry d.src d.dst s m).transfer.value mem a := by
    intro m hm m' hm' mem a ha
    rcases hms.entry_target hm ha with ⟨k, hk, rfl⟩
    refine Transfer.run_other fun hx => ?_
    rcases hms.entry_target hm' hx with ⟨i, hi, heq⟩
    refine hms.mapped_ne hs (hms.isLive m hm) hk hm' hi ?_
    rw [hms.tier hm, ← heq]
    exact congrArg (fun i => (d.src, (s.page m.1).devdaxOffset + i)) (by simp [dmaEntry])
  have hoffs := List.pairwise_map.mp hms.offsets
  refine hoffs.imp_of_mem ?_
  intro m m' hm hm' hne
  constructor
  · intro a ha ha'
    rcases hms.entry_target hm ha with ⟨k, hk, rfl⟩
    rcases hms.entry_target hm' ha' with ⟨i, hi, heq⟩
    exact hne (Prod.mk.inj (slot_eq (hms.aligned m hm) (hms.aligned m' hm') hk hi heq)).2
  · exact hkeep m hm m' hm'
  · exact hkeep m' hm' m hm

include hs hms in
/-- The kernel's order of the copies does not matter. -/
theorem MoveBatch.dmaCopy {order : List DmaEntry → List DmaEntry}
    (horder : ∀ es, (order es).Perm es) :
    uffdioDmaCopy order (ms.map (dmaEntry d.src d.dst s)) s = s.copyAll d.src d.dst ms := by
  have hperm := (horder (ms.map (dmaEntry d.src d.dst s))).symm.map DmaEntry.transfer
  -- the loop without `USE_DMA` runs the same transfers in the order of the batch
  rw [copyAll_runEntries, uffdioDmaCopy, runEntries_eq, runEntries_eq,
    Transfer.runAll_perm hperm (hms.independent hs)]

include hs hms in
/-- The build without DMA succeeds. -/
theorem MoveBatch.run : hememMigrate cfg d ms s =
    .ok ((s.copyAll d.src d.dst ms).remapAll d.dst (bump d) ms) := by
  refine (hememMigrate_ok hms.hugep fun m hm => ?_).mpr ⟨hms.copyable, rfl⟩
  exact hs.aligned (hms.isLive m hm)

include hs hms in
/-- The build with DMA comes to the same state, in whatever order the kernel copies. -/
theorem MoveBatch.runDma {order : List DmaEntry → List DmaEntry}
    (horder : ∀ es, (order es).Perm es) : hememMigrateDma cfg d order ms s =
    .ok ((s.copyAll d.src d.dst ms).remapAll d.dst (bump d) ms) := by
  have hstage : stageLoop cfg d.src d.dst ms 0 s =
      .ok (lastSize s ms 0, ms.map (dmaEntry d.src d.dst s)) :=
    stageLoop_iff.mpr ⟨hms.copyable, rfl⟩
  have hcopy : copyLoop cfg d.src d.dst ms 0 s =
      .ok (lastSize s ms 0, s.copyAll d.src d.dst ms) := copyLoop_iff.mpr ⟨hms.copyable, rfl⟩
  have hrun := hms.run hs
  rw [hememMigrate_def, hcopy] at hrun
  rw [hememMigrateDma_def, migrateDma, hstage]
  simp only [bind, Except.bind, hms.dmaCopy hs horder] at hrun ⊢
  exact hrun

include hs hms in
/-- The new slot has the bytes of the old one. -/
theorem MoveBatch.mem_target {m : Move} (hm : m ∈ ms) {k : Nat} (hk : k < pageSize) :
    (s.copyAll d.src d.dst ms).mem d.dst (m.2 + k) =
      s.mem (s.page m.1).tier ((s.page m.1).devdaxOffset + k) := by
  have htarget : (dmaEntry d.src d.dst s m).transfer.target (d.dst, m.2 + k) := by
    refine transfer_target.mpr ⟨rfl, ?_⟩
    rw [dmaEntry, hms.hugep m hm]
    exact inRange_add hk
  have hmem := List.mem_map_of_mem (f := DmaEntry.transfer)
    (List.mem_map_of_mem (f := dmaEntry d.src d.dst s) hm)
  rw [copyAll_runEntries, runEntries_eq]
  refine (Transfer.runAll_target (hms.independent hs) hmem htarget).trans ?_
  simp only [DmaEntry.transfer, dmaEntry, Nat.add_sub_cancel_left, hms.tier hm]
  rfl

include hms in
/-- Frame: the bytes outside the new slots. -/
theorem MoveBatch.mem_other {t : Tier} {o : Nat}
    (h : ∀ m ∈ ms, ∀ k < pageSize, (t, o) ≠ (d.dst, m.2 + k)) :
    (s.copyAll d.src d.dst ms).mem t o = s.mem t o := by
  rw [copyAll_runEntries, runEntries_eq]
  refine Transfer.runAll_other fun x hx hto => ?_
  simp only [List.mem_map, exists_exists_and_eq_and] at hx
  rcases hx with ⟨m, hm, rfl⟩
  rcases hms.entry_target hm hto with ⟨k, hk, heq⟩
  exact h m hm k hk heq

include hs hms in
/-- The pages have distinct addresses. -/
theorem MoveBatch.vas_nodup : (ms.map fun m => (s.page m.1).va).Nodup := by
  have hpages := List.pairwise_map.mp hms.pages
  refine List.pairwise_map.mpr (hpages.imp_of_mem fun hm hm' hne heq => hne ?_)
  exact hs.va_inj (hms.isLive _ hm) (hms.isLive _ hm') heq

omit hs hms in
/-- A mapped address reads the byte of its slot. -/
theorem read_slot {a : Nat} {t : Tier} {o : Nat} (h : s.vm a = some (.slot t o)) :
    s.read a = some (s.mem t o) := by
  simp only [St.read, h]

include hs hms in
/-- The addresses of the batch after the move. -/
theorem MoveBatch.inside {m : Move} (hm : m ∈ ms) {k : Nat} (hk : k < pageSize) :
    ((s.copyAll d.src d.dst ms).remapAll d.dst (bump d) ms).vm ((s.page m.1).va + k) =
        some (.slot d.dst (m.2 + k)) ∧
      ((s.copyAll d.src d.dst ms).remapAll d.dst (bump d) ms).registered
        ((s.page m.1).va + k) = true ∧
      ((s.copyAll d.src d.dst ms).remapAll d.dst (bump d) ms).wp
        ((s.page m.1).va + k) = false := by
  have hpage : (s.copyAll d.src d.dst ms).page = s.page := copyAll_page s d.src d.dst ms
  rw [← hpage]
  refine remapAll_inside (fun g => (bump_va_pt d g).1) ?_ ?_ hm hk
  · rw [hpage]
    exact fun m hm => hs.aligned (hms.isLive m hm)
  · rw [hpage]
    exact hms.vas_nodup hs

/-- The other addresses. -/
theorem migrate_outside {a : Nat} (h : ∀ m ∈ ms, inRange (s.page m.1).va pageSize a = false) :
    ((s.copyAll d.src d.dst ms).remapAll d.dst (bump d) ms).vm a = s.vm a ∧
      ((s.copyAll d.src d.dst ms).remapAll d.dst (bump d) ms).registered a = s.registered a ∧
      ((s.copyAll d.src d.dst ms).remapAll d.dst (bump d) ms).wp a = s.wp a := by
  have hsame := copyAll_eq s d.src d.dst ms
  have hvm : (s.copyAll d.src d.dst ms).vm = s.vm := by rw [hsame]
  have hreg : (s.copyAll d.src d.dst ms).registered = s.registered := by rw [hsame]
  have hwp : (s.copyAll d.src d.dst ms).wp = s.wp := by rw [hsame]
  rw [← copyAll_page s d.src d.dst ms] at h
  rw [← hvm, ← hreg, ← hwp]
  exact remapAll_outside (fun g => (bump_va_pt d g).1) h

include hs hms in
/-- A page of the batch reads in its new slot what it has read in the old one. -/
theorem MoveBatch.read_inside {m : Move} (hm : m ∈ ms) {k : Nat} (hk : k < pageSize) :
    ((s.copyAll d.src d.dst ms).remapAll d.dst (bump d) ms).read ((s.page m.1).va + k) =
      s.read ((s.page m.1).va + k) := by
  have hlen : k < ptToPagesize (s.page m.1).pt := by
    rw [hms.hugep m hm]
    exact hk
  rw [read_slot (hms.inside hs hm hk).1, read_slot (hs.mapped (hms.isLive m hm) hlen),
    remapAll_mem, hms.mem_target hs hm hk]

include hms in
/-- Frame: what is read outside the pages of the batch. -/
theorem MoveBatch.read_outside {a : Nat}
    (hout : ∀ m ∈ ms, inRange (s.page m.1).va pageSize a = false)
    (hnew : ∀ m ∈ ms, ∀ k < pageSize, s.vm a ≠ some (.slot d.dst (m.2 + k))) :
    ((s.copyAll d.src d.dst ms).remapAll d.dst (bump d) ms).read a = s.read a := by
  unfold St.read
  rw [(migrate_outside hout).1, remapAll_mem]
  split
  · rename_i t o hvm
    refine congrArg some (hms.mem_other fun m hm k hk heq => hnew m hm k hk ?_)
    rw [hvm]
    cases heq
    rfl
  · rfl

include hs hms in
/-- The pages move, keep their contents, and nothing else changes. -/
theorem MoveBatch.movesExactly : MovesExactly live d ms s
    ((s.copyAll d.src d.dst ms).remapAll d.dst (bump d) ms) := by
  have hpage : (s.copyAll d.src d.dst ms).page = s.page := copyAll_page s d.src d.dst ms
  have hreads : ∀ {a}, (∀ m ∈ ms, ∀ k < pageSize, s.vm a ≠ some (.slot d.dst (m.2 + k))) →
      ((s.copyAll d.src d.dst ms).remapAll d.dst (bump d) ms).read a = s.read a := by
    intro a hnew
    -- an address of the batch reads its new slot, any other one what it has read
    by_cases hin : ∃ m ∈ ms, inRange (s.page m.1).va pageSize a = true
    · rcases hin with ⟨m, hm, ha⟩
      rw [inRange_iff] at ha
      rcases Nat.exists_eq_add_of_le ha.1 with ⟨k, rfl⟩
      exact hms.read_inside hs hm (Nat.lt_of_add_lt_add_left ha.2)
    · refine hms.read_outside (fun m hm => Bool.eq_false_iff.mpr fun ha => ?_) hnew
      exact hin ⟨m, hm, ha⟩
  constructor
  case moved =>
    intro m hm
    rw [remapAll_page_mem hms.pages hm, hpage]
  case mapped => exact fun m hm k hk => hms.inside hs hm hk
  case reads =>
    intro p hp k hk
    refine hreads fun m hm i hi heq => ?_
    rw [hs.mapped hp hk, Option.some.injEq, Backing.slot.injEq] at heq
    have hk' := Nat.lt_of_lt_of_le hk (ptToPagesize_le _)
    exact hms.mapped_ne hs hp hk' hm hi (Prod.ext heq.1 heq.2)
  case readsElse => exact hreads
  case memOther =>
    intro t o ho
    rw [remapAll_mem]
    refine hms.mem_other fun m hm k hk heq => ?_
    rcases Prod.mk.inj heq with ⟨ht, hoff⟩
    have hfalse := ho m hm ht
    rw [hoff, inRange_add hk] at hfalse
    cases hfalse
  case vmOther => exact migrate_outside
  case pageOther =>
    intro p hp
    rw [remapAll_page_other hp, hpage]
  case list =>
    rw [remapAll_list, copyAll_list]
  case num =>
    rw [remapAll_num, copyAll_num]
  case pages =>
    rw [remapAll_pages, copyAll_pages]

end Batch

/-- A batch moves exactly: the pages are at their new slots, every mapped page reads what it
has read, and nothing else has changed, no matter whether the pages are copied one after the
other or by one request in any order. -/
theorem hememMigrate_exact (cfg : Config) {live : PageId → Prop} {s : St}
    (hs : MappedPages live s) {d : Dir} {ms : List Move} (hms : MoveBatch cfg live d s ms)
    {order : List DmaEntry → List DmaEntry} (horder : ∀ es, (order es).Perm es) :
    ∃ s', hememMigrate cfg d ms s = .ok s' ∧ hememMigrateDma cfg d order ms s = .ok s' ∧
      MovesExactly live d ms s s' :=
  ⟨_, hms.run hs, hms.runDma hs horder, hms.movesExactly hs⟩

/-- The tracked pages of a run are mapped. -/
theorem MemInv.mappedPages {app : AppMemory} (h : MemInv cfg s app) :
    MappedPages (Live s) s where
  mapped := by
    intro p hp k hk
    have hk' : k < pageSize := Nat.lt_of_lt_of_le hk (ptToPagesize_le _)
    have hdev := h.space.mapped hp hk'
    unfold device locate at hdev
    split at hdev
    · rename_i t o hvm
      rw [hvm]
      cases hdev
      rfl
    · cases hdev
  aligned := h.space.aligned
  va_inj := h.space.va_inj
  offAligned := fun _ => h.space.offAligned _

/-- Fewer pages are to be looked at. -/
theorem MappedPages.mono {live live' : PageId → Prop} (h : MappedPages live s)
    (hle : ∀ {p}, live' p → live p) : MappedPages live' s where
  mapped := fun hp => h.mapped (hle hp)
  aligned := fun hp => h.aligned (hle hp)
  va_inj := fun hp hq => h.va_inj (hle hp) (hle hq)
  offAligned := fun hp => h.offAligned (hle hp)

/-- Two mapped pages move down, and the kernel copies the second one first. -/
theorem hememMigrate_exact_down :
    ∃ s s', runs (exec smallConfig) twoPages (pebsInit smallConfig) = .ok s ∧
      hememMigrate smallConfig .dramToNvm [(0, 0), (1, pageSize)] s = .ok s' ∧
      hememMigrateDma smallConfig .dramToNvm List.reverse [(0, 0), (1, pageSize)] s = .ok s' ∧
      MovesExactly (fun p => p = 0 ∨ p = 1) .dramToNvm [(0, 0), (1, pageSize)] s s' := by
  have hruns : ∃ s, exec smallConfig (.mmap 0x40000000 (2 * pageSize) true)
        (pebsInit smallConfig) = .ok s ∧
      s.list dramMmapList = [0, 1] ∧ s.page 0 = ⟨0x40000000, 0, true, .hugep, false, true, 0, 0⟩ ∧
      s.page 1 = ⟨0x40200000, pageSize, true, .hugep, false, true, 0, 0⟩ := ⟨_, rfl, rfl, rfl, rfl⟩
  rcases hruns with ⟨s, hr, hlist, h0, h1⟩
  have hkernel : KernelMmap (pebsInit smallConfig) (.mmap 0x40000000 (2 * pageSize) true) :=
    ⟨by decide, fun _ _ => rfl⟩
  have hfresh : TakesFreshSlots (pebsInit smallConfig) (.mmap 0x40000000 (2 * pageSize) true) := by
    refine ⟨by decide, ?_⟩
    intro q _ va p hp
    cases hp
  have hinv := (memInv_pebsInit smallConfig).exec rfl hkernel hfresh hr
  have hlive : ∀ {p}, p = 0 ∨ p = 1 → Live s p := by
    intro p hp
    refine ⟨dramMmapList, rfl, ?_⟩
    rw [hlist]
    simpa using hp
  have hbatch : MoveBatch smallConfig (fun p => p = 0 ∨ p = 1) .dramToNvm s
      [(0, 0), (1, pageSize)] := by
    -- Each condition on the batch is one on its two moves.
    have hcases : ∀ {P : Move → Prop}, P (0, 0) → P (1, pageSize) →
        ∀ m ∈ [((0, 0) : Move), (1, pageSize)], P m := by
      intro P hzero hone m hm
      simp only [List.mem_cons, List.not_mem_nil, or_false] at hm
      rcases hm with rfl | rfl
      · exact hzero
      · exact hone
    constructor
    case isLive => exact hcases (Or.inl rfl) (Or.inr rfl)
    case hugep => exact hcases (by rw [h0]) (by rw [h1])
    case copyable =>
      refine hcases ⟨?_, ?_, ?_⟩ ⟨?_, ?_, ?_⟩ <;> first | rw [h0] | rw [h1]
      all_goals decide
    case aligned => exact hcases rfl rfl
    case pages => decide
    case offsets => decide
    case fresh =>
      refine hcases ?_ ?_ <;> rintro p (rfl | rfl) <;> first | rw [h0] | rw [h1]
      all_goals decide
  rcases hememMigrate_exact smallConfig (hinv.mappedPages.mono hlive) hbatch List.reverse_perm
    with ⟨s', hrun, hdma, hmoves⟩
  refine ⟨s, s', ?_, hrun, hdma, hmoves⟩
  simp only [twoPages, runs, hr]

end Hemem
