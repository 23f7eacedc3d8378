import Hemem.Lib.Fair
import Hemem.MigTest
import Hemem.RoundTrip
import Hemem.Slots
import Hemem.Sweep

/-!
# Hemem.MigTestRuns — `mig-test.c` under every schedule

With as many pages in either tier as the region has, no step of either thread fails, in
whatever order they come; what `main` has stored stays where it was stored; and when a counter
that `main` waits for is zero, the pages are where it has asked for them. A schedule that
leaves neither of the threads out for ever takes `main` to its end.
-/

namespace Hemem

open Lib

variable {cfg : Config} {t : MigTest} {s s' : St} {x x' : TestSys} {app : AppMemory}

/-! ## The region -/

/-- The region is a whole number of pages. -/
theorem MigTest.pageRoundUp_size (t : MigTest) : pageRoundUp t.size = t.size := by
  have hinside := t.inside
  simp only [MigTest.size, pageRoundUp, pageSize_eq] at *
  omega

theorem MigTest.size_pos (t : MigTest) : 0 < t.size := Nat.mul_pos t.npage_pos (by decide)

theorem MigTest.size_div (t : MigTest) : t.size / pageSize = t.npage :=
  Nat.mul_div_cancel _ (by decide)

/-- The region of which the first `i` bytes have been stored. -/
def MigTest.filled (t : MigTest) (i : Nat) : AppMemory := fun a =>
  if inRange t.c t.size a then some (if a - t.c < i then t.value (a - t.c) else 0) else none

/-- After the mapping every byte is zero. -/
theorem MigTest.filled_zero (t : MigTest) :
    appStep (fun _ => none) (.mmap t.c t.size true) = t.filled 0 := by
  funext a
  simp only [appStep, t.pageRoundUp_size, MigTest.filled, Nat.not_lt_zero, if_false, if_true]

/-- A store is one more byte of the contents. -/
theorem MigTest.filled_succ (t : MigTest) {i : Nat} (hi : i < t.size) :
    Function.update (t.filled i) (t.c + i) (some (t.value i)) = t.filled (i + 1) := by
  funext a
  by_cases ha : a = t.c + i
  · subst ha
    have hin : inRange t.c t.size (t.c + i) = true := by
      rw [inRange_iff]
      omega
    rw [Function.update_self, MigTest.filled, hin, if_pos rfl, Nat.add_sub_cancel_left,
      if_pos (Nat.lt_succ_self i)]
  · rw [Function.update_of_ne ha, MigTest.filled, MigTest.filled]
    by_cases hin : inRange t.c t.size a = true
    · have hiff : a - t.c < i ↔ a - t.c < i + 1 := by
        rw [inRange_iff] at hin
        omega
      simp only [hiff]
    · rw [if_neg hin, if_neg hin]

/-- All of the region can be read from the mapping on. -/
theorem MigTest.filled_isSome (t : MigTest) (k : Nat) {i : Nat} (hi : i < t.size) :
    (t.filled k (t.c + i)).isSome = true := by
  have hin : inRange t.c t.size (t.c + i) = true := by
    rw [inRange_iff]
    omega
  rw [MigTest.filled, hin]
  rfl

/-- After the last store every byte has its value. -/
theorem MigTest.filled_size (t : MigTest) {i : Nat} (hi : i < t.size) :
    t.filled t.size (t.c + i) = some (t.value i) := by
  have hin : inRange t.c t.size (t.c + i) = true := by
    rw [inRange_iff]
    omega
  rw [MigTest.filled, hin, if_pos rfl, Nat.add_sub_cancel_left, if_pos hi]

/-! ## The offsets -/

/-- The two tiers have room for the region. -/
structure MigTest.Fits (t : MigTest) (cfg : Config) : Prop where
  dram : t.npage ≤ cfg.npages .dram
  nvm : t.npage ≤ cfg.npages .nvm

/-- The offsets of the first `n` slots of a device. -/
def slotOffsets (n : Nat) : List Nat := (List.range n).map (· * pageSize)

/-- The slots of a device are distinct. -/
theorem slotOffsets_nodup (n : Nat) : (slotOffsets n).Nodup := by
  apply List.nodup_range.map
  intro i j hij
  simp only [pageSize_eq] at hij
  omega

theorem slotOffsets_take {m n : Nat} (h : m ≤ n) : (slotOffsets n).take m = slotOffsets m := by
  rw [slotOffsets, ← List.map_take, List.take_range, Nat.min_eq_left h, slotOffsets]

/-- The slots that `pebs_init` gives out lie within the device. -/
theorem slotOffsets_fits (cfg : Config) (u : Tier) {o : Nat} (ho : o ∈ slotOffsets (cfg.npages u)) :
    o + pageSize ≤ cfg.size u := by
  rcases List.mem_map.mp ho with ⟨i, hi, rfl⟩
  rw [List.mem_range] at hi
  calc i * pageSize + pageSize
      = (i + 1) * pageSize := (Nat.succ_mul _ _).symm
    _ ≤ cfg.npages u * pageSize := Nat.mul_le_mul_right _ hi
    _ ≤ cfg.size u := npages_mul_le cfg u

/-- Where the pages go. On the way back these are first the slots of DRAM that the region
has left alone, and then those that the free descriptors have brought along from NVM. -/
def MigTest.newOffsets (t : MigTest) (cfg : Config) : Half → List Nat
  | .down => slotOffsets (cfg.npages .nvm)
  | .up => (slotOffsets (cfg.npages .dram)).drop t.npage ++
      (slotOffsets (cfg.npages .nvm)).take t.npage

def MigTest.oldOffsets (t : MigTest) (cfg : Config) : Half → List Nat
  | .down => (slotOffsets (cfg.npages .dram)).drop t.npage
  | .up => (slotOffsets (cfg.npages .nvm)).drop t.npage

/-- The vacated slots of DRAM are those that the free descriptors from NVM denote there. -/
theorem MigTest.Fits.newOffsets_up (h : t.Fits cfg) :
    (t.newOffsets cfg .up).Perm (slotOffsets (cfg.npages .dram)) := by
  rw [MigTest.newOffsets, slotOffsets_take h.nvm, ← slotOffsets_take h.dram]
  apply List.perm_append_comm.trans
  rw [List.take_append_drop]

/-- The slots of the destination have room for the region. -/
theorem MigTest.Fits.room (h : t.Fits cfg) (half : Half) :
    Room cfg half.dir t.npage (t.newOffsets cfg half) := by
  cases half with
  | down =>
    constructor
    · simp [Half.dir, Dir.src, Dir.dst]
    · exact slotOffsets_nodup _
    · rw [MigTest.newOffsets, slotOffsets, List.length_map, List.length_range]
      exact h.nvm
    · intro o ho
      exact slotOffsets_fits cfg .nvm ho
  | up =>
    have hperm := h.newOffsets_up
    constructor
    · simp [Half.dir, Dir.src, Dir.dst]
    · exact hperm.nodup_iff.mpr (slotOffsets_nodup _)
    · rw [hperm.length_eq, slotOffsets, List.length_map, List.length_range]
      exact h.dram
    · intro o ho
      exact slotOffsets_fits cfg .dram (hperm.mem_iff.mp ho)

/-- A state in the course of one half of the measurement, with `k` pages put. -/
def MigTest.Sweeps (t : MigTest) (cfg : Config) (half : Half) (k : Nat) (app : AppMemory)
    (s : St) : Prop :=
  Sweeping cfg t.c half.dir t.npage k (t.newOffsets cfg half) (t.oldOffsets cfg half) app s

/-- The second half begins where the first one ends. -/
theorem MigTest.Fits.turnRound (h : t.Fits cfg) (hs : t.Sweeps cfg .down t.npage app s)
    (hq : s.list (.queue .dramToNvm) = []) : t.Sweeps cfg .up 0 app s :=
  Sweeping.turnRound hs hq rfl rfl (h.room .up)

/-! ## `mmap` -/

/-- The free list of a tier is its slots in order. -/
theorem pebsInit_offsets (cfg : Config) (u : Tier) :
    offsets (pebsInit cfg) ((pebsInit cfg).list (.free u)) = slotOffsets (cfg.npages u) := by
  have htotal : cfg.total = cfg.npages .dram + cfg.npages .nvm := rfl
  have hoff : ∀ p < cfg.total, ((pebsInit cfg).page p).devdaxOffset =
      if p < cfg.npages .dram then p * pageSize else (p - cfg.npages .dram) * pageSize := by
    intro p hp
    have hslot := congrArg Prod.snd (pebsInit_slot cfg hp)
    refine hslot.trans ?_
    split <;> rfl
  cases u with
  | dram =>
    rw [pebsInit_list, offsets, slotOffsets]
    apply List.map_congr_left
    intro p hp
    rw [List.mem_range] at hp
    rw [hoff p (by omega), if_pos hp]
  | nvm =>
    rw [pebsInit_list, offsets, slotOffsets, List.map_map]
    apply List.map_congr_left
    intro i hi
    rw [List.mem_range] at hi
    rw [Function.comp_apply, hoff _ (by omega), if_neg (by omega), Nat.add_sub_cancel_left]

/-- At the start every free descriptor has a slot of its own. -/
theorem freshSlots_pebsInit (cfg : Config) {qs : List PageId}
    (hqs : List.Sublist qs (freeOrder (pebsInit cfg))) : FreshSlots (pebsInit cfg) qs := by
  have hw := wf_pebsInit cfg
  constructor
  · -- the slots of one device are distinct, and those of two devices anyway
    have hall : ((freeOrder (pebsInit cfg)).map fun q => ((pebsInit cfg).page q).slot).Nodup := by
      have hslots : ∀ u, ((pebsInit cfg).list (.free u)).map
          (fun q => ((pebsInit cfg).page q).slot) =
          (slotOffsets (cfg.npages u)).map fun o => (u, o) := by
        intro u
        rw [← pebsInit_offsets, offsets, List.map_map]
        apply List.map_congr_left
        intro q hq
        exact hw.slot_of_mem hq
      rw [freeOrder, List.map_append, hslots, hslots, List.nodup_append]
      refine ⟨?_, ?_, ?_⟩
      · exact (slotOffsets_nodup _).map (Prod.mk_right_injective _)
      · exact (slotOffsets_nodup _).map (Prod.mk_right_injective _)
      · intro a ha b hb hab
        rcases List.mem_map.mp ha with ⟨o, -, rfl⟩
        rcases List.mem_map.mp hb with ⟨o', -, rfl⟩
        cases hab
    exact hall.sublist (hqs.map _)
  · intro q hq va p hp
    rw [pebsInit_pages] at hp
    cases hp

/-- The mapping succeeds and puts the region into DRAM. -/
theorem MigTest.Fits.map_ok (h : t.Fits cfg) :
    ∃ s, hememMmap cfg t.c t.size true (pebsInit cfg) = .ok s ∧
      t.Sweeps cfg .down 0 (t.filled 0) s := by
  have hinside := t.inside
  have hdram := h.dram
  have hlen : t.size = t.npage * pageSize := rfl
  have hpages := t.pageRoundUp_size
  have htotal : cfg.total = cfg.npages .dram + cfg.npages .nvm := rfl
  rcases pebsInit_populates cfg t.c t.size t.size_pos (by simp only [pageSize_eq] at *; omega)
    t.c_ne t.aligned (by omega) (by rw [hpages, t.size_div]; omega) with ⟨s, hr, hpop⟩
  rw [hpages] at hpop
  have hexec : exec cfg (.mmap t.c t.size true) (pebsInit cfg) = .ok s := hr
  -- no offset changes
  have hslots := sameSlots_exec (fun _ _ heq => by cases heq) hexec
  have hoffsets : ∀ ps, offsets s ps = offsets (pebsInit cfg) ps := by
    intro ps
    apply offsets_congr
    intro p _
    exact congrArg Prod.snd (hslots p)
  have hfrom : takenFrom (pebsInit cfg) t.npage .dram = t.npage ∧
      takenFrom (pebsInit cfg) t.npage .nvm = 0 := by
    rw [takenFrom, takenFrom, pebsInit_list, List.length_range]
    omega
  have hfree : ∀ u, s.list (.free u) =
      ((pebsInit cfg).list (.free u)).drop (takenFrom (pebsInit cfg) t.npage u) := by
    intro u
    rw [hpop.free, t.size_div]
  have hmmap : ∀ u, s.list (.mmap u) =
      ((pebsInit cfg).list (.free u)).take (takenFrom (pebsInit cfg) t.npage u) := by
    intro u
    rw [hpop.mmap, t.size_div, pebsInit_list cfg (.mmap u), List.nil_append]
  have hqueue : ∀ e, s.list (.queue e) = [] := by
    intro e
    rw [(hpop.queue e).1, pebsInit_list]
  have hnvm : s.list (.mmap .nvm) = [] := by
    rw [hmmap, hfrom.2, List.take_zero]
  refine ⟨s, hr, ?_, ⟨?_, ?_⟩, ?_, h.room .down⟩
  · rw [← t.filled_zero]
    refine (sound_pebsInit cfg).exec hexec rfl ⟨?_, ?_⟩ ?_
    · omega
    · intro a _
      simp only [pebsInit, initLoop_eq, St.empty]
    · exact freshSlots_pebsInit cfg (List.take_sublist _ _)
  · intro va p hp
    by_contra hout
    rw [hpop.tableOther va ?_, pebsInit_pages] at hp
    · cases hp
    · rintro i hi rfl
      rw [t.size_div] at hi
      apply hout
      rw [inRange_iff]
      simp only [pageAt, pageSize_eq]
      omega
  · intro a ha
    exact (hpop.watched a ha).1
  · constructor
    · show (s.list (.mmap .dram)).length + 0 = t.npage
      rw [hmmap, hfrom.1, List.length_take, pebsInit_list, List.length_range]
      omega
    · show (s.list (.queue .dramToNvm)).length + (s.list (.mmap .nvm)).length = 0
      rw [hqueue, hnvm]
      rfl
    · intro e _
      exact hqueue e
    · show offsets s (s.list (.mmap .nvm)) ++ offsets s (s.list (.free .nvm)) = _
      rw [hnvm, hfree, hfrom.2, List.drop_zero, hoffsets, hoffsets, pebsInit_offsets]
      rfl
    · show offsets s (s.list (.free .dram)) = _ ++ offsets s (s.list (.mmap .nvm))
      rw [hnvm, hfree, hfrom.1, hoffsets, hoffsets, offsets_drop, pebsInit_offsets, offsets_nil,
        List.append_nil]
      rfl

/-! ## `munmap` -/

/-- The state that `munmap` leaves: there are no pages, and no requests. -/
structure MigTest.Unmapped (t : MigTest) (s : St) : Prop where
  table : ∀ va, s.pages va = none
  queues : ∀ e, s.num (.queue e) = 0
  total : mmapTotal s = 0
  vm : t.accept = true → ∀ i < t.size, s.vm (t.c + i) = none

/-- The kernel accepts the region: it is whole pages. -/
theorem MigTest.libcMunmap_eq (t : MigTest) (haccept : t.accept = true) (s : St) :
    libcMunmap t.c t.size t.accept s = (0, unmapRange t.c t.size s) := by
  have hinside := t.inside
  have haligned := t.aligned
  have hpos := t.size_pos
  have hlen : t.size = t.npage * pageSize := rfl
  have hstop : munmapStop t.c t.size = t.c + t.size := by
    simp only [munmapStop, basepageSize_eq, pageSize_eq] at *
    omega
  have hbase : t.c % basepageSize = 0 := by
    simp only [pageSize_eq, basepageSize_eq] at *
    omega
  have hend : (t.c + t.size) % pageSize = 0 := by
    rw [hlen, Nat.add_mul_mod_self_right]
    exact haligned
  have hne : (t.size != 0) = true := bne_iff_ne.mpr (Nat.ne_of_gt hpos)
  have hsplits : splitsPage t.c (t.c + t.size) s = false := by
    simp only [splitsPage, haligned, hend, bne_self_eq_false, Bool.false_and, Bool.or_self]
  have hlt : t.c + t.size < 2 ^ 64 := by omega
  rw [libcMunmap, haccept, hstop, hbase, hne, hsplits, decide_eq_true hlt, Nat.add_sub_cancel_left]
  rfl

/-- The `munmap` untracks the whole region, whatever the kernel answers. -/
theorem MigTest.unmap_ok (t : MigTest) (hs : Sound cfg s app) (hwatch : Watched t.c t.size s)
    (hq : ∀ e, s.num (.queue e) = 0) :
    ∃ ret s', hememMunmap (t.size / basepageSize + 2) t.c t.size t.accept s = .ok (ret, s') ∧
      t.Unmapped s' := by
  have hinside := t.inside
  have haligned := t.aligned
  have hlen : t.size = t.npage * pageSize := rfl
  have htable : HugeTable s := hs.mem.wf.hugeTable hs.mem.tabled
  have hbase : t.c % basepageSize = 0 := by
    simp only [pageSize_eq, basepageSize_eq] at *
    omega
  have hc : t.c % 2 ^ 64 = t.c := Nat.mod_eq_of_lt (by omega)
  have hstays : ScanStays t.c ((t.c + t.size) % 2 ^ 64) s := by
    rw [Nat.mod_eq_of_lt (by omega)]
    constructor
    · simp only [pageSize_eq, basepageSize_eq] at *
      omega
    · intro _ _ htop
      simp only [topPage, pageSize_eq] at *
      omega
  -- the scan of the region ends in time, and takes out what it finds
  rcases (hstays.bounded (by omega) (by omega) htable).exits with ⟨s₁, hscan⟩
  have hrange : ∃ ps, UntracksRange t.c t.size s ps s₁ := by
    rcases munmapScan_untracksRange htable hbase (by omega) with ⟨ps, n, s₂, hs₂, -, hrange⟩
    rcases munmapScan_iff.mp hscan with ⟨ps', n', -, hs₁⟩
    rcases hs₁.unique hs₂ with ⟨-, -, rfl⟩
    exact ⟨ps, hrange⟩
  rcases hrange with ⟨ps, hrange⟩
  obtain ⟨ret, s', hret⟩ : ∃ ret s', libcMunmap t.c t.size t.accept s₁ = (ret, s') :=
    ⟨_, _, rfl⟩
  have hr : hememMunmap (t.size / basepageSize + 2) t.c t.size t.accept s = .ok (ret, s') := by
    rw [hememMunmap, hc, hscan, ← hret]
    rfl
  have hsame : s'.pages = s₁.pages ∧ s'.num = s₁.num := by
    rcases libcMunmap_cases t.c t.size t.accept s₁ with hcase | hcase
    · rw [← (Prod.mk.inj (hcase.symm.trans hret)).2]
      exact ⟨rfl, rfl⟩
    · rw [← (Prod.mk.inj (hcase.symm.trans hret)).2]
      exact ⟨rfl, rfl⟩
  have hnone : ∀ va, s'.pages va = none := by
    intro va
    rw [hsame.1, hrange.table]
    split
    · rfl
    · rename_i hout
      cases hp : s.pages va with
      | none => rfl
      | some p => exact absurd (hwatch.inside hp) hout
  refine ⟨ret, s', hr, hnone, ?_, ?_, ?_⟩
  · intro e
    rw [hsame.2, hrange.queueNum, hq]
  · have hexec : exec cfg (.munmap (t.size / basepageSize + 2) t.c t.size t.accept) s =
        .ok s' := by
      rw [exec, hr]
      rfl
    have htotal := hs.total.exec hs.mem.wf hs.mem.tabled rfl hexec
    have hempty : trackedAddrs s' = ∅ := by
      ext va
      simp [trackedAddrs, hnone]
    rw [htotal.total, hempty, Set.ncard_empty]
    rfl
  · intro haccept i hi
    have hin : inRange t.c t.size (t.c + i) = true := by
      rw [inRange_iff]
      omega
    rw [← (Prod.mk.inj ((t.libcMunmap_eq haccept s₁).symm.trans hret)).2, unmapRange_vm]
    exact if_pos hin

/-! ## The invariant -/

/-- What `main` tests while it waits. -/
theorem CountersExact.getListNum_eq_zero (h : CountersExact s) {e : Dir}
    (hlt : (s.list (.queue e)).length < 2 ^ 31) :
    getListNum e s = 0 ↔ s.list (.queue e) = [] := by
  have hnum := h (.queue e)
  constructor
  · intro hzero
    apply List.eq_nil_of_length_eq_zero
    have hbits : (s.num (.queue e)).toUInt32 = 0 := congrArg Int32.toUInt32 hzero
    have hmod := congrArg UInt32.toNat hbits
    rw [UInt64.toNat_toUInt32, hnum] at hmod
    simp only [UInt32.toNat_zero] at hmod
    omega
  · intro hnil
    rw [getListNum, h.num_eq_zero hnil]
    rfl

/-- What `main` has printed when it is in one half, before the request has returned. -/
def MigTest.printedBefore (t : MigTest) : Half → List Nat
  | .down => []
  | .up => [t.npage]

/-- The state of the process by the place where `main` is. -/
inductive TestInv (cfg : Config) (t : MigTest) : TestSys → Prop where
  | map {dir} : TestInv cfg t ⟨pebsInit cfg, dir, .map, []⟩
  | store {s dir i} (hi : i ≤ t.size) (hs : t.Sweeps cfg .down 0 (t.filled i) s) :
      TestInv cfg t ⟨s, dir, .store i, []⟩
  | request {s dir half i} (hi : i ≤ t.npage) (hs : t.Sweeps cfg half i (t.filled t.size) s) :
      TestInv cfg t ⟨s, dir, .request half i i, t.printedBefore half⟩
  | wait {s dir half} (hs : t.Sweeps cfg half t.npage (t.filled t.size) s) :
      TestInv cfg t ⟨s, dir, .wait half, t.printedBefore half ++ [t.npage]⟩
  | unmap {s dir} (hs : t.Sweeps cfg .up t.npage (t.filled t.size) s)
      (hq : s.list (.queue .nvmToDram) = []) :
      TestInv cfg t ⟨s, dir, .unmap, [t.npage, t.npage]⟩
  | waitTotal {s dir} (hs : t.Unmapped s) :
      TestInv cfg t ⟨s, dir, .waitTotal, [t.npage, t.npage]⟩
  | done {s dir} (hs : t.Unmapped s) : TestInv cfg t ⟨s, dir, .done, [t.npage, t.npage]⟩

/-! ## The steps of the migration thread -/

/-- The number of steps to the end of `main` when it does not wait. -/
def MigTest.left (t : MigTest) : TestPc → Nat
  | .map => 2 * t.npage + t.size + 8
  | .store i => 2 * t.npage + (t.size - i) + 7
  | .request .down i _ => t.npage + (t.npage - i) + 6
  | .wait .down => t.npage + 5
  | .request .up i _ => t.npage - i + 4
  | .wait .up => 3
  | .unmap => 2
  | .waitTotal => 1
  | .done => 0

/-- The pages that wait in the half that `main` is in. -/
def TestSys.queued (x : TestSys) : Nat :=
  match x.pc with
  | .request half _ _ | .wait half => (x.st.list (.queue half.dir)).length
  | _ => 0

/-- The loop that the migration thread is in, counted in the order in which it goes round. -/
def Dir.place : Dir → Nat
  | .dramToDram => 0
  | .dramToNvm => 1
  | .nvmToDram => 2
  | .nvmToNvm => 3

/-- How many loops come before that of the direction `e`. -/
def Dir.loopsTo (d e : Dir) : Nat := (e.place + 4 - d.place) % 4

/-- The next loop is closer. -/
theorem Dir.loopsTo_next {d e : Dir} (h : d ≠ e) : d.next.loopsTo e < d.loopsTo e := by
  revert h
  cases d <;> cases e <;> decide

/-- How far the migration thread is from the loop that moves these pages. -/
def TestSys.away (x : TestSys) : Nat :=
  match x.pc with
  | .request half _ _ | .wait half => x.dir.loopsTo half.dir
  | _ => 0

/-- The queues other than that of the half are empty. -/
theorem MigTest.Sweeps.other {half : Half} {k : Nat} (h : t.Sweeps cfg half k app s) {d : Dir}
    (hd : d ≠ half.dir) : s.list (.queue d) = [] := h.lists.others d hd

/-- A test of a loop of the migration thread. -/
theorem MigTest.Sweeps.migrate {half : Half} {k : Nat} (h : t.Sweeps cfg half k app s)
    (B : Nat) (d : Dir) :
    ∃ s', migrationRequest cfg B d s = .ok s' ∧ t.Sweeps cfg half k app s' ∧
      (s'.list (.queue half.dir)).length =
        (s.list (.queue half.dir)).length - if d = half.dir then B else 0 := by
  by_cases hd : d = half.dir
  · subst hd
    rcases Sweeping.migrate h B with ⟨s', hstep, hs', hlen⟩
    exact ⟨s', hstep, hs', by rw [hlen, if_pos rfl]⟩
  · exact ⟨s, h.sound.migrate_idle (h.other hd) B, h, by rw [if_neg hd, Nat.sub_zero]⟩

/-- The step brings the pages that wait closer to the other tier. -/
structure Closer (B : Nat) (x x' : TestSys) : Prop where
  pc : x'.pc = x.pc
  less : 0 < x.queued → 0 < B → x'.queued < x.queued ∨ x'.queued = x.queued ∧ x'.away < x.away
  none : x.queued = 0 → x'.queued = 0

theorem closer_of_zero {B : Nat} (hpc : x'.pc = x.pc) (h : x.queued = 0) (h' : x'.queued = 0) :
    Closer B x x' := by
  refine ⟨hpc, fun hpos => ?_, fun _ => h'⟩
  omega

/-- A step in one of the two halves. -/
theorem MigTest.Sweeps.closer {half : Half} {k B : Nat} (h : t.Sweeps cfg half k app s)
    {d d' : Dir} {pc : TestPc} {out : List Nat}
    (hd' : d' = if s.num (.queue d) = 0 then d.next else d)
    (hlen : (s'.list (.queue half.dir)).length =
      (s.list (.queue half.dir)).length - if d = half.dir then B else 0)
    (hqueued : ∀ s d, (TestSys.mk s d pc out).queued = (s.list (.queue half.dir)).length)
    (haway : ∀ s d, (TestSys.mk s d pc out).away = d.loopsTo half.dir) :
    Closer B ⟨s, d, pc, out⟩ ⟨s', d', pc, out⟩ := by
  refine ⟨rfl, fun hpos hB => ?_, fun hzero => ?_⟩
  · rw [hqueued] at hpos
    rw [hqueued, hqueued, haway, haway]
    by_cases hd : d = half.dir
    · rw [if_pos hd] at hlen
      exact Or.inl (by omega)
    · -- it is not in the loop yet
      rw [if_neg hd] at hlen
      rw [hd', if_pos (h.sound.counters.num_eq_zero (h.other hd))]
      exact Or.inr ⟨hlen, Dir.loopsTo_next hd⟩
  · rw [hqueued] at hzero ⊢
    omega

/-- A step of the migration thread does not fail, keeps the invariant, and brings the pages closer
to where `main` wants them. -/
theorem TestInv.migratorStep (h : TestInv cfg t x) (B : Nat) :
    ∃ x', migratorStep cfg B x = .ok x' ∧ TestInv cfg t x' ∧ Closer B x x' := by
  -- a case for every place where the main thread can stand
  cases h with
  | @map dir =>
    have hidle := (sound_pebsInit cfg).migrate_idle (pebsInit_list cfg (.queue dir)) B
    refine ⟨⟨pebsInit cfg, if (pebsInit cfg).num (.queue dir) = 0 then dir.next else dir, .map,
      []⟩, ?_, .map, closer_of_zero rfl rfl rfl⟩
    simp only [Hemem.migratorStep, hidle]
    rfl
  | @store s dir i hi hs =>
    rcases hs.migrate B dir with ⟨s', hstep, hs', -⟩
    refine ⟨⟨s', if s.num (.queue dir) = 0 then dir.next else dir, .store i, []⟩, ?_,
      .store hi hs', closer_of_zero rfl rfl rfl⟩
    simp only [Hemem.migratorStep, hstep]
    rfl
  | @request s dir half i hi hs =>
    rcases hs.migrate B dir with ⟨s', hstep, hs', hlen⟩
    refine ⟨⟨s', if s.num (.queue dir) = 0 then dir.next else dir, .request half i i,
      t.printedBefore half⟩, ?_, .request hi hs', ?_⟩
    · simp only [Hemem.migratorStep, hstep]
      rfl
    · exact hs.closer rfl hlen (fun _ _ => rfl) fun _ _ => rfl
  | @wait s dir half hs =>
    rcases hs.migrate B dir with ⟨s', hstep, hs', hlen⟩
    refine ⟨⟨s', if s.num (.queue dir) = 0 then dir.next else dir, .wait half,
      t.printedBefore half ++ [t.npage]⟩, ?_, .wait hs', ?_⟩
    · simp only [Hemem.migratorStep, hstep]
      rfl
    · exact hs.closer rfl hlen (fun _ _ => rfl) fun _ _ => rfl
  | @unmap s dir hs hq =>
    rcases hs.migrate B dir with ⟨s', hstep, hs', hlen⟩
    have hq' : s'.list (.queue .nvmToDram) = [] := by
      apply List.eq_nil_of_length_eq_zero
      show (s'.list (.queue Half.up.dir)).length = 0
      rw [hlen]
      show (s.list (.queue .nvmToDram)).length - _ = 0
      rw [hq, List.length_nil, Nat.zero_sub]
    refine ⟨⟨s', if s.num (.queue dir) = 0 then dir.next else dir, .unmap,
      [t.npage, t.npage]⟩, ?_, .unmap hs' hq', closer_of_zero rfl rfl rfl⟩
    simp only [Hemem.migratorStep, hstep]
    rfl
  | @waitTotal s dir hs =>
    refine ⟨⟨s, dir.next, .waitTotal, [t.npage, t.npage]⟩, ?_, .waitTotal hs,
      closer_of_zero rfl rfl rfl⟩
    simp only [Hemem.migratorStep, migrationRequest, hs.queues, if_true]
    rfl
  | @done s dir hs =>
    refine ⟨⟨s, dir.next, .done, [t.npage, t.npage]⟩, ?_, .done hs, closer_of_zero rfl rfl rfl⟩
    simp only [Hemem.migratorStep, migrationRequest, hs.queues, if_true]
    rfl

/-! ## The steps of `main` -/

/-- The thread that brings the end closer: `main`, unless it waits for pages. -/
def TestSys.helpful (x : TestSys) : TestThread :=
  match x.pc with
  | .wait _ => if x.queued = 0 then .main else .migrator
  | _ => .main

/-- The step brings `main` closer to its end, or it waits for the migration thread. -/
def Advances (t : MigTest) (x x' : TestSys) : Prop :=
  t.left x'.pc < t.left x.pc ∨ x' = x ∧ (x.pc = .done ∨ x.helpful = .migrator)

/-- A step of `main` does not fail, keeps the invariant, and goes on or waits. -/
theorem MigTest.Fits.mainStep (hfit : t.Fits cfg) (h : TestInv cfg t x) :
    ∃ x', mainStep cfg t x = .ok x' ∧ TestInv cfg t x' ∧ Advances t x x' := by
  cases h with
  | @map dir =>
    rcases hfit.map_ok with ⟨s, hstep, hs⟩
    refine ⟨⟨s, dir, .store 0, []⟩, ?_, .store (Nat.zero_le _) hs, Or.inl ?_⟩
    · simp only [Hemem.mainStep, hstep]
      rfl
    · simp only [MigTest.left]
      omega
  | @store s dir i hi hs =>
    by_cases hlt : i < t.size
    · rcases Sweeping.write hs (t.filled_isSome i hlt) (t.value i) with ⟨s', hstep, hs'⟩
      rw [t.filled_succ hlt] at hs'
      refine ⟨⟨s', dir, .store (i + 1), []⟩, ?_, .store hlt hs', Or.inl ?_⟩
      · simp only [Hemem.mainStep, if_pos hlt, hstep]
        rfl
      · simp only [MigTest.left]
        omega
    -- the loop ends: all bytes are stored
    · obtain rfl : i = t.size := Nat.le_antisymm hi (Nat.le_of_not_lt hlt)
      refine ⟨⟨s, dir, .request .down 0 0, []⟩, ?_, ?_, Or.inl ?_⟩
      · simp only [Hemem.mainStep, if_neg hlt]
      · exact .request (Nat.zero_le _) hs
      · simp only [MigTest.left]
        omega
  -- each iteration of a request puts one page, whatever number is drawn
  | @request s dir half i hi hs =>
    by_cases hlt : i < t.npage
    · rcases Sweeping.put hs hlt (t.rand i) with ⟨s', hstep, hs'⟩
      refine ⟨⟨s', dir, .request half (i + 1) (i + 1), t.printedBefore half⟩, ?_,
        .request hlt hs', Or.inl ?_⟩
      · rw [bind_eq_ok] at hstep
        rcases hstep with ⟨s₁, hchoose, hput⟩
        simp only [Hemem.mainStep, if_pos hlt, hchoose, hput, bind, Except.bind]
      · cases half <;>
          · simp only [MigTest.left]
            omega
    · obtain rfl : i = t.npage := Nat.le_antisymm hi (Nat.le_of_not_lt hlt)
      refine ⟨⟨s, dir, .wait half, t.printedBefore half ++ [t.npage]⟩, ?_, .wait hs, Or.inl ?_⟩
      · simp only [Hemem.mainStep, if_neg hlt]
      · cases half <;>
          · simp only [MigTest.left]
            omega
  | @wait s dir half hs =>
    -- `get_list_num` is an `int`; the queue is short enough for it
    have hshort : (s.list (.queue half.dir)).length < 2 ^ 31 := by
      have hput := hs.lists.werePut
      have hlt := t.npage_lt
      omega
    have hzero := hs.sound.counters.getListNum_eq_zero hshort
    by_cases hq : s.list (.queue half.dir) = []
    · have htest : getListNum half.dir s = 0 := hzero.mpr hq
      refine ⟨⟨s, dir, half.next, t.printedBefore half ++ [t.npage]⟩, ?_, ?_, Or.inl ?_⟩
      · simp only [Hemem.mainStep, htest, ne_eq, not_true_eq_false, if_false]
      · cases half with
        | down => exact .request (Nat.zero_le _) (hfit.turnRound hs hq)
        | up => exact .unmap hs hq
      · cases half <;>
          · simp only [MigTest.left, Half.next]
            omega
    -- pages are waiting, and only the migration thread can help
    · have htest : getListNum half.dir s ≠ 0 := fun h0 => hq (hzero.mp h0)
      refine ⟨_, ?_, .wait hs, Or.inr ⟨rfl, Or.inr ?_⟩⟩
      · simp only [Hemem.mainStep, if_pos htest]
      · exact if_neg (Nat.ne_of_gt (List.length_pos_of_ne_nil hq))
  | @unmap s dir hs hq =>
    -- the other queues have been empty all along
    have hidle : ∀ e, s.num (.queue e) = 0 := by
      intro e
      apply hs.sound.counters.num_eq_zero
      by_cases he : e = Half.up.dir
      · rw [he]
        exact hq
      · exact hs.other he
    rcases t.unmap_ok hs.sound hs.watched hidle with ⟨ret, s', hstep, hs'⟩
    refine ⟨⟨s', dir, .waitTotal, [t.npage, t.npage]⟩, ?_, .waitTotal hs', Or.inl ?_⟩
    · simp only [Hemem.mainStep, hstep]
      rfl
    · simp only [MigTest.left]
      omega
  | @waitTotal s dir hs =>
    have htest : getTotalMmap s = 0 := by
      rw [getTotalMmap, hs.total]
      rfl
    refine ⟨⟨s, dir, .done, [t.npage, t.npage]⟩, ?_, .done hs, Or.inl ?_⟩
    · simp only [Hemem.mainStep, htest, ne_eq, not_true_eq_false, if_false]
    · simp only [MigTest.left]
      omega
  | @done s dir hs => exact ⟨_, rfl, .done hs, Or.inr ⟨rfl, Or.inl rfl⟩⟩

/-! ## What the test observes -/

/-- An address that can be read is mapped to the tier that all pages are in. -/
theorem MemInv.mapped_tier (h : MemInv cfg s app) {u : Tier}
    (htier : ∀ p, Live s p → (s.page p).tier = u) {a : Nat} (ha : (app a).isSome = true) :
    ∃ off, s.vm a = some (.slot u off) := by
  rw [← h.reads, St.read] at ha
  split at ha
  · rename_i v o hvm
    have hdev : device s a = some (v, o) := by
      rw [device, hvm]
      rfl
    rcases h.space.owner hdev with ⟨p, hp, hin⟩
    rw [inRange_iff] at hin
    have hmapped := h.space.mapped (k := a - (s.page p).va) hp (by omega)
    rw [Nat.add_sub_cancel' hin.1, hdev] at hmapped
    have hv : v = (s.page p).tier := (Prod.mk.inj (Option.some.inj hmapped)).1
    rw [htier p hp] at hv
    rw [hvm, hv]
    exact ⟨o, rfl⟩
  · cases ha

/-- From the last store to the call of `munmap`. -/
def TestPc.filled : TestPc → Bool
  | .request .. | .wait _ | .unmap => true
  | .map | .store _ | .waitTotal | .done => false

/-- What the program relies on. -/
structure TestOk (t : MigTest) (x : TestSys) : Prop where
  /-- every byte has the value that was stored last -/
  kept : x.pc.filled = true → ∀ i < t.size, x.st.read (t.c + i) = some (t.value i)
  /-- after the first wait all pages are in NVM -/
  down : x.pc = .request .up 0 0 → ∀ i < t.size, ∃ off, x.st.vm (t.c + i) = some (.slot .nvm off)
  /-- after the second wait they are in DRAM again -/
  up : x.pc = .unmap → ∀ i < t.size, ∃ off, x.st.vm (t.c + i) = some (.slot .dram off)
  /-- both requests report that they have put all pages -/
  printed : x.printed <+: [t.npage, t.npage]
  /-- in the end nothing is left -/
  finished : x.pc = .done → x.printed = [t.npage, t.npage] ∧ getTotalMmap x.st = 0 ∧
    (∀ va, x.st.pages va = none) ∧ (t.accept = true → ∀ i < t.size, x.st.vm (t.c + i) = none)

/-- A byte that has been stored is read, in whatever tier its page is. -/
theorem MigTest.Sweeps.kept {half : Half} {k : Nat} (h : t.Sweeps cfg half k (t.filled t.size) s)
    {i : Nat} (hi : i < t.size) : s.read (t.c + i) = some (t.value i) := by
  rw [h.sound.mem.reads]
  exact t.filled_size hi

/-- Before the first page has been put. -/
theorem MigTest.Sweeps.tier_src {half : Half} (h : t.Sweeps cfg half 0 app s) {p : PageId}
    (hp : Live s p) : (s.page p).tier = half.dir.src := by
  refine (h.lists.live h.room.cross h.sound.mem.wf hp).resolve_left ?_
  have hput := h.lists.werePut
  have hnil : s.list (.mmap half.dir.dst) = [] := List.eq_nil_of_length_eq_zero (by omega)
  rw [hnil]
  exact List.not_mem_nil

/-- The invariant gives all that the program relies on. -/
theorem TestInv.ok (h : TestInv cfg t x) : TestOk t x := by
  cases h with
  | map => exact ⟨by simp [TestPc.filled], by simp, by simp, List.nil_prefix, by simp⟩
  | store hi hs => exact ⟨by simp [TestPc.filled], by simp, by simp, List.nil_prefix, by simp⟩
  | @request s dir half i hi hs =>
    refine ⟨fun _ j hj => hs.kept hj, ?_, by simp, ?_, by simp⟩
    -- before the first page has been put back all are in NVM
    · intro heq j hj
      obtain ⟨rfl, rfl, -⟩ : half = .up ∧ i = 0 ∧ i = 0 := by simpa using heq
      exact hs.sound.mem.mapped_tier (fun _ hp => hs.tier_src hp) (t.filled_isSome _ hj)
    · cases half with
      | down => exact List.nil_prefix
      | up => exact ⟨[t.npage], rfl⟩
  | @wait s dir half hs =>
    refine ⟨fun _ j hj => hs.kept hj, by simp, by simp, ?_, by simp⟩
    cases half with
    | down => exact ⟨[t.npage], rfl⟩
    | up => exact List.prefix_refl _
  | @unmap s dir hs hq =>
    refine ⟨fun _ j hj => hs.kept hj, by simp, fun _ j hj => ?_, List.prefix_refl _, by simp⟩
    -- nothing is on the queue, so all pages have arrived
    have htier : ∀ p, Live s p → (s.page p).tier = .dram := by
      intro p hp
      exact hs.lists.arrived hs.room.cross hs.sound.mem.wf hq hp
    exact hs.sound.mem.mapped_tier htier (t.filled_isSome _ hj)
  | waitTotal hs => exact ⟨by simp [TestPc.filled], by simp, by simp, List.prefix_refl _, by simp⟩
  | @done s dir hs =>
    refine ⟨by simp [TestPc.filled], by simp, by simp, List.prefix_refl _, fun _ => ?_⟩
    refine ⟨rfl, ?_, hs.table, hs.vm⟩
    show getTotalMmap s = 0
    rw [getTotalMmap, hs.total]
    rfl

/-! ## Schedules -/

/-- No step of either thread fails, and every one keeps the invariant. -/
theorem MigTest.Fits.testStep (hfit : t.Fits cfg) (B : Nat) (i : TestThread)
    (h : TestInv cfg t x) :
    ∃ x', testStep cfg B t i x = .ok x' ∧ TestInv cfg t x' := by
  cases i with
  | main =>
    rcases hfit.mainStep h with ⟨x', hstep, h', -⟩
    exact ⟨x', hstep, h'⟩
  | migrator =>
    rcases h.migratorStep B with ⟨x', hstep, h', -⟩
    exact ⟨x', hstep, h'⟩

/-- The steps that are left to `main`, the pages that wait in its half, and how far the
migration thread is from their loop. -/
def TestSys.rank (t : MigTest) (x : TestSys) : Rank :=
  rankOf (t.left x.pc) x.queued (if x.queued = 0 then 0 else x.away) 0

theorem TestSys.rank_lt_of_left (h : t.left x'.pc < t.left x.pc) : x'.rank t < x.rank t :=
  rankOf_lt.mpr (Or.inl h)

/-- A step of the migration thread that finds pages in the half brings them closer. -/
theorem Closer.rank_lt {B : Nat} (h : Closer B x x') (hB : 0 < B) (hpos : 0 < x.queued) :
    x'.rank t < x.rank t := by
  rw [TestSys.rank, TestSys.rank, h.pc, rankOf_lt]
  refine Or.inr ⟨rfl, ?_⟩
  rcases h.less hpos hB with hless | ⟨heq, hless⟩
  · exact Or.inl hless
  · rw [heq, if_neg (Nat.ne_of_gt hpos), if_neg (Nat.ne_of_gt hpos)]
    exact Or.inr ⟨rfl, Or.inl hless⟩

/-- One that finds none changes nothing. -/
theorem Closer.rank_eq {B : Nat} (h : Closer B x x') (hzero : x.queued = 0) :
    x'.rank t = x.rank t ∧ x'.helpful = x.helpful := by
  have hzero' := h.none hzero
  constructor
  · rw [TestSys.rank, TestSys.rank, h.pc, hzero, hzero', if_pos rfl, if_pos rfl]
  · simp only [TestSys.helpful, h.pc, hzero, hzero']

/-- When only the migration thread can help, it has pages to move. -/
theorem TestSys.queued_pos (x : TestSys) (h : x.helpful = .migrator) : 0 < x.queued := by
  unfold TestSys.helpful at h
  split at h
  · split at h
    · cases h
    · rename_i hne
      exact Nat.pos_of_ne_zero hne
  · cases h

/-- The step of the helpful thread makes the rank less, no step makes it more. -/
theorem MigTest.Fits.ranked (hfit : t.Fits cfg) {B : Nat} (hB : 0 < B) :
    Ranked (Hemem.testStep cfg B t) (TestInv cfg t) (fun x => x.pc = .done)
      (TestSys.rank t) TestSys.helpful := by
  constructor
  case helps =>
    intro x x' h hnot hstep
    -- the main thread helps unless it waits for a queue that is not empty
    cases hhelp : x.helpful with
    | main =>
      rw [hhelp] at hstep
      rcases hfit.mainStep h with ⟨x₁, hstep₁, -, hadv⟩
      obtain rfl := Except.ok.inj (hstep₁.symm.trans hstep)
      rcases hadv with hless | ⟨-, hdone | hwaits⟩
      · exact Or.inr (TestSys.rank_lt_of_left hless)
      · exact absurd hdone hnot
      · rw [hhelp] at hwaits
        cases hwaits
    | migrator =>
      rw [hhelp] at hstep
      rcases h.migratorStep B with ⟨x₁, hstep₁, -, hcloser⟩
      obtain rfl := Except.ok.inj (hstep₁.symm.trans hstep)
      exact Or.inr (hcloser.rank_lt hB (x.queued_pos hhelp))
  case keeps =>
    intro i x x' h hnot hstep
    -- the other thread may come closer, or leave the rank and the helpful thread as they are
    cases i with
    | main =>
      rcases hfit.mainStep h with ⟨x₁, hstep₁, hinv, hadv⟩
      obtain rfl := Except.ok.inj (hstep₁.symm.trans hstep)
      refine Or.inr ⟨hinv, ?_⟩
      rcases hadv with hless | ⟨rfl, -⟩
      · exact Or.inl (TestSys.rank_lt_of_left hless)
      · exact Or.inr ⟨rfl, rfl⟩
    | migrator =>
      rcases h.migratorStep B with ⟨x₁, hstep₁, hinv, hcloser⟩
      obtain rfl := Except.ok.inj (hstep₁.symm.trans hstep)
      refine Or.inr ⟨hinv, ?_⟩
      rcases Nat.eq_zero_or_pos x.queued with hzero | hpos
      · exact Or.inr (hcloser.rank_eq hzero)
      · exact Or.inl (hcloser.rank_lt hB hpos)

/-- A schedule in which both threads have a turn again and again takes `main` to its end. -/
theorem MigTest.Fits.finishes (hfit : t.Fits cfg) {B : Nat} (hB : 0 < B)
    {sched : Nat → TestThread} (hfair : Fair sched) :
    ∃ n x, runs (Hemem.testStep cfg B t) (turns sched n) (testInit cfg) = .ok x ∧
      x.pc = .done := by
  rcases (hfit.ranked hB).eventually (fun x => hfair x.helpful) TestInv.map with ⟨n, hn⟩
  -- no turn has stopped the run
  rcases runs_returns (fun i _ h => hfit.testStep B i h) (turns sched n) (TestInv.map (t := t))
    with ⟨x, hruns, -⟩
  exact ⟨n, x, hruns, hn x hruns⟩

/-- Whatever the order of the steps, none of them fails, and the program observes what it
relies on. -/
theorem migTest_safe (cfg : Config) (B : Nat) (t : MigTest) (hfit : t.Fits cfg)
    (sched : List TestThread) :
    ∃ x, runs (testStep cfg B t) sched (testInit cfg) = .ok x ∧ TestOk t x := by
  rcases runs_returns (fun i _ h => hfit.testStep B i h) sched (TestInv.map (t := t))
    with ⟨x, hruns, hx⟩
  exact ⟨x, hruns, hx.ok⟩

/-- The tiers of `hemem.h`. -/
def hememConfig : Config := ⟨16 * 2 ^ 30, 240 * 2 ^ 30, by decide, by decide⟩

/-- `mig-test.c` as it is, when `rand` counts and the mapping is placed at 1 GiB. -/
def hememTest : MigTest where
  c := 0x40000000
  npage := 8 * 2 ^ 30 / pageSize
  rand := id
  accept := true
  npage_pos := by decide
  npage_lt := by decide
  c_ne := by decide
  aligned := by decide
  inside := by decide

/-- The threads take turns. -/
def alternately (n : Nat) : TestThread := if n % 2 = 0 then .main else .migrator

/-- Each of the two has every second turn. -/
theorem fair_alternately : Fair alternately := by
  intro i n
  cases i with
  | main =>
    refine ⟨2 * n, by omega, ?_⟩
    rw [alternately, Nat.mul_mod_right, if_pos rfl]
  | migrator =>
    refine ⟨2 * n + 1, by omega, ?_⟩
    rw [alternately, if_neg (by omega)]

/-- The schedule takes `main` through its waiting loops to its return. -/
theorem migTest_safe_source :
    ∃ n x, runs (testStep hememConfig 1 hememTest) (turns alternately n) (testInit hememConfig) =
      .ok x ∧ x.pc = .done ∧ TestOk hememTest x := by
  have hfit : hememTest.Fits hememConfig := ⟨by decide, by decide⟩
  rcases hfit.finishes (B := 1) (by decide) fair_alternately with ⟨n, x, hruns, hdone⟩
  rcases migTest_safe hememConfig 1 hememTest hfit (turns alternately n) with ⟨y, hruns', hok⟩
  obtain rfl := Except.ok.inj (hruns.symm.trans hruns')
  exact ⟨n, x, hruns, hdone, hok⟩

end Hemem
