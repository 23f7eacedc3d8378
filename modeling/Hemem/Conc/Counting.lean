import Mathlib.Data.Fintype.Option
import Mathlib.Data.UInt
import Hemem.Lib.Sections
import Hemem.Conc.Custody

/-!
# Hemem.Conc.Counting — the counters, load by load and store by store

The system of `Hemem.Conc.Interleave` with the sections that update the counters taken apart:
a thread locks the mutex, loads and stores one counter after the other, and unlocks.
`hemem_mmap_populate` and `hemem_munmap` hold `pages_lock` meanwhile, the request functions
and `migration_request` hold `stats_lock`, and both kinds change the mmap and free counters.
An update is lost when a counter is loaded under one mutex while a thread with the other one
is about to store it.
-/

namespace Hemem

open Lib

inductive Mutex where
  | pagesLock
  | statsLock
deriving DecidableEq, Repr

/-! ## The sections -/

/-- What `hemem_mmap_populate` adds. -/
def populateAdds (inDram : Bool) : List (ListId × UInt64) :=
  if inDram then [(dramMmapList, 1), (dramFreeList, -1)]
  else [(nvmMmapList, 1), (nvmFreeList, -1)]

/-- What `hemem_munmap` adds. -/
def munmapAdds (inDram : Bool) : List (ListId × UInt64) :=
  if inDram then [(dramMmapList, -1), (dramFreeList, 1)]
  else [(nvmMmapList, -1), (nvmFreeList, 1)]

/-- What a request function adds. -/
def requestAdds (d : Dir) : List (ListId × UInt64) := [(.queue d, 1), (.mmap d.src, -1)]

/-- What `migration_request` adds. -/
def batchAdds (d : Dir) (num : UInt64) : List (ListId × UInt64) :=
  match d with
  | .dramToDram => [(dramMmapList, num), (dramToDramList, -num)]
  | .dramToNvm => [(nvmMmapList, num), (dramFreeList, num), (nvmFreeList, -num), (dramToNvmList, -num)]
  | .nvmToDram => [(dramMmapList, num), (nvmFreeList, num), (dramFreeList, -num), (nvmToDramList, -num)]
  | .nvmToNvm => [(nvmMmapList, num), (nvmToNvmList, -num)]

/-- The mutex of the section at which a thread is. -/
def Pc.mutex : Pc → Option Mutex
  | .place _ _ _ (.count :: _) | .countRemoved _ _ _ => some .pagesLock
  | .countPut _ _ _ => some .statsLock
  | _ => none

def Pc.adds (s : St) : Pc → List (ListId × UInt64)
  | .place _ _ r (.count :: _) => populateAdds r.inDram
  | .countRemoved _ _ p => munmapAdds (s.page p).inDram
  | .countPut q _ _ => requestAdds q.d
  | _ => []

def Mpc.mutex : Mpc → Option Mutex
  | .count _ _ => some .statsLock
  | _ => none

def Mpc.adds : Mpc → List (ListId × UInt64)
  | .count d num => batchAdds d (UInt64.ofNat num)
  | _ => []

/-- The next step is a whole section of `pages_lock`: `add_page` or `remove_page`. -/
def Pc.locksPages : Pc → Bool
  | .place _ _ _ (.addPage :: _) | .remove _ _ _ => true
  | _ => false

/-! ## The system -/

variable {Tid : Type}

/-- `none` is the migration thread. -/
def Sys.mutex (x : Sys Tid) : Option Tid → Option Mutex
  | some t => (x.thr t).mutex
  | none => x.mig.mutex

def Sys.adds (x : Sys Tid) : Option Tid → List (ListId × UInt64)
  | some t => (x.thr t).adds x.st
  | none => x.mig.adds

def Label.party : Label Tid → Option (Option Tid)
  | .start _ _ => none
  | .run t => some (some t)
  | .migrate => some none

/-- The section to which the next step belongs: the thread, the mutex and what it adds. -/
def Sys.counting (x : Sys Tid) (lbl : Label Tid) :
    Option (Option Tid × Mutex × List (ListId × UInt64)) :=
  lbl.party.bind fun t => (x.mutex t).map fun m => (t, m, x.adds t)

def Sys.locksPages (x : Sys Tid) : Label Tid → Bool
  | .run t => (x.thr t).locksPages
  | _ => false

def Sys.withNum (x : Sys Tid) (num : ListId → UInt64) : Sys Tid :=
  { x with st := { x.st with num := num } }

structure Fine (Tid : Type) where
  sys : Sys Tid
  sections : Sections (Option Tid) Mutex ListId UInt64

def Fine.quiet (s : St) : Fine Tid := ⟨.quiet s, .quiet⟩

variable [DecidableEq Tid]

/-- A step of a section that does not end it changes only the counters; with the last one the
thread goes on behind the section. -/
def fineStep (cfg : Config) (numBatchs : Nat) (lbl : Label Tid) (x : Fine Tid) :
    Except Fault (Fine Tid) :=
  match x.sys.counting lbl with
  | some (t, m, adds) =>
    match sectionStep t m adds x.sys.st.num x.sections with
    | (num, sections, false) => .ok ⟨x.sys.withNum num, sections⟩
    | (num, sections, true) => do
      let y ← step cfg numBatchs lbl x.sys
      .ok ⟨y.withNum num, sections⟩
  | none =>
    if x.sys.locksPages lbl ∧ x.sections.owner .pagesLock ≠ none then .ok x
    else do
      let y ← step cfg numBatchs lbl x.sys
      .ok ⟨y, x.sections⟩

/-- Every call has returned, and the migration thread is between two iterations. -/
def Fine.finished (x : Fine Tid) : Prop := (∀ t, x.sys.thr t = .idle) ∧ ∃ d, x.sys.mig = .test d

/-- The step does not load a counter that a thread with the other mutex is about to store. -/
def Fine.Apart (x : Fine Tid) (lbl : Label Tid) : Prop := ∀ t ∈ lbl.party, x.sections.Apart t

instance [Fintype Tid] (x : Fine Tid) (lbl : Label Tid) : Decidable (x.Apart lbl) :=
  inferInstanceAs (Decidable (∀ t ∈ lbl.party, x.sections.Apart t))

/-! ## The sections are those of the coarse steps -/

def addAll (adds : List (ListId × UInt64)) (s : St) : St :=
  adds.foldl (fun s u => s.addNum u.1 u.2) s

/-- Subtracting is adding the negative, on `uint64_t`. -/
theorem subNum_eq_addNum (s : St) (l : ListId) (n : UInt64) : s.subNum l n = s.addNum l (-n) := by
  simp only [St.subNum, St.addNum, UInt64.sub_eq_add_neg]

/-- The section of `hemem_mmap_populate` as a list of additions. -/
theorem countPopulate_eq_addAll (b : Bool) (s : St) :
    countPopulate b s = addAll (populateAdds b) s := by
  cases b <;> simp only [countPopulate, populateAdds, addAll, subNum_eq_addNum] <;> rfl

/-- That of `hemem_munmap`. -/
theorem countMunmap_eq_addAll (b : Bool) (s : St) : countMunmap b s = addAll (munmapAdds b) s := by
  cases b <;> simp only [countMunmap, munmapAdds, addAll, subNum_eq_addNum] <;> rfl

/-- That of the migration thread. -/
theorem countBatch_eq_addAll (d : Dir) (num : UInt64) (s : St) :
    countBatch d num s = addAll (batchAdds d num) s := by
  cases d <;> simp only [countBatch, batchAdds, addAll, subNum_eq_addNum] <;> rfl

variable {cfg : Config} {numBatchs : Nat} {x y : Sys Tid} {lbl : Label Tid}

/-- A coarse step of a section adds all that the section adds. -/
theorem step_counting {t : Option Tid} {m : Mutex} {adds : List (ListId × UInt64)}
    (hc : x.counting lbl = some (t, m, adds)) :
    ∃ y, step cfg numBatchs lbl x = .ok y ∧ y.st = addAll adds x.st := by
  cases lbl with
  | start => cases hc
  | run u =>
    simp only [Sys.counting, Label.party, Sys.mutex, Sys.adds, Option.bind_some,
      Option.map_eq_some_iff, Prod.mk.injEq] at hc
    rcases hc with ⟨m, hm, -, -, rfl⟩
    unfold Pc.mutex at hm
    split at hm
    -- `hemem_mmap_populate`, `hemem_munmap` and the requests
    case h_1 hpc =>
      refine ⟨_, by simp only [step, hpc, threadStep, AllocInstr.run]; rfl, ?_⟩
      simp only [hpc, Pc.adds, countPopulate_eq_addAll]
    case h_2 hpc =>
      refine ⟨_, by simp only [step, hpc, threadStep]; rfl, ?_⟩
      simp only [hpc, Pc.adds, countMunmap_eq_addAll]
    case h_3 hpc =>
      refine ⟨_, by simp only [step, hpc, threadStep]; rfl, ?_⟩
      simp only [hpc, Pc.adds, subNum_eq_addNum]
      rfl
    case h_4 => cases hm
  | migrate =>
    simp only [Sys.counting, Label.party, Sys.mutex, Sys.adds, Option.bind_some,
      Option.map_eq_some_iff, Prod.mk.injEq] at hc
    rcases hc with ⟨m, hm, -, -, rfl⟩
    unfold Mpc.mutex at hm
    split at hm
    case h_1 hpc =>
      refine ⟨_, by simp only [step, hpc, migStep]; rfl, ?_⟩
      simp only [hpc, Mpc.adds, countBatch_eq_addAll]
    case h_2 => cases hm

/-- Only one statement of an allocation counts. -/
theorem AllocInstr.run_num {i : AllocInstr} {p : PageId} {r r' : AllocRegs} {s s' : St}
    (hi : i ≠ .count) (h : i.run cfg p r s = .ok (r', s')) : s'.num = s.num := by
  cases i <;>
    simp only [AllocInstr.run, clearSlot, uffdioRegister, Hemem.addPage, bind_eq_ok, check_eq_ok,
      Except.ok.injEq, Prod.mk.injEq] at h
  case count => exact absurd rfl hi
  case clear | register | addPage =>
    rcases h with ⟨_, ⟨_, -, rfl⟩, -, rfl⟩
    rfl
  case assertVa | assertAligned =>
    rcases h with ⟨_, -, -, rfl⟩
    rfl
  all_goals
    rcases h with ⟨-, rfl⟩
    rfl

/-- Outside the lock sections a thread leaves the counters alone. -/
theorem ThreadStep.num {pc pc' : Pc} {s s' : St} {ev : List Event}
    (h : ThreadStep cfg pc s pc' s' ev) (hm : pc.mutex = none) : s'.num = s.num := by
  cases h
  case place i _ _ _ hrun =>
    refine AllocInstr.run_num ?_ hrun
    rintro rfl
    cases hm
  case unmap | unmapFailed => exact libcMunmap_num ..
  case countPut | countRemoved => cases hm
  all_goals rfl

/-- So does the migration thread. -/
theorem MigStep.num {m m' : Mpc} {s s' : St} {ev : List Event}
    (h : MigStep cfg numBatchs m s m' s' ev) (hm : m.mutex = none) : s'.num = s.num := by
  cases h
  case instr hrun => cases MigInstr.run_ok hrun <;> rfl
  case count => cases hm
  all_goals rfl

/-- No other step changes a counter. -/
theorem step_num (hc : x.counting lbl = none) (h : step cfg numBatchs lbl x = .ok y) :
    y.st.num = x.st.num := by
  cases lbl with
  | start t c =>
    rcases step_start h with rfl | ⟨-, rfl⟩ <;> rfl
  | run t =>
    rcases step_run h with ⟨pc, ev, hstep, -, -, -⟩
    have hm : (x.thr t).mutex = none := by
      simpa [Sys.counting, Label.party, Sys.mutex] using hc
    exact (threadStep_ok hstep).num hm
  | migrate =>
    rcases step_migrate h with ⟨ev, hstep, -, -⟩
    have hm : x.mig.mutex = none := by
      simpa [Sys.counting, Label.party, Sys.mutex] using hc
    exact (migStep_ok hstep).num hm

/-! ## Runs -/

/-- A step of a thread does not bring another one to a section or away from it. -/
theorem step_mutex (h : step cfg numBatchs lbl x = .ok y) {t : Option Tid} (ht : t ∉ lbl.party) :
    y.mutex t = x.mutex t := by
  cases lbl with
  | start u c =>
    rcases step_start h with rfl | ⟨hidle, rfl⟩
    · rfl
    · cases t with
      | none => rfl
      | some v =>
        -- neither an idle thread nor a call that begins is at a section
        rcases eq_or_ne v u with rfl | hne
        · simp only [Sys.mutex, Function.update_self, hidle]
          cases c <;> rfl
        · simp only [Sys.mutex, Function.update_of_ne hne]
  | run u =>
    rcases step_run h with ⟨pc, ev, -, hthr, hmig, -⟩
    cases t with
    | none => exact congrArg Mpc.mutex hmig
    | some v =>
      have hne : v ≠ u := by
        rintro rfl
        exact ht rfl
      simp only [Sys.mutex, hthr, Function.update_of_ne hne]
  | migrate =>
    rcases step_migrate h with ⟨ev, -, hthr, -⟩
    cases t with
    | none => exact absurd rfl ht
    | some v => simp only [Sys.mutex, hthr]

variable [Fintype Tid]

/-- No update that began after the counters `start` has been lost, and a thread inside a
section is where the section stands. -/
structure FineKept (start : ListId → UInt64) (x : Fine Tid) : Prop where
  kept : Kept start x.sys.st.num x.sections
  site : ∀ t, x.sections.pc t ≠ .outside → x.sys.mutex t ≠ none

omit [DecidableEq Tid] in
/-- With no section open every counter has what has been added. -/
theorem fineKept_quiet (s : St) : FineKept s.num (Fine.quiet s : Fine Tid) where
  kept := kept_quiet s.num
  site _ ht := absurd rfl ht

/-- A statement keeps this as long as no two sections with different locks are open on one
counter. -/
theorem FineKept.step {start : ListId → UInt64} {x x' : Fine Tid} (hx : FineKept start x)
    (hapart : x.Apart lbl) (h : fineStep cfg numBatchs lbl x = .ok x') : FineKept start x' := by
  unfold fineStep at h
  split at h
  case h_1 t m adds hc =>
    rcases Option.bind_eq_some_iff.mp hc with ⟨u, hu, hm⟩
    simp only [Option.map_eq_some_iff, Prod.mk.injEq] at hm
    rcases hm with ⟨m', hm', rfl, rfl, rfl⟩
    have hkept := hx.kept.step (hapart u hu) m' (x.sys.adds u)
    split at h
    -- the section goes on
    case h_1 num sections hstep =>
      cases h
      rw [hstep] at hkept
      refine ⟨hkept, fun t ht => ?_⟩
      show x.sys.mutex t ≠ none
      rcases eq_or_ne t u with rfl | hne
      · simp [hm']
      · apply hx.site
        rwa [← sectionStep_pc_of_ne hstep hne]
    -- it ends, and the thread takes the coarse step, which leaves the others where they are
    case h_2 num sections hstep =>
      simp only [bind_eq_ok, Except.ok.injEq] at h
      rcases h with ⟨y, hy, rfl⟩
      rw [hstep] at hkept
      refine ⟨hkept, fun t ht => ?_⟩
      show y.mutex t ≠ none
      rcases eq_or_ne t u with rfl | hne
      · exact absurd (sectionStep_pc_self hstep) ht
      · have hparty : t ∉ lbl.party := by
          intro htu
          exact hne (Option.some.inj (htu.symm.trans hu))
        rw [step_mutex hy hparty]
        apply hx.site
        rwa [← sectionStep_pc_of_ne hstep hne]
  case h_2 hc =>
    split at h
    · cases h
      exact hx
    · simp only [bind_eq_ok, Except.ok.injEq] at h
      rcases h with ⟨y, hy, rfl⟩
      refine ⟨?_, fun t ht => ?_⟩
      · rw [step_num hc hy]
        exact hx.kept
      · have hsite := hx.site t ht
        have hparty : t ∉ lbl.party := by
          intro htu
          rw [Sys.counting, htu] at hc
          exact hsite (by simpa using hc)
        rwa [step_mutex hy hparty]

omit [DecidableEq Tid] in
/-- At the end every counter has its start and all that was added. -/
theorem FineKept.num_eq {start : ListId → UInt64} {x : Fine Tid} (hx : FineKept start x)
    (hdone : x.finished) (l : ListId) : x.sys.st.num l = start l + addedTo l x.sections.added := by
  refine hx.kept.value_eq (fun t => ?_) l
  by_contra hin
  apply hx.site t hin
  rcases hdone with ⟨hidle, d, hmig⟩
  cases t with
  | none => simp [Sys.mutex, hmig, Mpc.mutex]
  | some t => simp [Sys.mutex, hidle t, Pc.mutex]

/-- As long as no counter is loaded while a thread with the other mutex is about to store it,
no update is lost: whenever all operations have finished, each counter is the initial one with
all increments and decrements. -/
theorem counters_kept (cfg : Config) (numBatchs : Nat) (s : St) (labels : List (Label Tid))
    (hapart : Along (fineStep cfg numBatchs) Fine.Apart labels (Fine.quiet s)) :
    Throughout (fineStep cfg numBatchs)
      (fun x => x.finished → ∀ l, x.sys.st.num l = s.num l + addedTo l x.sections.added)
      labels (Fine.quiet s) := by
  refine Throughout.imp (fun x (hx : FineKept s.num x) => hx.num_eq) ?_
  exact throughout_of_along (fun x lbl x' hx hlbl hs => hx.step hlbl hs) (fineKept_quiet s) hapart

/-- Thread `false` populates a page and is about to store `dram_mmap_list_num`; thread `true`
takes the page off its list and counts that; both go on to the end. -/
def lostUpdate : List (Label Bool) :=
  .start false (.mmap 0x40000000 pageSize true) :: List.replicate 16 (.run false) ++
    .start true (.request .dramToNvm 1 false fun _ => 0) :: List.replicate 13 (.run true) ++
      List.replicate 14 (.run false)

/-- At the end of `lostUpdate` the decrement of the request is missing. -/
theorem counters_kept_fails :
    ∃ x, runs (fineStep smallConfig 1) lostUpdate (Fine.quiet (pebsInit smallConfig)) = .ok x ∧
      x.finished ∧
      x.sys.st.num dramMmapList ≠
        (pebsInit smallConfig).num dramMmapList + addedTo dramMmapList x.sections.added := by
  refine ⟨_, rfl, ⟨fun t => ?_, .dramToDram, rfl⟩, by decide⟩
  cases t <;> rfl

/-- The same with the request one step later: `false` has stored the counter and goes on to
`dram_free_list_num`, still with `pages_lock`. -/
def keptUpdate : List (Label Bool) :=
  .start false (.mmap 0x40000000 pageSize true) :: List.replicate 17 (.run false) ++
    .start true (.request .dramToNvm 1 false fun _ => 0) :: List.replicate 13 (.run true) ++
      List.replicate 13 (.run false)

/-- The sections overlap, but on different counters. -/
theorem counters_kept_interleaved :
    (∃ x, runs (fineStep smallConfig 1) keptUpdate (Fine.quiet (pebsInit smallConfig)) = .ok x ∧
      x.finished) ∧
    Throughout (fineStep smallConfig 1)
      (fun x => x.finished → ∀ l,
        x.sys.st.num l = (pebsInit smallConfig).num l + addedTo l x.sections.added)
      keptUpdate (Fine.quiet (pebsInit smallConfig)) := by
  refine ⟨⟨_, rfl, fun t => ?_, .dramToDram, rfl⟩, ?_⟩
  · cases t <;> rfl
  · exact counters_kept smallConfig 1 (pebsInit smallConfig) keptUpdate (by decide +kernel)

end Hemem
