import Hemem.Invariant

/-!
# Hemem.Faults — the errors that each function can stop with

Which assertion, dereference or system call can end the process in which
function. `Out of memory` is the allocator's, and a migration whose arrays hold
no `NULL` dereferences none.
-/

namespace Hemem

open Lib

/-- An assertion stops with its own fault. -/
theorem check_stopsIn {E : Fault → Prop} {b : Bool} {f : Fault} (h : E f) :
    StopsIn E (check b f) := by
  cases b
  · exact StopsIn.error h
  · exact StopsIn.ok

/-- `enqueue_fifo` stops at `NULL` only. -/
theorem enqueueFifo_stopsIn {E : Fault → Prop} (h : E .nullDeref) (l : ListId)
    (e : Option PageId) (s : St) : StopsIn E (enqueueFifo l e s) := by
  cases e with
  | none => exact StopsIn.error h
  | some p => exact StopsIn.ok

/-! ## Migration -/

/-- What stops `pebs_migrate_*` on arrays without `NULL`. -/
def MigrateFault (e : Fault) : Prop :=
  e = .vaAssert ∨ e = .ioctlFailed ∨ e = .inDramAssert ∨ e = .offsetAssert

/-- `hemem_wp_page` stops at an assertion or a refused system call. -/
theorem hememWpPage_stopsIn (ps : List PageId) (s : St) :
    StopsIn MigrateFault (hememWpPage ps s) := by
  induction ps generalizing s with
  | nil => exact StopsIn.ok
  | cons p ps ih =>
    refine StopsIn.bind ?_ fun s' _ => ih s'
    refine StopsIn.bind (check_stopsIn (by simp [MigrateFault])) fun _ _ => ?_
    refine StopsIn.bind (check_stopsIn (by simp [MigrateFault])) fun _ _ => ?_
    exact StopsIn.bind (check_stopsIn (by simp [MigrateFault])) fun _ _ => StopsIn.ok

/-- The assertions of the first loop. -/
theorem checkMove_stopsIn (cfg : Config) (src dst : Tier) (m : Move) (s : St) :
    StopsIn MigrateFault (checkMove cfg src dst m s) := by
  refine StopsIn.bind (check_stopsIn (by simp [MigrateFault])) fun _ _ => ?_
  refine StopsIn.bind (check_stopsIn (by simp [MigrateFault])) fun _ _ => ?_
  refine StopsIn.bind (check_stopsIn (by simp [MigrateFault])) fun _ _ => ?_
  refine StopsIn.bind (check_stopsIn (by simp [MigrateFault])) fun _ _ => ?_
  exact check_stopsIn (by simp [MigrateFault])

/-- The first loop stops at its assertions only: a copy does not fail. -/
theorem copyLoop_stopsIn (cfg : Config) (src dst : Tier) (ms : List Move) (n : Nat) (s : St) :
    StopsIn MigrateFault (copyLoop cfg src dst ms n s) := by
  induction ms generalizing n s with
  | nil => exact StopsIn.ok
  | cons m ms ih =>
    refine StopsIn.bind ?_ fun s' _ => ih _ s'
    exact StopsIn.bind (checkMove_stopsIn cfg src dst m s) fun _ _ => StopsIn.ok

/-- The second loop stops at an assertion or a refused system call. -/
theorem remapLoop_stopsIn (dst : Tier) (stale : Option Nat) (f : HememPage → HememPage)
    (ms : List Move) (s : St) : StopsIn MigrateFault (remapLoop dst stale f ms s) := by
  induction ms generalizing s with
  | nil => exact StopsIn.ok
  | cons m ms ih =>
    refine StopsIn.bind ?_ fun s' _ => ih s'
    refine StopsIn.bind (check_stopsIn (by simp [MigrateFault])) fun _ _ => ?_
    refine StopsIn.bind ?_ fun _ _ => StopsIn.ok
    exact StopsIn.bind (check_stopsIn (by simp [MigrateFault])) fun _ _ => StopsIn.ok

/-- A migration of pages that are not `NULL` stops nowhere else. -/
theorem pebsMigrate_stopsIn (cfg : Config) (d : Dir) (ps : List PageId) (offsets : List Nat)
    (s : St) : StopsIn MigrateFault (pebsMigrate cfg d (ps.map some) offsets s) := by
  simp only [pebsMigrate_eq, pebsMigrateWith, hememMigrate_def, mapM_deref]
  refine StopsIn.bind StopsIn.ok fun ps' _ => ?_
  refine StopsIn.bind (hememWpPage_stopsIn _ _) fun s' _ => ?_
  refine StopsIn.bind ?_ fun _ _ => StopsIn.ok
  exact StopsIn.bind (copyLoop_stopsIn cfg _ _ _ _ _) fun r _ => remapLoop_stopsIn _ _ _ _ _

/-- A batch with enough entries on its two lists dereferences no `NULL`: it can
only stop in `pebs_migrate_*`. -/
theorem Wf.migrateBatch_stopsIn {cfg : Config} {s : St} (h : Wf cfg s) {numBatchs : Nat}
    {d : Dir} (hf : batchSize numBatchs d s ≤ (s.list (.free d.dst)).length) :
    StopsIn MigrateFault (migrateBatch cfg numBatchs d s) := by
  have hq := h.batchSize_le_length numBatchs d
  have hpage : ∀ n, ((batchPairs d n s).map (entryOf s)).map Entry.page =
      ((batchPairs d n s).map Prod.fst).map some := by
    intro n
    simp [entryOf]
  refine StopsIn.bind ?_ fun r hr => ?_
  · rw [dequeueBatch_eq hq hf]
    exact StopsIn.ok
  rw [dequeueBatch_eq hq hf, Except.ok.injEq] at hr
  subst hr
  refine StopsIn.bind ?_ fun s' hs' => ?_
  · simp only [hpage]
    exact pebsMigrate_stopsIn cfg d _ _ _
  -- every entry holds a page, so it can be enqueued
  refine StopsIn.bind ?_ fun _ _ => StopsIn.ok
  clear hs'
  generalize batchPairs d (batchSize numBatchs d s) s = bs
  induction bs generalizing s' with
  | nil => exact StopsIn.ok
  | cons b bs ih =>
    simp only [List.map_cons, enqueueBatch, entryOf, enqueueFifo_some]
    exact StopsIn.bind StopsIn.ok fun s₁ _ => StopsIn.bind StopsIn.ok fun s₂ _ => ih s₂

/-! ## Requests, `hemem_munmap`, stores -/

/-- What stops a request. -/
def RequestFault (e : Fault) : Prop :=
  e = .nullDeref ∨ e = .divByZero ∨ e = .inDramAssert ∨ e = .presentAssert

/-- A rotation stops when there is nothing to rotate. -/
theorem rotate_stopsIn (l : ListId) (n : Nat) (s : St) : StopsIn RequestFault (rotate l n s) := by
  induction n generalizing s with
  | zero => exact StopsIn.ok
  | succ n ih =>
    exact StopsIn.bind (enqueueFifo_stopsIn (by simp [RequestFault]) _ _ _) fun s' _ => ih s'

/-- Putting a page on a queue stops at its assertions. -/
theorem putPage_stopsIn (d : Dir) (s : St) : StopsIn RequestFault (putPage d s) := by
  unfold putPage
  split
  · exact StopsIn.ok
  · refine StopsIn.bind (check_stopsIn (by simp [RequestFault])) fun _ _ => ?_
    refine StopsIn.bind (check_stopsIn (by simp [RequestFault])) fun _ _ => ?_
    exact StopsIn.bind (enqueueFifo_stopsIn (by simp [RequestFault]) _ _ _) fun _ _ => StopsIn.ok

/-- So does the drawing before it, and at `rand() % 0`. -/
theorem beforeTake_stopsIn (d : Dir) (random : Bool) (r : Nat) (s : St) :
    StopsIn RequestFault (beforeTake d random r s) := by
  unfold beforeTake
  split
  · exact StopsIn.bind (check_stopsIn (by simp [RequestFault])) fun _ _ => rotate_stopsIn _ _ _
  · exact StopsIn.ok

/-- A request stops at one of its iterations. -/
theorem requestLoop_stopsIn (d : Dir) (random : Bool) (rand : Nat → Nat) (n i k : Nat) (s : St) :
    StopsIn RequestFault (requestLoop d random rand n i k s) := by
  induction n generalizing i k s with
  | zero => exact StopsIn.ok
  | succ n ih =>
    refine StopsIn.bind (beforeTake_stopsIn d random (rand i) s) fun s₁ _ => ?_
    exact StopsIn.bind (putPage_stopsIn d s₁) fun r _ => ih (i + 1) (k + r.1) r.2

/-- The scan has no assertion: it returns or goes on for ever. -/
theorem munmapScan_stopsIn (fuel va stop : Nat) (s : St) :
    StopsIn (· = .running) (munmapScan fuel va stop s) := by
  induction fuel generalizing va s with
  | zero => exact StopsIn.error rfl
  | succ fuel ih =>
    unfold munmapScan
    split
    · split
      · exact ih _ _
      · exact ih _ _
    · exact StopsIn.ok

/-- A store stops at an address that it may not write. -/
theorem appWrite_stopsIn (a : Nat) (v : Byte) (s : St) :
    StopsIn (· = .noAccess) (appWrite a v s) := by
  unfold appWrite
  split
  · exact StopsIn.bind (check_stopsIn rfl) fun _ _ => StopsIn.ok
  · exact StopsIn.error rfl

/-! ## Allocation -/

/-- What `pebs_allocate_page` stops with. -/
def AllocFault (f : Fault) : Prop :=
  f = .outOfMemory ∨ f = .nullDeref ∨ f = .inDramAssert ∨ f = .presentAssert

/-- What the statements after `pagefault()` stop with. -/
def PlaceFault (f : Fault) : Prop :=
  f = .badAccess ∨ f = .ioctlFailed ∨ f = .vaAssert ∨ f = .tableAssert

/-- An allocation stops at its assertions, or without memory. -/
theorem pebsPagefault_stopsIn (s : St) : StopsIn AllocFault (pebsPagefault s) := by
  have htake : ∀ t p s, StopsIn AllocFault (takeFree t p s) := by
    intro t p s
    refine StopsIn.bind (check_stopsIn (by simp [AllocFault])) fun _ _ => ?_
    refine StopsIn.bind (check_stopsIn (by simp [AllocFault])) fun _ _ => ?_
    exact StopsIn.bind (enqueueFifo_stopsIn (by simp [AllocFault]) _ _ _) fun _ _ => StopsIn.ok
  unfold pebsPagefault pebsAllocatePage
  split
  · exact htake _ _ _
  · split
    · exact htake _ _ _
    · exact StopsIn.error (by simp [AllocFault])

variable {E : Fault → Prop}

/-- A placement adds the faults of the statements after `pagefault()` to those of the
allocation. -/
theorem populatePage_stopsIn (hE : ∀ f, PlaceFault f → E f) (cfg : Config) (va : Nat) {s : St}
    (halloc : StopsIn E (pebsPagefault s)) : StopsIn E (populatePage cfg va s) := by
  have hcheck : ∀ {b f}, PlaceFault f → StopsIn E (check b f) := fun hf => check_stopsIn (hE _ hf)
  refine StopsIn.bind halloc fun _ _ => ?_
  refine StopsIn.bind (StopsIn.bind (hcheck (by simp [PlaceFault])) fun _ _ => StopsIn.ok)
    fun _ _ => ?_
  refine StopsIn.bind (StopsIn.bind (hcheck (by simp [PlaceFault])) fun _ _ => StopsIn.ok)
    fun _ _ => ?_
  refine StopsIn.bind (hcheck (by simp [PlaceFault])) fun _ _ => ?_
  refine StopsIn.bind (hcheck (by simp [PlaceFault])) fun _ _ => ?_
  exact StopsIn.bind (StopsIn.bind (hcheck (by simp [PlaceFault])) fun _ _ => StopsIn.ok)
    fun _ _ => StopsIn.ok

/-- So does the handling of a missing fault, the other copy of the procedure. -/
theorem handleMissingFault_stopsIn (hE : ∀ f, PlaceFault f → E f) (cfg : Config) (va : Nat)
    {s : St} (halloc : StopsIn E (pebsPagefault s)) : StopsIn E (handleMissingFault cfg va s) := by
  have hcheck : ∀ {b f}, PlaceFault f → StopsIn E (check b f) := fun hf => check_stopsIn (hE _ hf)
  refine StopsIn.bind (hcheck (by simp [PlaceFault])) fun _ _ => ?_
  refine StopsIn.bind halloc fun _ _ => ?_
  refine StopsIn.bind (StopsIn.bind (hcheck (by simp [PlaceFault])) fun _ _ => StopsIn.ok)
    fun _ _ => ?_
  refine StopsIn.bind (StopsIn.bind (hcheck (by simp [PlaceFault])) fun _ _ => StopsIn.ok)
    fun _ _ => ?_
  refine StopsIn.bind (hcheck (by simp [PlaceFault])) fun _ _ => ?_
  refine StopsIn.bind (hcheck (by simp [PlaceFault])) fun _ _ => ?_
  exact StopsIn.bind (hcheck (by simp [PlaceFault])) fun _ _ => StopsIn.ok

/-- An allocation that is out of memory has found both free lists empty; one that is not stops
with something else. -/
theorem pebsPagefault_outOfMemory {s : St} :
    s.list dramFreeList = [] ∧ s.list nvmFreeList = [] ∨
      StopsIn (· ≠ .outOfMemory) (pebsPagefault s) := by
  by_cases h : pebsAllocatePage s = .error .outOfMemory
  · exact Or.inl (pebsAllocatePage_outOfMemory h)
  · refine Or.inr fun e he => ?_
    rintro rfl
    exact h he

/-- The statements after the allocation neither run out of memory nor out of steps. -/
theorem placeFault_ne {f : Fault} (h : PlaceFault f) : f ≠ .outOfMemory ∧ f ≠ .running := by
  rcases h with rfl | rfl | rfl | rfl <;> simp

/-- The part of a page's placement after `pagefault()` does not run out of memory. -/
theorem populatePage_outOfMemory {cfg : Config} {va : Nat} {s : St}
    (h : populatePage cfg va s = .error .outOfMemory) :
    s.list dramFreeList = [] ∧ s.list nvmFreeList = [] := by
  refine pebsPagefault_outOfMemory.resolve_right fun hstop => ?_
  exact populatePage_stopsIn (fun f hf => (placeFault_ne hf).1) cfg va hstop _ h rfl

/-- Nor does that of `handle_missing_fault`. -/
theorem handleMissingFault_outOfMemory {cfg : Config} {va : Nat} {s : St}
    (h : handleMissingFault cfg va s = .error .outOfMemory) :
    s.list dramFreeList = [] ∧ s.list nvmFreeList = [] := by
  refine pebsPagefault_outOfMemory.resolve_right fun hstop => ?_
  exact handleMissingFault_stopsIn (fun f hf => (placeFault_ne hf).1) cfg va hstop _ h rfl

/-- Of `hemem_mmap` only the loop of `hemem_mmap_populate` runs out of memory. -/
theorem hememMmap_outOfMemory {cfg : Config} {p length : Nat} {populate : Bool} {s : St}
    (h : hememMmap cfg p length populate s = .error .outOfMemory) :
    populate = true ∧ populateLoop cfg (cfg.total + 1) p ((p + pageRoundUp length) % 2 ^ 64)
      (registerRange p (pageRoundUp length) (mmapReserve p (pageRoundUp length) s)) =
        .error .outOfMemory := by
  -- no assertion is the fault
  have hcheck : ∀ {b : Bool} {f : Fault}, f ≠ .outOfMemory →
      check b f ≠ .error .outOfMemory := by
    intro b f hf hb
    exact hf ((check_stopsIn (E := (· = f)) rfl _ hb).symm)
  unfold hememMmap at h
  rcases bind_eq_error.mp h with h | ⟨_, -, h⟩
  · exact absurd h (hcheck (by simp))
  rcases bind_eq_error.mp h with h | ⟨_, -, h⟩
  · exact absurd h (hcheck (by simp))
  rcases bind_eq_error.mp h with h | ⟨s₀, hs₀, h⟩
  · rcases bind_eq_error.mp h with h | ⟨_, -, h⟩
    · exact absurd h (hcheck (by simp))
    · cases h
  rcases bind_eq_ok.mp hs₀ with ⟨_, -, hs₀⟩
  obtain rfl := Except.ok.inj hs₀
  cases populate with
  | false => cases h
  | true =>
    refine ⟨rfl, ?_⟩
    rcases bind_eq_error.mp h with h | ⟨_, -, h⟩
    · exact absurd h (hcheck (by simp))
    rcases bind_eq_error.mp h with h | ⟨_, -, h⟩
    · exact absurd h (hcheck (by simp))
    exact h

end Hemem
