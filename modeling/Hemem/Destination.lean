import Hemem.Faults

/-!
# Hemem.Destination — migration and its free descriptors

An iteration of `migration_request` takes one free descriptor of the destination
tier for every page it dequeues and dereferences it at once. This module says
exactly in which reachable states an iteration completes, and in which it
dereferences `NULL`.
-/

namespace Hemem

open Lib

variable {cfg : Config} {s s' : St}

/-- The page has the slot of a descriptor that was free, and is on the mmap list of
the destination. -/
def MovedToFree (d : Dir) (s s' : St) (p : PageId) : Prop :=
  ∃ q ∈ s.list (.free d.dst), (s'.page p).slot = (d.dst, (s.page q).devdaxOffset) ∧
    p ∈ s'.list (.mmap d.dst)

/-- The page still waits on its queue, with its slot and its mapping. -/
def LeftQueued (d : Dir) (s s' : St) (p : PageId) : Prop :=
  p ∈ s'.list (.queue d) ∧ s'.page p = s.page p ∧
    ∀ a, inRange (s.page p).va pageSize a = true → s'.vm a = s.vm a

/-- An iteration completes, every page of its batch has moved or been left where
it was, and no `NULL` is dereferenced. -/
structure IterationSafe (cfg : Config) (numBatchs : Nat) (d : Dir) (s : St) : Prop where
  noNull : migrateBatch cfg numBatchs d s ≠ .error .nullDeref
  completes : ∃ s', migrateBatch cfg numBatchs d s = .ok s' ∧ Wf cfg s' ∧
    ∀ p ∈ (s.list (.queue d)).take (batchSize numBatchs d s),
      MovedToFree d s s' p ∨ LeftQueued d s s' p

/-- The free list of the destination has a descriptor for every page of the batch,
their slots lie in the destination, and the pages are still registered. -/
structure HasDestinations (cfg : Config) (numBatchs : Nat) (d : Dir) (s : St) : Prop where
  enough : batchSize numBatchs d s ≤ (s.list (.free d.dst)).length
  fits : ∀ q ∈ (s.list (.free d.dst)).take (batchSize numBatchs d s),
    (s.page q).devdaxOffset + pageSize ≤ cfg.size d.dst
  registered : ∀ p ∈ (s.list (.queue d)).take (batchSize numBatchs d s),
    s.registered (s.page p).va = true

theorem Wf.completable_iff (h : Wf cfg s) {numBatchs : Nat} {d : Dir} :
    Completable cfg d (batchSize numBatchs d s) s ↔ HasDestinations cfg numBatchs d s := by
  have hq := h.batchSize_le_length numBatchs d
  have hpt : ∀ p, ptToPagesize (s.page p).pt = pageSize := by
    intro p
    rw [h.pt]
    rfl
  constructor
  · intro hc
    refine ⟨hc.enough, fun q hqf => ?_, fun p hp => ?_⟩
    · rw [← batchPairs_snd hq hc.enough] at hqf
      rcases List.mem_map.mp hqf with ⟨b, hb, rfl⟩
      have hfit := (hc.migratable b hb).copyable.fitsNew
      rw [hpt] at hfit
      exact hfit
    · rw [← batchPairs_fst hq hc.enough] at hp
      rcases List.mem_map.mp hp with ⟨b, hb, rfl⟩
      exact (hc.migratable b hb).protectable.registered
  · intro hd
    refine ⟨hd.enough, fun b hb => ?_⟩
    have hmem := mem_queue_of_pair hb
    refine ⟨⟨h.va_ne hmem rfl, h.aligned hmem rfl, ?_⟩, ⟨h.inDram hmem, ?_, ?_⟩⟩
    · exact hd.registered b.1 (List.of_mem_zip hb).1
    · exact (hpt b.1).symm ▸ h.fits hmem rfl
    · exact (hpt b.1).symm ▸ hd.fits b.2 (List.of_mem_zip hb).2

/-- A batch that completes has moved all its pages. -/
theorem Wf.movedToFree_batched (h : Wf cfg s) {d : Dir} {n : Nat} (hr : Ready d n s) {p : PageId}
    (hp : p ∈ (s.list (.queue d)).take n) : MovedToFree d s (s.batched d n) p := by
  have hlist : p ∈ (s.batched d n).list (.mmap d.dst) := by
    rw [batched_list hr]
    simp [moveFree, moveLive, hp]
  rw [← batchPairs_fst hr.queue hr.free] at hp
  rcases List.mem_map.mp hp with ⟨b, hb, rfl⟩
  refine ⟨b.2, mem_free_of_pair hb, ?_, hlist⟩
  rw [h.batched_live hr hb]
  simp [HememPage.slot, HememPage.tier]

/-- An iteration is safe exactly when every page of the batch has its destination. -/
theorem Wf.iterationSafe_iff (h : Wf cfg s) {numBatchs : Nat} {d : Dir} :
    IterationSafe cfg numBatchs d s ↔ HasDestinations cfg numBatchs d s := by
  rw [← h.completable_iff]
  constructor
  · rintro ⟨-, s', hs', -⟩
    exact (h.migrateBatch_ok.mp hs').1
  · intro hc
    have hok := h.migrateBatch_ok.mpr ⟨hc, rfl⟩
    refine ⟨fun hnull => ?_, _, hok, h.batched (h.ready hc) hc, fun p hp => ?_⟩
    · rw [hok] at hnull
      cases hnull
    · exact Or.inl (h.movedToFree_batched (h.ready hc) hp)

/-- `NULL` is dereferenced exactly when the free list is shorter than the batch. -/
theorem Wf.nullDeref_iff (h : Wf cfg s) {numBatchs : Nat} {d : Dir} :
    migrateBatch cfg numBatchs d s = .error .nullDeref ↔
      (s.list (.free d.dst)).length < batchSize numBatchs d s := by
  constructor
  · intro hnull
    by_contra hf
    have hfault := h.migrateBatch_stopsIn (Nat.le_of_not_lt hf) _ hnull
    simp [MigrateFault] at hfault
  · intro hf
    simp [migrateBatch, dequeueBatch_short hf, bind, Except.bind]

/-- In every reachable state, an iteration of any loop that its counter admits is
safe precisely when it has its destinations; and it dereferences `NULL` precisely
when the free list is too short. -/
theorem iterationSafe_throughout (cfg : Config) (ops : List Op) :
    Throughout (exec cfg)
      (fun s => ∀ numBatchs d, 1 ≤ numBatchs → s.num (.queue d) ≠ 0 →
        (IterationSafe cfg numBatchs d s ↔ HasDestinations cfg numBatchs d s) ∧
        (migrateBatch cfg numBatchs d s = .error .nullDeref ↔
          (s.list (.free d.dst)).length < batchSize numBatchs d s))
      ops (pebsInit cfg) := by
  have hwf : Throughout (exec cfg) (Wf cfg) ops (pebsInit cfg) :=
    throughout_of_step (fun _ _ _ h => wf_exec h) ops (wf_pebsInit cfg)
  exact hwf.imp fun s h _ _ _ _ => ⟨h.iterationSafe_iff, h.nullDeref_iff⟩

/-- Two pages of a mapped gigabyte fill DRAM, and one is to move within it. -/
def fullRun : List Op :=
  [.mmap 0x40000000 0x40000000 false, .missingFault 0x40000000, .missingFault 0x40200000,
    .request .dramToDram 1 false fun _ => 0]

/-- After `fullRun` the next iteration dereferences `NULL`. -/
theorem iterationSafe_fails_full :
    ¬ Throughout (exec smallConfig)
      (fun s => ∀ numBatchs d, 1 ≤ numBatchs → s.num (.queue d) ≠ 0 →
        IterationSafe smallConfig numBatchs d s) fullRun (pebsInit smallConfig) := by
  refine not_throughout_of_map
    (f := fun s => (decide (s.num dramToDramList ≠ 0),
      match migrateBatch smallConfig 1 .dramToDram s with
      | .error .nullDeref => true
      | _ => false))
    (b := (true, true)) rfl fun s' hs' hsafe => ?_
  rcases Prod.mk.inj hs' with ⟨hnum, hnull⟩
  apply (hsafe 1 .dramToDram (Nat.le_refl 1) (of_decide_eq_true hnum)).noNull
  split at hnull
  · assumption
  · cases hnull

end Hemem
