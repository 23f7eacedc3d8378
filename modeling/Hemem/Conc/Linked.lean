import Hemem.Links
import Hemem.Conc.Queues

/-!
# Hemem.Conc.Linked — the threads on the linked lists

The system of `Hemem.Conc.Interleave` with the heap of `Hemem.Fifo` beside it: a step that
takes a page off a list or puts one on a list makes the call of `fifo.c` on the heap, and an
assertion of `fifo.c` that fails ends the run. None does: a page that is put on a list is in
the hands of the thread that does so, hence on no list, and the heap refines the sequences.
-/

namespace Hemem

open Lib

/-! ## The calls of `fifo.c` -/

abbrev ListCall := FifoCall PageId ListId

/-- The call that the next step of a thread makes. -/
def Pc.fifoCall : Pc → Option ListCall
  | .takeDram _ _ => some (.dequeue dramFreeList)
  | .takeNvm _ _ => some (.dequeue nvmFreeList)
  | .publish _ _ t p => some (.enqueue (.mmap t) p)
  | .rotate q _ _ (_ + 1) | .take q _ _ => some (.dequeue (.mmap q.d.src))
  | .rotated q _ _ _ (some p) => some (.enqueue (.mmap q.d.src) p)
  | .put q _ _ p => some (.enqueue (.queue q.d) p)
  | _ => none

def MigInstr.fifoCall (d : Dir) (e : Entry) : MigInstr → Option ListCall
  | .enqueuePage => e.page.map (.enqueue (.mmap d.dst))
  | .enqueueFree => some (.enqueue (.free d.src) e.next)
  | _ => none

/-- The call that the next step of the migration thread makes. -/
def Mpc.fifoCall : Mpc → Option ListCall
  | .dequeuePage d (_ + 1) _ => some (.dequeue (.queue d))
  | .dequeueFree d _ _ _ => some (.dequeue (.free d.dst))
  | .loop d _ _ (e :: _) (i :: _) _ => i.fifoCall d e
  | _ => none

variable {Tid : Type}

def Sys.fifoCall (x : Sys Tid) : Label Tid → Option ListCall
  | .start _ _ => none
  | .run t => (x.thr t).fifoCall
  | .migrate => x.mig.fifoCall

/-- A call on the heap, if there is one. -/
def callOn (c : Option ListCall) (h : Heap PageId ListId) : Except ListFault (Heap PageId ListId) :=
  match c with
  | some c => do
    let (_, h) ← c.run h
    .ok h
  | none => .ok h

/-- A call on the sequences, if there is one. -/
def seqOn (c : Option ListCall) (list : ListId → List PageId) : ListId → List PageId :=
  match c with
  | some c => (c.seqRun list).2
  | none => list

/-- A step on the sequences and on the heap. -/
def linkedStep [DecidableEq Tid] (cfg : Config) (numBatchs : Nat) (lbl : Label Tid)
    (x : Sys Tid × Heap PageId ListId) :
    Except (Fault ⊕ ListFault) (Sys Tid × Heap PageId ListId) :=
  match step cfg numBatchs lbl x.1 with
  | .error f => .error (.inl f)
  | .ok x' =>
    match callOn (x.1.fifoCall lbl) x.2 with
    | .error f => .error (.inr f)
    | .ok h => .ok (x', h)

/-- The calls of `pebs_init`. -/
def initCalls (cfg : Config) : List ListCall :=
  (List.range (cfg.npages .dram)).map (fun i => .enqueue dramFreeList i) ++
    (List.range (cfg.npages .nvm)).map fun i => .enqueue nvmFreeList (cfg.npages .dram + i)

/-! ## The sequences follow the calls -/

variable {cfg : Config} {s s' : St}

/-- A dequeue takes the head. -/
theorem seqOn_dequeue_cons {l : ListId} {p : PageId} {rest : List PageId}
    (hl : s.list l = p :: rest) : (s.setList l rest).list = seqOn (some (.dequeue l)) s.list := by
  simp [seqOn, FifoCall.seqRun, hl]

/-- On an empty list it changes nothing. -/
theorem seqOn_dequeue_nil {l : ListId} (hl : s.list l = []) :
    s.list = seqOn (some (.dequeue l)) s.list := by
  have hsame : Function.update s.list l [] = s.list := by rw [← hl, Function.update_eq_self]
  simp [seqOn, FifoCall.seqRun, hl, hsame]

theorem seqOn_enqueue (l : ListId) (p : PageId) (s : St) :
    (s.setList l (s.list l ++ [p])).list = seqOn (some (.enqueue l p)) s.list := rfl

/-- The statements after the allocation leave the lists alone. -/
theorem AllocInstr.run_list {i : AllocInstr} {p : PageId} {r r' : AllocRegs}
    (h : i.run cfg p r s = .ok (r', s')) : s'.list = s.list := by
  -- with nothing in the hands there is nothing to put on a list
  cases AllocInstr.effect h with
  | frame list _ _ => exact list
  | take l p head rest flags book => exact absurd book.length_eq (by simp)
  | give l p tail rest flags book => exact absurd book.length_eq (by simp)
  | retag p v v' others list before after here other => exact list

/-- A step of a thread does to the lists what its call does to the sequences. -/
theorem ThreadStep.seqOn {pc pc' : Pc} {ev : List Event} (h : ThreadStep cfg pc s pc' s' ev) :
    s'.list = seqOn pc.fifoCall s.list := by
  cases h
  case takeDram hl | takeNvm hl | rotate hl | take hl => exact seqOn_dequeue_cons hl
  case dramFull hl | rotateEmpty hl | takeEmpty hl => exact seqOn_dequeue_nil hl
  case publish | rotated | put => exact seqOn_enqueue ..
  case place hrun => exact AllocInstr.run_list hrun
  case countRemoved => exact countMunmap_list ..
  case unmap | unmapFailed => exact libcMunmap_list ..
  all_goals rfl

/-- So does one of the migration thread. -/
theorem MigStep.seqOn {numBatchs : Nat} {m m' : Mpc} {ev : List Event}
    (h : MigStep cfg numBatchs m s m' s' ev) : s'.list = seqOn m.fifoCall s.list := by
  cases h
  case dequeuePage hl | dequeueFree hl => exact seqOn_dequeue_cons hl
  case dequeueNull hl | dequeueFreeNull hl => exact seqOn_dequeue_nil hl
  case instr hrun =>
    cases MigInstr.run_ok hrun
    case enqueuePage hp =>
      simp only [Mpc.fifoCall, MigInstr.fifoCall, hp, Option.map_some]
      exact seqOn_enqueue ..
    case enqueueFree => exact seqOn_enqueue ..
    all_goals rfl
  case count => exact countBatch_list ..
  all_goals rfl

/-! ## A page that is put on a list is in the hands of the thread -/

/-- What a thread enqueues is in its hands. -/
theorem Pc.enqueue_mem {pc : Pc} {l : ListId} {p : PageId}
    (h : pc.fifoCall = some (.enqueue l p)) : p ∈ pc.items.map Prod.fst := by
  unfold Pc.fifoCall at h
  split at h <;> simp only [Option.some.injEq, FifoCall.enqueue.injEq, reduceCtorEq] at h <;>
    simp [Pc.items, inUse, h.2]

/-- What the migration thread enqueues is in its book. -/
theorem Mpc.enqueue_mem {m : Mpc} (hm : m.Wf) {l : ListId} {p : PageId}
    (h : m.fifoCall = some (.enqueue l p)) : p ∈ m.items.map Prod.fst := by
  unfold Mpc.fifoCall at h
  split at h
  -- only the statements of the last loop put a page on a list
  case h_3 d ph done e todo i code r =>
    unfold MigInstr.fifoCall at h
    split at h
    · simp only [Option.map_eq_some_iff, FifoCall.enqueue.injEq] at h
      rcases h with ⟨q, hq, -, rfl⟩
      simp [Mpc.items, Entry.items, Entry.pageItems, hq, inUse]
    · simp only [Option.some.injEq, FifoCall.enqueue.injEq] at h
      simp [Mpc.items, Entry.items, Entry.freeItems, unused, h.2]
    · cases h
  all_goals simp only [Option.some.injEq, reduceCtorEq] at h

/-- So it is in somebody's hands. -/
theorem Sys.enqueue_held {x : Sys Tid} (hm : x.mig.Wf) {lbl : Label Tid} {l : ListId} {p : PageId}
    (h : x.fifoCall lbl = some (.enqueue l p)) :
    ∃ k, (∀ l, k ≠ .list l) ∧ p ∈ entries x.items k := by
  cases lbl with
  | start t c => cases h
  | run t => exact ⟨.thread t, by simp, Pc.enqueue_mem h⟩
  | migrate => exact ⟨.migrator, by simp, Mpc.enqueue_mem hm h⟩

/-- No thread calls `page_list_remove_page`. -/
theorem Sys.fifoCall_ne_remove (x : Sys Tid) (lbl : Label Tid) (l : ListId) (p : PageId) :
    x.fifoCall lbl ≠ some (.remove l p) := by
  cases lbl with
  | start t c => simp [Sys.fifoCall]
  | run t =>
    simp only [Sys.fifoCall, Pc.fifoCall]
    split <;> simp
  | migrate =>
    simp only [Sys.fifoCall, Mpc.fifoCall]
    split
    case h_3 d ph done e todo i code r hm => cases i <;> simp [MigInstr.fifoCall]
    all_goals simp

/-- And on no list: the call passes the assertions of `fifo.c`. -/
theorem Custody.fifoCall_ok {x : Sys Tid} (hx : Custody cfg x) {lbl : Label Tid} {c : ListCall}
    (h : x.fifoCall lbl = some c) : c.Ok x.st.list := by
  cases c with
  | dequeue l => trivial
  | remove l p => exact absurd h (x.fifoCall_ne_remove lbl l p)
  | enqueue l p =>
    rcases Sys.enqueue_held hx.mig h with ⟨k, hk, hp⟩
    rintro ⟨l', hl'⟩
    rw [← Sys.entries_list] at hl'
    exact hk l' (hx.books.excl.unique hp hl')

/-! ## The steps -/

/-- The books are true, and the heap refines the sequences. -/
structure LinkedInv (cfg : Config) (x : Sys Tid × Heap PageId ListId) : Prop where
  custody : Custody cfg x.1
  refines : Refines x.2 x.1.st.list

/-- No call of `fifo.c` fails. -/
theorem LinkedInv.callOn {x : Sys Tid × Heap PageId ListId} (hx : LinkedInv cfg x)
    (lbl : Label Tid) : ∃ h, callOn (x.1.fifoCall lbl) x.2 = .ok h ∧
      Refines h (seqOn (x.1.fifoCall lbl) x.1.st.list) := by
  cases hc : x.1.fifoCall lbl with
  | none => exact ⟨x.2, rfl, hx.refines⟩
  | some c =>
    have hshort : ∀ l p, c = .enqueue l p → (x.1.st.list l).length + 1 < 2 ^ 64 := by
      intro l p _
      have hle := hx.custody.length_le l
      have htotal := cfg.two_mul_total_lt
      omega
    rcases hx.refines.run (hx.custody.fifoCall_ok hc) hshort with ⟨h, hrun, hr⟩
    exact ⟨h, by simp only [Hemem.callOn, hrun, bind, Except.bind], hr⟩

variable [DecidableEq Tid] {numBatchs : Nat}

/-- A step of the system does to the lists what its call does. -/
theorem step_seqOn {x x' : Sys Tid} {lbl : Label Tid} (h : step cfg numBatchs lbl x = .ok x') :
    x'.st.list = seqOn (x.fifoCall lbl) x.st.list := by
  cases lbl with
  | start t c =>
    rcases step_start h with rfl | ⟨-, rfl⟩ <;> rfl
  | run t =>
    rcases step_run h with ⟨pc, ev, hstep, -⟩
    exact (threadStep_ok hstep).seqOn
  | migrate =>
    rcases step_migrate h with ⟨ev, hstep, -⟩
    exact (migStep_ok hstep).seqOn

/-- The heap is beside the system: it does not change its steps. -/
theorem linkedStep_step {x x' : Sys Tid × Heap PageId ListId} {lbl : Label Tid}
    (hs : linkedStep cfg numBatchs lbl x = .ok x') : step cfg numBatchs lbl x.1 = .ok x'.1 := by
  unfold linkedStep at hs
  split at hs
  · cases hs
  · rename_i x₁ hstep
    split at hs
    · cases hs
    · obtain rfl := Except.ok.inj hs
      exact hstep

/-- With the call made on the heap, too, the heap goes on standing for the lists. -/
theorem LinkedInv.step {x x' : Sys Tid × Heap PageId ListId} (hx : LinkedInv cfg x)
    (lbl : Label Tid) (hs : linkedStep cfg numBatchs lbl x = .ok x') : LinkedInv cfg x' := by
  have hstep := linkedStep_step hs
  rcases hx.callOn lbl with ⟨h, hcall, hr⟩
  simp only [linkedStep, hstep, hcall, Except.ok.injEq] at hs
  rw [← step_seqOn hstep] at hr
  exact ⟨hx.custody.step lbl hstep, hs ▸ hr⟩

/-- A step stops the run only where it stops the system on the sequences. -/
theorem LinkedInv.stops {x : Sys Tid × Heap PageId ListId} (hx : LinkedInv cfg x)
    (lbl : Label Tid) {f : ListFault} : linkedStep cfg numBatchs lbl x ≠ .error (.inr f) := by
  intro hs
  rcases hx.callOn lbl with ⟨h, hcall, -⟩
  unfold linkedStep at hs
  split at hs
  · cases hs
  · rw [hcall] at hs
    cases hs

/-! ## The heap that `pebs_init` leaves -/

/-- The calls of `pebs_init` link the free lists. -/
theorem heap_pebsInit (cfg : Config) : ∃ rs h,
    Heap.empty.runCalls (initCalls cfg) = .ok (rs, h) ∧ Refines h (pebsInit cfg).list := by
  have htotal := cfg.two_mul_total_lt
  have hsum : cfg.total = cfg.npages .dram + cfg.npages .nvm := rfl
  have hnone : ∀ p, ¬ Held (fun _ : ListId => ([] : List PageId)) p := fun p ⟨_, hp⟩ => nomatch hp
  have hfits : ∀ t, cfg.npages t < 2 ^ 64 := by
    intro t
    cases t <;> omega
  have hrange : (List.range (cfg.npages .dram)).Nodup := List.nodup_range
  rcases refines_empty.enqueueAll (l := dramFreeList) hrange (fun p _ => hnone p)
    (by simpa using hfits .dram) with ⟨rs, h, hdram, hr⟩
  -- the descriptors of NVM come after those of DRAM
  have hoff : ∀ p ∈ (List.range (cfg.npages .nvm)).map (cfg.npages .dram + ·),
      ¬ Held (Function.update (fun _ => []) dramFreeList ([] ++ List.range (cfg.npages .dram))) p := by
    rintro p hp ⟨l, hl⟩
    rcases List.mem_map.mp hp with ⟨i, -, rfl⟩
    by_cases hd : l = dramFreeList
    · subst hd
      simp only [Function.update_self, List.nil_append, List.mem_range] at hl
      exact absurd hl (Nat.not_lt.mpr (Nat.le_add_right _ _))
    · simp [hd] at hl
  rcases hr.enqueueAll (l := nvmFreeList) (List.nodup_range.map fun a b h => Nat.add_left_cancel h)
    hoff (by simpa using hfits .nvm) with ⟨rs', h', hnvm, hr'⟩
  refine ⟨rs ++ rs', h', ?_, ?_⟩
  · rw [List.map_map] at hnvm
    have hnvm' : h.runCalls ((List.range (cfg.npages .nvm)).map fun i =>
        .enqueue nvmFreeList (cfg.npages .dram + i)) = .ok (rs', h') := hnvm
    simp only [initCalls, Heap.runCalls_append, hdram, hnvm', bind, Except.bind]
  · have hlist : (pebsInit cfg).list = _ := funext fun l => pebsInit_list cfg l
    rw [hlist]
    convert hr' using 1
    funext l
    rcases l with (_ | _) | t | d <;> simp

end Hemem
