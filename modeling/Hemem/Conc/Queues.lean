import Mathlib.Algebra.BigOperators.Group.Finset.Basic
import Mathlib.Data.Fintype.Basic
import Hemem.Lib.Sections
import Hemem.Conc.Custody

/-!
# Hemem.Conc.Queues — the counters of the migration queues

A requester puts a page on a queue and increments the counter of the queue later;
the migration thread takes as many pages as the counter says and subtracts their
number at the end of the iteration. In between the counter and the queue differ by
what the requesters have not counted yet and what the migration thread has not
subtracted yet. The counter never falls behind what the migration thread is going
to take, so it never finds a queue empty.
-/

namespace Hemem

open Lib

/-! ## What is under way -/

/-- 1 for a thread between its `enqueue_fifo` on the queue of `d` and the increment of
the counter. -/
def Pc.uncounted (d : Dir) : Pc → Nat
  | .countPut q _ _ => if q.d = d then 1 else 0
  | _ => 0

/-- The direction at which the migration thread is. -/
def Mpc.dir : Mpc → Dir
  | .test d | .compare d | .read d | .dequeuePage d _ _ | .dequeueFree d _ _ _
  | .readFree d _ _ _ _ | .loop d _ _ _ _ _ | .count d _ => d

/-- The pages of the iteration of direction `d` that the migration thread has taken
from the queue and not yet subtracted from the counter. -/
def Mpc.outstanding (d : Dir) : Mpc → Nat
  | .dequeuePage d' _ es => if d' = d then es.length else 0
  | .dequeueFree d' _ es _ | .readFree d' _ es _ _ => if d' = d then es.length + 1 else 0
  | .loop d' _ done todo _ _ => if d' = d then done.length + todo.length else 0
  | .count d' num => if d' = d then num else 0
  | _ => 0

/-- The pages that the migration thread is still going to take in the iteration. -/
def Mpc.wanted (d : Dir) : Mpc → Nat
  | .dequeuePage d' left _ | .dequeueFree d' left _ _ | .readFree d' left _ _ _ =>
    if d' = d then left else 0
  | _ => 0

/-- The pages of entries. -/
def pagesOf (es : List Entry) : List PageId := es.flatMap fun e => e.page.toList

/-- The entries of a loop whose pages are not yet on the mmap list. -/
def loopPages (ph : Phase) (done todo : List Entry) (code : List MigInstr) : List PageId :=
  match ph, todo with
  | .giveBack, [] => []
  | .giveBack, e :: todo =>
    (if .enqueuePage ∈ code then e.page.toList else []) ++ pagesOf todo
  | _, todo => pagesOf (done ++ todo)

/-- The pages taken from the queue of `d` that are not yet on the mmap list, in the
order in which they were taken. -/
def Mpc.inFlight (d : Dir) : Mpc → List PageId
  | .dequeuePage d' _ es => if d' = d then pagesOf es else []
  | .dequeueFree d' _ es page | .readFree d' _ es page _ =>
    if d' = d then pagesOf es ++ page.toList else []
  | .loop d' ph done todo code _ => if d' = d then loopPages ph done todo code else []
  | _ => []

/-- The pages that the history has put on the queue of `d`, in order. -/
def puts (d : Dir) (hist : List Event) : List PageId :=
  hist.filterMap fun
    | .put d' p => if d' = d then some p else none
    | _ => none

/-- The pages that the history has returned to the mmap list of the destination, with
their `in_dram`, in order. -/
def moves (d : Dir) (hist : List Event) : List (PageId × Bool) :=
  hist.filterMap fun
    | .moved d' p b => if d' = d then some (p, b) else none
    | _ => none

theorem puts_append (d : Dir) (h₁ h₂ : List Event) : puts d (h₁ ++ h₂) = puts d h₁ ++ puts d h₂ :=
  List.filterMap_append

theorem moves_append (d : Dir) (h₁ h₂ : List Event) :
    moves d (h₁ ++ h₂) = moves d h₁ ++ moves d h₂ :=
  List.filterMap_append

variable {Tid : Type} {cfg : Config} {s s' : St}

/-- The requesters between their enqueue on the queue of `d` and their increment. -/
def Sys.uncounted [Fintype Tid] (x : Sys Tid) (d : Dir) : Nat := ∑ t, (x.thr t).uncounted d

/-! ## Steps of the threads -/

@[simp] theorem countMunmap_queue (b : Bool) (s : St) (d : Dir) :
    (countMunmap b s).num (.queue d) = s.num (.queue d) := by
  cases b <;> simp [countMunmap]

@[simp] theorem countPopulate_queue (b : Bool) (s : St) (d : Dir) :
    (countPopulate b s).num (.queue d) = s.num (.queue d) := by
  cases b <;> simp [countPopulate]

/-- The statements of an allocation leave the queues alone. -/
theorem AllocInstr.run_queue {i : AllocInstr} {p : PageId} {r r' : AllocRegs}
    (h : i.run cfg p r s = .ok (r', s')) (d : Dir) :
    s'.list (.queue d) = s.list (.queue d) ∧ s'.num (.queue d) = s.num (.queue d) := by
  cases i <;>
    simp only [AllocInstr.run, clearSlot, uffdioRegister, Hemem.addPage, bind_eq_ok, check_eq_ok,
      Except.ok.injEq, Prod.mk.injEq] at h
  case count =>
    rcases h with ⟨-, rfl⟩
    simp
  case clear | register | addPage =>
    rcases h with ⟨_, ⟨_, -, rfl⟩, -, rfl⟩
    exact ⟨rfl, rfl⟩
  case assertVa | assertAligned =>
    rcases h with ⟨_, -, -, rfl⟩
    exact ⟨rfl, rfl⟩
  all_goals
    rcases h with ⟨-, rfl⟩
    exact ⟨rfl, rfl⟩

/-- What a step of a thread does to the queue of `d` and its counter: it puts a page,
which it then still has to count, or counts one. -/
theorem ThreadStep.queue {pc pc' : Pc} {ev : List Event} (h : ThreadStep cfg pc s pc' s' ev)
    (d : Dir) :
    s'.list (.queue d) = s.list (.queue d) ++ puts d ev ∧ moves d ev = [] ∧
      ((s'.num (.queue d) = s.num (.queue d) ∧
          pc'.uncounted d = pc.uncounted d + (puts d ev).length) ∨
        (s'.num (.queue d) = s.num (.queue d) + 1 ∧ pc.uncounted d = 1 ∧
          pc'.uncounted d = 0 ∧ puts d ev = [])) := by
  cases h
  case put q i left p =>
    by_cases hq : q.d = d
    · subst hq
      simp [puts, moves, Pc.uncounted]
    · have hqueue : ListId.queue d ≠ .queue q.d := fun h => hq (ListId.queue.inj h).symm
      simp [puts, moves, Pc.uncounted, hq, hqueue]
  case countPut q i left =>
    by_cases hq : q.d = d
    · subst hq
      simp [puts, moves, Pc.uncounted]
    · have hqueue : ListId.queue d ≠ .queue q.d := fun h => hq (ListId.queue.inj h).symm
      simp [puts, moves, Pc.uncounted, hq, hqueue]
  case place hrun =>
    have hkeep := AllocInstr.run_queue hrun d
    simp [puts, moves, Pc.uncounted, hkeep]
  case placed k r p => cases k <;> simp [puts, moves, Pc.uncounted, Site.after]
  all_goals simp [puts, moves, Pc.uncounted]

/-! ## Steps of the migration thread -/

/-- The statements of the loops touch no queue; one of them returns a page. -/
theorem MigInstr.run_queue {d : Dir} {e : Entry} {i : MigInstr} {r r' : MigRegs} {ev : List Event}
    (h : i.run cfg d e r s = .ok (r', s', ev)) (d' : Dir) :
    s'.list (.queue d') = s.list (.queue d') ∧ s'.num (.queue d') = s.num (.queue d') ∧
      ((i ≠ .enqueuePage ∧ ev = []) ∨
        (i = .enqueuePage ∧ ∃ p, e.page = some p ∧ ev = [.moved d p (s.page p).inDram])) := by
  cases MigInstr.run_ok h
  case enqueuePage p hp => simp [hp]
  all_goals simp

/-- Until it is enqueued a page is in flight. -/
theorem loopPages_cons {ph : Phase} {done todo : List Entry} {e : Entry} {i : MigInstr}
    (hi : i ≠ .enqueuePage) (code : List MigInstr) :
    loopPages ph done (e :: todo) (i :: code) = loopPages ph done (e :: todo) code := by
  cases ph <;> simp [loopPages, hi.symm]

/-- The next entry: the pages in flight are the same. -/
theorem loopPages_next (d : Dir) (ph : Phase) (done todo : List Entry) (e : Entry) :
    loopPages ph (done ++ [e]) todo (d.code ph) = loopPages ph done (e :: todo) [] := by
  cases ph <;> cases todo <;> simp [loopPages, Dir.code, pagesOf]

/-- So they are in the next loop. -/
theorem loopPages_nextLoop {d : Dir} {ph ph' : Phase} (h : ph.next = some ph')
    (done : List Entry) (code : List MigInstr) :
    loopPages ph' [] done (d.code ph') = loopPages ph done [] code := by
  cases ph <;> simp only [Phase.next, Option.some.injEq, reduceCtorEq] at h <;> subst h <;>
    cases done <;> simp [loopPages, Dir.code, pagesOf]

/-- In the course of an iteration the migration thread leaves the queues of the other directions
alone. -/
theorem MigStep.queue_other {numBatchs : Nat} {m m' : Mpc} {ev : List Event} {d : Dir}
    (h : MigStep cfg numBatchs m s m' s' ev) (hd : m.dir ≠ d) :
    (puts d ev = [] ∧ moves d ev = []) ∧
    (s'.list (.queue d) = s.list (.queue d) ∧ s'.num (.queue d) = s.num (.queue d)) ∧
    (m.inFlight d = [] ∧ m.outstanding d = 0) ∧
    (m'.inFlight d = [] ∧ m'.outstanding d = 0 ∧ m'.wanted d = 0) := by
  cases h <;> simp only [Mpc.dir] at hd
  case dequeuePage d' _ _ _ _ _ =>
    have hqueue : ListId.queue d ≠ .queue d' := fun h => hd (ListId.queue.inj h).symm
    simp [puts, moves, Mpc.inFlight, Mpc.outstanding, Mpc.wanted, hd, hqueue]
  case instr hrun =>
    rcases MigInstr.run_queue hrun d with ⟨hlist, hnum, hev⟩
    rcases hev with ⟨-, rfl⟩ | ⟨-, p, -, rfl⟩ <;>
      simp [puts, moves, Mpc.inFlight, Mpc.outstanding, Mpc.wanted, hd, hlist, hnum]
  case count d' _ =>
    have hd' : ¬ d = d' := fun h => hd h.symm
    simp [puts, moves, Mpc.inFlight, Mpc.outstanding, Mpc.wanted, hd, hd', countBatch_queue]
  all_goals simp [puts, moves, Mpc.inFlight, Mpc.outstanding, Mpc.wanted, hd]

/-- What the migration thread does to the queue of `d` and its counter. It takes on no
more than it has undertaken, except where it reads the counter; it takes the pages in
the order of the queue and returns them in the same order. -/
theorem MigStep.queue {numBatchs : Nat} {m m' : Mpc} {ev : List Event} {d : Dir} (hm : m.Wf)
    (h : MigStep cfg numBatchs m s m' s' ev)
    (hclaim : m.outstanding d + m.wanted d ≤ (s.num (.queue d)).toNat)
    (hwanted : m.wanted d ≤ (s.list (.queue d)).length) :
    puts d ev = [] ∧
    m.inFlight d ++ s.list (.queue d) =
      (moves d ev).map Prod.fst ++ m'.inFlight d ++ s'.list (.queue d) ∧
    (s'.num (.queue d)).toNat + (s.list (.queue d)).length + m.outstanding d =
      (s.num (.queue d)).toNat + (s'.list (.queue d)).length + m'.outstanding d ∧
    m'.outstanding d + m'.wanted d ≤ (s'.num (.queue d)).toNat ∧
    (m'.outstanding d + m'.wanted d ≤ m.outstanding d + m.wanted d ∨
      (m.outstanding d = 0 ∧ m'.outstanding d + m'.wanted d ≤ (s.num (.queue d)).toNat)) := by
  rcases eq_or_ne m.dir d with rfl | hd
  swap
  · rcases h.queue_other hd with ⟨⟨hputs, hmoves⟩, ⟨hlist, hnum⟩, ⟨hfly, hout⟩, hfly', hout', hwant'⟩
    simp [hputs, hmoves, hlist, hnum, hfly, hout, hfly', hout', hwant']
  cases h <;> simp only [Mpc.dir] at hclaim hwanted ⊢
  case dequeueNull d' left es hl => simp [Mpc.wanted, hl] at hwanted
  case dequeuePage d' left es p rest hl =>
    simp only [Mpc.outstanding, Mpc.wanted, if_true] at hclaim
    simp [puts, moves, Mpc.inFlight, Mpc.outstanding, Mpc.wanted, hl]
    omega
  case compareMore d' hlt =>
    -- the thread undertakes no more than the counter says
    simp [puts, moves, Mpc.inFlight, Mpc.outstanding, Mpc.wanted, pagesOf]
    omega
  case readFree d' left es page q =>
    simp only [Mpc.outstanding, Mpc.wanted, if_true] at hclaim
    simpa [puts, moves, Mpc.inFlight, Mpc.outstanding, Mpc.wanted, pagesOf] using hclaim
  case instr d' ph done e todo i code r r' hrun =>
    rcases MigInstr.run_queue hrun d' with ⟨hlist, hnum, hev⟩
    rw [hlist, hnum]
    rcases hev with ⟨hi, rfl⟩ | ⟨rfl, p, hp, rfl⟩
    · have hpages : loopPages ph done (e :: todo) (i :: code) = _ := loopPages_cons hi code
      simpa [puts, moves, Mpc.inFlight, Mpc.outstanding, Mpc.wanted, hpages] using hclaim
    · -- the page leaves the hands of the migration thread
      obtain rfl := Dir.giveBack_of_mem (i := .enqueuePage) (by simp [Dir.code])
        (hm.sublist.mem (List.mem_cons_self ..))
      obtain rfl : code = [.enqueueFree] := by simpa using Dir.giveBack_suffix hm
      simpa [puts, moves, Mpc.inFlight, Mpc.outstanding, Mpc.wanted, loopPages, hp] using hclaim
  case nextEntry d' ph done e todo r =>
    have hpages := loopPages_next d' ph done todo e
    simp only [Mpc.outstanding, Mpc.wanted, List.length_cons, if_true] at hclaim
    simp [puts, moves, Mpc.inFlight, Mpc.outstanding, Mpc.wanted, hpages]
    omega
  case nextLoop d' ph ph' done code r hnext =>
    have hpages := loopPages_nextLoop (d := d') hnext done code
    simpa [puts, moves, Mpc.inFlight, Mpc.outstanding, Mpc.wanted, hpages] using hclaim
  case lastLoop d' done code r =>
    simpa [puts, moves, Mpc.inFlight, Mpc.outstanding, Mpc.wanted, loopPages] using hclaim
  case count d' num =>
    -- what is subtracted is what the thread has taken, and no more than the counter
    simp only [Mpc.outstanding, Mpc.wanted, if_true] at hclaim
    have hnum := toNat_sub_ofNat (x := s.num (.queue d')) (n := num) (by omega)
    simp only [countBatch_queue, countBatch_list, if_true, hnum]
    simp [puts, moves, Mpc.inFlight, Mpc.outstanding, Mpc.wanted]
    omega
  case read d' => simp [puts, moves, Mpc.inFlight, Mpc.outstanding, Mpc.wanted, pagesOf]
  case begin d' es =>
    simpa [puts, moves, Mpc.inFlight, Mpc.outstanding, Mpc.wanted, loopPages] using hclaim
  case dequeueFree d' left es page q rest hl =>
    simpa [puts, moves, Mpc.inFlight, Mpc.outstanding, Mpc.wanted] using hclaim
  case dequeueFreeNull d' left es page hl =>
    simpa [puts, moves, Mpc.inFlight, Mpc.outstanding, Mpc.wanted] using hclaim
  case testZero | test | compare =>
    simp [puts, moves, Mpc.inFlight, Mpc.outstanding, Mpc.wanted]

/-- A queue that holds what is wanted yields no `NULL`. -/
theorem MigStep.batch {numBatchs : Nat} {m m' : Mpc} {ev : List Event}
    (h : MigStep cfg numBatchs m s m' s' ev) (hbatch : none ∉ m.batch)
    (hwanted : ∀ d, m.wanted d ≤ (s.list (.queue d)).length) : none ∉ m'.batch := by
  cases h
  case dequeueNull d left es hl =>
    have hd := hwanted d
    simp [Mpc.wanted, hl] at hd
  case dequeuePage | dequeueFree | dequeueFreeNull | readFree | instr | nextEntry | begin =>
    simpa [Mpc.batch] using hbatch
  case nextLoop | lastLoop => simp_all [Mpc.batch]
  all_goals simp [Mpc.batch]

/-- A page that is returned has the `in_dram` of its destination. -/
theorem MigStep.moves_inDram {numBatchs : Nat} {m m' : Mpc} {ev : List Event} (hm : m.Wf)
    (h : MigStep cfg numBatchs m s m' s' ev) (hbook : ∀ p v, (p, v) ∈ m.items → s.flags p = v)
    (d : Dir) : ∀ e ∈ moves d ev, e.2 = d.dst.inDram := by
  cases h
  case instr d' ph done e todo i code r r' hrun =>
    rcases (MigInstr.run_queue hrun d).2.2 with ⟨-, rfl⟩ | ⟨rfl, p, hp, rfl⟩
    · simp [moves]
    · obtain rfl := Dir.giveBack_of_mem (i := .enqueuePage) (by simp [Dir.code])
        (hm.sublist.mem (List.mem_cons_self ..))
      have hflags := hbook p (d'.dst.inDram, true)
        (by simp [Mpc.items, Entry.items, Entry.pageItems, Dir.pageTier, hp, inUse])
      by_cases hd : d' = d
      · subst hd
        simpa [moves] using (Prod.mk.inj hflags).1
      · simp [moves, hd]
  all_goals simp [moves]

/-! ## The hand-over protocol -/

/-- No list is longer than the number of descriptors. -/
theorem Custody.length_le {x : Sys Tid} (h : Custody cfg x) (l : ListId) :
    (x.st.list l).length ≤ cfg.total := by
  rw [← x.entries_list l]
  exact length_le_of_lt (h.books.excl.nodup (.list l)) fun p hp => (h.held p).mp ⟨.list l, hp⟩

variable [Fintype Tid]

structure Ledger (cfg : Config) (x : Sys Tid) : Prop where
  custody : Custody cfg x
  /-- the counter differs from the queue by what is under way -/
  balance : ∀ d, (x.st.num (.queue d)).toNat + x.uncounted d =
    (x.st.list (.queue d)).length + x.mig.outstanding d
  /-- the counter covers what the migration thread has undertaken to take -/
  claim : ∀ d, x.mig.outstanding d + x.mig.wanted d ≤ (x.st.num (.queue d)).toNat
  bound : ∀ d, x.mig.outstanding d + x.mig.wanted d ≤ cfg.total
  batch : none ∉ x.mig.batch
  /-- a queue is first in, first out, and so is the migration thread -/
  fifo : ∀ d, puts d x.hist =
    (moves d x.hist).map Prod.fst ++ x.mig.inFlight d ++ x.st.list (.queue d)
  dest : ∀ d, ∀ e ∈ moves d x.hist, e.2 = d.dst.inDram

/-- The queue holds what the migration thread is still going to take. -/
theorem Ledger.wanted_le {x : Sys Tid} (h : Ledger cfg x) (d : Dir) :
    x.mig.wanted d ≤ (x.st.list (.queue d)).length := by
  have hbalance := h.balance d
  have hclaim := h.claim d
  omega

/-- What the threads that call the request functions, the migration thread and those
that wait for a counter to reach 0 rely on. -/
structure HandoverKept (x : Sys Tid) : Prop where
  /-- the counter, and the pages not yet counted, are the pages on the queue and those
  not yet subtracted -/
  balance : ∀ d, (x.st.num (.queue d)).toNat + x.uncounted d =
    (x.st.list (.queue d)).length + x.mig.outstanding d
  /-- the migration thread dequeues no `NULL` from a queue -/
  noNull : ∀ d left es, x.mig = .dequeuePage d (left + 1) es → x.st.list (.queue d) ≠ []
  /-- a counter of 0 that no requester is about to increment means that the queue is
  empty and every page that was ever put on it has been returned to the mmap list of
  the destination, with its `in_dram` -/
  settled : ∀ d, x.st.num (.queue d) = 0 → x.uncounted d = 0 →
    x.st.list (.queue d) = [] ∧ puts d x.hist = (moves d x.hist).map Prod.fst ∧
      ∀ e ∈ moves d x.hist, e.2 = d.dst.inDram

/-- With nothing outstanding nothing is in flight. -/
theorem Mpc.inFlight_of_outstanding {m : Mpc} {d : Dir} (h : m.outstanding d = 0) :
    m.inFlight d = [] := by
  cases m <;> simp only [Mpc.outstanding, Mpc.inFlight] at h ⊢
  case dequeuePage d' left es =>
    split <;> simp_all [pagesOf]
  case dequeueFree | readFree =>
    split <;> simp_all
  case loop d' ph done todo code r =>
    split
    · rename_i hd
      simp only [hd, if_true, Nat.add_eq_zero_iff, List.length_eq_zero_iff] at h
      rcases h with ⟨rfl, rfl⟩
      cases ph <;> rfl
    · rfl

/-- The ledger says that the hand-over is kept. -/
theorem Ledger.handoverKept {x : Sys Tid} (h : Ledger cfg x) : HandoverKept x := by
  refine ⟨h.balance, fun d left es hm hl => ?_, fun d hnum huncounted => ?_⟩
  · have hwanted := h.wanted_le d
    simp [hm, Mpc.wanted, hl] at hwanted
  · have hbalance := h.balance d
    rw [hnum, huncounted] at hbalance
    have hlen : (x.st.list (.queue d)).length = 0 ∧ x.mig.outstanding d = 0 := by
      simp only [UInt64.toNat_zero] at hbalance
      omega
    have hlist : x.st.list (.queue d) = [] := List.length_eq_zero_iff.mp hlen.1
    have hfifo := h.fifo d
    rw [hlist, Mpc.inFlight_of_outstanding hlen.2, List.append_nil, List.append_nil] at hfifo
    exact ⟨hlist, hfifo, h.dest d⟩

/-- Before any call the books are balanced. -/
theorem ledger_init (cfg : Config) : Ledger cfg (Sys.init cfg : Sys Tid) where
  custody := (wf_pebsInit cfg).custody_quiet
  balance d := by
    have hq := (wf_pebsInit cfg).queueNum d
    simpa [Sys.init, Sys.quiet, Sys.uncounted, Pc.uncounted, Mpc.outstanding] using hq
  claim d := by simp [Sys.init, Sys.quiet, Mpc.outstanding, Mpc.wanted]
  bound d := by simp [Sys.init, Sys.quiet, Mpc.outstanding, Mpc.wanted]
  batch := by simp [Sys.init, Sys.quiet, Mpc.batch]
  fifo d := by simp [Sys.init, Sys.quiet, puts, moves, Mpc.inFlight, pebsInit_list]
  dest d := by simp [Sys.init, Sys.quiet, moves]

variable [DecidableEq Tid] {numBatchs : Nat}

/-- Every step of every thread keeps the ledger. -/
theorem Ledger.step {x x' : Sys Tid} (h : Ledger cfg x) (lbl : Label Tid)
    (hs : step cfg numBatchs lbl x = .ok x') : Ledger cfg x' := by
  have hcustody := h.custody.step lbl hs
  cases lbl with
  | start t c =>
    rcases step_start hs with rfl | ⟨hidle, rfl⟩
    · exact h
    · have hsum : ∀ d, (∑ u, (Function.update x.thr t c.begin u).uncounted d) = x.uncounted d := by
        intro d
        have hupdate := sum_update (Pc.uncounted d) x.thr t c.begin
        -- a call that begins has counted all it has put
        have hbegin : c.begin.uncounted d = 0 := by
          cases c <;> simp only [Call.begin, Pc.uncounted]
        have hnone : Pc.idle.uncounted d = 0 := rfl
        rw [hidle, hbegin, hnone] at hupdate
        exact hupdate
      exact ⟨hcustody, fun d => by simpa only [Sys.uncounted, hsum] using h.balance d,
        h.claim, h.bound, h.batch, h.fifo, h.dest⟩
  | run t =>
    rcases step_run hs with ⟨pc, ev, hstep, hthr, hmig, hhist⟩
    have hqueue := (threadStep_ok hstep).queue
    have hsum : ∀ d, x'.uncounted d + (x.thr t).uncounted d = x.uncounted d + pc.uncounted d := by
      intro d
      have hupdate := sum_update (Pc.uncounted d) x.thr t pc
      rwa [← hthr] at hupdate
    have hnum : ∀ d, (x'.st.num (.queue d)).toNat + x'.uncounted d =
        (x.st.num (.queue d)).toNat + x.uncounted d + (puts d ev).length ∧
        (x.st.num (.queue d)).toNat ≤ (x'.st.num (.queue d)).toNat := by
      intro d
      have hs := hsum d
      rcases (hqueue d).2.2 with ⟨hn, hc⟩ | ⟨hn, hc, hc', hputs⟩
      · rw [hn]
        omega
      · -- the increment does not wrap, since the page it counts is among those on the queue
        have hb := h.balance d
        have hlen := h.custody.length_le (.queue d)
        have hbound := h.bound d
        have htotal := cfg.two_mul_total_lt
        rw [hn, toNat_add_one (by omega), hputs]
        simp only [List.length_nil]
        omega
    refine ⟨hcustody, fun d => ?balance, fun d => ?claim, fun d => ?bound, ?batch, fun d => ?fifo,
      fun d => ?dest⟩
    case balance =>
      have hb := h.balance d
      have hn := (hnum d).1
      rw [hmig, (hqueue d).1, List.length_append]
      omega
    case claim =>
      rw [hmig]
      exact (h.claim d).trans (hnum d).2
    case bound =>
      rw [hmig]
      exact h.bound d
    case batch =>
      rw [hmig]
      exact h.batch
    case fifo =>
      rw [hhist, puts_append, moves_append, (hqueue d).2.1, hmig, (hqueue d).1, h.fifo d]
      simp
    case dest =>
      rw [hhist, moves_append, (hqueue d).2.1, List.append_nil]
      exact h.dest d
  | migrate =>
    rcases step_migrate hs with ⟨ev, hstep, hthr, hhist⟩
    have hmig := migStep_ok hstep
    have hqueue := fun d => hmig.queue h.custody.mig (h.claim d) (h.wanted_le d)
    have hsum : ∀ d, x'.uncounted d = x.uncounted d := by
      intro d
      simp only [Sys.uncounted, hthr]
    refine ⟨hcustody, fun d => ?balance, fun d => ?claim, fun d => ?bound, ?batch, fun d => ?fifo,
      fun d => ?dest⟩
    case balance =>
      have hb := h.balance d
      rcases hqueue d with ⟨-, -, hn, -⟩
      rw [hsum]
      omega
    case claim => exact (hqueue d).2.2.2.1
    case bound =>
      rcases (hqueue d).2.2.2.2 with hle | ⟨hzero, hle⟩
      · exact hle.trans (h.bound d)
      · -- with nothing claimed before, what is claimed now has been read from the counter
        have hb := h.balance d
        have hlen := h.custody.length_le (.queue d)
        omega
    case batch => exact hmig.batch h.batch h.wanted_le
    case fifo =>
      rcases hqueue d with ⟨hputs, hfifo, -⟩
      rw [hhist, puts_append, moves_append, hputs, List.append_nil, h.fifo d, List.map_append,
        List.append_assoc, hfifo]
      simp
    case dest =>
      intro e he
      rw [hhist, moves_append, List.mem_append] at he
      rcases he with he | he
      · exact h.dest d e he
      · exact hmig.moves_inDram h.custody.mig
          (fun p v hp => h.custody.books.agree (i := .migrator) hp) d e he

/-- The hand-over protocol of the migration queues holds in every interleaving of any
number of threads with the migration thread. -/
theorem handoverKept_throughout (cfg : Config) (numBatchs : Nat) (labels : List (Label Tid)) :
    Throughout (Hemem.step cfg numBatchs) HandoverKept labels (Sys.init cfg) := by
  refine Throughout.imp (fun x (hx : Ledger cfg x) => hx.handoverKept) ?_
  exact throughout_of_step (fun _ lbl _ hx hs => hx.step lbl hs) labels (ledger_init cfg)

end Hemem
