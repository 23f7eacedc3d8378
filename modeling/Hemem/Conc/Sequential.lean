import Hemem.AppMemory
import Hemem.Faults
import Hemem.Conc.Iteration
import Hemem.Conc.Queues
import Hemem.Conc.Returns

/-!
# Hemem.Conc.Sequential — complete operations among the interleavings

A run of `Hemem.System` lets every operation return before the next one begins. The threads can
do the same: each in its turn takes its steps until its call has returned, or until the
migration thread is back at the test of a loop. What such a run does is what the complete
operations do, so whatever happens in a run of `Hemem.System` happens in the concurrent system,
too. And a call within the address space does end: its loops are bounded by the free descriptors,
by the number of pages requested and by the addresses of the range.
-/

namespace Hemem

open Lib

variable {Tid : Type} {cfg : Config} {numBatchs : Nat} {x : Sys Tid}

/-! ## Complete calls end -/

/-- A scan that ends a page before the address space does comes to its end: every iteration
leaves fewer addresses. -/
theorem munmapScan_returns {fuel pos stop : Nat} (hstop : stop + pageSize ≤ 2 ^ 64)
    (hfuel : stop - pos < fuel) (s : St) : ∃ s', munmapScan fuel pos stop s = .ok s' := by
  induction fuel generalizing pos s with
  | zero => omega
  | succ fuel ih =>
    unfold munmapScan
    split
    · rename_i hlt
      cases findPage pos s with
      | none =>
        have hbase : 0 < basepageSize ∧ basepageSize ≤ pageSize := by decide
        have hless := sub_advance_lt hlt hstop hbase.1 hbase.2
        exact ih (by omega) s
      | some p =>
        have hless := sub_advance_lt hlt hstop (ptToPagesize_pos (s.page p).pt) (ptToPagesize_le _)
        exact ih (by omega) (untrackPage p s)
    · exact ⟨s, rfl⟩

theorem pebsPagefault_ne_running (s : St) : StopsIn (· ≠ .running) (pebsPagefault s) := by
  refine (pebsPagefault_stopsIn s).mono ?_
  rintro f (rfl | rfl | rfl | rfl) <;> simp

/-- Each iteration takes a free descriptor off its list, so the loop of `hemem_mmap_populate`
has ended, or stopped, before they are used up. -/
theorem populateLoop_ne_running {fuel va stop : Nat} {s : St}
    (hfuel : (freeOrder s).length < fuel) :
    StopsIn (· ≠ .running) (populateLoop cfg fuel va stop s) := by
  induction fuel generalizing va s with
  | zero => omega
  | succ fuel ih =>
    unfold populateLoop
    split
    · refine StopsIn.bind (populatePage_stopsIn (fun f hf => (placeFault_ne hf).2) cfg va
        (pebsPagefault_ne_running s)) fun r hr => ih ?_
      rcases populatePage_ok hr with ⟨t, p, rest, hfrom, -, -, hs'⟩
      -- counting the page changes no list
      have hlists : freeOrder r.2 = freeOrder ((s.alloc t p rest).place t p va) := by
        rw [hs']
        rfl
      rw [hfrom.freeOrder_eq va, List.length_cons, ← hlists] at hfuel
      omega
    · exact StopsIn.ok

/-- There are no more free descriptors than descriptors. -/
theorem Custody.freeOrder_length_le (h : Custody cfg x) :
    (freeOrder x.st).length ≤ cfg.total := by
  rw [freeOrder, ← x.entries_list dramFreeList, ← x.entries_list nvmFreeList]
  exact h.books.excl.length_append_le (by simp) fun p hp => (h.held p).mp hp

/-- A complete call has ended, or stopped, with its step bound not used up. -/
theorem Call.Inside.exec_ne_running {c : Call} (hc : c.Inside) {s : St}
    (hfree : (freeOrder s).length ≤ cfg.total) {fuel : Nat} (hfuel : 2 ^ 64 ≤ fuel) :
    StopsIn (· ≠ .running) (exec cfg (c.op fuel) s) := by
  have hcheck : ∀ {b : Bool} {f : Fault}, f ≠ .running → StopsIn (· ≠ .running) (check b f) :=
    fun hf => check_stopsIn hf
  cases c with
  | mmap p length populate =>
    refine StopsIn.bind (hcheck (by simp)) fun _ _ => ?_
    refine StopsIn.bind (hcheck (by simp)) fun _ _ => ?_
    refine StopsIn.bind (StopsIn.bind (hcheck (by simp)) fun _ _ => StopsIn.ok) fun s₀ hs₀ => ?_
    rcases bind_eq_ok.mp hs₀ with ⟨_, -, hs₀⟩
    obtain rfl := Except.ok.inj hs₀
    cases populate with
    | false => exact StopsIn.ok
    | true =>
      refine StopsIn.bind (hcheck (by simp)) fun _ _ => ?_
      refine StopsIn.bind (hcheck (by simp)) fun _ _ => ?_
      -- the reservation has left the free lists alone
      exact populateLoop_ne_running (Nat.lt_succ_of_le hfree)
  | missingFault va =>
    exact handleMissingFault_stopsIn (fun f hf => (placeFault_ne hf).2) cfg va
      (pebsPagefault_ne_running s)
  | request d pagesNum random rand =>
    refine StopsIn.bind ?_ fun _ _ => StopsIn.ok
    refine StopsIn.mono (requestLoop_stopsIn d random rand pagesNum.toNat 0 0 s) ?_
    rintro f (rfl | rfl | rfl | rfl) <;> simp
  | munmap addr length accept =>
    have hstop : (addr + length) % 2 ^ 64 + pageSize ≤ 2 ^ 64 := hc
    have hleft : (addr + length) % 2 ^ 64 - addr % 2 ^ 64 < fuel := by
      have hpage : 0 < pageSize := by decide
      omega
    rcases munmapScan_returns hstop hleft s with ⟨s', hs'⟩
    refine StopsIn.bind (StopsIn.bind ?_ fun _ _ => StopsIn.ok) fun _ _ => StopsIn.ok
    rw [hs']
    exact StopsIn.ok

variable [DecidableEq Tid]

/-! ## One thread in the system -/

/-- In `y` the thread `t` is where the machine is, and the others are where they are in `x`. -/
structure InThread (x : Sys Tid) (t : Tid) (c : Pc × St) (y : Sys Tid) : Prop where
  st : y.st = c.2
  thr : y.thr = Function.update x.thr t c.1
  mig : y.mig = x.mig

/-- A step of the thread alone is a step of the system that leaves the others alone. -/
theorem threadMachine_embeds (x : Sys Tid) (t : Tid) :
    Embeds (threadMachine cfg) (step cfg numBatchs) (.run t) (InThread x t) := by
  constructor
  case goes =>
    intro c c' y hy hc
    have hpc : y.thr t = c.1 := by rw [hy.thr, Function.update_self]
    simp only [threadMachine] at hc
    cases hs : threadStep cfg c.1 c.2 with
    | error f =>
      rw [hs] at hc
      cases hc
    | ok z =>
      rw [hs] at hc
      obtain rfl := Except.ok.inj hc
      -- the same step in the system, for this thread
      refine ⟨⟨z.2.1, Function.update y.thr t z.1, y.mig, y.hist ++ z.2.2⟩, ?_, rfl, ?_, hy.mig⟩
      · simp only [Hemem.step, hpc, hy.st, hs]
        rfl
      · simp only [hy.thr, Function.update_idem]
  case stops =>
    intro c y f hy hc
    have hpc : y.thr t = c.1 := by rw [hy.thr, Function.update_self]
    simp only [threadMachine] at hc
    cases hs : threadStep cfg c.1 c.2 with
    | error f' =>
      rw [hs] at hc
      obtain rfl := Except.error.inj hc
      simp only [Hemem.step, hpc, hy.st, hs]
      rfl
    | ok z =>
      rw [hs] at hc
      cases hc

/-- In `y` the migration thread is where the machine is. -/
structure InMigrator (x : Sys Tid) (c : Mpc × St) (y : Sys Tid) : Prop where
  st : y.st = c.2
  mig : y.mig = c.1
  thr : y.thr = x.thr

/-- So is one of the migration thread. -/
theorem migMachine_embeds (x : Sys Tid) :
    Embeds (migMachine cfg numBatchs) (step cfg numBatchs) .migrate (InMigrator x) := by
  constructor
  case goes =>
    intro c c' y hy hc
    simp only [migMachine] at hc
    cases hs : migStep cfg numBatchs c.1 c.2 with
    | error f =>
      rw [hs] at hc
      cases hc
    | ok z =>
      rw [hs] at hc
      obtain rfl := Except.ok.inj hc
      refine ⟨⟨z.2.1, y.thr, z.1, y.hist ++ z.2.2⟩, ?_, rfl, rfl, hy.thr⟩
      simp only [Hemem.step, hy.mig, hy.st, hs]
      rfl
  -- the migration thread alone decides where the system stops
  case stops =>
    intro c y f hy hc
    simp only [migMachine] at hc
    cases hs : migStep cfg numBatchs c.1 c.2 with
    | error f' =>
      rw [hs] at hc
      obtain rfl := Except.error.inj hc
      simp only [Hemem.step, hy.mig, hy.st, hs]
      rfl
    | ok z =>
      rw [hs] at hc
      cases hc

/-! ## A turn -/

/-- What one thread does without being interrupted. -/
inductive Turn (Tid : Type) where
  /-- a thread makes a call -/
  | call (t : Tid) (c : Call)
  /-- the migration thread tests the counter of its loop, and moves a batch if there is one -/
  | migrate

/-- The complete operation; the migration thread stays in a loop until the counter is zero. -/
def turnStep (cfg : Config) (numBatchs fuel : Nat) : Turn Tid → St × Dir → Except Fault (St × Dir)
  | .call _ c, (s, d) => do
    let s ← exec cfg (c.op fuel) s
    .ok (s, d)
  | .migrate, (s, d) => do
    let s' ← exec cfg (.migrate numBatchs d) s
    .ok (s', if s.num (.queue d) = 0 then d.next else d)

/-- `n` steps of the thread whose turn it is. -/
def Turn.labels : Turn Tid → Nat → List (Label Tid)
  | .call t c, n => .start t c :: List.replicate n (.run t)
  | .migrate, n => List.replicate n .migrate

/-- An idle thread that makes a call and takes its steps to the end does what the complete
operation does. -/
theorem call_labels (cfg : Config) (numBatchs : Nat) (x : Sys Tid) {t : Tid}
    (hidle : x.thr t = .idle) (c : Call) (fuel : Nat) :
    match exec cfg (c.op fuel) x.st with
    | .ok s' => ∃ n y, runs (step cfg numBatchs) ((Turn.call t c).labels n) x = .ok y ∧
        y.st = s' ∧ y.thr = x.thr ∧ y.mig = x.mig
    | .error f => f = .running ∨
        ∃ n, runs (step cfg numBatchs) ((Turn.call t c).labels n) x = .error f := by
  let x₁ : Sys Tid := { x with thr := Function.update x.thr t c.begin }
  have hstart : ∀ n, runs (step cfg numBatchs) ((Turn.call t c).labels n) x =
      runs (step cfg numBatchs) (List.replicate n (.run t)) x₁ := by
    intro n
    simp only [Turn.labels, runs, step, hidle, x₁]
  have hin : InThread x t (c.begin, x.st) x₁ := ⟨rfl, rfl, rfl⟩
  have halone := c.alone cfg fuel x.st
  simp only [hstart]
  cases hs : exec cfg (c.op fuel) x.st with
  | error f =>
    rw [hs] at halone
    exact halone.runs_error (threadMachine_embeds x t) hin
  | ok s' =>
    rw [hs] at halone
    rcases halone.runs_ok (threadMachine_embeds x t) hin with ⟨n, y, _, hy, hin', rfl⟩
    refine ⟨n, y, hy, hin'.st, ?_, hin'.mig⟩
    rw [hin'.thr, ← hidle, Function.update_eq_self]

/-- So does the migration thread, from the test of a loop to the next test. -/
theorem migrate_labels (cfg : Config) (numBatchs : Nat) (x : Sys Tid) {d : Dir}
    (hmig : x.mig = .test d) :
    match migrationRequest cfg numBatchs d x.st with
    | .ok s' => ∃ n y, runs (step cfg numBatchs) (Turn.migrate.labels n) x = .ok y ∧
        y.st = s' ∧ y.thr = x.thr ∧
        y.mig = .test (if x.st.num (.queue d) = 0 then d.next else d)
    | .error f => f = .running ∨
        ∃ n, runs (step cfg numBatchs) (Turn.migrate.labels n) x = .error f := by
  have hin : InMigrator x (.test d, x.st) x := ⟨rfl, hmig, rfl⟩
  have halone := migrationRequest_alone cfg numBatchs d x.st
  cases hs : migrationRequest cfg numBatchs d x.st with
  | error f =>
    rw [hs] at halone
    exact halone.runs_error (migMachine_embeds x) hin
  | ok s' =>
    rw [hs] at halone
    rcases halone.runs_ok (migMachine_embeds x) hin with ⟨n, y, _, hy, hin', rfl⟩
    exact ⟨n, y, hy, hin'.st, hin'.thr, hin'.mig⟩

/-! ## Runs of turns -/

/-- The threads are not in a call and the migration thread is between two iterations. -/
structure Between (x : Sys Tid) (s : St) (d : Dir) : Prop where
  st : x.st = s
  thr : ∀ t, x.thr t = .idle
  mig : x.mig = .test d

theorem Between.turn {d : Dir} {s : St} (hx : Between x s d) (cfg : Config)
    (numBatchs fuel : Nat) (w : Turn Tid) :
    match turnStep cfg numBatchs fuel w (s, d) with
    | .ok (s', d') =>
      ∃ n y, runs (step cfg numBatchs) (w.labels n) x = .ok y ∧ Between y s' d'
    | .error f => f = .running ∨ ∃ n, runs (step cfg numBatchs) (w.labels n) x = .error f := by
  obtain rfl := hx.st
  cases w with
  | call t c =>
    have hcall := call_labels cfg numBatchs x (hx.thr t) c fuel
    -- the steps of the call carry out what it does at once, or stop where it stops
    simp only [turnStep]
    cases hs : exec cfg (c.op fuel) x.st with
    | error f =>
      rw [hs] at hcall
      exact hcall
    | ok s' =>
      rw [hs] at hcall
      rcases hcall with ⟨n, y, hy, hst, hthr, hmig⟩
      exact ⟨n, y, hy, hst, fun u => hthr ▸ hx.thr u, hmig.trans hx.mig⟩
  | migrate =>
    have hmigrate := migrate_labels cfg numBatchs x hx.mig
    simp only [turnStep, exec]
    cases hs : migrationRequest cfg numBatchs d x.st with
    | error f =>
      rw [hs] at hmigrate
      exact hmigrate
    | ok s' =>
      rw [hs] at hmigrate
      rcases hmigrate with ⟨n, y, hy, hst, hthr, hmig⟩
      exact ⟨n, y, hy, hst, fun u => hthr ▸ hx.thr u, hmig⟩

/-- The steps of the turns, one turn after the other; `ns` has the number of steps of each. -/
def turnLabels (turns : List (Turn Tid)) (ns : List Nat) : List (Label Tid) :=
  (List.zipWith Turn.labels turns ns).flatten

/-- By induction on the turns: after each the threads are between two calls again. -/
theorem Between.turns (fuel : Nat) (turns : List (Turn Tid)) {d : Dir} {s : St}
    (hx : Between x s d) :
    match runs (turnStep cfg numBatchs fuel) turns (s, d) with
    | .ok (s', d') => ∃ ns y, ns.length = turns.length ∧
        runs (step cfg numBatchs) (turnLabels turns ns) x = .ok y ∧ Between y s' d'
    | .error f => f = .running ∨
        ∃ ns, runs (step cfg numBatchs) (turnLabels turns ns) x = .error f := by
  induction turns generalizing x s d with
  | nil => exact ⟨[], x, rfl, rfl, hx⟩
  | cons w turns ih =>
    have hturn := hx.turn cfg numBatchs fuel w
    simp only [runs]
    rcases hs : turnStep cfg numBatchs fuel w (s, d) with f | ⟨s₁, d₁⟩
    · rw [hs] at hturn
      refine hturn.imp_right ?_
      rintro ⟨n, hn⟩
      exact ⟨[n], by simpa [turnLabels] using hn⟩
    · rw [hs] at hturn
      rcases hturn with ⟨n, y, hn, hy⟩
      have hrest := ih hy
      have happend : ∀ ns, runs (step cfg numBatchs) (turnLabels (w :: turns) (n :: ns)) x =
          runs (step cfg numBatchs) (turnLabels turns ns) y := by
        intro ns
        rw [turnLabels, List.zipWith_cons_cons, List.flatten_cons, runs_append, hn]
        rfl
      simp only
      rcases hr : runs (turnStep cfg numBatchs fuel) turns (s₁, d₁) with f | ⟨s', d'⟩
      · rw [hr] at hrest
        refine hrest.imp_right ?_
        rintro ⟨ns, hns⟩
        exact ⟨n :: ns, (happend ns).trans hns⟩
      · rw [hr] at hrest
        rcases hrest with ⟨ns, z, hlen, hns, hz⟩
        exact ⟨n :: ns, z, by rw [List.length_cons, hlen, List.length_cons],
          (happend ns).trans hns, hz⟩

/-- Whatever the complete operations do one after another, from `pebs_init` and in any order, the
threads do in one of their interleavings: that in which every turn is taken to its end before
the next one begins. -/
theorem turns_interleaved (cfg : Config) (numBatchs fuel : Nat) (turns : List (Turn Tid)) :
    match runs (turnStep cfg numBatchs fuel) turns (pebsInit cfg, .dramToDram) with
    | .ok (s, d) => ∃ ns y, ns.length = turns.length ∧
        runs (step cfg numBatchs) (turnLabels turns ns) (Sys.init cfg) = .ok y ∧ Between y s d
    | .error f => f = .running ∨
        ∃ ns, runs (step cfg numBatchs) (turnLabels turns ns) (Sys.init cfg) = .error f :=
  Between.turns fuel turns ⟨rfl, fun _ => rfl, rfl⟩

/-- A call that nobody interrupts, from any state that the system reaches and whatever the other
threads are in the middle of: after finitely many steps it has returned and done what the
complete operation does, or it has stopped with the fault of the complete operation. -/
theorem call_uninterrupted (cfg : Config) (numBatchs : Nat) {labels : List (Label Tid)}
    {x : Sys Tid} (hruns : runs (step cfg numBatchs) labels (Sys.init cfg) = .ok x) {t : Tid}
    (hidle : x.thr t = .idle) {c : Call} (hc : c.Inside) {fuel : Nat} (hfuel : 2 ^ 64 ≤ fuel) :
    match exec cfg (c.op fuel) x.st with
    | .ok s' => ∃ n y, runs (step cfg numBatchs) ((Turn.call t c).labels n) x = .ok y ∧
        y.st = s' ∧ y.thr = x.thr ∧ y.mig = x.mig
    | .error f => f ≠ .running ∧
        ∃ n, runs (step cfg numBatchs) ((Turn.call t c).labels n) x = .error f := by
  have hcustody : Custody cfg x := throughout_iff_runs.mp
    (custody_throughout cfg numBatchs labels (wf_pebsInit cfg)) labels (List.prefix_refl _) x hruns
  have hcall := call_labels cfg numBatchs x hidle c fuel
  cases hs : exec cfg (c.op fuel) x.st with
  | ok s' =>
    rw [hs] at hcall
    exact hcall
  | error f =>
    rw [hs] at hcall
    have hne : f ≠ .running := hc.exec_ne_running hcustody.freeOrder_length_le hfuel f hs
    exact ⟨hne, hcall.resolve_left hne⟩

/-- The other thread is between the dequeue of its page and the assertions of
`pebs_allocate_page`. -/
def allocatingLabels : List (Label Bool) :=
  [.start true (.missingFault 0x40000000), .run true, .run true]

def allocating : Sys Bool :=
  (runs (step smallConfig 1) allocatingLabels (Sys.init smallConfig)).toOption.getD
    (Sys.init smallConfig)

theorem allocating_reached :
    runs (step smallConfig 1) allocatingLabels (Sys.init smallConfig) = .ok allocating := rfl

/-- A missing fault is handled from its start to its end while the other thread has a page in
its hands. -/
theorem call_uninterrupted_allocating :
    allocating.thr true = .assertTier .fault 0x40000000 .dram 0 ∧
      ∃ s' n y, exec smallConfig (.missingFault 0x80000000) allocating.st = .ok s' ∧
        runs (step smallConfig 1)
          ((Turn.call false (.missingFault 0x80000000)).labels n) allocating = .ok y ∧
        y.st = s' ∧ y.thr = allocating.thr := by
  refine ⟨rfl, ?_⟩
  have hcall := call_uninterrupted smallConfig 1 allocating_reached (t := false) rfl
    (c := .missingFault 0x80000000) trivial (Nat.le_refl (2 ^ 64))
  rcases hs : exec smallConfig (.missingFault 0x80000000) allocating.st with f | s'
  · have hsome : (exec smallConfig (.missingFault 0x80000000)
        allocating.st).toOption.isSome = true := by decide +kernel
    rw [hs] at hsome
    cases hsome
  · rw [Call.op, hs] at hcall
    rcases hcall with ⟨n, y, hy, hst, hthr, -⟩
    exact ⟨s', n, y, rfl, hy, hst, hthr⟩

end Hemem
