import Hemem.Lib.Fair
import Hemem.Conc.Placing

/-!
# Hemem.Conc.Returns — every call returns

No loop of a call waits for another thread. The scans advance by the size of a page, the
iterations of a request and the entries to be rotated count down, and so each step of a thread
makes the rank of its program counter less, whatever the others do in between.

The exception are addresses at the very end of the address space, where the scans wrap.
-/

namespace Hemem

open Lib

variable {cfg : Config} {s s' : St}

/-- The loops over the addresses of the call end a page before the address space does. -/
def Call.Inside : Call → Prop
  | .mmap p length _ => (p + pageRoundUp length) % 2 ^ 64 + pageSize ≤ 2 ^ 64
  | .munmap addr length _ => (addr + length) % 2 ^ 64 + pageSize ≤ 2 ^ 64
  | .missingFault _ | .request .. => True

/-- An allocation at `va` is within the loop that it belongs to. -/
def Site.Inside (va : Nat) : Site → Prop
  | .populate stop => va < stop ∧ stop + pageSize ≤ 2 ^ 64
  | .fault => True

/-- The same in the course of a call; `pagesize` is that of a page once it has been read. -/
def Pc.Inside : Pc → Prop
  | .reserve p length _ => (p + pageRoundUp length) % 2 ^ 64 + pageSize ≤ 2 ^ 64
  | .registerAll p length _ => (p + length) % 2 ^ 64 + pageSize ≤ 2 ^ 64
  | .populateTest _ stop => stop + pageSize ≤ 2 ^ 64
  | .takeDram k va | .takeNvm k va | .assertTier k va _ _ | .assertAbsent k va _ _
  | .setPresent k va _ _ | .publish k va _ _ => k.Inside va
  | .place k _ r code => k.Inside r.va ∧ (.readLen ∈ code ∨ 0 < r.len ∧ r.len ≤ pageSize)
  | .scan u _ => (u.addr + u.length) % 2 ^ 64 + pageSize ≤ 2 ^ 64
  | .remove u pos _ | .countRemoved u pos _ | .advance u pos _ =>
    pos < (u.addr + u.length) % 2 ^ 64 ∧ (u.addr + u.length) % 2 ^ 64 + pageSize ≤ 2 ^ 64
  | _ => True

theorem Call.Inside.begin {c : Call} (h : c.Inside) : c.begin.Inside := by
  cases c with
  | mmap | munmap => exact h
  | missingFault | request => trivial

theorem Site.readLen_mem (k : Site) : .readLen ∈ k.code := by
  cases k <;> simp [Site.code]

/-- A statement after `pagefault()` leaves the address alone, and reads the size at most. -/
theorem AllocStep.inside {k : Site} {p : PageId} {i : AllocInstr} {code : List AllocInstr}
    {r r' : AllocRegs} (h : AllocStep p r i s r' s') (hr : (Pc.place k p r (i :: code)).Inside) :
    (Pc.place k p r' code).Inside := by
  refine ⟨h.va ▸ hr.1, ?_⟩
  rw [h.len]
  split
  · exact Or.inr ⟨ptToPagesize_pos _, ptToPagesize_le _⟩
  · rename_i hi
    rcases hr.2 with hmem | hlen
    · exact Or.inl ((List.mem_cons.mp hmem).resolve_left (Ne.symm hi))
    · exact Or.inr hlen

/-- A step does not leave the address space. -/
theorem ThreadStep.inside {pc pc' : Pc} {ev : List Event} (h : ThreadStep cfg pc s pc' s' ev)
    (hpc : pc.Inside) : pc'.Inside := by
  cases h
  case populateNext hlt => exact ⟨hlt, hpc⟩
  case missing => trivial
  case publish k va t p => exact ⟨hpc, Or.inl k.readLen_mem⟩
  case place hrun => exact (AllocInstr.run_ok hrun).inside hpc
  case placed k p r =>
    cases k with
    | populate stop => exact hpc.1.2
    | fault => trivial
  case scanHit hlt hp => exact ⟨hlt, hpc⟩
  case advance => exact hpc.2
  case reserve | registerPopulate | takeDram | dramFull | takeNvm | assertTier | assertAbsent
    | setPresent | remove | countRemoved => exact hpc
  case scanMiss => simpa only [Pc.Inside] using hpc
  all_goals trivial

/-- The addresses that are left to the loop of an allocation at `va`. -/
def Site.left (va : Nat) : Site → Nat
  | .populate stop => stop - va
  | .fault => 0

/-- What is left of a call: the part it is in, the addresses or iterations that its loop has
still to go through, the statement it is at, and what this statement itself counts down. -/
def Pc.rank : Pc → Rank
  | .idle => rankOf 0 0 0 0
  | .reserve .. => rankOf 2 0 0 0
  | .registerAll .. | .missing _ => rankOf 1 0 0 0
  | .populateTest va stop => rankOf 0 (stop - va) 8 0
  | .takeDram k va => rankOf 0 (k.left va) 7 0
  | .takeNvm k va => rankOf 0 (k.left va) 6 0
  | .assertTier k va _ _ => rankOf 0 (k.left va) 5 0
  | .assertAbsent k va _ _ => rankOf 0 (k.left va) 4 0
  | .setPresent k va _ _ => rankOf 0 (k.left va) 3 0
  | .publish k va _ _ => rankOf 0 (k.left va) 2 0
  | .place k _ r code => rankOf 0 (k.left r.va) 1 code.length
  | .choose _ _ left => rankOf 0 left 9 0
  | .rotate _ _ left k => rankOf 0 left 8 (2 * k)
  | .rotated _ _ left k _ => rankOf 0 left 8 (2 * k + 1)
  | .take _ _ left => rankOf 0 left 7 0
  | .assertInDram _ _ left _ => rankOf 0 left 6 0
  | .assertPresent _ _ left _ => rankOf 0 left 5 0
  | .put _ _ left _ => rankOf 0 left 4 0
  | .countPut _ _ left => rankOf 0 left 3 0
  | .requestTest _ _ left => rankOf 0 left 2 0
  | .scan u pos => rankOf 0 ((u.addr + u.length) % 2 ^ 64 - pos) 5 0
  | .remove u pos _ => rankOf 0 ((u.addr + u.length) % 2 ^ 64 - pos) 4 0
  | .countRemoved u pos _ => rankOf 0 ((u.addr + u.length) % 2 ^ 64 - pos) 3 0
  | .advance u pos _ => rankOf 0 ((u.addr + u.length) % 2 ^ 64 - pos) 2 0
  | .unmap _ => rankOf 0 0 1 0

/-- A scan that does not wrap comes closer to its end. -/
theorem sub_advance_lt {pos stop len : Nat} (hlt : pos < stop) (hstop : stop + pageSize ≤ 2 ^ 64)
    (hpos : 0 < len) (hlen : len ≤ pageSize) : stop - (pos + len) % 2 ^ 64 < stop - pos := by
  have hwrap : (pos + len) % 2 ^ 64 = pos + len := Nat.mod_eq_of_lt (by omega)
  omega

/-- Every step of a thread that is in a call brings it closer to its return. -/
theorem ThreadStep.rank_lt {pc pc' : Pc} {ev : List Event} (h : ThreadStep cfg pc s pc' s' ev)
    (hpc : pc.Inside) (hidle : pc ≠ .idle) : pc'.rank < pc.rank := by
  cases h
  case idle => exact absurd rfl hidle
  -- one statement less to run
  case place r r' i code hrun =>
    have hva := (AllocInstr.run_ok hrun).va
    simp only [Pc.rank, rankOf_lt, true_and, hva, List.length_cons]
    omega
  -- the page is placed: the loop goes on behind it, and a region that ends a page before the
  -- address space does not wrap
  case placed k p r =>
    cases k with
    | populate stop =>
      have hlen := hpc.2.resolve_left List.not_mem_nil
      have hless := sub_advance_lt hpc.1.1 hpc.1.2 hlen.1 hlen.2
      simp only [Pc.rank, Site.after, Site.left, rankOf_lt, true_and]
      omega
    | fault =>
      simp only [Pc.rank, Site.after, Site.left, rankOf_lt, true_and]
      omega
  -- the scan goes on by a base page
  case scanMiss u pos hlt hp =>
    have hbase : 0 < basepageSize ∧ basepageSize ≤ pageSize := by decide
    have hless := sub_advance_lt hlt hpc hbase.1 hbase.2
    simp only [Pc.rank, rankOf_lt, true_and]
    omega
  case advance u pos p =>
    have hless := sub_advance_lt hpc.1 hpc.2 (ptToPagesize_pos (s.page p).pt) (ptToPagesize_le _)
    simp only [Pc.rank, rankOf_lt, true_and]
    omega
  all_goals
    simp only [Pc.rank, Site.left, rankOf_lt, true_and]
    omega

/-! ## Runs -/

variable {Tid : Type} [DecidableEq Tid] {numBatchs : Nat} {x x' : Sys Tid}

/-- A call that the label starts is within the address space. -/
def Label.Inside : Label Tid → Prop
  | .start _ c => c.Inside
  | .run _ | .migrate => True

def Sys.Inside (x : Sys Tid) : Prop := ∀ t, (x.thr t).Inside

theorem Sys.Inside.step (h : x.Inside) {lbl : Label Tid} (hl : lbl.Inside)
    (hs : step cfg numBatchs lbl x = .ok x') : x'.Inside := by
  intro u
  cases lbl with
  | start t c =>
    rcases step_start hs with rfl | ⟨-, rfl⟩
    · exact h u
    · by_cases hu : u = t
      · subst hu
        simpa only [Function.update_self] using Call.Inside.begin hl
      · simpa only [Function.update_of_ne hu] using h u
  | run t =>
    rcases step_run hs with ⟨pc, ev, hstep, hthr, -⟩
    rw [hthr]
    by_cases hu : u = t
    · subst hu
      rw [Function.update_self]
      exact (threadStep_ok hstep).inside (h u)
    · rw [Function.update_of_ne hu]
      exact h u
  | migrate =>
    rcases step_migrate hs with ⟨ev, -, hthr, -⟩
    rw [hthr]
    exact h u

theorem inside_of_runs {labels : List (Label Tid)} (hl : ∀ lbl ∈ labels, lbl.Inside)
    (hruns : runs (step cfg numBatchs) labels (Sys.init cfg) = .ok x) : x.Inside := by
  have hthroughout : Throughout (Hemem.step cfg numBatchs) Sys.Inside labels (Sys.init cfg) :=
    throughout_of_along (C := fun _ lbl => lbl.Inside) (fun _ _ _ h hc hs => h.step hc hs)
      (fun _ => trivial) (Along.of_forall fun lbl hlbl _ => hl lbl hlbl)
  exact throughout_iff_runs.mp hthroughout labels (List.prefix_refl _) x hruns

/-- Only its own steps bring a thread closer to its return, and nothing takes it back. -/
theorem ranked_returns (cfg : Config) (numBatchs : Nat) (t : Tid) :
    Ranked (Hemem.step cfg numBatchs) (fun x => (x.thr t).Inside) (fun x => x.thr t = .idle)
      (fun x => (x.thr t).rank) (fun _ => .run t) := by
  have hrun : ∀ x x' : Sys Tid, (x.thr t).Inside → x.thr t ≠ .idle →
      Hemem.step cfg numBatchs (.run t) x = .ok x' →
      (x'.thr t).Inside ∧ (x'.thr t).rank < (x.thr t).rank := by
    intro x x' h hidle hs
    rcases step_run hs with ⟨pc, ev, hstep, hthr, -⟩
    rw [hthr, Function.update_self]
    exact ⟨(threadStep_ok hstep).inside h, (threadStep_ok hstep).rank_lt h hidle⟩
  constructor
  case helps =>
    intro x x' h hidle hs
    exact Or.inr (hrun x x' h hidle hs).2
  case keeps =>
    intro lbl x x' h hidle hs
    -- the other threads and the migration thread leave the program counter alone
    have hother : x'.thr t = x.thr t → (x'.thr t).Inside ∧
        ((x'.thr t).rank < (x.thr t).rank ∨
          ((x'.thr t).rank = (x.thr t).rank ∧ Label.run t = Label.run t)) := by
      intro hthr
      rw [hthr]
      exact ⟨h, Or.inr ⟨rfl, rfl⟩⟩
    refine Or.inr ?_
    cases lbl with
    | start u c =>
      rcases step_start hs with rfl | ⟨hu, rfl⟩
      · exact hother rfl
      · have hne : t ≠ u := by
          rintro rfl
          exact hidle hu
        exact hother (Function.update_of_ne hne ..)
    | run u =>
      by_cases hu : t = u
      · subst hu
        rcases hrun x x' h hidle hs with ⟨hinside, hless⟩
        exact ⟨hinside, Or.inl hless⟩
      · rcases step_run hs with ⟨pc, ev, -, hthr, -⟩
        apply hother
        rw [hthr, Function.update_of_ne hu]
    | migrate =>
      rcases step_migrate hs with ⟨ev, -, hthr, -⟩
      exact hother (congrFun hthr t)

/-- Whatever the other threads do, a thread that takes its steps again and again returns from
the call it is in, unless the run stops. -/
theorem calls_return (cfg : Config) (numBatchs : Nat) {labels : List (Label Tid)}
    (hl : ∀ lbl ∈ labels, lbl.Inside) {x : Sys Tid}
    (hruns : runs (Hemem.step cfg numBatchs) labels (Sys.init cfg) = .ok x) (t : Tid)
    {sched : Nat → Label Tid} (ht : Recurs sched (.run t)) :
    ∃ n, ∀ x', runs (Hemem.step cfg numBatchs) (turns sched n) x = .ok x' → x'.thr t = .idle :=
  (ranked_returns cfg numBatchs t).eventually (fun _ => ht) (inside_of_runs hl hruns t)

/-- A region is mapped with all its pages, and another one unmapped. -/
def twoCalls : List (Label Bool) :=
  [.start false (.mmap 0x40000000 pageSize true), .start true (.munmap 0x80000000 pageSize true)]

theorem twoCalls_inside : ∀ lbl ∈ twoCalls, lbl.Inside := by
  intro lbl hlbl
  simp only [twoCalls, List.mem_cons, List.not_mem_nil, or_false] at hlbl
  rcases hlbl with rfl | rfl
  · show (0x40000000 + pageRoundUp pageSize) % 2 ^ 64 + pageSize ≤ 2 ^ 64
    decide
  · show (0x80000000 + pageSize) % 2 ^ 64 + pageSize ≤ 2 ^ 64
    decide

/-- One thread maps a page, the other unmaps a range, and they take turns. -/
theorem calls_return_two :
    ∃ x, runs (Hemem.step smallConfig 1) twoCalls (Sys.init smallConfig) = .ok x ∧
      ∃ n, ∀ x', runs (Hemem.step smallConfig 1)
        (turns (fun n => if n % 2 = 0 then .run true else .run false) n) x = .ok x' →
          x'.thr true = .idle := by
  refine ⟨_, rfl, calls_return smallConfig 1 twoCalls_inside rfl true fun n => ?_⟩
  exact ⟨2 * n, by omega, if_pos (Nat.mul_mod_right 2 n)⟩

end Hemem
