import Mathlib.Tactic.TFAE
import Hemem.MigTestRuns

/-!
# Hemem.MigTestRoom — how large a region `mig-test.c` can measure

Where a tier has fewer pages than the region, `main` does not come to its end in any schedule.
If it is DRAM, part of the region has been placed in NVM, and the request for all pages
divides by zero when it has put those in DRAM; if it is NVM, a batch finds no free descriptor.
The lengths of the lists show it: what has been put comes from the DRAM list, and what has
moved is on a list whose descriptors are those of NVM.
-/

namespace Hemem

open Lib

variable {cfg : Config} {t : MigTest} {s s' : St} {x x' : TestSys} {i : Nat}

/-- Where the pages are after `i` iterations of the first request. -/
structure Tally (cfg : Config) (t : MigTest) (i : Nat) (s : St) : Prop where
  inStep : InStep cfg s
  toPut : (s.list (.mmap .dram)).length + i = min t.npage (cfg.npages .dram)
  werePut : (s.list (.queue .dramToNvm)).length + (s.list (.mmap .nvm)).length =
    i + (t.npage - cfg.npages .dram)
  nvm : (s.list (.mmap .nvm)).length + (s.list (.free .nvm)).length = cfg.npages .nvm
  others : ∀ e, e ≠ .dramToNvm → s.list (.queue e) = []

/-- A region that has been mapped is spread over the tiers as far as they have pages. -/
theorem MigTest.tally_of_map (t : MigTest)
    (hr : hememMmap cfg t.c t.size true (pebsInit cfg) = .ok s) : Tally cfg t 0 s := by
  have hinside := t.inside
  have hlen : t.size = t.npage * pageSize := rfl
  have hexec : exec cfg (.mmap t.c t.size true) (pebsInit cfg) = .ok s := hr
  have hw := wf_pebsInit cfg
  rcases hw.populated_of_mmap (by omega) (by rw [t.pageRoundUp_size]; omega) hr with
    ⟨m, -, hround, hpop⟩
  have hm : m = t.npage := by
    rw [t.pageRoundUp_size] at hround
    exact (Nat.mul_right_cancel (by decide) hround).symm
  subst hm
  have hroom : t.npage ≤ (freeOrder (pebsInit cfg)).length := hpop.enough
  have hregion := hpop.region hw
  have hdiv : t.npage * pageSize / pageSize = t.npage := t.size_div
  have hmmap := hregion.mmap
  have hfree := hregion.free
  rw [hdiv] at hmmap hfree
  have hqueue : ∀ e, s.list (.queue e) = [] := by
    intro e
    rw [(hregion.queue e).1, pebsInit_list]
  -- the lists of `pebs_init` and how many descriptors are taken off each
  have hlists : ((pebsInit cfg).list (.free .dram)).length = cfg.npages .dram ∧
      ((pebsInit cfg).list (.free .nvm)).length = cfg.npages .nvm := by
    rw [pebsInit_list, pebsInit_list]
    simp
  have htaken : takenFrom (pebsInit cfg) t.npage .dram = min t.npage (cfg.npages .dram) ∧
      takenFrom (pebsInit cfg) t.npage .nvm = t.npage - cfg.npages .dram := by
    rw [takenFrom, takenFrom]
    exact ⟨by rw [hlists.1], by rw [hlists.1]⟩
  have hmapped : ∀ u, s.list (.mmap u) =
      ((pebsInit cfg).list (.free u)).take (takenFrom (pebsInit cfg) t.npage u) := by
    intro u
    rw [hmmap, pebsInit_list cfg (.mmap u), List.nil_append]
  rw [freeOrder, List.length_append, hlists.1, hlists.2] at hroom
  refine ⟨(inStep_pebsInit cfg).exec hexec rfl, ?_, ?_, ?_, fun e _ => hqueue e⟩
  · rw [hmapped, htaken.1, List.length_take, hlists.1]
    omega
  · rw [hqueue, hmapped, htaken.2, List.length_take, hlists.2, List.length_nil]
    omega
  · rw [hmapped, hfree, htaken.2, List.length_take, List.length_drop, hlists.2]
    omega

theorem Tally.write (h : Tally cfg t i s) {a : Nat} {v : Byte} (hr : appWrite a v s = .ok s') :
    Tally cfg t i s' := by
  have hexec : exec cfg (.write a v) s = .ok s' := hr
  have hinStep := h.inStep.exec hexec rfl
  have hs' := appWrite_ok hr
  rw [hs'] at hinStep ⊢
  exact ⟨hinStep, h.toPut, h.werePut, h.nvm, h.others⟩

/-- An iteration of the request that returns has put a page. -/
theorem Tally.put (h : Tally cfg t i s) {r k : Nat}
    (hr : (beforeTake .dramToNvm true r s >>= putPage .dramToNvm) = .ok (k, s')) :
    k = 1 ∧ Tally cfg t (i + 1) s' := by
  have hreq : Requestable .dramToNvm s :=
    h.inStep.wf.requestable .dramToNvm (h.inStep.counters _)
  rw [← request_one] at hr
  -- otherwise it has divided by zero
  have hone : 1 ≤ (s.list (.mmap .dram)).length := by
    by_contra hnone
    have hlt : (s.list (.mmap Dir.dramToNvm.src)).length < (1 : Int).toNat :=
      Nat.lt_of_not_le hnone
    rw [hreq.random_fails hlt] at hr
    cases hr
  have hstep : request .dramToNvm 1 true (fun _ => r) s =
      .ok (1, s.randomly .dramToNvm (fun _ => r) 1) := hreq.random_eq hone
  have hexec : exec cfg (.request .dramToNvm 1 true fun _ => r) s = .ok s' := by
    rw [exec, hr]
    rfl
  have hpair := Except.ok.inj (hstep.symm.trans hr)
  obtain rfl : 1 = k := congrArg Prod.fst hpair
  obtain rfl : s.randomly .dramToNvm (fun _ => r) 1 = s' := congrArg Prod.snd hpair
  have hother : ∀ l, l ≠ .mmap .dram → l ≠ .queue .dramToNvm →
      (s.randomly .dramToNvm (fun _ => r) 1).list l = s.list l := by
    intro l hsrc hqueue
    rw [St.randomly, St.requested_list, Function.update_of_ne hqueue]
    exact Function.update_of_ne hsrc _ _
  have htaken : ((s.randomly .dramToNvm (fun _ => r) 1).list (.queue .dramToNvm)).length =
      (s.list (.queue .dramToNvm)).length + 1 := by
    have hone' : 1 ≤ (s.list (.mmap Dir.dramToNvm.src)).length := hone
    rw [St.randomly, St.requested_list, Function.update_self, List.length_append,
      length_selection hone']
  have hleft : ((s.randomly .dramToNvm (fun _ => r) 1).list (.mmap .dram)).length =
      (s.list (.mmap .dram)).length - 1 :=
    (congrArg List.length (requested_list_mmap s .dramToNvm _ _)).trans (length_remaining hone)
  have htoPut := h.toPut
  have hwerePut := h.werePut
  refine ⟨rfl, h.inStep.exec hexec rfl, ?_, ?_, ?_, fun e he => ?_⟩
  · omega
  · rw [htaken, hother (.mmap .nvm) (by simp) (by simp)]
    omega
  · rw [hother (.mmap .nvm) (by simp) (by simp), hother (.free .nvm) (by simp) (by simp)]
    exact h.nvm
  · rw [hother _ (by simp) (by simpa using he)]
    exact h.others e he

/-- A batch that returns has moved its pages to descriptors of NVM. -/
theorem Tally.migrate (h : Tally cfg t i s) {B : Nat} {d : Dir}
    (hr : migrationRequest cfg B d s = .ok s') : Tally cfg t i s' := by
  have hw := h.inStep.wf
  have hexec : exec cfg (.migrate B d) s = .ok s' := hr
  have hinStep := h.inStep.exec hexec rfl
  rcases Nat.eq_zero_or_pos (s.list (.queue d)).length with hnil | hpos
  · rw [hw.migrationRequest_nil hnil] at hr
    exact Except.ok.inj hr ▸ h
  -- nothing is asked back to DRAM
  obtain rfl : d = .dramToNvm := by
    by_contra hd
    rw [h.others d hd] at hpos
    cases hpos
  rcases (hw.migrationRequest_pos hpos).mp hr with ⟨hc, rfl⟩
  have hready : Ready .dramToNvm (min B (s.list (.queue .dramToNvm)).length) s :=
    ⟨Nat.min_le_right _ _, hc.enough⟩
  have hcross : Dir.dramToNvm.src ≠ Dir.dramToNvm.dst := by simp [Dir.src, Dir.dst]
  have hmoved := congrArg List.length (batched_mmapDst hready)
  have hleft := congrArg List.length (batched_freeDst hready hcross)
  have hwait := congrArg List.length (batched_queue (e := .dramToNvm) hready)
  rw [List.length_append, List.length_take] at hmoved
  rw [List.length_drop] at hleft
  rw [if_pos rfl, List.length_drop] at hwait
  have henough : min B (s.list (.queue .dramToNvm)).length ≤ (s.list (.free .nvm)).length :=
    hready.free
  simp only [Dir.dst] at hmoved hleft
  have hwerePut := h.werePut
  have hnvm := h.nvm
  refine ⟨hinStep, ?_, ?_, ?_, fun e he => ?_⟩
  · exact (congrArg (List.length · + i) (batched_mmapSrc hready hcross)).trans h.toPut
  · omega
  · omega
  · rw [batched_queue hready, if_neg he]
    exact h.others e he

/-- With all pages put and none waiting, there has been room for them. -/
theorem Tally.fits (h : Tally cfg t t.npage s) (htest : getListNum .dramToNvm s = 0) :
    t.Fits cfg := by
  have htoPut := h.toPut
  have hwerePut := h.werePut
  have hnvm := h.nvm
  have hlt := t.npage_lt
  have hq : s.list (.queue .dramToNvm) = [] :=
    (h.inStep.counters.getListNum_eq_zero (by omega)).mp htest
  rw [hq, List.length_nil] at hwerePut
  exact ⟨by omega, by omega⟩

/-! ## Runs -/

/-- `main` has come out of the first wait. -/
def TestPc.back : TestPc → Bool
  | .request .up _ _ | .wait .up | .unmap | .waitTotal | .done => true
  | .map | .store _ | .request .down _ _ | .wait .down => false

/-- What every run keeps, however many pages there are. -/
inductive TestTally (cfg : Config) (t : MigTest) : TestSys → Prop where
  | map {s dir out} (hs : s = pebsInit cfg) : TestTally cfg t ⟨s, dir, .map, out⟩
  | store {s dir i out} (h : Tally cfg t 0 s) : TestTally cfg t ⟨s, dir, .store i, out⟩
  | request {s dir i pagePut out} (hi : i ≤ t.npage) (h : Tally cfg t i s) :
      TestTally cfg t ⟨s, dir, .request .down i pagePut, out⟩
  | wait {s dir out} (h : Tally cfg t t.npage s) : TestTally cfg t ⟨s, dir, .wait .down, out⟩
  | back {x : TestSys} (hfit : t.Fits cfg) (hback : x.pc.back = true) : TestTally cfg t x

theorem mainStep_back (hback : x.pc.back = true) (hstep : mainStep cfg t x = .ok x') :
    x'.pc.back = true := by
  unfold mainStep at hstep
  split at hstep
  case h_1 hpc =>
    rw [hpc] at hback
    cases hback
  case h_2 hpc =>
    rw [hpc] at hback
    cases hback
  -- only the second request is behind the first wait
  case h_3 half i pagePut hpc =>
    rw [hpc] at hback
    cases half with
    | down => cases hback
    | up =>
      split at hstep
      · simp only [bind_eq_ok, Except.ok.injEq] at hstep
        rcases hstep with ⟨s₁, -, r, -, rfl⟩
        rfl
      · obtain rfl := Except.ok.inj hstep
        rfl
  case h_4 half hpc =>
    obtain rfl := Except.ok.inj hstep
    rw [hpc] at hback
    cases half with
    | down => cases hback
    | up =>
      split
      · rw [hpc]
        rfl
      · rfl
  case h_5 hpc =>
    simp only [bind_eq_ok, Except.ok.injEq] at hstep
    rcases hstep with ⟨r, -, rfl⟩
    rfl
  case h_6 hpc =>
    obtain rfl := Except.ok.inj hstep
    split
    · exact hback
    · rfl
  case h_7 hpc =>
    obtain rfl := Except.ok.inj hstep
    exact hback

theorem TestTally.mainStep (h : TestTally cfg t x) (hstep : mainStep cfg t x = .ok x') :
    TestTally cfg t x' := by
  cases h with
  | map hs =>
    simp only [Hemem.mainStep, bind_eq_ok, Except.ok.injEq] at hstep
    rcases hstep with ⟨s', hr, rfl⟩
    exact .store (t.tally_of_map (hs ▸ hr))
  | @store s dir i out h =>
    simp only [Hemem.mainStep] at hstep
    split at hstep
    · simp only [bind_eq_ok, Except.ok.injEq] at hstep
      rcases hstep with ⟨s', hr, rfl⟩
      exact .store (h.write hr)
    · obtain rfl := Except.ok.inj hstep
      exact .request (Nat.zero_le _) h
  | @request s dir i pagePut out hi h =>
    simp only [Hemem.mainStep] at hstep
    split at hstep
    · rename_i hlt
      simp only [bind_eq_ok, Except.ok.injEq] at hstep
      rcases hstep with ⟨s₁, hchoose, r, hput, rfl⟩
      have hr : (beforeTake .dramToNvm true (t.rand i) s >>= putPage .dramToNvm) =
          .ok (r.1, r.2) := bind_eq_ok.mpr ⟨s₁, hchoose, hput⟩
      exact .request hlt (h.put hr).2
    · rename_i hge
      obtain rfl := Except.ok.inj hstep
      obtain rfl : i = t.npage := Nat.le_antisymm hi (Nat.le_of_not_lt hge)
      exact .wait h
  | @wait s dir out h =>
    simp only [Hemem.mainStep, Except.ok.injEq] at hstep
    subst hstep
    split
    · exact .wait h
    · rename_i htest
      exact .back (h.fits (not_not.mp htest)) rfl
  | back hfit hback => exact .back hfit (mainStep_back hback hstep)

theorem TestTally.migratorStep {B : Nat} (h : TestTally cfg t x)
    (hstep : migratorStep cfg B x = .ok x') : TestTally cfg t x' := by
  simp only [Hemem.migratorStep, bind_eq_ok, Except.ok.injEq] at hstep
  rcases hstep with ⟨s', hr, rfl⟩
  cases h with
  | @map s dir out hs =>
    subst hs
    have hidle := (sound_pebsInit cfg).migrate_idle (pebsInit_list cfg (.queue dir)) B
    exact .map (Except.ok.inj (hr.symm.trans hidle))
  | store h => exact .store (h.migrate hr)
  | request hi h => exact .request hi (h.migrate hr)
  | wait h => exact .wait (h.migrate hr)
  | back hfit hback => exact .back hfit hback

/-- A run that comes to the end shows that there is room. -/
theorem fits_of_done {B : Nat} {sched : List TestThread}
    (hruns : runs (testStep cfg B t) sched (testInit cfg) = .ok x) (hdone : x.pc = .done) :
    t.Fits cfg := by
  have hx : TestTally cfg t x := by
    refine of_runs (I := TestTally cfg t) ?_ (.map rfl) hruns
    intro x i x' h hstep
    cases i with
    | main => exact h.mainStep hstep
    | migrator => exact h.migratorStep hstep
  cases hx with
  | back hfit _ => exact hfit
  | map | store | request | wait => cases hdone

/-- Every fair schedule takes `main` to its end when either tier has as many pages as the
region, and no schedule at all does otherwise. -/
theorem migTest_finishes_tfae (cfg : Config) {B : Nat} (hB : 0 < B) (t : MigTest) :
    [t.Fits cfg,
      ∀ sched, Fair sched → ∃ n x,
        runs (testStep cfg B t) (turns sched n) (testInit cfg) = .ok x ∧ x.pc = .done,
      ∃ sched x, runs (testStep cfg B t) sched (testInit cfg) = .ok x ∧ x.pc = .done].TFAE := by
  tfae_have 1 → 2 := fun hfit sched hfair => hfit.finishes hB hfair
  tfae_have 2 → 3 := by
    intro h
    rcases h alternately fair_alternately with ⟨n, x, hruns, hdone⟩
    exact ⟨turns alternately n, x, hruns, hdone⟩
  tfae_have 3 → 1 := by
    rintro ⟨sched, x, hruns, hdone⟩
    exact fits_of_done hruns hdone
  tfae_finish

/-- The program as it is, when its two threads take turns. -/
theorem migTest_finishes_alternately :
    ∃ n x, runs (testStep hememConfig 1 hememTest) (turns alternately n) (testInit hememConfig) =
      .ok x ∧ x.pc = .done := by
  have htfae := migTest_finishes_tfae hememConfig (B := 1) (by decide) hememTest
  exact (htfae.out 0 1 rfl rfl).mp ⟨by decide, by decide⟩ alternately fair_alternately

end Hemem
