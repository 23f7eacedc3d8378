import Hemem.Granularity
import Hemem.Conc.Registers

/-!
# Hemem.Conc.Unmapped — what comes back after `hemem_munmap`

`hemem_munmap` and the migration thread share no lock over a page. Whether a
migration maps a page again that has been unmapped depends on how far it has come:
before `UFFDIO_WRITEPROTECT` this call fails on the unmapped page, between `MAP_FIXED`
and `UFFDIO_REGISTER` the latter does, and either ends the process. In between, from
the write protection of the page to its `MAP_FIXED`, nothing looks at the mapping, and
`MAP_FIXED` maps the page whether the range still belongs to the application or not.
-/

namespace Hemem

open Lib

variable {Tid : Type} {cfg : Config} {s s' : St}

/-- The addresses for which a `hemem_munmap` has returned 0. -/
def Sys.gone (x : Sys Tid) (a : Nat) : Prop :=
  ∃ addr length, .unmapped addr length ∈ x.hist ∧ inRange addr length a = true

/-- What has been unmapped is neither mapped nor registered. -/
def StaysUnmapped (x : Sys Tid) : Prop :=
  ∀ a, x.gone a → x.st.vm a = none ∧ x.st.registered a = false

/-- The thread is in `hemem_mmap` or `handle_missing_fault`. -/
def Pc.allocates : Pc → Bool
  | .reserve .. | .registerAll .. | .populateTest .. | .missing .. | .takeDram .. | .takeNvm ..
  | .assertTier .. | .assertAbsent .. | .setPresent .. | .publish .. | .place .. => true
  | _ => false

/-- The arguments of the `libc_munmap` that the thread calls next. -/
def Pc.unmapArgs : Pc → Option Unmap
  | .unmap u => some u
  | _ => none

/-- No range is handed out: the threads call request functions and `hemem_munmap`. -/
def Label.HasNoMmap : Label Tid → Prop
  | .start _ (.mmap ..) | .start _ (.missingFault ..) => False
  | _ => True

instance : DecidablePred (@Label.HasNoMmap Tid) := fun lbl =>
  match lbl with
  | .start _ (.mmap ..) | .start _ (.missingFault ..) => isFalse id
  | .start _ (.request ..) | .start _ (.munmap ..) | .run _ | .migrate => isTrue trivial

/-- A successful `libc_munmap` of a range that holds no page of the batch between its
write protection and its `MAP_FIXED`; any other step. -/
def UnmapsInTime (x : Sys Tid) : Label Tid → Prop
  | .run t => ∀ u ∈ (x.thr t).unmapArgs, (libcMunmap u.addr u.length u.accept x.st).1 = 0 →
    ∀ e ∈ x.mig.window, ∀ p ∈ e.page,
      u.addr + u.length ≤ (x.st.page p).va ∨ (x.st.page p).va + pageSize ≤ u.addr
  | .start _ _ | .migrate => True

instance (x : Sys Tid) : DecidablePred (UnmapsInTime x) := fun lbl =>
  match lbl with
  | .run t => inferInstanceAs (Decidable (∀ u ∈ (x.thr t).unmapArgs,
      (libcMunmap u.addr u.length u.accept x.st).1 = 0 → ∀ e ∈ x.mig.window, ∀ p ∈ e.page,
        u.addr + u.length ≤ (x.st.page p).va ∨ (x.st.page p).va + pageSize ≤ u.addr))
  | .start _ _ | .migrate => isTrue trivial

/-! ## Steps -/

theorem libcMunmap_failed {addr length : Nat} {accept : Bool}
    (h : (libcMunmap addr length accept s).1 ≠ 0) : (libcMunmap addr length accept s).2 = s := by
  rcases libcMunmap_cases addr length accept s with hcase | hcase
  · rw [hcase]
  · rw [hcase] at h
    exact absurd rfl h

/-- A thread outside the two mapping calls changes no descriptor, and the address
space only by a successful `libc_munmap`. -/
theorem ThreadStep.unmapping {pc pc' : Pc} {ev : List Event} (h : ThreadStep cfg pc s pc' s' ev)
    (hpc : pc.allocates = false) :
    pc'.allocates = false ∧ s'.page = s.page ∧
      ((s'.vm = s.vm ∧ s'.registered = s.registered ∧ ∀ addr length, .unmapped addr length ∉ ev) ∨
        ∃ u, pc = .unmap u ∧ (libcMunmap u.addr u.length u.accept s).1 = 0 ∧
          s' = (libcMunmap u.addr u.length u.accept s).2 ∧ ev = [.unmapped u.addr u.length]) := by
  cases h
  case reserve | register | registerPopulate | populateNext | populateDone | missing | takeDram |
      dramFull | takeNvm | assertTier | assertAbsent | setPresent | publish | place | placed =>
    cases hpc
  case unmap u hret => exact ⟨rfl, libcMunmap_page .., Or.inr ⟨u, rfl, hret, rfl, rfl⟩⟩
  case unmapFailed u hret =>
    rw [libcMunmap_failed hret]
    exact ⟨rfl, rfl, Or.inl ⟨rfl, rfl, by simp⟩⟩
  case countRemoved p u pos =>
    refine ⟨rfl, countMunmap_page _ _, Or.inl ⟨?_, ?_, by simp⟩⟩ <;>
      · unfold countMunmap
        split <;> rfl
  all_goals exact ⟨rfl, rfl, Or.inl ⟨rfl, rfl, by simp⟩⟩

/-! ## The invariant -/

structure Unmapping (cfg : Config) (x : Sys Tid) : Prop where
  custody : Custody cfg x
  grained : Grained x.st
  pt : ∀ p, (x.st.page p).pt = .hugep
  aligned : ∀ p, p < cfg.total → (x.st.page p).present = true → (x.st.page p).va % pageSize = 0
  regs : RegsOk x.st x.mig
  calls : ∀ t, (x.thr t).allocates = false
  stays : StaysUnmapped x
  /-- the pages in the window have not been unmapped -/
  window : ∀ e ∈ x.mig.window, ∀ p, e.page = some p →
    ∀ a, inRange (x.st.page p).va pageSize a = true → ¬ x.gone a

theorem Wf.unmapping_quiet (h : Wf cfg s) (hg : Grained s) :
    Unmapping cfg (Sys.quiet s : Sys Tid) where
  custody := h.custody_quiet
  grained := hg
  pt := h.pt
  aligned p hp hpresent := by
    rcases (h.held p).mpr hp with ⟨l, hl⟩
    exact h.aligned hl ((h.present hl).symm.trans hpresent)
  regs := by constructor <;> intros <;> contradiction
  calls t := rfl
  stays a ha := by
    rcases ha with ⟨addr, length, hmem, -⟩
    simp [Sys.quiet] at hmem
  window e he := by simp [Sys.quiet, Mpc.window] at he

/-- The page of the entry at hand is aligned. -/
theorem Unmapping.head_aligned {x : Sys Tid} (h : Unmapping cfg x) {d : Dir} {ph : Phase}
    {done todo : List Entry} {e : Entry} {code : List MigInstr} {r : MigRegs} {p : PageId}
    (hmig : x.mig = .loop d ph done (e :: todo) code r) (hph : ph ≠ .giveBack)
    (hp : e.page = some p) : (x.st.page p).va % pageSize = 0 := by
  have hitem : inUse (d.pageTier ph code) p ∈ x.items .migrator := by
    rw [Sys.items, hmig]
    exact Mpc.head_mem_items hph hp
  have hlt : p < cfg.total := (h.custody.held p).mp ⟨.migrator, mem_entries.mpr ⟨_, hitem⟩⟩
  exact h.aligned p hlt (Prod.mk.inj (h.custody.books.agree hitem)).2

/-- The range of the entry at hand, where a statement uses it. -/
theorem Unmapping.head_addr {x : Sys Tid} (h : Unmapping cfg x) {d : Dir} {ph : Phase}
    {done todo : List Entry} {e : Entry} {i : MigInstr} {code : List MigInstr} {r : MigRegs}
    (hmig : x.mig = .loop d ph done (e :: todo) (i :: code) r) (hi : i = .map ∨ i = .register) :
    ph = .remap ∧ r.addr % pageSize = 0 ∧ r.len = pageSize ∧
      ∃ p, e.page = some p ∧ r.addr = (x.st.page p).va := by
  have hm : i :: code <:+ d.code ph := by
    have := h.custody.mig
    rwa [hmig] at this
  have hmem := hm.sublist.mem (List.mem_cons_self ..)
  obtain rfl : ph = .remap := by
    rcases hi with rfl | rfl
    · exact Dir.map_mem hmem
    · exact Dir.register_mem hmem
  have hpassed := Dir.readAddr_passed hm (Or.inr hi)
  rcases h.regs.addr hmig (Or.inr rfl) hpassed with ⟨p, hp, haddr⟩
  refine ⟨rfl, ?_, h.regs.len hmig (by simp) (by simp) (by simp), p, hp, haddr⟩
  rw [haddr]
  exact h.head_aligned hmig (by simp) hp

/-- The address space after a step of the migration thread, apart from the pages that
have been unmapped. -/
theorem Unmapping.migrate_vm {x : Sys Tid} (h : Unmapping cfg x) {numBatchs : Nat} {m' : Mpc}
    {ev : List Event}
    (hs : MigStep cfg numBatchs x.mig x.st m' s' ev) :
    Grained s' ∧ (∀ a, x.gone a → s'.vm a = none ∧ s'.registered a = false) ∧
      ∀ addr length, .unmapped addr length ∉ ev := by
  generalize hmig : x.mig = m at hs
  cases hs
  case instr d ph done e todo i code r r' hrun =>
    rcases MigInstr.run_vm hrun with ⟨hev, -, hcase⟩
    refine ⟨?_, ?_, hev⟩
    · rcases hcase with ⟨-, -, hvm, hreg⟩ | ⟨rfl, rfl⟩ | ⟨rfl, hvm, rfl⟩
      · exact h.grained.congr hvm hreg
      · rcases h.head_addr hmig (Or.inl rfl) with ⟨-, hal, hlen, -⟩
        rw [hlen]
        exact h.grained.mmapFixed hal _ _
      · rcases h.head_addr hmig (Or.inr rfl) with ⟨-, hal, hlen, -⟩
        rw [hlen]
        exact h.grained.registerPage hal hvm
    · intro a ha
      rcases hcase with ⟨-, -, hvm, hreg⟩ | ⟨rfl, rfl⟩ | ⟨rfl, hvm, rfl⟩
      · rw [hvm, hreg]
        exact h.stays a ha
      · -- the page that is mapped is in the window
        rcases h.head_addr hmig (Or.inl rfl) with ⟨rfl, -, hlen, p, hp, haddr⟩
        have hwin : e ∈ x.mig.window := by simp [hmig, Mpc.window]
        have hout : ¬ inRange r.addr r.len a = true := by
          intro hin
          rw [hlen, haddr] at hin
          exact h.window e hwin p hp a hin ha
        simp only [mmapFixed_vm, mmapFixed_registered, if_neg hout]
        exact h.stays a ha
      · -- a page that is mapped has not been unmapped
        rcases h.head_addr hmig (Or.inr rfl) with ⟨-, hal, hlen, -⟩
        have hout : ¬ inRange r.addr r.len a = true := by
          intro hin
          rw [hlen] at hin
          rw [← h.grained.mapped_page hal hin, (h.stays a ha).1] at hvm
          cases hvm
        simp only [registerRange_registered, if_neg hout]
        exact h.stays a ha
  case count d num =>
    refine ⟨h.grained.congr ?_ ?_, fun a ha => ?_, by simp⟩
    · cases d <;> rfl
    · cases d <;> rfl
    · have := h.stays a ha
      cases d <;> exact this
  all_goals exact ⟨h.grained.congr rfl rfl, fun a ha => h.stays a ha, by simp⟩

variable [DecidableEq Tid] {numBatchs : Nat}

theorem Unmapping.step_run {x x' : Sys Tid} (h : Unmapping cfg x) {t : Tid}
    (htime : UnmapsInTime x (.run t)) (hs : step cfg numBatchs (.run t) x = .ok x') :
    Unmapping cfg x' := by
  have hcustody := h.custody.step (.run t) hs
  rcases Hemem.step_run hs with ⟨pc, ev, hstep, hthr, hmig, hhist⟩
  rcases (threadStep_ok hstep).unmapping (h.calls t) with ⟨hpc, hpage, hcase⟩
  have hcalls : ∀ u, (x'.thr u).allocates = false := by
    intro u
    rw [hthr]
    by_cases hu : u = t
    · subst hu
      simpa using hpc
    · simpa [hu] using h.calls u
  have hregs : RegsOk x'.st x'.mig := by
    rw [hmig]
    exact h.regs.congr fun p _ => by rw [hpage]
  rcases hcase with ⟨hvm, hreg, hev⟩ | ⟨u, hpcu, hret, hst, rfl⟩
  · -- any other step unmaps nothing
    have hgone : ∀ a, x'.gone a ↔ x.gone a := by
      intro a
      simp [Sys.gone, hhist, hev]
    refine ⟨hcustody, h.grained.congr hvm hreg, by rw [hpage]; exact h.pt,
      by rw [hpage]; exact h.aligned, hregs, hcalls, ?_, ?_⟩
    · intro a ha
      rw [hvm, hreg]
      exact h.stays a ((hgone a).mp ha)
    · rw [hmig, hpage]
      intro e he p hp a ha
      rw [hgone]
      exact h.window e he p hp a ha
  · -- the range of the call is unmapped, and is outside the window
    have hgone : ∀ a, x'.gone a → x.gone a ∨ inRange u.addr u.length a = true := by
      rintro a ⟨addr, length, hmem, ha⟩
      rw [hhist, List.mem_append, List.mem_singleton] at hmem
      rcases hmem with hmem | heq
      · exact Or.inl ⟨addr, length, hmem, ha⟩
      · rcases Event.unmapped.inj heq with ⟨rfl, rfl⟩
        exact Or.inr ha
    have hunmap : x'.st = unmapRange u.addr (munmapStop u.addr u.length - u.addr) x.st := by
      rcases libcMunmap_cases u.addr u.length u.accept x.st with hcase | hcase
      · rw [hcase] at hret
        cases hret
      · rw [hst, hcase]
    refine ⟨hcustody, ?_, by rw [hpage]; exact h.pt, by rw [hpage]; exact h.aligned, hregs,
      hcalls, ?_, ?_⟩
    · rw [hst]
      exact h.grained.libcMunmap _ _ _
    · intro a ha
      rw [hunmap]
      simp only [unmapRange_vm, unmapRange_registered]
      rcases hgone a ha with hold | hnew
      · split
        · exact ⟨rfl, rfl⟩
        · exact h.stays a hold
      · -- the kernel unmaps whole base pages, so at least the range
        have hin : inRange u.addr (munmapStop u.addr u.length - u.addr) a = true := by
          rw [inRange_iff] at hnew ⊢
          unfold munmapStop
          simp only [basepageSize_eq]
          omega
        rw [if_pos hin, if_pos hin]
        exact ⟨rfl, rfl⟩
    · rw [hmig, hpage]
      intro e he p hp a ha hg
      rcases hgone a hg with hold | hnew
      · exact h.window e he p hp a ha hold
      · have hargs : u ∈ (x.thr t).unmapArgs := by rw [hpcu]; rfl
        have hout := htime u hargs hret e he p hp
        rw [inRange_iff] at ha hnew
        omega

theorem Unmapping.step_migrate {x x' : Sys Tid} (h : Unmapping cfg x)
    (hs : step cfg numBatchs .migrate x = .ok x') : Unmapping cfg x' := by
  have hcustody := h.custody.step .migrate hs
  rcases Hemem.step_migrate hs with ⟨ev, hstep, hthr, hhist⟩
  have hmig := migStep_ok hstep
  have hkeeps := hmig.keeps
  rcases h.migrate_vm hmig with ⟨hgrained, hstays, hev⟩
  -- the migration thread unmaps nothing
  have hgone : ∀ a, x'.gone a ↔ x.gone a := by
    intro a
    simp [Sys.gone, hhist, hev]
  refine ⟨hcustody, hgrained, fun p => (hkeeps p).pt.trans (h.pt p), fun p hp hpresent => ?_,
    h.regs.step hmig h.pt, fun t => hthr ▸ h.calls t, ?_, ?_⟩
  · rw [(hkeeps p).va]
    exact h.aligned p hp ((hkeeps p).present hpresent)
  · intro a ha
    exact hstays a ((hgone a).mp ha)
  · intro e he p hp a ha
    rw [(hkeeps p).va] at ha
    rw [hgone]
    intro hg
    rcases hmig.window h.custody.mig e he with hold | ⟨d, done, todo, code, r, hm, hreg, -⟩
    · exact h.window e hold p hp a ha hg
    · -- the page is registered, so it has not been unmapped
      have hcode : .writeprotect :: code <:+ d.code .protect := by
        have := h.custody.mig
        rwa [hm] at this
      have hpassed := Dir.readAddr_passed hcode (Or.inl rfl)
      rcases h.regs.addr hm (Or.inl rfl) hpassed with ⟨q, hq, haddr⟩
      obtain rfl : q = p := Option.some.inj (hq.symm.trans hp)
      have hpage := h.grained.registered_page (h.head_aligned hm (by simp) hp) ha
      rw [← haddr, hreg, (h.stays a hg).2] at hpage
      cases hpage

/-- Every step keeps the invariant as long as no page is unmapped in the middle of its migration. -/
theorem Unmapping.step {x x' : Sys Tid} (h : Unmapping cfg x) {lbl : Label Tid}
    (hcall : lbl.HasNoMmap) (htime : UnmapsInTime x lbl)
    (hs : step cfg numBatchs lbl x = .ok x') : Unmapping cfg x' := by
  cases lbl with
  | start t c =>
    have hcustody := h.custody.step (.start t c) hs
    rcases step_start hs with rfl | ⟨-, rfl⟩
    · exact h
    · refine ⟨hcustody, h.grained, h.pt, h.aligned, h.regs, fun u => ?_, h.stays, h.window⟩
      by_cases hu : u = t
      · subst hu
        cases c with
        | mmap | missingFault => cases hcall
        | request | munmap => simp only [Function.update_self, Call.begin, Pc.allocates]
      · simpa [hu] using h.calls u
  | run t => exact h.step_run htime hs
  | migrate => exact h.step_migrate hs

/-- `hemem_munmap` callers, requesters and the migration thread, from any state that
complete operations with aligned reservations reach: when every successful `libc_munmap`
finds no page of its range between the write protection and the `MAP_FIXED` of a batch,
no unmapped address is ever mapped or registered again. -/
theorem staysUnmapped_throughout (cfg : Config) (numBatchs : Nat) {ops : List Op} {s : St}
    (hops : ∀ op ∈ ops, AlignedMmap op) (hs : runs (exec cfg) ops (pebsInit cfg) = .ok s)
    (labels : List (Label Tid)) (hlabels : ∀ lbl ∈ labels, lbl.HasNoMmap)
    (htime : Along (step cfg numBatchs) UnmapsInTime labels (Sys.quiet s)) :
    Throughout (step cfg numBatchs) StaysUnmapped labels (Sys.quiet s) := by
  rcases grained_of_runs hops hs with ⟨hwf, hgrained⟩
  have hinv : Throughout (Hemem.step cfg numBatchs) (Unmapping cfg) labels (Sys.quiet s) :=
    throughout_of_along (fun _ _ _ hx hc hs => hx.step hc.1 hc.2 hs) (hwf.unmapping_quiet hgrained)
      (htime.and_forall hlabels)
  exact hinv.imp fun _ hx => hx.stays

/-- A page is mapped and put on the queue to NVM. -/
def queuedRun : List Op :=
  [.mmap 0x40000000 pageSize true, .request .dramToNvm 1 false fun _ => 0]

/-- The state after `queuedRun`. -/
def queued : St := (runs (exec smallConfig) queuedRun (pebsInit smallConfig)).toOption.getD St.empty

theorem runs_queued : runs (exec smallConfig) queuedRun (pebsInit smallConfig) = .ok queued := rfl

/-- The page is unmapped when the batch has taken it and has not protected it. -/
def earlyUnmap : List (Label Unit) :=
  List.replicate 12 .migrate ++ .start () (.munmap 0x40000000 pageSize true) ::
    List.replicate 6 (.run ())

/-- The page is unmapped before the migration thread protects it. -/
theorem staysUnmapped_throughout_early :
    Throughout (step smallConfig 1) StaysUnmapped earlyUnmap (Sys.quiet queued) :=
  @staysUnmapped_throughout Unit _ smallConfig 1 queuedRun queued (by decide) runs_queued earlyUnmap
    (by decide) (by decide +kernel)

/-- The page is unmapped when the batch has copied it and is about to remap it. -/
def lateUnmap : List (Label Unit) :=
  List.replicate 24 .migrate ++ .start () (.munmap 0x40000000 pageSize true) ::
    List.replicate 6 (.run ()) ++ List.replicate 4 .migrate

/-- At the end of `lateUnmap` the page is mapped again. -/
theorem staysUnmapped_fails_late :
    runs (exec smallConfig) queuedRun (pebsInit smallConfig) = .ok queued ∧
      (∀ op ∈ queuedRun, AlignedMmap op) ∧ (∀ lbl ∈ lateUnmap, lbl.HasNoMmap) ∧
      ¬ Throughout (step smallConfig 1) StaysUnmapped lateUnmap (Sys.quiet queued) := by
  refine ⟨rfl, by decide, by decide, ?_⟩
  refine not_throughout_of_map
    (f := fun x => decide (x.hist = [.unmapped 0x40000000 pageSize] ∧
      (x.st.vm 0x40000000).isSome = true)) (b := true) rfl fun x hx hstays => ?_
  rcases of_decide_eq_true hx with ⟨hhist, hvm⟩
  have hgone : x.gone 0x40000000 := ⟨0x40000000, pageSize, by simp [hhist], by decide⟩
  rw [(hstays _ hgone).1] at hvm
  cases hvm

end Hemem
