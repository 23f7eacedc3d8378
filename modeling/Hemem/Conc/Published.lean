import Hemem.AddressSpace
import Hemem.Conc.Placing

/-!
# Hemem.Conc.Published — which pages migrate

A page on a mmap list may still be in the hands of its allocator, which has not mapped
it yet, has not set its `va` and has not entered it in the table. A batch is harmless
precisely when all its pages have come out of their allocators' hands by the time it
begins to migrate: then every page that migrates has a `va`, is in the table under it
and is mapped there to its slot, and its allocator does not touch it any more.

The invariant follows the pages that are mapped (`Sys.Placed`): from the `MAP_FIXED` of
its allocator on, a page is mapped to the slot that the local variables, later the
descriptor and between `MAP_FIXED` and the last assignment of a migration the entry of
the batch name, and no two of these pages overlap.
-/

namespace Hemem

open Lib

variable {Tid : Type} {cfg : Config} {s s' : St}

/-- The range that the thread maps next, whatever is there: a reservation, or the
`MAP_FIXED` of an allocation. -/
def Pc.places : Pc → Option (Nat × Nat)
  | .reserve p length _ => some (p, pageRoundUp length)
  | .place _ _ r (.map :: _) => some (r.va, r.len)
  | _ => none

/-- The kernel reserves a range that is free, and a fault is missing while no device is
mapped there. -/
def PlacesFree (x : Sys Tid) : Label Tid → Prop
  | .run t => ∀ w ∈ (x.thr t).places, NoDevice x.st w.1 w.2
  | .start _ _ | .migrate => True

/-- A step that maps nothing. -/
def PlacesNothing (x : Sys Tid) : Label Tid → Prop
  | .run t => (x.thr t).places = none
  | .start _ _ | .migrate => True

instance (x : Sys Tid) : DecidablePred (PlacesNothing x) := fun lbl =>
  match lbl with
  | .run t => inferInstanceAs (Decidable ((x.thr t).places = none))
  | .start _ _ | .migrate => isTrue trivial

/-- A step that places nothing meets the condition on the kernel. -/
theorem PlacesNothing.placesFree {x : Sys Tid} {lbl : Label Tid} (h : PlacesNothing x lbl) :
    PlacesFree x lbl := by
  cases lbl with
  | run t =>
    intro w hw
    rw [show (x.thr t).places = none from h] at hw
    cases hw
  | start | migrate => trivial

/-- Anything may be mapped where nothing is. -/
theorem placesFree_of_vm {x : Sys Tid} (h : ∀ a, device x.st a = none) (lbl : Label Tid) :
    PlacesFree x lbl := by
  cases lbl with
  | run t => exact fun _ _ a _ => h a
  | start | migrate => trivial

/-! ## Pages in the address space -/

/-- Pages that are mapped to their slots and do not overlap. -/
structure Laid (P : PageId → Nat → Tier × Nat → Prop) (s : St) : Prop where
  mapped : ∀ {p va slot}, P p va slot → MapsTo s va slot
  apart : ∀ {p q va vb slot slot'}, P p va slot → P q vb slot' → p ≠ q → Apart va vb

variable {P P' : PageId → Nat → Tier × Nat → Prop}

/-- A step that changes the address space only where no device is mapped. -/
theorem Laid.frame (h : Laid P s) (hP : ∀ {p va slot}, P' p va slot → P p va slot)
    (hvm : ∀ a, device s a ≠ none → device s' a = device s a) : Laid P' s' where
  mapped hp k hk := by
    have hmapped := h.mapped (hP hp) k hk
    rw [hvm _ (by simp [hmapped]), hmapped]
  apart hp hq hne := h.apart (hP hp) (hP hq) hne

/-- The page `p` is mapped, apart from the others. -/
theorem Laid.map (h : Laid P s) {p : PageId} {va off : Nat} {t : Tier}
    (hvm : s'.vm = (mmapFixed va pageSize t off s).vm)
    (hP : ∀ {q vb slot}, P' q vb slot →
      (q = p ∧ vb = va ∧ slot = (t, off)) ∨ (q ≠ p ∧ P q vb slot))
    (hfree : ∀ {q vb slot}, P q vb slot → q ≠ p → Apart va vb) : Laid P' s' where
  mapped {q vb slot} hq k hk := by
    have hdev : device s' (vb + k) =
        if inRange va pageSize (vb + k) then some (t, off + (vb + k - va))
        else device s (vb + k) := by
      simp only [device, hvm, mmapFixed_vm]
      split <;> rfl
    rw [hdev]
    rcases hP hq with ⟨-, rfl, rfl⟩ | ⟨hne, hq⟩
    · rw [if_pos (inRange_add hk), Nat.add_sub_cancel_left]
    · rw [if_neg ((hfree hq hne).notMem (inRange_add hk))]
      exact h.mapped hq k hk
  apart hq hq' hne := by
    rcases hP hq with ⟨rfl, rfl, -⟩ | ⟨hne₁, hq⟩ <;> rcases hP hq' with ⟨rfl, rfl, -⟩ | ⟨hne₂, hq'⟩
    · exact absurd rfl hne
    · exact hfree hq' hne₂
    · exact (hfree hq hne₁).symm
    · exact h.apart hq hq' hne

/-! ## Pages of the system -/

/-- The slot that a page is mapped to: that of its descriptor, and from the `MAP_FIXED`
of a migration until the next entry that of the entry. -/
def Mpc.slotOf (m : Mpc) (s : St) (p : PageId) : Tier × Nat :=
  match m with
  | .loop d .remap _ (e :: _) code _ =>
    if e.page = some p ∧ .map ∉ code then (d.dst, e.offset) else (s.page p).slot
  | _ => (s.page p).slot

/-- The page is in use and its allocation is finished. -/
def Sys.Finished (x : Sys Tid) (p : PageId) : Prop :=
  (x.st.page p).present = true ∧ ∀ t, (x.thr t).allocating ≠ some p

/-- The page is mapped at `va` to `slot`. -/
inductive Sys.Placed (x : Sys Tid) : PageId → Nat → Tier × Nat → Prop where
  /-- by its allocator, which is not finished -/
  | placing {t k p r i code} (hpc : x.thr t = .place k p r (i :: code))
    (hmap : .map ∉ i :: code) : Placed x p r.va (.ofInDram r.inDram, r.offset)
  | finished {p} (h : x.Finished p) : Placed x p (x.st.page p).va (x.mig.slotOf x.st p)

structure Published (cfg : Config) (x : Sys Tid) : Prop where
  allocs : Allocs cfg x
  /-- no page of the batch is being allocated -/
  settled : ∀ p ∈ x.mig.held, ∀ t, (x.thr t).allocating ≠ some p
  pt : ∀ p, (x.st.page p).pt = .hugep
  calls : ∀ t, (x.thr t).unmaps = false
  regs : RegsOk x.st x.mig
  /-- the last assignment of the loop that remaps -/
  written : ∀ {d done e todo r p}, x.mig = .loop d .remap done (e :: todo) [] r →
    e.page = some p → (x.st.page p).devdaxOffset = e.offset
  stage : ∀ {t k p r i code}, x.thr t = .place k p r (i :: code) → Stage x.st k p r (i :: code)
  tabled : ∀ {p}, x.Finished p → (x.st.page p).va ≠ 0 ∧ (x.st.page p).va % pageSize = 0 ∧
    x.st.pages (x.st.page p).va = some p
  laid : Laid x.Placed x.st

/-- Before any call no page is published and none is moved. -/
theorem published_init (cfg : Config) : Published cfg (Sys.init cfg : Sys Tid) := by
  have hnone : ∀ p, ¬ (Sys.init cfg : Sys Tid).Finished p := by
    rintro p ⟨hpresent, -⟩
    simp only [Sys.init, Sys.quiet, pebsInit_page] at hpresent
    split at hpresent
    · cases hpresent
    · split at hpresent <;> cases hpresent
  have hplaced : ∀ p va slot, ¬ (Sys.init cfg : Sys Tid).Placed p va slot := by
    rintro p va slot (⟨hpc, -⟩ | hfin)
    · cases hpc
    · exact hnone p hfin
  refine ⟨(wf_pebsInit cfg).allocs_quiet, fun _ hp => ?_, (wf_pebsInit cfg).pt,
    fun t => rfl, ?_, ?_, ?_, ?_, ?_⟩
  · cases hp
  · constructor <;> intros <;> contradiction
  · intros
    contradiction
  · intros
    contradiction
  · exact fun hp => absurd hp (hnone _)
  · exact ⟨fun hp => absurd hp (hplaced _ _ _), fun hp => absurd hp (hplaced _ _ _)⟩

/-- The slot of a page that is not in the batch. -/
theorem Mpc.slotOf_notMem {m : Mpc} {p : PageId} (hp : p ∉ m.held) :
    m.slotOf s p = (s.page p).slot := by
  unfold Mpc.slotOf
  split
  · rename_i d done e todo code r
    rw [if_neg]
    rintro ⟨hpage, -⟩
    exact hp (List.mem_map_of_mem (Mpc.head_mem_items (by simp) hpage))
  · rfl

theorem Mpc.slotOf_congr (m : Mpc) {p : PageId} (h : (s'.page p).slot = (s.page p).slot) :
    m.slotOf s' p = m.slotOf s p := by
  unfold Mpc.slotOf
  split
  · rw [h]
  · exact h

/-! ## Steps of the migration thread -/

/-- The loop that remaps ends with the assignment to `devdax_offset`. -/
theorem Dir.last_remap {d : Dir} {i : MigInstr} (h : [i] <:+ d.code .remap) : i = .setOffset := by
  cases d <;> simpa [Dir.code, List.suffix_cons_iff] using h

/-- The migration thread holds the free descriptor whose slot it assigns to. -/
theorem Mpc.next_mem_items {d : Dir} {ph : Phase} {done todo : List Entry} {e : Entry}
    {i : MigInstr} {code : List MigInstr} {r : MigRegs} (h : i :: code <:+ d.code ph)
    (hi : i = .setFreeOffset ∨ i = .setFreeInDram) :
    unused (d.freeTier ph (i :: code)) e.next ∈
      (Mpc.loop d ph done (e :: todo) (i :: code) r).items := by
  obtain rfl := Dir.giveBack_of_mem (i := i) (by rcases hi with rfl | rfl <;> simp [Dir.code])
    (h.sublist.mem (List.mem_cons_self ..))
  have hfree : .enqueueFree ∈ i :: code := by
    rcases hi with rfl | rfl <;> have hsuffix := Dir.giveBack_suffix h <;> simp_all
  simp [Mpc.items, Entry.items, Entry.freeItems, hfree]

/-- Every loop of an iteration has a statement. -/
theorem Dir.code_ne_nil (d : Dir) (ph : Phase) : d.code ph ≠ [] := by
  cases d <;> cases ph <;> simp [Dir.code, Dir.src]

/-- A page that is in use is mapped to the same slot after a step, unless the step is
its `MAP_FIXED`. -/
theorem MigStep.slotOf {numBatchs : Nat} {m m' : Mpc} {ev : List Event} (hm : m.Wf)
    (h : MigStep cfg numBatchs m s m' s' ev) (hbook : ∀ p v, (p, v) ∈ m.items → s.flags p = v)
    (hwritten : ∀ {d done e todo r p}, m = .loop d .remap done (e :: todo) [] r →
      e.page = some p → (s.page p).devdaxOffset = e.offset)
    {q : PageId} (hq : (s.page q).present = true) :
    (m'.slotOf s' q = m.slotOf s q ∧ ∀ {d done e todo code r},
      m = .loop d .remap done (e :: todo) (.map :: code) r → e.page ≠ some q) ∨
      ∃ d done e todo code r, m = .loop d .remap done (e :: todo) (.map :: code) r ∧
        e.page = some q ∧ m'.slotOf s' q = (d.dst, e.offset) := by
  cases h
  -- the slot changes with `MAP_FIXED`, which maps the page to the slot its entry names
  case instr d ph done e todo i code r r' hrun =>
    rcases MigInstr.run_slot hrun q with ⟨-, hslot⟩
    have hmem := hm.sublist.mem (List.mem_cons_self ..)
    have hnot := notMem_of_suffix hm
    by_cases hmap : i = .map
    · subst hmap
      obtain rfl := Dir.map_mem hmem
      have hsame : (s'.page q).slot = (s.page q).slot := by simpa using hslot
      by_cases hpage : e.page = some q
      · exact Or.inr ⟨d, done, e, todo, code, r, rfl, hpage, by simp [Mpc.slotOf, hpage, hnot]⟩
      · refine Or.inl ⟨by simp [Mpc.slotOf, hpage, hsame], ?_⟩
        rintro _ _ _ _ _ _ ⟨rfl⟩
        exact hpage
    · refine Or.inl ⟨?_, ?_⟩
      swap
      · rintro _ _ _ _ _ _ ⟨rfl⟩
        exact absurd rfl hmap
      rcases hslot with hsame | ⟨hi, hpage⟩ | ⟨hi, rfl⟩
      · cases ph <;> simp [Mpc.slotOf, hsame, Ne.symm hmap]
      · -- after `MAP_FIXED` the entry names the slot
        obtain rfl : ph = .remap := by
          rcases hi with rfl | rfl
          · exact Dir.setInDram_mem hmem
          · exact Dir.setOffset_mem hmem
        have hpassed := Dir.map_passed hm hi
        have hrest : .map ∉ code := fun hc => hpassed (List.mem_cons_of_mem _ hc)
        simp [Mpc.slotOf, hpage, hrest, Ne.symm hmap]
      · -- the free descriptor is not in use
        have hflags := hbook _ _ (Mpc.next_mem_items hm hi)
        rw [(Prod.mk.inj hflags).2] at hq
        cases hq
  -- the entry has been written back to the descriptor
  case nextEntry d ph done e todo r =>
    refine Or.inl ⟨?_, by simp⟩
    cases ph
    case remap =>
      have hnew : Mpc.slotOf (.loop d .remap (done ++ [e]) todo (d.code .remap) r) s q =
          (s.page q).slot := by
        cases todo <;> simp [Mpc.slotOf, d.map_mem_remap]
      rw [hnew]
      by_cases hpage : e.page = some q
      · have hflags := hbook q (d.dst.inDram, true) (Mpc.head_mem_items (by simp) hpage)
        have htier : (s.page q).tier = d.dst := by
          rw [HememPage.tier, (Prod.mk.inj hflags).1, Tier.ofInDram_inDram]
        simp [Mpc.slotOf, hpage, HememPage.slot, htier, hwritten rfl hpage]
      · simp [Mpc.slotOf, hpage]
    all_goals rfl
  case nextLoop d ph ph' done code r hnext =>
    refine Or.inl ⟨?_, by simp⟩
    have hold : Mpc.slotOf (.loop d ph done [] code r) s q = (s.page q).slot := by
      simp [Mpc.slotOf]
    have hnew : Mpc.slotOf (.loop d ph' [] done (d.code ph') r) s q = (s.page q).slot := by
      cases ph' <;> cases done <;> simp [Mpc.slotOf, d.map_mem_remap]
    rw [hold, hnew]
  case count => exact Or.inl ⟨Mpc.slotOf_congr _ (by simp), by simp⟩
  all_goals exact Or.inl ⟨rfl, by simp⟩

/-- The slot of a descriptor that the migration thread does not hold stays. -/
theorem MigStep.slot {numBatchs : Nat} {m m' : Mpc} {ev : List Event} (hm : m.Wf)
    (h : MigStep cfg numBatchs m s m' s' ev) {q : PageId} (hq : q ∉ m.held) :
    (s'.page q).slot = (s.page q).slot := by
  cases h
  case instr d ph done e todo i code r r' hrun =>
    have hmem := hm.sublist.mem (List.mem_cons_self ..)
    rcases (MigInstr.run_slot hrun q).2 with hsame | ⟨hi, hpage⟩ | ⟨hi, rfl⟩
    · exact hsame
    · have hph : ph ≠ .giveBack := by
        rcases hi with rfl | rfl
        · simp [Dir.setInDram_mem hmem]
        · simp [Dir.setOffset_mem hmem]
      exact absurd (List.mem_map_of_mem (Mpc.head_mem_items hph hpage)) hq
    · exact absurd (List.mem_map_of_mem (Mpc.next_mem_items hm hi)) hq
  case count => simp
  all_goals rfl

/-- The migration thread leaves the table alone. -/
theorem MigStep.pages {numBatchs : Nat} {m m' : Mpc} {ev : List Event}
    (h : MigStep cfg numBatchs m s m' s' ev) : s'.pages = s.pages := by
  cases h
  case instr hrun => exact MigInstr.run_pages hrun
  case count => simp
  all_goals rfl

/-- After the remap the descriptor has the offset of the entry. -/
theorem MigStep.written {numBatchs : Nat} {m m' : Mpc} {ev : List Event} (hm : m.Wf)
    (h : MigStep cfg numBatchs m s m' s' ev) {d : Dir} {done todo : List Entry} {e : Entry}
    {r : MigRegs} {p : PageId} (hm' : m' = .loop d .remap done (e :: todo) [] r)
    (hp : e.page = some p) : (s'.page p).devdaxOffset = e.offset := by
  cases h
  case instr hrun =>
    rcases hm' with ⟨rfl⟩
    obtain rfl := Dir.last_remap hm
    exact (MigInstr.run_slot hrun p).1 rfl hp
  case nextEntry | nextLoop => exact absurd (Mpc.loop.inj hm').2.2.2.2.1 (Dir.code_ne_nil _ _)
  case begin => exact nomatch (Mpc.loop.inj hm').2.1
  all_goals contradiction

/-- The address space changes with `MAP_FIXED` only. -/
theorem MigStep.vm {numBatchs : Nat} {m m' : Mpc} {ev : List Event} (hm : m.Wf)
    (h : MigStep cfg numBatchs m s m' s' ev) :
    (s'.vm = s.vm ∧
      ∀ d done e todo code r, m ≠ .loop d .remap done (e :: todo) (.map :: code) r) ∨
    ∃ d done e todo code r, m = .loop d .remap done (e :: todo) (.map :: code) r ∧
      s' = mmapFixed r.addr r.len d.dst e.offset s := by
  cases h
  case instr d ph done e todo i code r r' hrun =>
    rcases (MigInstr.run_vm hrun).2.2 with ⟨hmap, -, hvm, -⟩ | ⟨rfl, hst⟩ | ⟨rfl, -, hst⟩
    · refine Or.inl ⟨hvm, ?_⟩
      rintro _ _ _ _ _ _ ⟨rfl⟩
      exact hmap rfl
    · obtain rfl := Dir.map_mem (hm.sublist.mem (List.mem_cons_self ..))
      exact Or.inr ⟨d, done, e, todo, code, r, rfl, hst⟩
    · refine Or.inl ⟨by rw [hst, registerRange_vm], ?_⟩
      simp
  case count d num => exact Or.inl ⟨by cases d <;> rfl, by simp⟩
  all_goals exact Or.inl ⟨rfl, by simp⟩

/-! ## The invariant -/

/-- A page that migrates is in use, and its allocation is finished. -/
theorem Published.finished {x : Sys Tid} (h : Published cfg x) {p : PageId} {b : Bool}
    (hp : (p, b, true) ∈ x.mig.items) (hheld : p ∈ x.mig.held) : x.Finished p :=
  ⟨(Prod.mk.inj (h.allocs.custody.books.agree (i := .migrator) hp)).2, h.settled p hheld⟩

/-- The entries of a batch that is complete and begins to migrate. -/
def Mpc.ready : Mpc → List Entry
  | .dequeuePage _ 0 es => es
  | _ => []

/-- No page of a batch that begins to migrate is being allocated. -/
def BatchPublished (x : Sys Tid) : Label Tid → Prop
  | .migrate => ∀ e ∈ x.mig.ready, ∀ p ∈ e.page, ∀ t, (x.thr t).allocating ≠ some p
  | .start _ _ | .run _ => True

instance [Fintype Tid] (x : Sys Tid) : DecidablePred (BatchPublished x) := fun lbl =>
  match lbl with
  | .migrate => inferInstanceAs
      (Decidable (∀ e ∈ x.mig.ready, ∀ p ∈ e.page, ∀ t, (x.thr t).allocating ≠ some p))
  | .start _ _ | .run _ => isTrue trivial

/-- A batch keeps its pages and descriptors until it gives them back. -/
theorem MigStep.held {numBatchs : Nat} {m m' : Mpc} {ev : List Event} (hm : m.Wf)
    (h : MigStep cfg numBatchs m s m' s' ev) {p : PageId} (hp : p ∈ m'.held) :
    p ∈ m.held ∨ ∃ d es, m = .dequeuePage d 0 es ∧ p ∈ m.items.map Prod.fst := by
  have hsame : s'.list = s.list → p ∈ m'.items.map Prod.fst → p ∈ m.items.map Prod.fst :=
    fun hlist => ((h.effect hm).entries_perm hlist).mem_iff.mp
  cases h
  case begin d es => exact Or.inr ⟨d, es, rfl, hsame rfl hp⟩
  case instr d ph done e todo i code r r' hrun =>
    simp only [Mpc.held, Mpc.items, List.map_append, List.mem_append] at hp ⊢
    exact Or.inl (hp.imp_left (Entry.entries_cons i code))
  case nextEntry | nextLoop => exact Or.inl (hsame rfl hp)
  all_goals cases hp

/-- A batch holds pages in use, and free descriptors, which are not present. -/
theorem Allocs.begin_published {x : Sys Tid} (h : Allocs cfg x)
    (hbatch : BatchPublished x .migrate) {d : Dir} {es : List Entry}
    (hmig : x.mig = .dequeuePage d 0 es) {p : PageId} (hp : p ∈ x.mig.items.map Prod.fst)
    (t : Tid) : (x.thr t).allocating ≠ some p := by
  intro halloc
  rcases List.mem_map.mp hp with ⟨⟨q, v⟩, hitem, rfl⟩
  have hpresent : v.2 = true := by
    rw [← h.live t q halloc]
    exact congrArg Prod.snd (h.custody.books.agree (i := .migrator) hitem).symm
  simp only [hmig, Mpc.items, List.mem_flatMap, Entry.items, List.mem_append] at hitem
  rcases hitem with ⟨e, he, hpage | hfree⟩
  · have hq : e.page = some q := by
      simp [Entry.pageItems, inUse] at hpage
      exact hpage.1
    exact hbatch e (by simpa [hmig, Mpc.ready] using he) q hq t halloc
  · have hv : v.2 = false := by
      simp [Entry.freeItems, unused] at hfree
      simp [hfree]
    rw [hv] at hpresent
    cases hpresent

variable [DecidableEq Tid] {numBatchs : Nat}

/-- A step keeps the pages of the batch apart from those whose allocation is under way. -/
theorem Published.settled_step {x x' : Sys Tid} (h : Published cfg x) {lbl : Label Tid}
    (hbatch : BatchPublished x lbl) (hs : step cfg numBatchs lbl x = .ok x') :
    ∀ p ∈ x'.mig.held, ∀ t, (x'.thr t).allocating ≠ some p := by
  intro p hp t halloc
  -- a page comes into the batch from the queue only, when the first one is dequeued
  have hheld : p ∈ x.mig.held ∨ ∃ d es, lbl = .migrate ∧ x.mig = .dequeuePage d 0 es ∧
      p ∈ x.mig.items.map Prod.fst := by
    cases lbl with
    | start u c =>
      rcases Hemem.step_start hs with rfl | ⟨-, rfl⟩ <;> exact Or.inl hp
    | run u =>
      rcases Hemem.step_run hs with ⟨pc, ev, -, -, hmig, -⟩
      exact Or.inl (hmig ▸ hp)
    | migrate =>
      rcases Hemem.step_migrate hs with ⟨ev, hok, -⟩
      rcases (migStep_ok hok).held h.allocs.custody.mig hp with hold | ⟨d, es, hmig, hitem⟩
      · exact Or.inl hold
      · exact Or.inr ⟨d, es, rfl, hmig, hitem⟩
  rcases allocating_step hs halloc with hold | ⟨hpresents, rfl, -⟩
  · rcases hheld with hheld | ⟨d, es, rfl, hmig, hitem⟩
    · exact h.settled p hheld t hold
    · exact h.allocs.begin_published hbatch hmig hitem t hold
  · -- the page is in the hands of the thread, and not in the batch
    rcases hheld with hheld | ⟨d, es, hlbl, -⟩
    · have hitem : p ∈ entries x.items .migrator := Mpc.held_sub hheld
      have hsame := h.allocs.custody.books.excl.unique hitem (h.allocs.notPresent hpresents).1
      cases hsame
    · cases hlbl

/-- A step of the migration thread keeps the invariant. -/
theorem Published.step_migrate {x x' : Sys Tid} (h : Published cfg x)
    (hallocs : Allocs cfg x') (hsettled : ∀ p ∈ x'.mig.held, ∀ t, (x'.thr t).allocating ≠ some p)
    (hs : step cfg numBatchs .migrate x = .ok x') : Published cfg x' := by
  rcases Hemem.step_migrate hs with ⟨ev, hok, hthr, -⟩
  have hstep := migStep_ok hok
  have hm := h.allocs.custody.mig
  have hkeeps := hstep.keeps
  have hbook : ∀ p v, (p, v) ∈ x.mig.items → x.st.flags p = v :=
    fun p v hp => h.allocs.custody.books.agree (i := .migrator) hp
  have hfinished : ∀ {p}, x'.Finished p → x.Finished p :=
    fun hp => ⟨(hkeeps _).present hp.1, fun t => hthr ▸ hp.2 t⟩
  -- a page that is being placed is in no batch
  have hplacing : ∀ {t k p r i code}, x'.thr t = .place k p r (i :: code) →
      x.thr t = .place k p r (i :: code) ∧ p ∉ x.mig.held := by
    intro t k p r i code hpc
    rw [hthr] at hpc
    exact ⟨hpc, fun hp => h.settled p hp t (by rw [hpc]; rfl)⟩
  refine ⟨hallocs, hsettled, fun p => (hkeeps p).pt.trans (h.pt p), fun t => hthr ▸ h.calls t,
    h.regs.step hstep h.pt, fun hm' hp => hstep.written hm hm' hp, ?_, ?_, ?_⟩
  · intro t k p r i code hpc
    rcases hplacing hpc with ⟨hpc, hnot⟩
    exact (h.stage hpc).congr (hkeeps p).va (hstep.slot hm hnot)
  · intro p hp
    rw [(hkeeps p).va, hstep.pages]
    exact h.tabled (hfinished hp)
  · rcases hstep.vm hm with ⟨hvm, hother⟩ | ⟨d, done, e, todo, code, r, hmig, hst⟩
    · refine h.laid.frame ?_ fun a _ => by simp only [device, hvm]
      rintro p va slot (⟨hpc, hmap⟩ | hfin)
      · exact .placing (hplacing hpc).1 hmap
      · rcases hstep.slotOf hm hbook h.written (hfinished hfin).1 with
          ⟨hslot, -⟩ | ⟨d, done, e, todo, code, r, hmig, -⟩
        · rw [(hkeeps p).va, hslot]
          exact .finished (hfinished hfin)
        · exact absurd hmig (hother d done e todo code r)
    · -- the page at hand is mapped to its new slot
      have hcode : .map :: code <:+ d.code .remap := by rwa [hmig] at hm
      have haddr := Dir.readAddr_passed hcode (Or.inr (Or.inl rfl))
      rcases h.regs.addr hmig (Or.inr rfl) haddr with ⟨p, hp, hrp⟩
      have hlen : r.len = pageSize := h.regs.len hmig (by simp) (by simp) (by simp)
      have hitem : inUse (d.pageTier .remap (.map :: code)) p ∈ x.mig.items := by
        rw [hmig]
        exact Mpc.head_mem_items (by simp) hp
      have hheld : p ∈ x.mig.held := hmig ▸ List.mem_map_of_mem (hmig ▸ hitem)
      have hfin := h.finished hitem hheld
      have hvm : x'.st.vm = (mmapFixed (x.st.page p).va pageSize d.dst e.offset x.st).vm := by
        rw [hst, hrp, hlen]
      refine h.laid.map (p := p) hvm ?_ ?_
      · rintro q va slot (⟨hpc, hmap⟩ | hfinq)
        · refine Or.inr ⟨?_, .placing (hplacing hpc).1 hmap⟩
          rintro rfl
          exact (hplacing hpc).2 hheld
        · rcases hstep.slotOf hm hbook h.written (hfinished hfinq).1 with
            ⟨hslot, hne⟩ | ⟨d', done', e', todo', code', r', hmig', hpage, hslot⟩
          · refine Or.inr ⟨?_, ?_⟩
            · rintro rfl
              exact hne hmig hp
            · rw [(hkeeps q).va, hslot]
              exact .finished (hfinished hfinq)
          · rw [hmig] at hmig'
            rcases hmig' with ⟨rfl⟩
            obtain rfl : q = p := Option.some.inj (hpage.symm.trans hp)
            exact Or.inl ⟨rfl, (hkeeps q).va, hslot⟩
      · intro q vb slot hq hne
        exact (h.laid.apart hq (.finished hfin) hne).symm


/-- So does the beginning of a call. -/
theorem Published.step_start {x x' : Sys Tid} (h : Published cfg x)
    (hallocs : Allocs cfg x') (hsettled : ∀ p ∈ x'.mig.held, ∀ t, (x'.thr t).allocating ≠ some p)
    {t : Tid} {c : Call} (hcall : Label.HasNoMunmap (.start t c))
    (hs : step cfg numBatchs (.start t c) x = .ok x') :
    Published cfg x' := by
  rcases Hemem.step_start hs with rfl | ⟨hidle, rfl⟩
  · exact h
  -- neither the idle thread nor the call it begins allocates
  have hthr : ∀ u, ((Function.update x.thr t c.begin u).allocating = (x.thr u).allocating) ∧
      ∀ {k p r i code}, Function.update x.thr t c.begin u = .place k p r (i :: code) →
        x.thr u = .place k p r (i :: code) := by
    intro u
    by_cases hu : u = t
    · subst hu
      refine ⟨by rw [Function.update_self, c.begin_allocating, hidle]; rfl, fun hpc => ?_⟩
      have halloc := c.begin_allocating
      rw [Function.update_self] at hpc
      rw [hpc] at halloc
      cases halloc
    · simp [hu]
  have hfinished : ∀ {p}, Sys.Finished { x with thr := Function.update x.thr t c.begin } p →
      x.Finished p :=
    fun hp => ⟨hp.1, fun u => (hthr u).1 ▸ hp.2 u⟩
  refine ⟨hallocs, hsettled, h.pt, fun u => ?_, h.regs, h.written, fun hpc => h.stage ((hthr _).2 hpc),
    fun hp => h.tabled (hfinished hp), h.laid.frame ?_ fun a _ => rfl⟩
  · by_cases hu : u = t
    · subst hu
      cases c with
      | munmap => cases hcall
      | mmap | missingFault | request => simp only [Function.update_self, Call.begin, Pc.unmaps]
    · simpa [hu] using h.calls u
  · rintro p va slot (⟨hpc, hmap⟩ | hfin)
    · exact .placing ((hthr _).2 hpc) hmap
    · exact .finished (hfinished hfin)


/-- A step of a thread other than a statement after `pagefault()`. -/
theorem Published.step_quiet {x x' : Sys Tid} (h : Published cfg x) {t : Tid} {pc : Pc}
    (hallocs : Allocs cfg x') (hsettled : ∀ p ∈ x'.mig.held, ∀ t, (x'.thr t).allocating ≠ some p)
    (hthr : x'.thr = Function.update x.thr t pc) (hmig : x'.mig = x.mig)
    (hpc : pc.unmaps = false) (hq : Quiet (x.thr t) x.st pc x'.st)
    (hvm : ∀ a, device x.st a ≠ none → device x'.st a = device x.st a) : Published cfg x' := by
  have hself : x'.thr t = pc := by simp [hthr]
  have hothers : ∀ u, u ≠ t → x'.thr u = x.thr u := fun u hu => by simp [hthr, hu]
  have hfinished : ∀ {p}, x'.Finished p → x.Finished p := by
    rintro p ⟨hpresent, hnone⟩
    refine ⟨?_, fun u hu => ?_⟩
    · rcases hq.present p hpresent with hold | hnew
      · exact hold
      · exact absurd (hself ▸ hnew) (hnone t)
    · by_cases hut : u = t
      · subst hut
        exact hnone u (hself ▸ hq.allocating p hu)
      · exact hnone u (hothers u hut ▸ hu)
  -- an allocation that begins has everything still to do
  have hplacing : ∀ {u k p r i code}, x'.thr u = .place k p r (i :: code) →
      (x.thr u = .place k p r (i :: code)) ∨ i :: code = k.code := by
    intro u k p r i code hu
    by_cases hut : u = t
    · subst hut
      exact Or.inr (hq.begins (hself ▸ hu))
    · exact Or.inl (hothers u hut ▸ hu)
  refine ⟨hallocs, hsettled, fun p => (hq.pt p).trans (h.pt p), fun u => ?calls, ?regs, ?written,
    ?stage, ?tabled, ?laid⟩
  case calls =>
    by_cases hut : u = t
    · subst hut
      exact hself ▸ hpc
    · exact hothers u hut ▸ h.calls u
  case regs =>
    rw [hmig]
    exact h.regs.congr fun p _ => hq.va p
  case written =>
    intro d done e todo r p hm hp
    rw [hmig] at hm
    exact (Prod.mk.inj (hq.slot p)).2.trans (h.written hm hp)
  case stage =>
    intro u k p r i code hu
    rcases hplacing hu with hold | hcode
    · exact (h.stage hold).congr (hq.va p) (hq.slot p)
    · rw [hcode]
      exact Stage.begin _ _ _ _
  case tabled =>
    intro p hp
    rw [hq.va, hq.pages]
    exact h.tabled (hfinished hp)
  case laid =>
    refine h.laid.frame ?_ hvm
    rintro p va slot (⟨hu, hmap⟩ | hfin)
    · rcases hplacing hu with hold | hcode
      · exact .placing hold hmap
      · rw [hcode] at hmap
        exact absurd (Site.map_mem _) hmap
    · rw [hq.va, hmig, Mpc.slotOf_congr _ (hq.slot p)]
      exact .finished (hfinished hfin)

/-- A statement after `pagefault()`. -/
theorem Published.step_place {x x' : Sys Tid} (h : Published cfg x) {t : Tid} {k : Site}
    {p : PageId} {r r' : AllocRegs} {i : AllocInstr} {code : List AllocInstr}
    (hallocs : Allocs cfg x') (hsettled : ∀ p ∈ x'.mig.held, ∀ t, (x'.thr t).allocating ≠ some p)
    (hpc : x.thr t = .place k p r (i :: code))
    (hthr : x'.thr = Function.update x.thr t (.place k p r' code)) (hmig : x'.mig = x.mig)
    (hs : AllocStep p r i x.st r' x'.st) (hfree : i = .map → NoDevice x.st r.va r.len) :
    Published cfg x' := by
  have hself : x'.thr t = .place k p r' code := by simp [hthr]
  have hothers : ∀ u, u ≠ t → x'.thr u = x.thr u := fun u hu => by simp [hthr, hu]
  have halloc : (x.thr t).allocating = some p := by rw [hpc]; rfl
  have hnot : p ∉ x.mig.held := fun hp => h.settled p hp t halloc
  have hstage := h.stage hpc
  have hstage' := hstage.step (h.pt p) hs
  have hslot : ∀ q, (x'.st.page q).slot = (x.st.page q).slot := by
    intro q
    by_cases hqp : q = p
    · subst hqp
      rw [HememPage.slot, HememPage.tier, hs.keepInDram, hs.keepOffset]
      rfl
    · rw [hs.other q hqp]
  have hpresent : ∀ q, (x'.st.page q).present = (x.st.page q).present := by
    intro q
    by_cases hqp : q = p
    · subst hqp
      exact hs.present
    · rw [hs.other q hqp]
  have hva : ∀ q, q ≠ p → (x'.st.page q).va = (x.st.page q).va :=
    fun q hqp => by rw [hs.other q hqp]
  -- the pages that other threads are placing
  have hplacing : ∀ {u k' q r₁ j rest}, x'.thr u = .place k' q r₁ (j :: rest) → u ≠ t →
      x.thr u = .place k' q r₁ (j :: rest) ∧ q ≠ p := by
    intro u k' q r₁ j rest hu hut
    have hold : x.thr u = .place k' q r₁ (j :: rest) := hothers u hut ▸ hu
    refine ⟨hold, ?_⟩
    rintro rfl
    exact hut (h.allocs.unique u t q (by rw [hold]; rfl) halloc)
  have hfinished : ∀ {q}, x'.Finished q → q ≠ p → x.Finished q := by
    rintro q ⟨hq, hnone⟩ hqp
    refine ⟨by rwa [hpresent] at hq, fun u hu => ?_⟩
    by_cases hut : u = t
    · subst hut
      exact hqp (Option.some.inj (hu.symm.trans halloc))
    · exact hnone u (hothers u hut ▸ hu)
  -- the allocation is finished when the table has been written
  have hdone : x'.Finished p → code = [] ∧ i = .addPage := by
    rintro ⟨-, hnone⟩
    cases code with
    | nil => exact ⟨rfl, Site.last hstage.suffix⟩
    | cons j rest => exact absurd (by rw [hself]; rfl) (hnone t)
  refine ⟨hallocs, hsettled, fun q => ?pt, fun u => ?calls, ?regs, ?written, ?stage, ?tabled, ?laid⟩
  case pt =>
    by_cases hqp : q = p
    · subst hqp
      exact hs.size.trans (h.pt q)
    · rw [hs.other q hqp]
      exact h.pt q
  case calls =>
    by_cases hut : u = t
    · subst hut
      rw [hself]
      rfl
    · exact hothers u hut ▸ h.calls u
  case regs =>
    rw [hmig]
    refine h.regs.congr fun q hq => hva q ?_
    rintro rfl
    exact hnot hq
  case written =>
    intro d done e todo r₁ q hm hq
    rw [hmig] at hm
    exact (Prod.mk.inj (hslot q)).2.trans (h.written hm hq)
  case stage =>
    intro u k' q r₁ j rest hu
    by_cases hut : u = t
    · subst hut
      rw [hself] at hu
      rcases hu with ⟨rfl⟩
      exact hstage'
    · rcases hplacing hu hut with ⟨hold, hqp⟩
      exact (h.stage hold).congr (hva q hqp) (hslot q)
  case tabled =>
    intro q hq
    by_cases hqp : q = p
    · subst hqp
      rcases hdone hq with ⟨rfl, rfl⟩
      have hvaq : (x'.st.page q).va = (x.st.page q).va := by simpa using hs.pageVa
      have hr : (x'.st.page q).va = r'.va := hstage'.va (by simp)
      refine ⟨hr ▸ hstage'.va_ne (by simp), hr ▸ hstage'.aligned (by simp), ?_⟩
      rw [hs.table, if_pos rfl, hvaq, Function.update_self]
    · rcases h.tabled (hfinished hq hqp) with ⟨hne, hal, htable⟩
      refine ⟨hva q hqp ▸ hne, hva q hqp ▸ hal, ?_⟩
      rw [hva q hqp, hs.table]
      split
      · rename_i hi
        -- the key of the new entry was free
        have hkey : (x.st.page q).va ≠ (x.st.page p).va := by
          intro heq
          rw [heq, hs.untabled hi] at htable
          cases htable
        rw [Function.update_of_ne hkey, htable]
      · exact htable
  case laid =>
    have hold : ∀ {q}, x'.Finished q → q ≠ p →
        x.Placed q (x'.st.page q).va (x'.mig.slotOf x'.st q) := by
      intro q hq hqp
      rw [hva q hqp, hmig, Mpc.slotOf_congr _ (hslot q)]
      exact .finished (hfinished hq hqp)
    by_cases hi : i = .map
    · have hrest : .map ∉ code := hi ▸ Site.notMem_of_suffix hstage.suffix
      rcases Site.map_passed hstage.suffix hrest with ⟨ho, hd, hl, -, -, hlen⟩
      have hr : r.len = pageSize := hstage.len (by simp [hi, hlen])
      have hvm : x'.st.vm = (mmapFixed r.va pageSize (.ofInDram r.inDram) r.offset x.st).vm := by
        rw [hs.vm, if_pos hi, hr]
      refine h.laid.map (p := p) hvm ?_ ?_
      · rintro q va slot (⟨hu, hmap⟩ | hfin)
        · rename_i u k' r₁ j rest
          by_cases hut : u = t
          · subst hut
            rw [hself] at hu
            rcases hu with ⟨rfl⟩
            exact Or.inl ⟨rfl, hs.va, by rw [hs.inDram, if_neg hd, hs.offset, if_neg ho]⟩
          · rcases hplacing hu hut with ⟨hu, hqp⟩
            exact Or.inr ⟨hqp, .placing hu hmap⟩
        · have hqp : q ≠ p := by
            rintro rfl
            have hlast := (hdone hfin).2
            simp [hi] at hlast
          exact Or.inr ⟨hqp, hold hfin hqp⟩
      · intro q va slot hq hqp
        exact (h.laid.mapped hq).apart (hr ▸ hfree hi)
    · refine h.laid.frame ?_ fun a _ => by simp only [device, hs.vm, if_neg hi]
      rintro q va slot (⟨hu, hmap⟩ | hfin)
      · rename_i u k' r₁ j rest
        by_cases hut : u = t
        · subst hut
          rw [hself] at hu
          rcases hu with ⟨rfl⟩
          rcases Site.map_passed hstage.suffix hmap with ⟨ho, hd, -⟩
          rw [hs.va, hs.inDram, if_neg hd, hs.offset, if_neg ho]
          exact .placing hpc (by simp [Ne.symm hi, hmap])
        · exact .placing (hplacing hu hut).1 hmap
      · by_cases hqp : q = p
        · -- what the descriptor says from now on is what the local variables have said
          subst hqp
          rcases hdone hfin with ⟨rfl, rfl⟩
          have hvaq : (x'.st.page q).va = r.va := (hstage'.va (by simp)).trans hs.va
          rw [hvaq, hmig, Mpc.slotOf_notMem hnot, hslot, hstage.slot (by simp) (by simp)]
          exact .placing hpc (by simp)
        · exact hold hfin hqp

/-- The statements after `pagefault()` and all other steps. -/
theorem Published.step_run {x x' : Sys Tid} (h : Published cfg x) {t : Tid}
    (hallocs : Allocs cfg x') (hsettled : ∀ p ∈ x'.mig.held, ∀ t, (x'.thr t).allocating ≠ some p)
    (hplaces : PlacesFree x (.run t)) (hs : step cfg numBatchs (.run t) x = .ok x') :
    Published cfg x' := by
  rcases Hemem.step_run hs with ⟨pc, ev, hok, hthr, hmig, -⟩
  rcases (threadStep_ok hok).frame (h.calls t) with ⟨hpc', ⟨hq, hvm⟩ | hplace⟩
  · refine h.step_quiet hallocs hsettled hthr hmig hpc' hq fun a ha => ?_
    rcases hvm with hvm | ⟨p, length, populate, hpc, hst⟩
    · simp only [device, hvm]
    · -- the range of a reservation is free
      have hfree : NoDevice x.st p (pageRoundUp length) :=
        hplaces (p, pageRoundUp length) (by simp [hpc, Pc.places])
      have hout : ¬ inRange p (pageRoundUp length) a = true := fun hin => ha (hfree a hin)
      simp only [hst, device, mmapReserve_vm, if_neg hout]
  · rcases hplace with ⟨k, p, r, r', i, code, hpc, rfl, halloc⟩
    apply h.step_place hallocs hsettled hpc hthr hmig halloc
    rintro rfl
    exact hplaces (r.va, r.len) (by simp [hpc, Pc.places])

/-! ## Only published pages migrate -/

/-- Every step keeps the invariant as long as the batch is published. -/
theorem Published.step {x x' : Sys Tid} (h : Published cfg x) {lbl : Label Tid}
    (hcall : lbl.HasNoMunmap) (hplaces : PlacesFree x lbl) (hbatch : BatchPublished x lbl)
    (hs : Hemem.step cfg numBatchs lbl x = .ok x') : Published cfg x' := by
  have hallocs := h.allocs.step hs
  have hsettled := h.settled_step hbatch hs
  cases lbl with
  | start t c => exact h.step_start hallocs hsettled hcall hs
  | run t => exact h.step_run hallocs hsettled hplaces hs
  | migrate => exact h.step_migrate hallocs hsettled hs

/-- The entries on which `hemem_wp_page` and `hemem_migrate_*` operate. -/
def Mpc.migrating : Mpc → List Entry
  | .loop _ ph done todo _ _ => if ph = .giveBack then [] else done ++ todo
  | _ => []

/-- What the migration thread relies on, of each page that migrates. -/
structure OnlyPublishedMigrate (cfg : Config) (numBatchs : Nat) (x : Sys Tid) : Prop where
  /-- it has a `va` and is in the table under it -/
  tabled : ∀ e ∈ x.mig.migrating, ∀ p, e.page = some p →
    (x.st.page p).va ≠ 0 ∧ (x.st.page p).va % pageSize = 0 ∧ x.st.pages (x.st.page p).va = some p
  /-- until it is remapped it is mapped there, to the slot its descriptor denotes -/
  mapped : ∀ e ∈ x.mig.unmoved, ∀ p, e.page = some p →
    MapsTo x.st (x.st.page p).va (x.st.page p).slot
  /-- no thread has a statement of its allocation left, nor writes to its descriptor -/
  allocated : ∀ e ∈ x.mig.migrating, ∀ p, e.page = some p → ∀ t,
    (x.thr t).allocating ≠ some p ∧
      ∀ x', step cfg numBatchs (.run t) x = .ok x' → x'.st.page p = x.st.page p

/-- A thread writes to the descriptors that it allocates or holds. -/
theorem ThreadStep.page_eq {pc pc' : Pc} {ev : List Event} (h : ThreadStep cfg pc s pc' s' ev)
    {p : PageId} (halloc : pc.allocating ≠ some p) (hitems : p ∉ pc.items.map Prod.fst) :
    s'.page p = s.page p := by
  cases h
  case setPresent k va t q =>
    have hne : p ≠ q := by simpa [Pc.items, unused] using hitems
    simp [hne]
  case place k q r r' i code hrun =>
    have hne : p ≠ q := by
      rintro rfl
      exact halloc rfl
    exact (AllocInstr.run_ok hrun).other p hne
  case countRemoved | unmap | unmapFailed => simp
  all_goals rfl

/-- Until it is given back the page of an entry is in the book of the migration thread. -/
theorem Entry.page_mem_items {d : Dir} {ph : Phase} (code : List MigInstr) {e : Entry} {p : PageId}
    (hph : ph ≠ .giveBack) (hp : e.page = some p) :
    inUse (d.pageTier ph code) p ∈ e.items d ph code := by
  simp [Entry.items, Entry.pageItems, hph, hp]

/-- The migration thread holds the pages that migrate. -/
theorem Mpc.migrating_mem_items {m : Mpc} {e : Entry} {p : PageId} (he : e ∈ m.migrating)
    (hp : e.page = some p) : p ∈ m.held ∧ ∃ b, (p, b, true) ∈ m.items := by
  cases m <;> simp only [Mpc.migrating, List.not_mem_nil] at he
  case loop d ph done todo code r =>
    suffices hitem : ∃ b, (p, b, true) ∈ (Mpc.loop d ph done todo code r).items from
      ⟨List.mem_map_of_mem hitem.choose_spec, hitem⟩
    split at he
    · cases he
    · rename_i hph
      have hall : ∀ {es : List Entry} {code'}, e ∈ es →
          inUse (d.pageTier ph code') p ∈ es.flatMap (Entry.items d ph code') :=
        fun hes => List.mem_flatMap.mpr ⟨e, hes, Entry.page_mem_items _ hph hp⟩
      cases todo with
      | nil => exact ⟨_, hall (by simpa using he)⟩
      | cons e₀ todo =>
        rcases List.mem_append.mp he with hdone | hrest
        · exact ⟨_, List.mem_append_right _ (List.mem_append_left _ (hall hdone))⟩
        · rcases List.mem_cons.mp hrest with rfl | htodo
          · exact ⟨_, List.mem_append_left _ (Entry.page_mem_items code hph hp)⟩
          · exact ⟨_, List.mem_append_right _ (List.mem_append_right _ (hall htodo))⟩

/-- A page that has not been moved is being migrated. -/
theorem Mpc.unmoved_sub {m : Mpc} {e : Entry} (he : e ∈ m.unmoved) : e ∈ m.migrating := by
  cases m <;> simp only [Mpc.unmoved, List.not_mem_nil] at he
  case loop d ph done todo code r =>
    cases ph <;> cases todo <;> simp_all [Mpc.migrating]
    split at he <;> simp_all

/-- Such a page is where its descriptor says: the entry that is being remapped is
another one. -/
theorem Mpc.slotOf_unmoved {m : Mpc} (hnodup : (m.items.map Prod.fst).Nodup) {e : Entry}
    {p : PageId} (he : e ∈ m.unmoved) (hp : e.page = some p) :
    m.slotOf s p = (s.page p).slot := by
  unfold Mpc.slotOf
  split
  · rename_i d done e₀ todo code r
    rw [if_neg]
    rintro ⟨hpage, hmap⟩
    have htodo : e ∈ todo := by simpa [Mpc.unmoved, hmap] using he
    have hhead : p ∈ (e₀.items d .remap code).map Prod.fst :=
      List.mem_map_of_mem (Entry.page_mem_items code (by simp) hpage)
    have hrest : p ∈ (todo.flatMap (Entry.items d .remap (d.code .remap))).map Prod.fst :=
      List.mem_map_of_mem (List.mem_flatMap.mpr ⟨e, htodo, Entry.page_mem_items _ (by simp) hp⟩)
    simp only [Mpc.items, List.map_append] at hnodup
    exact (List.nodup_append.mp hnodup).2.2 p hhead p (List.mem_append_right _ hrest) rfl
  · rfl

/-- The invariant says that the migration thread operates on published pages only. -/
theorem Published.onlyPublishedMigrate {x : Sys Tid} (h : Published cfg x) :
    OnlyPublishedMigrate cfg numBatchs x := by
  have hfinished : ∀ e ∈ x.mig.migrating, ∀ p, e.page = some p →
      x.Finished p ∧ p ∈ x.mig.items.map Prod.fst := by
    intro e he p hp
    rcases Mpc.migrating_mem_items he hp with ⟨hheld, b, hitem⟩
    exact ⟨h.finished hitem hheld, List.mem_map_of_mem hitem⟩
  refine ⟨fun e he p hp => h.tabled (hfinished e he p hp).1, fun e he p hp => ?_,
    fun e he p hp t => ⟨(hfinished e he p hp).1.2 t, fun x' hs => ?_⟩⟩
  · have hfin := (hfinished e (Mpc.unmoved_sub he) p hp).1
    rw [← Mpc.slotOf_unmoved (h.allocs.custody.books.excl.nodup .migrator) he hp]
    exact h.laid.mapped (.finished hfin)
  · rcases hfinished e he p hp with ⟨hfin, hitem⟩
    rcases Hemem.step_run hs with ⟨pc, ev, hok, -⟩
    refine (threadStep_ok hok).page_eq (hfin.2 t) fun hthread => ?_
    -- the page is in the hands of the migration thread
    have heq := h.allocs.custody.books.excl.unique (i := .thread t) (j := .migrator) hthread hitem
    cases heq

/-- A batch that has begun to migrate consists of the entries that were ready. -/
theorem step_ready {x x' : Sys Tid} (hs : step cfg numBatchs .migrate x = .ok x') {e : Entry}
    (he : e ∈ x.mig.ready) : e ∈ x'.mig.migrating ∧ x'.thr = x.thr := by
  rcases Hemem.step_migrate hs with ⟨ev, hok, hthr, -⟩
  refine ⟨?_, hthr⟩
  have hstep := migStep_ok hok
  generalize x.mig = m, x'.mig = m', x'.st = s' at hstep he ⊢
  cases hstep
  case begin d es => simpa [Mpc.ready, Mpc.migrating] using he
  all_goals simp [Mpc.ready] at he

/-- Allocating threads, requesters and the migration thread, from `pebs_init`: only
published pages migrate precisely when no page of a batch that begins to migrate is
still being allocated. -/
theorem onlyPublished_throughout_iff (cfg : Config) (numBatchs : Nat) (labels : List (Label Tid))
    (hcalls : ∀ lbl ∈ labels, lbl.HasNoMunmap)
    (hplaces : Along (step cfg numBatchs) PlacesFree labels (Sys.init cfg)) :
    Throughout (step cfg numBatchs) (OnlyPublishedMigrate cfg numBatchs) labels (Sys.init cfg) ↔
      Along (step cfg numBatchs) BatchPublished labels (Sys.init cfg) := by
  refine throughout_iff_along_inv (fun x lbl x' hx hc hbatch hs => hx.step hc.1 hc.2 hbatch hs)
    (fun x hx => hx.onlyPublishedMigrate) (fun x lbl x' hx hs hx' => ?_) (published_init cfg)
    (hplaces.and_forall hcalls)
  cases lbl with
  | start | run => trivial
  | migrate =>
    intro e he p hp t
    rcases step_ready hs he with ⟨hmigrating, hthr⟩
    exact hthr ▸ (hx'.allocated e hmigrating p hp t).1

/-- The migration thread holds the pages that are ready. -/
theorem Mpc.ready_mem_items {m : Mpc} {e : Entry} {p : PageId} (he : e ∈ m.ready)
    (hp : e.page = some p) : p ∈ m.items.map Prod.fst := by
  unfold Mpc.ready at he
  split at he
  · exact List.mem_map_of_mem
      (List.mem_flatMap.mpr ⟨e, he, Entry.page_mem_items [] (by simp) hp⟩)
  · cases he

/-- It is enough that requesters take only pages whose allocation is finished. -/
theorem batchPublished_of_takes (cfg : Config) (numBatchs : Nat) (labels : List (Label Tid))
    (htake : Along (step cfg numBatchs) TakesPublished labels (Sys.init cfg)) :
    Along (step cfg numBatchs) BatchPublished labels (Sys.init cfg) := by
  refine Along.of_inv (I := fun x => Allocs cfg x ∧ Claimed x)
    (fun x lbl x' hx htake hs => ⟨hx.1.step hs, hx.2.step hx.1 htake hs⟩) (fun x lbl hx => ?_)
    ⟨(wf_pebsInit cfg).allocs_quiet, claimed_quiet _⟩ htake
  cases lbl with
  | start | run => trivial
  | migrate =>
    intro e he p hp t
    exact hx.2 .migrator trivial p (Mpc.ready_mem_items he hp) t

/-- A thread populates a range of one page and is about to map it. -/
def mapLabels : List (Label Bool) :=
  .start false (.mmap 0x40000000 pageSize true) :: List.replicate 12 (.run false)

/-- The state after `mapLabels`. -/
def mapping : Sys Bool :=
  (runs (step smallConfig 1) mapLabels (Sys.init smallConfig)).toOption.getD (Sys.init smallConfig)

/-- One page is mapped. -/
theorem runs_mapping : runs (step smallConfig 1) mapLabels (Sys.init smallConfig) = .ok mapping :=
  rfl

/-- The thread returns, another one puts the page on the queue to NVM, and it is moved. -/
def moveLabels : List (Label Bool) :=
  .run false :: (List.replicate 11 (.run false) ++
    .start true (.request .dramToNvm 1 false fun _ => 0) :: List.replicate 7 (.run true) ++
      List.replicate 46 .migrate)

/-- A run that places nothing meets the condition on the kernel. -/
theorem placesFree_of_nothing {labels : List (Label Tid)} {x : Sys Tid}
    (h : Along (step cfg numBatchs) PlacesNothing labels x) :
    Along (step cfg numBatchs) PlacesFree labels x :=
  h.imp fun _ _ hlbl => hlbl.placesFree

/-- So does the mapping at an address where nothing is mapped. -/
theorem placesFree_move :
    Along (step smallConfig 1) PlacesFree (mapLabels ++ moveLabels) (Sys.init smallConfig) := by
  refine Along.append ?_ fun x hx => ?_
  · exact ⟨trivial, placesFree_of_vm (fun a => rfl) _, placesFree_of_nothing (by decide +kernel)⟩
  · obtain rfl : mapping = x := Except.ok.inj (runs_mapping.symm.trans hx)
    -- the page to be mapped is the first one
    have hvm : mapping.st.vm = (mmapReserve 0x40000000 pageSize (pebsInit smallConfig)).vm := rfl
    refine ⟨placesFree_of_vm (fun a => ?_) _, placesFree_of_nothing (by decide +kernel)⟩
    simp only [device, hvm, mmapReserve_vm]
    split <;> rfl

/-- A page is mapped, requested and moved. -/
theorem onlyPublished_throughout_move :
    Throughout (step smallConfig 1) (OnlyPublishedMigrate smallConfig 1) (mapLabels ++ moveLabels)
      (Sys.init smallConfig) :=
  (onlyPublished_throughout_iff smallConfig 1 (mapLabels ++ moveLabels) (by decide)
    placesFree_move).mpr (by decide +kernel)

/-- The request comes when the page is on the mmap list and its allocator has read
nothing of it yet. -/
def earlyRequest : List (Label Bool) :=
  .start false (.mmap 0x40000000 pageSize true) :: List.replicate 8 (.run false) ++
    .start true (.request .dramToNvm 1 false fun _ => 0) :: List.replicate 7 (.run true) ++
      List.replicate 12 .migrate

/-- At the end of `earlyRequest` the migration thread has read a `va` of 0. -/
theorem onlyPublished_fails_early :
    (∀ lbl ∈ earlyRequest, lbl.HasNoMunmap) ∧
      Along (step smallConfig 1) PlacesFree earlyRequest (Sys.init smallConfig) ∧
      ¬ Throughout (step smallConfig 1) (OnlyPublishedMigrate smallConfig 1) earlyRequest
        (Sys.init smallConfig) := by
  refine ⟨by decide, ?_, ?_⟩
  · exact ⟨trivial, placesFree_of_vm (fun a => rfl) _, placesFree_of_nothing (by decide +kernel)⟩
  · refine not_throughout_of_map
      (f := fun x => (x.mig.migrating.map Entry.page, (x.st.page 0).va)) (b := ([some 0], 0)) rfl
      fun x hx h => ?_
    rcases Prod.mk.inj hx with ⟨hbatch, hva⟩
    rcases List.mem_map.mp (hbatch ▸ List.mem_singleton_self (some 0)) with ⟨e, he, hp⟩
    exact (h.tabled e he 0 hp).1 hva

end Hemem
