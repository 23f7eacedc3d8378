import Hemem.Conc.Queues

/-!
# Hemem.Conc.Allocation — pages whose allocation is under way

`pebs_allocate_page` puts a page on the mmap list before its allocator clears it, maps
it, sets its `va` and enters it in the table. From `present = true` until `add_page`
the page is being allocated. It is so by one thread only, and, as long as requesters
take no such page, it is on no queue, in no batch and in the hands of no requester that
is going to put it on a queue.
-/

namespace Hemem

open Lib

/-- The page that the thread has made present and not yet entered in the table. -/
def Pc.allocating : Pc → Option PageId
  | .publish _ _ _ p => some p
  | .place _ p _ (_ :: _) => some p
  | _ => none

/-- A requester that is going to put the page in its hands on a queue. -/
def Pc.claims : Pc → Bool
  | .assertInDram .. | .assertPresent .. | .put .. => true
  | _ => false

variable {Tid : Type} {cfg : Config} {s s' : St}

/-- Those who hold pages that migrate or are about to. -/
def Sys.Claims (x : Sys Tid) : Holder Tid → Prop
  | .list l => ∃ d, l = .queue d
  | .thread t => (x.thr t).claims = true
  | .migrator => True

/-- The page that a requester takes next. -/
def Pc.takes (s : St) : Pc → Option PageId
  | .take q _ _ => (s.list (.mmap q.d.src)).head?
  | _ => none

/-- A requester takes the oldest page of a mmap list when its allocation is finished;
any other step. -/
def TakesPublished (x : Sys Tid) : Label Tid → Prop
  | .run t => ∀ p ∈ (x.thr t).takes x.st, ∀ u, (x.thr u).allocating ≠ some p
  | .start _ _ | .migrate => True

/-- The threads call everything but `hemem_munmap`. -/
def Label.HasNoMunmap : Label Tid → Prop
  | .start _ (.munmap ..) => False
  | _ => True

instance : DecidablePred (@Label.HasNoMunmap Tid) := fun lbl =>
  match lbl with
  | .start _ (.munmap ..) => isFalse id
  | .start _ (.mmap ..) | .start _ (.missingFault ..) | .start _ (.request ..) | .run _
  | .migrate => isTrue trivial

/-! ## Steps of the threads -/

/-- An allocation begins with the assignment to `present`. -/
theorem ThreadStep.allocating {pc pc' : Pc} {ev : List Event} (h : ThreadStep cfg pc s pc' s' ev)
    {p : PageId} (hp : pc'.allocating = some p) :
    pc.allocating = some p ∨
      ∃ k va t, pc = .setPresent k va t p ∧ s' = s.modPage p fun g => { g with present := true } := by
  cases h
  case setPresent k va t q =>
    obtain rfl : q = p := by simpa [Pc.allocating] using hp
    exact Or.inr ⟨k, va, t, rfl, rfl⟩
  case publish k va t q =>
    left
    cases k <;> exact hp
  case place k q r r' i code hrun =>
    cases code with
    | nil => simp [Pc.allocating] at hp
    | cons j code => exact Or.inl (by simpa [Pc.allocating] using hp)
  case placed k q r => cases k <;> simp [Pc.allocating, Site.after] at hp
  all_goals simp [Pc.allocating] at hp

/-- A thread sets `present` and never clears it. -/
theorem ThreadStep.present {pc pc' : Pc} {ev : List Event} (h : ThreadStep cfg pc s pc' s' ev)
    {p : PageId} (hp : (s.page p).present = true) : (s'.page p).present = true := by
  have hmod : ∀ (q : PageId) (f : HememPage → HememPage),
      (∀ g, g.present = true → (f g).present = true) → ((s.modPage q f).page p).present = true := by
    intro q f hf
    by_cases hpq : p = q
    · subst hpq
      simpa using hf _ hp
    · simpa [hpq] using hp
  -- of all statements only `present = true` writes the flag
  cases h
  case setPresent k va t q => exact hmod q _ fun _ _ => rfl
  case place k q r r' i code hrun =>
    cases i <;>
      simp only [AllocInstr.run, clearSlot, uffdioRegister, Hemem.addPage, bind_eq_ok, check_eq_ok,
        Except.ok.injEq, Prod.mk.injEq] at hrun
    case readOffset | readInDram | readLen | map =>
      rcases hrun with ⟨-, rfl⟩
      exact hp
    case count =>
      rcases hrun with ⟨-, rfl⟩
      simpa using hp
    case clear | register | addPage =>
      rcases hrun with ⟨_, ⟨_, -, rfl⟩, -, rfl⟩
      exact hp
    case assertVa | assertAligned =>
      rcases hrun with ⟨_, -, -, rfl⟩
      exact hp
    case setVa | setMigrating | setMigrationsDown | setMigrationsUp =>
      rcases hrun with ⟨-, rfl⟩
      exact hmod q _ fun _ h => h
  case countRemoved | unmap | unmapFailed => simpa using hp
  all_goals exact hp

/-- The pages that a requester is going to put on a queue it has taken off a list. -/
theorem ThreadStep.claims {pc pc' : Pc} {ev : List Event} (h : ThreadStep cfg pc s pc' s' ev)
    (hclaims : pc'.claims = true) :
    (pc.claims = true ∧ pc'.items = pc.items) ∨
      ∃ q i left p rest, pc = .take q i left ∧ s.list (.mmap q.d.src) = p :: rest ∧
        pc'.items = [inUse q.d.src p] := by
  cases h
  case take q i left p rest hl => exact Or.inr ⟨q, i, left, p, rest, rfl, hl, rfl⟩
  case placed k r p => cases k <;> simp [Pc.claims, Site.after] at hclaims
  case assertInDram | assertPresent => exact Or.inl ⟨rfl, rfl⟩
  all_goals simp [Pc.claims] at hclaims

/-- A page comes on a queue from the hands of a requester. -/
theorem ThreadStep.mem_queue {pc pc' : Pc} {ev : List Event} (h : ThreadStep cfg pc s pc' s' ev)
    {d : Dir} {p : PageId} (hp : p ∈ s'.list (.queue d)) :
    p ∈ s.list (.queue d) ∨ (pc.claims = true ∧ pc.items = [inUse d.src p]) := by
  cases h
  case put q i left p' =>
    by_cases hd : q.d = d
    · subst hd
      simp only [St.setList_list, Function.update_self, List.mem_append, List.mem_singleton] at hp
      rcases hp with hp | rfl
      · exact Or.inl hp
      · exact Or.inr ⟨rfl, rfl⟩
    · have hqueue : ListId.queue d ≠ .queue q.d := fun h => hd (ListId.queue.inj h).symm
      exact Or.inl (by simpa [hqueue] using hp)
  case place hrun =>
    rw [(AllocInstr.run_queue hrun d).1] at hp
    exact Or.inl hp
  all_goals exact Or.inl (by simpa using hp)

/-! ## Steps of the migration thread -/

/-- What is in the book before a statement was there before the one in front of it. -/
theorem Entry.entries_cons {d : Dir} {ph : Phase} {e : Entry} (i : MigInstr)
    (code : List MigInstr) {p : PageId} (hp : p ∈ (e.items d ph code).map Prod.fst) :
    p ∈ (e.items d ph (i :: code)).map Prod.fst := by
  simp only [Entry.items, Entry.pageItems, Entry.freeItems, List.map_append, List.mem_append] at hp ⊢
  refine hp.imp (fun h => ?_) fun h => ?_
  · split at h
    · rename_i hc
      rw [if_pos (hc.imp id (List.mem_cons_of_mem _))]
      simpa [inUse] using h
    · simp at h
  · split at h
    · rename_i hc
      rw [if_pos (hc.imp id (List.mem_cons_of_mem _))]
      simpa [unused] using h
    · simp at h

/-- What the migration thread holds it has held before or has taken off a queue or a
free list. -/
theorem MigStep.entries {numBatchs : Nat} {m m' : Mpc} {ev : List Event} (hm : m.Wf)
    (h : MigStep cfg numBatchs m s m' s' ev) {p : PageId} (hp : p ∈ m'.items.map Prod.fst) :
    p ∈ m.items.map Prod.fst ∨ (∃ d, p ∈ s.list (.queue d)) ∨ ∃ t, p ∈ s.list (.free t) := by
  have hsame : s'.list = s.list → p ∈ m.items.map Prod.fst := fun hlist =>
    ((h.effect hm).entries_perm hlist).mem_iff.mp hp
  cases h
  case dequeuePage d left es q rest hl =>
    simp only [Mpc.items, Option.toList_some, List.map_cons, List.map_nil, List.singleton_append,
      List.mem_cons] at hp
    rcases hp with rfl | hp
    · exact Or.inr (Or.inl ⟨d, by simp [hl]⟩)
    · exact Or.inl hp
  case dequeueFree d left es page q rest hl =>
    simp only [Mpc.items, Option.toList_some, List.map_cons, List.map_nil, List.singleton_append,
      List.mem_cons] at hp
    rcases hp with rfl | hp
    · exact Or.inr (Or.inr ⟨d.dst, by simp [hl]⟩)
    · exact Or.inl hp
  case instr d ph done e todo i code r r' hrun =>
    simp only [Mpc.items, List.map_append, List.mem_append] at hp ⊢
    exact Or.inl (hp.imp_left (Entry.entries_cons i code))
  case count => exact Or.inl (hsame (countBatch_list _ _ _))
  all_goals exact Or.inl (hsame rfl)

/-- The migration thread puts nothing on a queue. -/
theorem MigStep.mem_queue {numBatchs : Nat} {m m' : Mpc} {ev : List Event}
    (h : MigStep cfg numBatchs m s m' s' ev) {d : Dir} {p : PageId}
    (hp : p ∈ s'.list (.queue d)) : p ∈ s.list (.queue d) := by
  cases h
  case instr hrun =>
    rw [(MigInstr.run_queue hrun d).1] at hp
    exact hp
  case dequeuePage d' left es q rest hl =>
    by_cases hd : d' = d
    · subst hd
      rw [hl]
      exact List.mem_cons_of_mem _ (by simpa using hp)
    · have hqueue : ListId.queue d ≠ .queue d' := fun h => hd (ListId.queue.inj h).symm
      simpa [hqueue] using hp
  all_goals simpa using hp

/-- Only descriptors that are not present lose the flag. -/
theorem MigStep.present {numBatchs : Nat} {m m' : Mpc} {ev : List Event} (hm : m.Wf)
    (h : MigStep cfg numBatchs m s m' s' ev) (hbook : ∀ p v, (p, v) ∈ m.items → s.flags p = v)
    {p : PageId} (hp : (s.page p).present = true) : (s'.page p).present = true := by
  have hmod : ∀ (q : PageId) (f : HememPage → HememPage),
      (∀ g, g.present = true → (f g).present = true) → ((s.modPage q f).page p).present = true := by
    intro q f hf
    by_cases hpq : p = q
    · subst hpq
      simpa using hf _ hp
    · simpa [hpq] using hp
  cases h
  case instr d ph done e todo i code r r' hrun =>
    cases MigInstr.run_ok hrun
    case setFreePresent =>
      obtain rfl := Dir.giveBack_of_mem (i := .setFreePresent) (by simp [Dir.code])
        (hm.sublist.mem (List.mem_cons_self ..))
      obtain rfl : code = [.setFreeInDram, .enqueuePage, .enqueueFree] := by
        simpa using Dir.giveBack_suffix hm
      -- the book says that the free descriptor is not present
      have hfree := hbook e.next (d.dst.inDram, false)
        (by simp [Mpc.items, Entry.items, Entry.freeItems, Dir.freeTier, unused])
      have hne : p ≠ e.next := by
        rintro rfl
        rw [(Prod.mk.inj hfree).2] at hp
        cases hp
      simpa [hne] using hp
    case setFreeOffset | setFreeInDram | setMigrating | bumpUp | bumpDown | setInDram |
        setOffset =>
      exact hmod _ _ fun g h => h
    all_goals exact hp
  case count => simpa using hp
  all_goals exact hp

/-! ## The invariant -/

/-- A page is being allocated by one thread, and is present. -/
structure Allocs (cfg : Config) (x : Sys Tid) : Prop where
  custody : Custody cfg x
  live : ∀ t p, (x.thr t).allocating = some p → (x.st.page p).present = true
  unique : ∀ t u p, (x.thr t).allocating = some p → (x.thr u).allocating = some p → t = u

/-- No page that migrates or is about to is being allocated. -/
def Claimed (x : Sys Tid) : Prop :=
  ∀ o, x.Claims o → ∀ p ∈ entries x.items o, ∀ t, (x.thr t).allocating ≠ some p

/-- Before any call no page is being allocated. -/
theorem Wf.allocs_quiet (h : Wf cfg s) : Allocs cfg (Sys.quiet s : Sys Tid) where
  custody := h.custody_quiet
  live t p hp := by cases hp
  unique t u p hp := by cases hp

/-- And none is claimed. -/
theorem claimed_quiet (s : St) : Claimed (Sys.quiet s : Sys Tid) := by
  intro o _ p _ t hp
  cases hp

/-- The thread is about to make the page present. -/
def Pc.presents (pc : Pc) (p : PageId) : Prop := ∃ k va t, pc = .setPresent k va t p

/-- Until then it holds the page as a free one. -/
theorem Allocs.notPresent {x : Sys Tid} (h : Allocs cfg x) {t : Tid} {p : PageId}
    (hp : (x.thr t).presents p) :
    p ∈ entries x.items (.thread t) ∧ (x.st.page p).present = false := by
  rcases hp with ⟨k, va, tier, hpc⟩
  have hitem : unused tier p ∈ x.items (.thread t) := by simp [Sys.items, hpc, Pc.items]
  exact ⟨mem_entries.mpr ⟨_, hitem⟩, (Prod.mk.inj (h.custody.books.agree hitem)).2⟩

/-- The flags of a page on a list are those of the list. -/
theorem Custody.flags_eq {x : Sys Tid} (h : Custody cfg x) {l : ListId} {p : PageId}
    (hp : p ∈ x.st.list l) : x.st.flags p = l.flags :=
  h.books.agree (i := .list l) (by simpa [Sys.items] using hp)

variable [DecidableEq Tid] {numBatchs : Nat}

/-- A call begins without a page. -/
theorem Call.begin_allocating (c : Call) : c.begin.allocating = none := by
  cases c <;> simp only [Call.begin, Pc.allocating]

theorem Call.begin_claims (c : Call) : c.begin.claims = false := by
  cases c <;> simp only [Call.begin, Pc.claims]

/-- What is being allocated after a step was so before, or a thread makes it present. -/
theorem allocating_step {x x' : Sys Tid} {lbl : Label Tid}
    (hs : step cfg numBatchs lbl x = .ok x') {u : Tid} {p : PageId}
    (hp : (x'.thr u).allocating = some p) :
    (x.thr u).allocating = some p ∨
      ((x.thr u).presents p ∧ lbl = .run u ∧ (x'.st.page p).present = true) := by
  cases lbl with
  | start t c =>
    rcases step_start hs with rfl | ⟨-, rfl⟩
    · exact Or.inl hp
    by_cases hu : u = t
    · subst hu
      simp [c.begin_allocating] at hp
    · exact Or.inl (by simpa [hu] using hp)
  | run t =>
    rcases step_run hs with ⟨pc, ev, hok, hthr, -⟩
    by_cases hu : u = t
    · subst hu
      rw [hthr, Function.update_self] at hp
      rcases (threadStep_ok hok).allocating hp with hold | ⟨k, va, tier, hpc, hst⟩
      · exact Or.inl hold
      · exact Or.inr ⟨⟨k, va, tier, hpc⟩, rfl, by simp [hst]⟩
    · exact Or.inl (by simpa [hthr, hu] using hp)
  | migrate =>
    rcases step_migrate hs with ⟨ev, -, hthr, -⟩
    exact Or.inl (hthr ▸ hp)

/-- A present page stays so. -/
theorem Custody.present_step {x x' : Sys Tid} (h : Custody cfg x) {lbl : Label Tid}
    (hs : Hemem.step cfg numBatchs lbl x = .ok x') {p : PageId} (hp : (x.st.page p).present = true) :
    (x'.st.page p).present = true := by
  cases lbl with
  | start t c =>
    rcases step_start hs with rfl | ⟨-, rfl⟩ <;> exact hp
  | run t =>
    rcases step_run hs with ⟨pc, ev, hok, -⟩
    exact (threadStep_ok hok).present hp
  | migrate =>
    rcases step_migrate hs with ⟨ev, hok, -⟩
    exact (migStep_ok hok).present h.mig (fun p v hv => h.books.agree (i := .migrator) hv) hp

/-- Every step keeps it: a page is allocated by one thread at a time. -/
theorem Allocs.step {x x' : Sys Tid} (h : Allocs cfg x) {lbl : Label Tid}
    (hs : Hemem.step cfg numBatchs lbl x = .ok x') : Allocs cfg x' := by
  refine ⟨h.custody.step lbl hs, fun u p hp => ?_, fun u v p hu hv => ?_⟩
  · rcases allocating_step hs hp with hold | ⟨-, -, hpresent⟩
    · exact h.custody.present_step hs (h.live u p hold)
    · exact hpresent
  · -- a page that is being allocated is present, one that a thread makes present is not
    have hnot : ∀ {v w}, (x.thr v).allocating = some p → ¬ (x.thr w).presents p := by
      intro v w hv hw
      have hpresent := h.live v p hv
      rw [(h.notPresent hw).2] at hpresent
      cases hpresent
    rcases allocating_step hs hu with hu | ⟨hpu, hlu, -⟩ <;>
      rcases allocating_step hs hv with hv | ⟨hpv, hlv, -⟩
    · exact h.unique u v p hu hv
    · exact absurd hpv (hnot hu)
    · exact absurd hpu (hnot hv)
    · exact Label.run.inj (hlu.symm.trans hlv)

/-- Where those who are going to migrate a page have it from. -/
theorem Allocs.claims_step {x x' : Sys Tid} (h : Allocs cfg x) {lbl : Label Tid}
    (hs : Hemem.step cfg numBatchs lbl x = .ok x') {o : Holder Tid} (ho : x'.Claims o)
    {p : PageId} (hp : p ∈ entries x'.items o) :
    (∃ o, x.Claims o ∧ p ∈ entries x.items o) ∨
      (∃ t, lbl = .run t ∧ p ∈ (x.thr t).takes x.st) ∨
      (lbl = .migrate ∧ (x.st.page p).present = false) := by
  cases lbl with
  | start t c =>
    rcases step_start hs with rfl | ⟨-, rfl⟩
    · exact Or.inl ⟨o, ho, hp⟩
    cases o with
    | list l => exact Or.inl ⟨.list l, ho, hp⟩
    | migrator => exact Or.inl ⟨.migrator, ho, hp⟩
    | thread v =>
      by_cases hv : v = t
      · subst hv
        simp [Sys.Claims, c.begin_claims] at ho
      · refine Or.inl ⟨.thread v, ?_, ?_⟩
        · simpa [Sys.Claims, hv] using ho
        · simpa [entries, Sys.items, hv] using hp
  | run t =>
    rcases step_run hs with ⟨pc, ev, hok, hthr, hmig, -⟩
    have hstep := threadStep_ok hok
    have hself : x'.thr t = pc := by simp [hthr]
    cases o with
    | list l =>
      rcases ho with ⟨d, rfl⟩
      rw [Sys.entries_list] at hp
      rcases hstep.mem_queue hp with hold | ⟨hclaims, hitems⟩
      · exact Or.inl ⟨.list (.queue d), ⟨d, rfl⟩, by rwa [Sys.entries_list]⟩
      · exact Or.inl ⟨.thread t, hclaims, by simp [entries, Sys.items, hitems, inUse]⟩
    | migrator =>
      exact Or.inl ⟨.migrator, trivial, by simpa [entries, Sys.items, hmig] using hp⟩
    | thread v =>
      by_cases hv : v = t
      · subst hv
        simp only [Sys.Claims, hself] at ho
        simp only [entries, Sys.items, hself] at hp
        -- the thread has had the page before, or takes it from its list now
        rcases hstep.claims ho with ⟨hclaims, hitems⟩ | ⟨q, i, left, p', rest, hpc, hl, hitems⟩
        · exact Or.inl ⟨.thread v, hclaims, by simpa [entries, Sys.items, hitems] using hp⟩
        · obtain rfl : p = p' := by simpa [hitems, inUse] using hp
          exact Or.inr (Or.inl ⟨v, rfl, by simp [hpc, Pc.takes, hl]⟩)
      · have hother : x'.thr v = x.thr v := by simp [hthr, hv]
        simp only [Sys.Claims, hother] at ho
        exact Or.inl ⟨.thread v, ho, by simpa [entries, Sys.items, hother] using hp⟩
  | migrate =>
    rcases step_migrate hs with ⟨ev, hok, hthr, -⟩
    have hstep := migStep_ok hok
    cases o with
    | list l =>
      rcases ho with ⟨d, rfl⟩
      rw [Sys.entries_list] at hp
      exact Or.inl ⟨.list (.queue d), ⟨d, rfl⟩, by rw [Sys.entries_list]; exact hstep.mem_queue hp⟩
    | thread v =>
      refine Or.inl ⟨.thread v, ?_, ?_⟩
      · simpa [Sys.Claims, hthr] using ho
      · simpa [entries, Sys.items, hthr] using hp
    | migrator =>
      rcases hstep.entries h.custody.mig hp with hold | ⟨d, hd⟩ | ⟨tier, ht⟩
      · exact Or.inl ⟨.migrator, trivial, hold⟩
      · exact Or.inl ⟨.list (.queue d), ⟨d, rfl⟩, by rwa [Sys.entries_list]⟩
      · exact Or.inr (Or.inr ⟨rfl, (Prod.mk.inj (h.custody.flags_eq ht)).2⟩)

/-- As long as requesters take no page that is being allocated. -/
theorem Claimed.step {x x' : Sys Tid} (hclaimed : Claimed x) (h : Allocs cfg x) {lbl : Label Tid}
    (htake : TakesPublished x lbl) (hs : Hemem.step cfg numBatchs lbl x = .ok x') : Claimed x' := by
  intro o ho p hp u hu
  have hsource := h.claims_step hs ho hp
  rcases allocating_step hs hu with hold | ⟨hpresents, rfl, -⟩
  · rcases hsource with ⟨o', ho', hp'⟩ | ⟨t, rfl, htakes⟩ | ⟨-, hfree⟩
    · exact hclaimed o' ho' p hp' u hold
    · exact htake p htakes u hold
    · rw [h.live u p hold] at hfree
      cases hfree
  · -- the page is in the hands of a thread that claims nothing
    have hhand := (h.notPresent hpresents).1
    rcases hpresents with ⟨k, va, tier, hpc⟩
    rcases hsource with ⟨o', ho', hp'⟩ | ⟨t, ht, htakes⟩ | ⟨hlbl, -⟩
    · have hsame := h.custody.books.excl.unique hp' hhand
      subst hsame
      simp [Sys.Claims, hpc, Pc.claims] at ho'
    · rcases ht with ⟨rfl⟩
      simp [hpc, Pc.takes] at htakes
    · cases hlbl

end Hemem
