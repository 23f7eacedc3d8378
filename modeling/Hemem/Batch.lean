import Hemem.Spec

/-!
# Hemem.Batch — what an iteration of `migration_request` does

The loops of an iteration, one after the other: which pages and which free
descriptors it dequeues, what the assertions on its way require, and what it
leaves in the descriptors, the lists and the address space. A batch is written
as the list of its pairs: a page and the free descriptor whose slot it moves to.
-/

namespace Hemem

open Lib

/-- What `hemem_migrate_*` counts in a page that moves in direction `d`. -/
def bump : Dir → HememPage → HememPage
  | .dramToDram, g | .nvmToNvm, g => g
  | .dramToNvm, g => { g with migrationsDown := g.migrationsDown + 1 }
  | .nvmToDram, g => { g with migrationsUp := g.migrationsUp + 1 }

/-- The descriptor of a page after it has moved in direction `d` to offset `off`. -/
def moved (d : Dir) (off : Nat) (g : HememPage) : HememPage :=
  { bump d g with inDram := d.dst.inDram, devdaxOffset := off, migrating := false }

/-- A free descriptor after a page has moved to its slot: the offset that is
written back is its own. -/
def freed (d : Dir) (g : HememPage) : HememPage :=
  { g with present := false, inDram := d.src.inDram }

@[simp] theorem moved_va (d : Dir) (off : Nat) (g : HememPage) : (moved d off g).va = g.va := by
  cases d <;> rfl
@[simp] theorem moved_pt (d : Dir) (off : Nat) (g : HememPage) : (moved d off g).pt = g.pt := by
  cases d <;> rfl
@[simp] theorem moved_present (d : Dir) (off : Nat) (g : HememPage) :
    (moved d off g).present = g.present := by
  cases d <;> rfl
@[simp] theorem moved_inDram (d : Dir) (off : Nat) (g : HememPage) :
    (moved d off g).inDram = d.dst.inDram := rfl
@[simp] theorem moved_devdaxOffset (d : Dir) (off : Nat) (g : HememPage) :
    (moved d off g).devdaxOffset = off := rfl
@[simp] theorem freed_va (d : Dir) (g : HememPage) : (freed d g).va = g.va := rfl
@[simp] theorem freed_pt (d : Dir) (g : HememPage) : (freed d g).pt = g.pt := rfl
@[simp] theorem freed_present (d : Dir) (g : HememPage) : (freed d g).present = false := rfl
@[simp] theorem freed_inDram (d : Dir) (g : HememPage) : (freed d g).inDram = d.src.inDram := rfl
@[simp] theorem freed_devdaxOffset (d : Dir) (g : HememPage) :
    (freed d g).devdaxOffset = g.devdaxOffset := rfl

/-- A page and the free descriptor it is exchanged with. -/
abbrev Pair := PageId × PageId

/-- The entry that the first loop makes for a pair. -/
def entryOf (s : St) (b : Pair) : Entry := ⟨some b.1, b.2, (s.page b.2).devdaxOffset⟩

/-- The pairs of a batch of `n` pages in direction `d`. -/
def batchPairs (d : Dir) (n : Nat) (s : St) : List Pair :=
  ((s.list (.queue d)).take n).zip ((s.list (.free d.dst)).take n)

/-- The state after the first loop. -/
def St.dequeued (s : St) (d : Dir) (n : Nat) : St :=
  (s.setList (.queue d) ((s.list (.queue d)).drop n)).setList (.free d.dst)
    ((s.list (.free d.dst)).drop n)

@[simp] theorem dequeued_page (s : St) (d : Dir) (n : Nat) : (s.dequeued d n).page = s.page := rfl

/-! ## The first loop -/

/-- With enough entries on both lists the batch is the first `n` pairs of a queued page and a free
descriptor. -/
theorem dequeueBatch_eq {d : Dir} {n : Nat} {s : St}
    (hq : n ≤ (s.list (.queue d)).length) (hf : n ≤ (s.list (.free d.dst)).length) :
    dequeueBatch d n s = .ok ((batchPairs d n s).map (entryOf s), s.dequeued d n) := by
  induction n generalizing s with
  | zero => simp [dequeueBatch, batchPairs, St.dequeued, setList_self]
  | succ n ih =>
    rcases List.exists_cons_of_length_pos (Nat.lt_of_lt_of_le n.succ_pos hq) with ⟨p, ps, hps⟩
    rcases List.exists_cons_of_length_pos (Nat.lt_of_lt_of_le n.succ_pos hf) with ⟨q, qs, hqs⟩
    have hqs' : (s.setList (.queue d) ps).list (.free d.dst) = q :: qs := by
      simpa [Function.update_of_ne] using hqs
    have hrec := ih (s := (s.setList (.queue d) ps).setList (.free d.dst) qs)
      (by simpa [hps] using hq) (by simpa [hqs] using hf)
    simp only [dequeueBatch, dequeueFifo_cons hps, dequeueFifo_cons hqs', deref, hrec, bind,
      Except.bind]
    simp [batchPairs, St.dequeued, hps, hqs, St.setList, entryOf, Function.update_comm]

/-- With fewer free descriptors than pages, the first loop dereferences `NULL`. -/
theorem dequeueBatch_short {d : Dir} {n : Nat} {s : St}
    (hf : (s.list (.free d.dst)).length < n) : dequeueBatch d n s = .error .nullDeref := by
  induction n generalizing s with
  | zero => exact absurd hf (Nat.not_lt_zero _)
  | succ n ih =>
    have hfree : (dequeueFifo (.queue d) s).2.list (.free d.dst) = s.list (.free d.dst) := by
      unfold dequeueFifo
      split <;> simp
    cases hqs : s.list (.free d.dst) with
    | nil =>
      rw [hqs] at hfree
      simp [dequeueBatch, dequeueFifo_nil hfree, deref, bind, Except.bind]
    | cons q qs =>
      rw [hqs] at hfree
      have hrec := ih (s := (dequeueFifo (.queue d) s).2.setList (.free d.dst) qs)
        (by simpa [hqs] using hf)
      simp only [dequeueBatch, dequeueFifo_cons hfree, deref, hrec, bind, Except.bind]

/-! ## The second loop -/

/-- The state after the second loop. -/
def St.enqueued (s : St) (d : Dir) (bs : List Pair) : St :=
  { s with
    page := fun x => if x ∈ bs.map Prod.snd then freed d (s.page x) else s.page x
    list := Function.update
      (Function.update s.list (.mmap d.dst) (s.list (.mmap d.dst) ++ bs.map Prod.fst))
      (.free d.src) (s.list (.free d.src) ++ bs.map Prod.snd) }

theorem freed_freed (d : Dir) (g : HememPage) : freed d (freed d g) = freed d g := rfl

/-- Every entry puts its page on the mmap list and its descriptor on the free list, in order. -/
theorem enqueueBatch_eq {d : Dir} {bs : List Pair} {es : List Entry} {s : St}
    (hes : es.map (fun e => (e.page, e.next)) = bs.map fun b => (some b.1, b.2))
    (hoff : ∀ e ∈ es, e.offset = (s.page e.next).devdaxOffset) :
    enqueueBatch d es s = .ok (s.enqueued d bs) := by
  induction es generalizing s bs with
  | nil =>
    obtain rfl : bs = [] := by simpa using hes.symm
    simp [enqueueBatch, St.enqueued]
  | cons e es ih =>
    obtain _ | ⟨b, bs⟩ := bs
    · simp at hes
    simp only [List.map_cons, List.cons.injEq, Prod.mk.injEq] at hes
    rcases hes with ⟨⟨hpage, hnext⟩, hes⟩
    have he : e.offset = (s.page b.2).devdaxOffset := hnext ▸ hoff e (by simp)
    -- the state after this iteration
    have hstep := ih (s := s.enqueued d [b]) hes (by
      intro e' he'
      rw [hoff e' (List.mem_cons_of_mem _ he')]
      simp only [St.enqueued]
      split <;> simp)
    have hs : (((s.modPage e.next fun g =>
        { g with devdaxOffset := e.offset, present := false, inDram := d.src.inDram }).setList
        (.mmap d.dst) (s.list (.mmap d.dst) ++ [b.1])).setList (.free d.src)
        (s.list (.free d.src) ++ [b.2])) = s.enqueued d [b] := by
      ext1 <;> simp [St.enqueued, hnext, he]
      funext x
      by_cases hx : x = b.2
      · subst hx
        simp [freed]
      · simp [hx]
    simp only [enqueueBatch, hpage, enqueueFifo_some, bind, Except.bind, St.modPage_list,
      St.setList_list, Function.update_of_ne (by simp : (ListId.free d.src) ≠ .mmap d.dst), hnext]
    simp only [hnext] at hs
    rw [hs, hstep]
    congr 1
    ext1 <;> simp [St.enqueued]
    · funext x
      by_cases hx : x ∈ bs.map Prod.snd <;> by_cases hb : x = b.2 <;> simp_all [freed_freed]
    · funext l
      simp only [Function.update_apply]
      grind

/-! ## `hemem_wp_page` and the two loops of `hemem_migrate_*` -/

/-- The loop over the batch writes `migrating` of its pages and nothing else. -/
theorem setMigrating_eq (b : Bool) (ps : List PageId) (s : St) :
    setMigrating b ps s =
      { s with page := fun x => if x ∈ ps then { s.page x with migrating := b } else s.page x } := by
  induction ps generalizing s with
  | nil => simp [setMigrating]
  | cons p ps ih =>
    rw [setMigrating, ih]
    ext1 <;> simp
    funext x
    by_cases hx : x = p
    · subst hx
      by_cases hmem : x ∈ ps <;> simp [hmem]
    · simp [hx]

/-- What `hemem_wp_page` asserts of a page, and what the kernel requires. -/
structure Protectable (s : St) (p : PageId) : Prop where
  va_ne : (s.page p).va ≠ 0
  aligned : (s.page p).va % pageSize = 0
  registered : s.registered (s.page p).va = true

/-- The state after `hemem_wp_page`. -/
@[simps! -fullyApplied] def St.protect (s : St) (ps : List PageId) : St :=
  { s with wp := fun a => s.wp a ||
      ps.any fun p => inRange (s.page p).va (ptToPagesize (s.page p).pt) a }

theorem protect_cons (s : St) (p : PageId) (ps : List PageId) :
    (protectRange (s.page p).va (ptToPagesize (s.page p).pt) s).protect ps =
      s.protect (p :: ps) := by
  ext1 <;> try rfl
  funext a
  simp only [St.protect_wp, protectRange_wp, protectRange_page, List.any_cons]
  cases inRange (s.page p).va (ptToPagesize (s.page p).pt) a <;> simp

/-- The write protection succeeds exactly when every page can be protected. -/
theorem hememWpPage_ok {ps : List PageId} {s s' : St} :
    hememWpPage ps s = .ok s' ↔ (∀ p ∈ ps, Protectable s p) ∧ s' = s.protect ps := by
  induction ps generalizing s with
  | nil => simp [hememWpPage, St.protect, eq_comm]
  | cons p ps ih =>
    simp only [hememWpPage, wpPage, uffdioWriteprotect, bind_eq_ok, check_eq_ok, ih,
      Except.ok.injEq, exists_const, bne_iff_ne, beq_iff_eq, List.mem_cons, forall_eq_or_imp]
    constructor
    · rintro ⟨s₁, ⟨hne, hal, hreg, rfl⟩, hps, rfl⟩
      refine ⟨⟨⟨hne, hal, hreg⟩, fun q hq => ?_⟩, ?_⟩
      · exact ⟨(hps q hq).va_ne, (hps q hq).aligned, (hps q hq).registered⟩
      · exact protect_cons s p ps
    · rintro ⟨⟨hp, hps⟩, rfl⟩
      refine ⟨_, ⟨hp.va_ne, hp.aligned, hp.registered, rfl⟩, fun q hq => ?_, ?_⟩
      · exact ⟨(hps q hq).va_ne, (hps q hq).aligned, (hps q hq).registered⟩
      · exact (protect_cons s p ps).symm

/-- What the first loop of `hemem_migrate_*` asserts of a page and its new
offset. -/
structure Copyable (cfg : Config) (src dst : Tier) (s : St) (m : Move) : Prop where
  inDram : (s.page m.1).inDram = src.inDram
  fitsOld : (s.page m.1).devdaxOffset + ptToPagesize (s.page m.1).pt ≤ cfg.size src
  fitsNew : m.2 + ptToPagesize (s.page m.1).pt ≤ cfg.size dst

/-- The state after the first loop of `hemem_migrate_*`. -/
def St.copyAll (s : St) (src dst : Tier) (ms : List Move) : St :=
  ms.foldl (fun s m => copySlot src (s.page m.1).devdaxOffset dst m.2
    (ptToPagesize (s.page m.1).pt) s) s

@[simp] theorem copyAll_nil (s : St) (src dst : Tier) : s.copyAll src dst [] = s := rfl

@[simp] theorem copyAll_cons (s : St) (src dst : Tier) (m : Move) (ms : List Move) :
    s.copyAll src dst (m :: ms) = (copySlot src (s.page m.1).devdaxOffset dst m.2
      (ptToPagesize (s.page m.1).pt) s).copyAll src dst ms := rfl

/-- The copies change device memory only. -/
theorem copyAll_eq (s : St) (src dst : Tier) (ms : List Move) :
    s.copyAll src dst ms = { s with mem := (s.copyAll src dst ms).mem } := by
  induction ms generalizing s with
  | nil => rfl
  | cons m ms ih =>
    rw [copyAll_cons, ih]
    rfl

@[simp] theorem copyAll_page (s : St) (src dst : Tier) (ms : List Move) :
    (s.copyAll src dst ms).page = s.page := by
  rw [copyAll_eq]

/-- The assertions hold exactly when both slots are what they should be; the comparison of the
offset alone follows from that of its end. -/
theorem checkMove_ok {cfg : Config} {src dst : Tier} {m : Move} {s : St} {u : Unit} :
    checkMove cfg src dst m s = .ok u ↔ Copyable cfg src dst s m := by
  have hpos := ptToPagesize_pos (s.page m.1).pt
  simp only [checkMove, bind_eq_ok, check_eq_ok, exists_const, beq_iff_eq, decide_eq_true_eq]
  constructor
  · rintro ⟨hdram, -, hold, -, hnew⟩
    exact ⟨hdram, hold, hnew⟩
  · intro h
    have hold := h.fitsOld
    have hnew := h.fitsNew
    exact ⟨h.inDram, by omega, hold, by omega, hnew⟩

/-- A copy succeeds exactly under its assertions. -/
theorem copyPage_ok {cfg : Config} {src dst : Tier} {m : Move} {s s' : St} :
    copyPage cfg src dst m s = .ok s' ↔ Copyable cfg src dst s m ∧
      s' = copySlot src (s.page m.1).devdaxOffset dst m.2 (ptToPagesize (s.page m.1).pt) s := by
  simp only [copyPage, bind_eq_ok, checkMove_ok, exists_const, Except.ok.injEq]
  exact and_congr_right fun _ => eq_comm

/-- The value that the first loop leaves in `pagesize`, which has been `n` before. -/
def lastSize (s : St) (ms : List Move) (n : Nat) : Nat :=
  ms.foldl (fun _ m => ptToPagesize (s.page m.1).pt) n

/-- With huge pages only, the last size is that of a huge page. -/
theorem lastSize_hugep {ms : List Move} {n : Nat} {s : St}
    (hpt : ∀ m ∈ ms, (s.page m.1).pt = .hugep) :
    lastSize s ms n = if ms = [] then n else pageSize := by
  induction ms generalizing n with
  | nil => rfl
  | cons m ms ih =>
    have hm : ptToPagesize (s.page m.1).pt = pageSize := by
      rw [hpt m List.mem_cons_self]
      rfl
    have hrest := ih (n := ptToPagesize (s.page m.1).pt) fun m' hm' =>
      hpt m' (List.mem_cons_of_mem _ hm')
    rw [lastSize, List.foldl_cons, ← lastSize, hrest, hm]
    simp

/-- The first loop succeeds exactly when every page passes the assertions, on the state before the
loop: a copy changes no descriptor. -/
theorem copyLoop_iff {cfg : Config} {src dst : Tier} {ms : List Move} {n : Nat} {r : Nat × St}
    {s : St} :
    copyLoop cfg src dst ms n s = .ok r ↔ (∀ m ∈ ms, Copyable cfg src dst s m) ∧
      r = (lastSize s ms n, s.copyAll src dst ms) := by
  induction ms generalizing n s with
  | nil => simp [copyLoop, lastSize, eq_comm]
  | cons m ms ih =>
    simp only [copyLoop, bind_eq_ok, copyPage_ok, List.mem_cons, forall_eq_or_imp]
    constructor
    · rintro ⟨s₁, ⟨hm, rfl⟩, hrest⟩
      rw [ih] at hrest
      refine ⟨⟨hm, fun m' hm' => ?_⟩, hrest.2⟩
      exact ⟨(hrest.1 m' hm').inDram, (hrest.1 m' hm').fitsOld, (hrest.1 m' hm').fitsNew⟩
    · rintro ⟨⟨hm, hms⟩, rfl⟩
      refine ⟨_, ⟨hm, rfl⟩, ?_⟩
      rw [ih]
      refine ⟨fun m' hm' => ?_, rfl⟩
      exact ⟨(hms m' hm').inDram, (hms m' hm').fitsOld, (hms m' hm').fitsNew⟩

/-- The first loop on huge pages. -/
theorem copyLoop_ok {cfg : Config} {src dst : Tier} {ms : List Move} {n : Nat} {r : Nat × St}
    {s : St} (hpt : ∀ m ∈ ms, (s.page m.1).pt = .hugep) :
    copyLoop cfg src dst ms n s = .ok r ↔ (∀ m ∈ ms, Copyable cfg src dst s m) ∧
      r = (if ms = [] then n else pageSize, s.copyAll src dst ms) := by
  rw [copyLoop_iff, lastSize_hugep hpt]

/-- One iteration of the second loop of `hemem_migrate_*` on a huge page. -/
@[simps! -fullyApplied] def St.remap (s : St) (dst : Tier) (bump : HememPage → HememPage)
    (m : Move) : St :=
  (registerRange (s.page m.1).va pageSize
    (mmapFixed (s.page m.1).va pageSize dst m.2 s)).modPage m.1
      fun g => { bump g with inDram := dst.inDram, devdaxOffset := m.2 }

/-- A page moves to another slot and keeps its address. -/
theorem remap_va {dst : Tier} {f : HememPage → HememPage} {s : St}
    (hf : ∀ g, (f g).va = g.va) (m : Move) (p : PageId) :
    ((s.remap dst f m).page p).va = (s.page p).va := by
  rw [St.remap_page]
  by_cases hp : p = m.1
  · rw [hp, Function.update_self]
    exact hf _
  · rw [Function.update_of_ne hp]

/-- The state after the second loop of `hemem_migrate_*`. -/
def St.remapAll (s : St) (dst : Tier) (bump : HememPage → HememPage) (ms : List Move) : St :=
  ms.foldl (fun s m => s.remap dst bump m) s

@[simp] theorem remapAll_nil (s : St) (dst : Tier) (bump : HememPage → HememPage) :
    s.remapAll dst bump [] = s := rfl

@[simp] theorem remapAll_cons (s : St) (dst : Tier) (bump : HememPage → HememPage) (m : Move)
    (ms : List Move) : s.remapAll dst bump (m :: ms) = (s.remap dst bump m).remapAll dst bump ms :=
  rfl

/-- The second loop on aligned pages returns; both values that it may take for
the length are `PAGE_SIZE`. -/
theorem remapLoop_eq {dst : Tier} {stale : Option Nat} {bump : HememPage → HememPage}
    {ms : List Move} {s : St} (hstale : ∀ n, stale = some n → ms ≠ [] → n = pageSize)
    (hbump : ∀ g, (bump g).va = g.va ∧ (bump g).pt = g.pt)
    (hpt : ∀ m ∈ ms, (s.page m.1).pt = .hugep)
    (hva : ∀ m ∈ ms, (s.page m.1).va % pageSize = 0) :
    remapLoop dst stale bump ms s = .ok (s.remapAll dst bump ms) := by
  induction ms generalizing s with
  | nil => rfl
  | cons m ms ih =>
    -- a length left by the loop before is the size of a huge page
    have hlen : remapLength stale m.1 s = pageSize := by
      cases stale with
      | none => simp [remapLength, hpt m List.mem_cons_self, ptToPagesize]
      | some n => exact hstale n rfl (by simp)
    -- this page keeps its address and its size for the pages that follow
    have hpage : ∀ p, ((s.remap dst bump m).page p).va = (s.page p).va ∧
        ((s.remap dst bump m).page p).pt = (s.page p).pt := by
      intro p
      by_cases hp : p = m.1
      · subst hp
        simpa using hbump _
      · simp [hp]
    have hstep : remapPage dst stale bump m s = .ok (s.remap dst bump m) := by
      have hal := hva m (by simp)
      have hstart : inRange (s.page m.1).va pageSize (s.page m.1).va = true :=
        inRange_start (by simp)
      simp only [remapPage, hlen, uffdioRegister, check, bind, Except.bind, hal, mmapFixed_vm,
        hstart, beq_self_eq_true, if_true, Option.isSome_some]
      rfl
    rw [remapLoop, hstep]
    refine ih (fun n hn _ => hstale n hn (by simp)) ?_ ?_
    · intro m' hm'
      rw [(hpage m'.1).2]
      exact hpt m' (List.mem_cons_of_mem _ hm')
    · intro m' hm'
      rw [(hpage m'.1).1]
      exact hva m' (List.mem_cons_of_mem _ hm')

/-! ## `pebs_migrate_*` -/

/-- No entry of a list of pages is `NULL`. -/
theorem mapM_deref (ps : List PageId) : (ps.map some).mapM deref = .ok ps := by
  induction ps with
  | nil => rfl
  | cons p ps ih => simp [List.mapM_cons, ih, deref, bind, Except.bind, pure, Except.pure]

/-- Counting a migration leaves the address and the size of a page alone. -/
theorem bump_va_pt (d : Dir) (g : HememPage) : (bump d g).va = g.va ∧ (bump d g).pt = g.pt := by
  cases d <;> exact ⟨rfl, rfl⟩

/-- The state after `pebs_migrate_*`. -/
def St.migrated (s : St) (d : Dir) (ms : List Move) : St :=
  setMigrating false (ms.map Prod.fst)
    ((((setMigrating true (ms.map Prod.fst) s).protect (ms.map Prod.fst)).copyAll
      d.src d.dst ms).remapAll d.dst (bump d) ms)

/-- What stops `pebs_migrate_*` from completing: a page that is not mapped and
registered any more, or a slot outside its device. -/
structure Migratable (cfg : Config) (d : Dir) (s : St) (m : Move) : Prop where
  protectable : Protectable s m.1
  copyable : Copyable cfg d.src d.dst s m

/-- The two loops together; `stale` is what becomes of `pagesize` in between. -/
theorem copyRemap_ok {cfg : Config} {src dst : Tier} {bump : HememPage → HememPage}
    {stale : Nat → Option Nat} {ms : List Move} {s s' : St}
    (hstale : ∀ m n, stale m = some n → n = m)
    (hbump : ∀ g, (bump g).va = g.va ∧ (bump g).pt = g.pt)
    (hpt : ∀ m ∈ ms, (s.page m.1).pt = .hugep)
    (hva : ∀ m ∈ ms, (s.page m.1).va % pageSize = 0) :
    (copyLoop cfg src dst ms 0 s >>= fun r => remapLoop dst (stale r.1) bump ms r.2) = .ok s' ↔
      (∀ m ∈ ms, Copyable cfg src dst s m) ∧
        s' = (s.copyAll src dst ms).remapAll dst bump ms := by
  simp only [bind_eq_ok, copyLoop_ok hpt]
  have hremap : remapLoop dst (stale (if ms = [] then 0 else pageSize)) bump ms
      (s.copyAll src dst ms) = .ok ((s.copyAll src dst ms).remapAll dst bump ms) := by
    refine remapLoop_eq (fun n hn hne => ?_) hbump (by simpa using hpt) (by simpa using hva)
    simpa [hne] using hstale _ _ hn
  constructor
  · rintro ⟨r, ⟨hms, rfl⟩, h⟩
    exact ⟨hms, Except.ok.inj (h.symm.trans hremap)⟩
  · rintro ⟨hms, rfl⟩
    exact ⟨_, ⟨hms, rfl⟩, hremap⟩

/-- What the second loop of a direction takes over from the first. -/
def Dir.staleSize : Dir → Nat → Option Nat
  | .dramToDram, n | .dramToNvm, n => some n
  | .nvmToDram, _ | .nvmToNvm, _ => none

/-- A size that is left over is that of the first loop. -/
theorem staleSize_eq {d : Dir} {n k : Nat} (h : d.staleSize n = some k) : k = n := by
  cases d <;> cases h <;> rfl

/-- The four functions are the two loops with the values of their direction. -/
theorem hememMigrate_def (cfg : Config) (d : Dir) (ms : List Move) (s : St) :
    hememMigrate cfg d ms s = copyLoop cfg d.src d.dst ms 0 s >>= fun r =>
      remapLoop d.dst (d.staleSize r.1) (bump d) ms r.2 := by
  cases d <;> rfl

/-- `hemem_migrate_*` on huge pages. -/
theorem hememMigrate_ok {cfg : Config} {d : Dir} {ms : List Move} {s s' : St}
    (hpt : ∀ m ∈ ms, (s.page m.1).pt = .hugep)
    (hva : ∀ m ∈ ms, (s.page m.1).va % pageSize = 0) :
    hememMigrate cfg d ms s = .ok s' ↔
      (∀ m ∈ ms, Copyable cfg d.src d.dst s m) ∧
        s' = (s.copyAll d.src d.dst ms).remapAll d.dst (bump d) ms := by
  rw [hememMigrate_def]
  exact copyRemap_ok (fun _ _ => staleSize_eq) (bump_va_pt d) hpt hva

/-- The four `pebs_migrate_*` differ in the function that they call. -/
theorem pebsMigrate_eq (cfg : Config) (d : Dir) :
    pebsMigrate cfg d = pebsMigrateWith (hememMigrate cfg d) := by
  cases d <;> rfl

/-- `pebs_migrate_*` on a batch without `NULL` entries. -/
theorem pebsMigrate_ok {cfg : Config} {d : Dir} {ms : List Move} {s s' : St}
    (hpt : ∀ p, (s.page p).pt = .hugep) :
    pebsMigrate cfg d (ms.map fun m => some m.1) (ms.map Prod.snd) s = .ok s' ↔
      (∀ m ∈ ms, Migratable cfg d s m) ∧ s' = s.migrated d ms := by
  have hpages : (ms.map fun m => some m.1) = (ms.map Prod.fst).map some := by simp
  have hzip : (ms.map Prod.fst).zip (ms.map Prod.snd) = ms :=
    (List.zip_of_prod rfl rfl).symm
  simp only [pebsMigrate_eq, pebsMigrateWith, hpages, mapM_deref, hzip, bind_eq_ok, hememWpPage_ok,
    Except.ok.injEq, exists_eq_left']
  -- the pages of the batch after `migrating` has been set
  have hflag : ∀ p, ((setMigrating true (ms.map Prod.fst) s).page p).va = (s.page p).va ∧
      ((setMigrating true (ms.map Prod.fst) s).page p).pt = (s.page p).pt ∧
      ((setMigrating true (ms.map Prod.fst) s).page p).inDram = (s.page p).inDram ∧
      ((setMigrating true (ms.map Prod.fst) s).page p).devdaxOffset =
        (s.page p).devdaxOffset := by
    intro p
    rw [setMigrating_eq]
    simp only
    split <;> simp
  have hreg : (setMigrating true (ms.map Prod.fst) s).registered = s.registered := by
    rw [setMigrating_eq]
  have hprot : ∀ p, Protectable (setMigrating true (ms.map Prod.fst) s) p ↔
      Protectable s p := by
    intro p
    rcases hflag p with ⟨hva, -⟩
    constructor
    · rintro ⟨h1, h2, h3⟩
      exact ⟨hva ▸ h1, hva ▸ h2, by rwa [hreg, hva] at h3⟩
    · rintro ⟨h1, h2, h3⟩
      exact ⟨hva.symm ▸ h1, hva.symm ▸ h2, by rwa [hreg, hva]⟩
  have hcopy : ∀ m, Copyable cfg d.src d.dst
      ((setMigrating true (ms.map Prod.fst) s).protect (ms.map Prod.fst)) m ↔
      Copyable cfg d.src d.dst s m := by
    intro m
    rcases hflag m.1 with ⟨-, hptm, hdram, hoff⟩
    constructor
    · rintro ⟨h1, h2, h3⟩
      simp only [St.protect_page, hptm, hdram, hoff] at h1 h2 h3
      exact ⟨h1, h2, h3⟩
    · rintro ⟨h1, h2, h3⟩
      refine ⟨?_, ?_, ?_⟩ <;> simpa only [St.protect_page, hptm, hdram, hoff]
  constructor
  · rintro ⟨s₁, ⟨hps, rfl⟩, s₂, hrun, rfl⟩
    have hal : ∀ m ∈ ms, (s.page m.1).va % pageSize = 0 := fun m hm =>
      ((hprot m.1).mp (hps m.1 (List.mem_map_of_mem hm))).aligned
    have hrun := (hememMigrate_ok (by intro m _; simpa [(hflag m.1).2.1] using hpt m.1)
      (by intro m hm; simpa [(hflag m.1).1] using hal m hm)).mp hrun
    refine ⟨fun m hm => ⟨?_, ?_⟩, ?_⟩
    · exact (hprot m.1).mp (hps m.1 (List.mem_map_of_mem hm))
    · exact (hcopy m).mp (hrun.1 m hm)
    · rw [hrun.2]
      rfl
  · rintro ⟨hms, rfl⟩
    refine ⟨_, ⟨fun p hp => ?_, rfl⟩, _, ?_, rfl⟩
    · rcases List.mem_map.mp hp with ⟨m, hm, rfl⟩
      exact (hprot m.1).mpr (hms m hm).protectable
    · refine (hememMigrate_ok (by intro m _; simpa [(hflag m.1).2.1] using hpt m.1)
        (by intro m hm; simpa [(hflag m.1).1] using (hms m hm).protectable.aligned)).mpr ?_
      exact ⟨fun m hm => (hcopy m).mpr (hms m hm).copyable, rfl⟩

/-! ## The state after a batch -/

@[simp] theorem remapAll_list (s : St) (dst : Tier) (f : HememPage → HememPage) (ms : List Move) :
    (s.remapAll dst f ms).list = s.list := by
  induction ms generalizing s with
  | nil => rfl
  | cons m ms ih => rw [remapAll_cons, ih, St.remap_list]

@[simp] theorem remapAll_num (s : St) (dst : Tier) (f : HememPage → HememPage) (ms : List Move) :
    (s.remapAll dst f ms).num = s.num := by
  induction ms generalizing s with
  | nil => rfl
  | cons m ms ih => rw [remapAll_cons, ih, St.remap_num]

@[simp] theorem remapAll_pages (s : St) (dst : Tier) (f : HememPage → HememPage)
    (ms : List Move) : (s.remapAll dst f ms).pages = s.pages := by
  induction ms generalizing s with
  | nil => rfl
  | cons m ms ih => rw [remapAll_cons, ih, St.remap_pages]

@[simp] theorem remapAll_mem (s : St) (dst : Tier) (f : HememPage → HememPage) (ms : List Move) :
    (s.remapAll dst f ms).mem = s.mem := by
  induction ms generalizing s with
  | nil => rfl
  | cons m ms ih => rw [remapAll_cons, ih, St.remap_mem]

/-- Frame: a page that does not move keeps its descriptor. -/
theorem remapAll_page_other {s : St} {dst : Tier} {f : HememPage → HememPage} {ms : List Move}
    {x : PageId} (hx : x ∉ ms.map Prod.fst) : (s.remapAll dst f ms).page x = s.page x := by
  induction ms generalizing s with
  | nil => rfl
  | cons m ms ih =>
    simp only [List.map_cons, List.mem_cons, not_or] at hx
    rw [remapAll_cons, ih hx.2, St.remap_page, Function.update_of_ne hx.1]

/-- A page that moves gets the tier and the offset of its new slot. -/
theorem remapAll_page_mem {s : St} {dst : Tier} {f : HememPage → HememPage} {ms : List Move}
    (hnd : (ms.map Prod.fst).Nodup) {m : Move} (hm : m ∈ ms) :
    (s.remapAll dst f ms).page m.1 =
      { f (s.page m.1) with inDram := dst.inDram, devdaxOffset := m.2 } := by
  induction ms generalizing s with
  | nil => cases hm
  | cons m' ms ih =>
    rw [List.map_cons, List.nodup_cons] at hnd
    rw [remapAll_cons]
    rcases List.mem_cons.mp hm with rfl | hm
    · rw [remapAll_page_other hnd.1, St.remap_page, Function.update_self]
    · have hne : m.1 ≠ m'.1 := fun h => hnd.1 (h ▸ List.mem_map_of_mem hm)
      rw [ih hnd.2 hm, St.remap_page, Function.update_of_ne hne]

@[simp] theorem copyAll_list (s : St) (src dst : Tier) (ms : List Move) :
    (s.copyAll src dst ms).list = s.list := by
  rw [copyAll_eq]

@[simp] theorem copyAll_num (s : St) (src dst : Tier) (ms : List Move) :
    (s.copyAll src dst ms).num = s.num := by
  rw [copyAll_eq]

@[simp] theorem copyAll_pages (s : St) (src dst : Tier) (ms : List Move) :
    (s.copyAll src dst ms).pages = s.pages := by
  rw [copyAll_eq]

@[simp] theorem migrated_list (s : St) (d : Dir) (ms : List Move) :
    (s.migrated d ms).list = s.list := by
  simp [St.migrated, setMigrating_eq]

@[simp] theorem migrated_num (s : St) (d : Dir) (ms : List Move) :
    (s.migrated d ms).num = s.num := by
  simp [St.migrated, setMigrating_eq]

@[simp] theorem migrated_pages (s : St) (d : Dir) (ms : List Move) :
    (s.migrated d ms).pages = s.pages := by
  simp [St.migrated, setMigrating_eq]

/-- Frame: the descriptors outside the batch. -/
theorem migrated_page_other {s : St} {d : Dir} {ms : List Move} {x : PageId}
    (hx : x ∉ ms.map Prod.fst) : (s.migrated d ms).page x = s.page x := by
  simp only [St.migrated, setMigrating_eq, if_neg hx, remapAll_page_other hx, copyAll_page,
    St.protect_page]

/-- What the migration makes of the descriptor of a page. -/
theorem migrated_page_mem {s : St} {d : Dir} {ms : List Move} (hnd : (ms.map Prod.fst).Nodup)
    {m : Move} (hm : m ∈ ms) : (s.migrated d ms).page m.1 = moved d m.2 (s.page m.1) := by
  have hx : m.1 ∈ ms.map Prod.fst := List.mem_map_of_mem hm
  simp only [St.migrated, setMigrating_eq, if_pos hx, remapAll_page_mem hnd hm, copyAll_page,
    St.protect_page]
  cases d <;> rfl

/-- The move that a pair stands for. -/
def moveOf (s : St) (b : Pair) : Move := (b.1, (s.page b.2).devdaxOffset)

/-- The state after an iteration of the loop of direction `d` on `n` pages. -/
def St.batched (s : St) (d : Dir) (n : Nat) : St :=
  countBatch d (UInt64.ofNat n)
    (((s.dequeued d n).migrated d ((batchPairs d n s).map (moveOf s))).enqueued d
      (batchPairs d n s))

/-- What an iteration on `n` pages needs in order to complete, once its queue
holds `n` pages. -/
structure Completable (cfg : Config) (d : Dir) (n : Nat) (s : St) : Prop where
  enough : n ≤ (s.list (.free d.dst)).length
  migratable : ∀ b ∈ batchPairs d n s, Migratable cfg d s (moveOf s b)

/-- The pages of a batch are the head of the queue. -/
theorem batchPairs_fst {d : Dir} {n : Nat} {s : St} (hq : n ≤ (s.list (.queue d)).length)
    (hf : n ≤ (s.list (.free d.dst)).length) :
    (batchPairs d n s).map Prod.fst = (s.list (.queue d)).take n := by
  rw [batchPairs, List.map_fst_zip]
  simp only [List.length_take]
  omega

/-- The descriptors of a batch are the head of the free list. -/
theorem batchPairs_snd {d : Dir} {n : Nat} {s : St} (hq : n ≤ (s.list (.queue d)).length)
    (hf : n ≤ (s.list (.free d.dst)).length) :
    (batchPairs d n s).map Prod.snd = (s.list (.free d.dst)).take n := by
  rw [batchPairs, List.map_snd_zip]
  simp only [List.length_take]
  omega

/-- An iteration completes exactly when its free list is long enough and every
page of the batch can be protected and copied; then its effect is `batched`. -/
theorem migrateBatch_ok {cfg : Config} {numBatchs n : Nat} {d : Dir} {s s' : St}
    (hn : batchSize numBatchs d s = n) (hq : n ≤ (s.list (.queue d)).length)
    (hpt : ∀ p, (s.page p).pt = .hugep)
    (hdisj : ∀ p ∈ s.list (.queue d), p ∉ s.list (.free d.dst)) :
    migrateBatch cfg numBatchs d s = .ok s' ↔
      Completable cfg d n s ∧ s' = s.batched d n := by
  by_cases hf : n ≤ (s.list (.free d.dst)).length
  · have hfst := batchPairs_fst hq hf
    have hpage : ((batchPairs d n s).map (entryOf s)).map Entry.page =
        ((batchPairs d n s).map (moveOf s)).map fun m => some m.1 := by
      simp [entryOf, moveOf]
    have hoff : ((batchPairs d n s).map (entryOf s)).map Entry.offset =
        ((batchPairs d n s).map (moveOf s)).map Prod.snd := by
      simp [entryOf, moveOf]
    -- the free descriptors of the batch are not among the pages it moves
    have hkeep : ∀ b ∈ batchPairs d n s,
        b.2 ∉ ((batchPairs d n s).map (moveOf s)).map Prod.fst := by
      intro b hb hmem
      have h1 : b.2 ∈ (s.list (.queue d)).take n := by
        rw [← hfst]
        simpa [moveOf] using hmem
      have h2 : b.2 ∈ (s.list (.free d.dst)).take n := (List.of_mem_zip hb).2
      exact hdisj _ (List.mem_of_mem_take h1) (List.mem_of_mem_take h2)
    have henq : enqueueBatch d ((batchPairs d n s).map (entryOf s))
        ((s.dequeued d n).migrated d ((batchPairs d n s).map (moveOf s))) =
        .ok (((s.dequeued d n).migrated d ((batchPairs d n s).map (moveOf s))).enqueued d
          (batchPairs d n s)) := by
      refine enqueueBatch_eq (by simp [entryOf]) fun e he => ?_
      rcases List.mem_map.mp he with ⟨b, hb, rfl⟩
      have hpage := migrated_page_other (s := s.dequeued d n) (d := d) (hkeep b hb)
      simp only [entryOf, hpage, dequeued_page]
    have hmig : ∀ m, Migratable cfg d (s.dequeued d n) m ↔ Migratable cfg d s m := by
      intro m
      constructor
      · rintro ⟨⟨h1, h2, h3⟩, ⟨h4, h5, h6⟩⟩
        exact ⟨⟨h1, h2, h3⟩, ⟨h4, h5, h6⟩⟩
      · rintro ⟨⟨h1, h2, h3⟩, ⟨h4, h5, h6⟩⟩
        exact ⟨⟨h1, h2, h3⟩, ⟨h4, h5, h6⟩⟩
    simp only [migrateBatch, hn, dequeueBatch_eq hq hf, bind_eq_ok, Except.ok.injEq,
      exists_eq_left', hpage, hoff, pebsMigrate_ok (s := s.dequeued d n) hpt, hmig]
    constructor
    · rintro ⟨s₁, ⟨hms, rfl⟩, s₂, hs₂, rfl⟩
      rw [henq, Except.ok.injEq] at hs₂
      subst hs₂
      exact ⟨⟨hf, fun b hb => hms _ (List.mem_map_of_mem hb)⟩, rfl⟩
    · rintro ⟨hc, rfl⟩
      refine ⟨_, ⟨fun m hm => ?_, rfl⟩, _, henq, rfl⟩
      rcases List.mem_map.mp hm with ⟨b, hb, rfl⟩
      exact hc.migratable b hb
  · have hshort := dequeueBatch_short (d := d) (n := n) (s := s) (Nat.lt_of_not_le hf)
    constructor
    · intro h
      simp [migrateBatch, hn, hshort] at h
    · rintro ⟨hc, -⟩
      exact absurd hc.enough hf

end Hemem
