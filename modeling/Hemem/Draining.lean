import Hemem.AppMemory
import Hemem.Requests

/-!
# Hemem.Draining — batches of any size

A loop of `migration_request` that runs until its queue is empty. Larger batches take all
free descriptors before they give the first one back, and copy all pages before they remap
the first one. Every effect of a batch is a fold over its pairs, though, with operands that
the other pairs leave alone: so two batches, one after the other, are one batch, and the
sizes into which the queue is cut make no difference.
-/

namespace Hemem

open Lib

variable {cfg : Config} {s s' : St} {d : Dir} {k n : Nat}

/-- `fuel` iterations of the loop of direction `d`; one that finds the counter at 0 does
nothing. -/
def drainLoop (cfg : Config) (numBatchs : Nat) (d : Dir) : Nat → St → Except Fault St
  | 0, s => .ok s
  | fuel + 1, s => do
    let s ← migrationRequest cfg numBatchs d s
    drainLoop cfg numBatchs d fuel s

/-- The loop of direction `d`: there are at most as many iterations as pages. -/
def drain (cfg : Config) (numBatchs : Nat) (d : Dir) (s : St) : Except Fault St :=
  drainLoop cfg numBatchs d (s.num (.queue d)).toNat s

/-! ## A batch as a fold -/

/-- A page of the address space is mapped to a slot. -/
def mapPage (t : Tier) (va off : Nat) (vm : Nat → Option Backing) (a : Nat) : Option Backing :=
  if inRange va pageSize a then some (.slot t (off + (a - va))) else vm a

/-- A slot is copied to another. -/
def copyBytes (src : Tier) (old : Nat) (dst : Tier) (new : Nat) (mem : Tier → Nat → Byte)
    (u : Tier) (o : Nat) : Byte :=
  if u = dst ∧ inRange new pageSize o then mem src (old + (o - new)) else mem u o

/-- The mappings of the second loop, one after another. -/
theorem remapAll_vm {dst : Tier} {f : HememPage → HememPage} {ms : List Move}
    (hf : ∀ g, (f g).va = g.va) : (s.remapAll dst f ms).vm =
      ms.foldl (fun vm m => mapPage dst (s.page m.1).va m.2 vm) s.vm := by
  induction ms generalizing s with
  | nil => rfl
  | cons m ms ih =>
    rw [remapAll_cons, ih, List.foldl_cons]
    simp only [remap_va hf]
    rfl

/-- Every page of the batch is registered. -/
theorem remapAll_registered {dst : Tier} {f : HememPage → HememPage} {ms : List Move}
    (hf : ∀ g, (f g).va = g.va) (a : Nat) : (s.remapAll dst f ms).registered a =
      (s.registered a || ms.any fun m => inRange (s.page m.1).va pageSize a) := by
  induction ms generalizing s with
  | nil => simp
  | cons m ms ih =>
    have hreg : (s.remap dst f m).registered a =
        if inRange (s.page m.1).va pageSize a then true else
          if inRange (s.page m.1).va pageSize a then false else s.registered a := rfl
    rw [remapAll_cons, ih, hreg, List.any_cons]
    simp only [remap_va hf]
    cases inRange (s.page m.1).va pageSize a <;> simp

/-- The copies of the first loop, one after another. -/
theorem copyAll_fold {src dst : Tier} {ms : List Move} (hpt : ∀ p, (s.page p).pt = .hugep) :
    (s.copyAll src dst ms).mem = ms.foldl
      (fun mem m => copyBytes src (s.page m.1).devdaxOffset dst m.2 mem) s.mem := by
  induction ms generalizing s with
  | nil => rfl
  | cons m ms ih =>
    rw [copyAll_cons, ih (by simpa using hpt), List.foldl_cons, hpt]
    rfl

/-- The state in which the two loops of `hemem_migrate_*` begin. -/
theorem flagged_page (b : Bool) (ps : List PageId) (p : PageId) :
    ((setMigrating b ps s).page p).va = (s.page p).va ∧
      ((setMigrating b ps s).page p).pt = (s.page p).pt ∧
      ((setMigrating b ps s).page p).devdaxOffset = (s.page p).devdaxOffset := by
  rw [setMigrating_eq]
  simp only
  split <;> simp

/-- What `pebs_migrate_*` does outside the descriptors. -/
structure MigratedBy (d : Dir) (ms : List Move) (s s' : St) : Prop where
  vm : s'.vm = ms.foldl (fun vm m => mapPage d.dst (s.page m.1).va m.2 vm) s.vm
  registered : ∀ a, s'.registered a =
    (s.registered a || ms.any fun m => inRange (s.page m.1).va pageSize a)
  wp : ∀ a, s'.wp a = (s.wp a && !ms.any fun m => inRange (s.page m.1).va pageSize a)
  mem : s'.mem = ms.foldl
    (fun mem m => copyBytes d.src (s.page m.1).devdaxOffset d.dst m.2 mem) s.mem

/-- A batch is what its moves make of the state. -/
theorem migratedBy_migrated (hpt : ∀ p, (s.page p).pt = .hugep) (d : Dir) (ms : List Move) :
    MigratedBy d ms s (s.migrated d ms) := by
  have hflag : ∀ p, _ := fun p => flagged_page (s := s) true (ms.map Prod.fst) p
  obtain ⟨y, hy⟩ : ∃ y, y = (setMigrating true (ms.map Prod.fst) s).protect (ms.map Prod.fst) :=
    ⟨_, rfl⟩
  have hypage : ∀ p, (y.page p).va = (s.page p).va ∧ (y.page p).pt = .hugep ∧
      (y.page p).devdaxOffset = (s.page p).devdaxOffset := by
    intro p
    rw [hy, St.protect_page, (hflag p).1, (hflag p).2.1, (hflag p).2.2]
    exact ⟨rfl, hpt p, rfl⟩
  have hsame : y.vm = s.vm ∧ y.registered = s.registered ∧ y.mem = s.mem := by
    rw [hy, setMigrating_eq]
    exact ⟨rfl, rfl, rfl⟩
  have hywp : ∀ a, y.wp a = (s.wp a || ms.any fun m => inRange (s.page m.1).va pageSize a) := by
    intro a
    rw [hy, St.protect_wp]
    simp only [(hflag _).1, (hflag _).2.1, hpt, ptToPagesize, List.any_map]
    rw [setMigrating_eq]
    rfl
  have hend : ∀ x : St, (setMigrating false (ms.map Prod.fst) x).vm = x.vm ∧
      (setMigrating false (ms.map Prod.fst) x).registered = x.registered ∧
      (setMigrating false (ms.map Prod.fst) x).wp = x.wp ∧
      (setMigrating false (ms.map Prod.fst) x).mem = x.mem := by
    intro x
    rw [setMigrating_eq]
    exact ⟨rfl, rfl, rfl, rfl⟩
  -- the copies change the memory only
  have hcopy : (y.copyAll d.src d.dst ms).page = y.page ∧ (y.copyAll d.src d.dst ms).vm = y.vm ∧
      (y.copyAll d.src d.dst ms).registered = y.registered ∧
      (y.copyAll d.src d.dst ms).wp = y.wp := by
    rw [copyAll_eq]
    exact ⟨rfl, rfl, rfl, rfl⟩
  have hbump : ∀ g, (bump d g).va = g.va := fun g => (bump_va_pt d g).1
  unfold St.migrated
  rw [← hy]
  refine ⟨?_, fun a => ?_, fun a => ?_, ?_⟩
  · rw [(hend _).1, remapAll_vm hbump]
    simp only [hcopy, hypage, hsame]
  · rw [(hend _).2.1, remapAll_registered hbump]
    simp only [hcopy, hypage, hsame]
  · rw [(hend _).2.2.1, remapAll_wp hbump]
    simp only [hcopy, hypage, hywp]
    cases s.wp a <;> cases ms.any fun m => inRange (s.page m.1).va pageSize a <;> rfl
  · rw [(hend _).2.2.2, remapAll_mem, copyAll_fold fun p => (hypage p).2.1]
    simp only [hypage, hsame]

/-- The operands of a batch are the same in another state. -/
theorem MigratedBy.congr {ms : List Move} {x x' : St} (h : MigratedBy d ms x s)
    (hvm : x'.vm = x.vm) (hreg : x'.registered = x.registered) (hwp : x'.wp = x.wp)
    (hmem : x'.mem = x.mem) (hpage : ∀ m ∈ ms, (x'.page m.1).va = (x.page m.1).va ∧
      (x'.page m.1).devdaxOffset = (x.page m.1).devdaxOffset) : MigratedBy d ms x' s := by
  have hany : ∀ a, (ms.any fun m => inRange (x'.page m.1).va pageSize a) =
      ms.any fun m => inRange (x.page m.1).va pageSize a := by
    intro a
    rw [Bool.eq_iff_iff, List.any_eq_true, List.any_eq_true]
    exact exists_congr fun m => and_congr_right fun hm => by rw [(hpage m hm).1]
  constructor
  · rw [h.vm, hvm]
    exact List.foldl_ext _ _ _ fun vm m hm => by rw [(hpage m hm).1]
  · exact fun a => by rw [h.registered, hreg, hany]
  · exact fun a => by rw [h.wp, hwp, hany]
  · rw [h.mem, hmem]
    exact List.foldl_ext _ _ _ fun mem m hm => by rw [(hpage m hm).2]

/-- Two batches, one after the other. -/
theorem MigratedBy.append {ms ms' : List Move} {s₁ : St} (h : MigratedBy d ms s s₁)
    (h' : MigratedBy d ms' { s₁ with page := s.page } s') : MigratedBy d (ms ++ ms') s s' := by
  constructor
  · rw [h'.vm, h.vm, List.foldl_append]
  · intro a
    rw [h'.registered, h.registered, List.any_append, Bool.or_assoc]
  · intro a
    rw [h'.wp, h.wp, List.any_append]
    cases s.wp a <;> cases ms.any fun m => inRange (s.page m.1).va pageSize a <;> simp
  · rw [h'.mem, h.mem, List.foldl_append]

/-! ## Two batches are one -/

/-- The lists after a batch, with the pages and free descriptors it takes in front. -/
theorem batchPairs_add (hr : Ready d (k + n) s) :
    batchPairs d (k + n) s = batchPairs d k s ++ batchPairs d n (s.batched d k) ∧
      Ready d k s ∧ Ready d n (s.batched d k) := by
  have hrk : Ready d k s := ⟨by have := hr.queue; omega, by have := hr.free; omega⟩
  have hq : (s.batched d k).list (.queue d) = (s.list (.queue d)).drop k := by
    rw [batched_queue hrk, if_pos rfl]
  -- within a tier the free descriptors of the first batch come back behind the others
  have hf : ((s.batched d k).list (.free d.dst)).take n = ((s.list (.free d.dst)).drop k).take n ∧
      n ≤ ((s.batched d k).list (.free d.dst)).length := by
    have hlen := hr.free
    rw [batched_list hrk]
    by_cases hd : d.dst = d.src
    · have hsame : ListId.free d.dst = .free d.src := by rw [hd]
      rw [hsame] at hlen ⊢
      simp only [moveFree, hd, Function.update_self, moveLive, ne_eq, reduceCtorEq,
        not_false_eq_true, Function.update_of_ne, List.length_append, List.length_drop]
      refine ⟨List.take_append_of_le_length ?_, ?_⟩
      · rw [List.length_drop]
        omega
      · omega
    · have hne : ListId.free d.dst ≠ .free d.src := by simpa using hd
      simp only [moveFree, moveLive, Function.update_of_ne hne, Function.update_self, ne_eq,
        reduceCtorEq, not_false_eq_true, Function.update_of_ne, List.length_drop]
      exact ⟨trivial, by omega⟩
  refine ⟨?_, hrk, ⟨?_, hf.2⟩⟩
  · have hlen := hr.queue
    have hlen' := hr.free
    rw [batchPairs, batchPairs, batchPairs, hq, hf.1, List.take_add, List.take_add,
      List.zip_append]
    simp only [List.length_take]
    omega
  · have hlen := hr.queue
    rw [hq, List.length_drop]
    omega

/-- The counters are all that the last section of an iteration changes. -/
theorem countBatch_eq (d : Dir) (m : UInt64) (s : St) :
    countBatch d m s = { s with num := (countBatch d m s).num } := by
  cases d <;> rfl

/-- A batch changes descriptors, mappings and bytes by its moves only. -/
theorem migratedBy_batched (hpt : ∀ p, (s.page p).pt = .hugep) (d : Dir) (n : Nat) :
    MigratedBy d ((batchPairs d n s).map (moveOf s)) s (s.batched d n) := by
  have h := migratedBy_migrated (s := s.dequeued d n) hpt d ((batchPairs d n s).map (moveOf s))
  rw [St.batched, countBatch_eq]
  exact ⟨h.vm, h.registered, h.wp, h.mem⟩

/-- The second batch finds its pages and free descriptors as the first one has found them. -/
theorem Wf.batched_later (h : Wf cfg s) (hr : Ready d (k + n) s) {b : Pair}
    (hb : b ∈ batchPairs d n (s.batched d k)) :
    (s.batched d k).page b.1 = s.page b.1 ∧ (s.batched d k).page b.2 = s.page b.2 := by
  rcases batchPairs_add hr with ⟨hpairs, hrk, -⟩
  have hb' : b ∈ batchPairs d (k + n) s := hpairs ▸ List.mem_append_right _ hb
  have hlive := h.live_nodup hr
  have hfree := h.free_nodup hr
  rw [hpairs, List.map_append, List.nodup_append] at hlive hfree
  have hq := mem_queue_of_pair hb'
  have hf := mem_free_of_pair hb'
  refine ⟨batched_other (fun hm => ?_) fun hm => ?_, batched_other (fun hm => ?_) fun hm => ?_⟩
  · exact hlive.2.2 _ hm _ (List.mem_map_of_mem hb) rfl
  · rw [batchPairs_snd hrk.queue hrk.free] at hm
    exact h.queue_notMem_free hq (List.mem_of_mem_take hm)
  · rw [batchPairs_fst hrk.queue hrk.free] at hm
    exact h.queue_notMem_free (List.mem_of_mem_take hm) hf
  · exact hfree.2.2 _ hm _ (List.mem_map_of_mem hb) rfl

/-- The later pages move as if the earlier ones had not. -/
theorem Wf.moveOf_later (h : Wf cfg s) (hr : Ready d (k + n) s) :
    (batchPairs d n (s.batched d k)).map (moveOf (s.batched d k)) =
      (batchPairs d n (s.batched d k)).map (moveOf s) :=
  List.map_congr_left fun b hb => by rw [moveOf, (h.batched_later hr hb).2, moveOf]

/-- Two batches make the moves of the one batch of both. -/
theorem Wf.migratedBy_add (h : Wf cfg s) (hr : Ready d (k + n) s)
    (hpt : ∀ p, ((s.batched d k).page p).pt = .hugep) :
    MigratedBy d ((batchPairs d (k + n) s).map (moveOf s)) s ((s.batched d k).batched d n) := by
  have h₂ := migratedBy_batched hpt d n
  rw [h.moveOf_later hr] at h₂
  rw [(batchPairs_add hr).1, List.map_append]
  refine (migratedBy_batched h.pt d k).append (h₂.congr rfl rfl rfl rfl fun m hm => ?_)
  rcases List.mem_map.mp hm with ⟨b, hb, rfl⟩
  have hpage := (h.batched_later hr hb).1
  exact ⟨by rw [moveOf, hpage], by rw [moveOf, hpage]⟩

/-- Two batches leave the descriptors as one batch does. -/
theorem Wf.batched_page_add (h : Wf cfg s) (hr : Ready d (k + n) s)
    (hw : Wf cfg (s.batched d k)) (x : PageId) :
    ((s.batched d k).batched d n).page x = (s.batched d (k + n)).page x := by
  rcases batchPairs_add hr with ⟨hpairs, hrk, hrn⟩
  have hmem : ∀ {b}, b ∈ batchPairs d k s ∨ b ∈ batchPairs d n (s.batched d k) →
      b ∈ batchPairs d (k + n) s := fun hb => hpairs ▸ List.mem_append.mpr hb
  by_cases h₁ : x ∈ (batchPairs d n (s.batched d k)).map Prod.fst
  · rcases List.mem_map.mp h₁ with ⟨b, hb, rfl⟩
    rw [hw.batched_live hrn hb, h.batched_live hr (hmem (Or.inr hb)), (h.batched_later hr hb).1,
      (h.batched_later hr hb).2]
  by_cases h₂ : x ∈ (batchPairs d n (s.batched d k)).map Prod.snd
  · rcases List.mem_map.mp h₂ with ⟨b, hb, rfl⟩
    rw [hw.batched_free hrn hb, h.batched_free hr (hmem (Or.inr hb)), (h.batched_later hr hb).2]
  rw [batched_other h₁ h₂]
  -- the second batch has nothing to do with the descriptor
  by_cases h₃ : x ∈ (batchPairs d k s).map Prod.fst
  · rcases List.mem_map.mp h₃ with ⟨b, hb, rfl⟩
    rw [h.batched_live hrk hb, h.batched_live hr (hmem (Or.inl hb))]
  by_cases h₄ : x ∈ (batchPairs d k s).map Prod.snd
  · rcases List.mem_map.mp h₄ with ⟨b, hb, rfl⟩
    rw [h.batched_free hrk hb, h.batched_free hr (hmem (Or.inl hb))]
  rw [batched_other h₃ h₄, batched_other]
  · rw [hpairs, List.map_append, List.mem_append, not_or]
    exact ⟨h₃, h₁⟩
  · rw [hpairs, List.map_append, List.mem_append, not_or]
    exact ⟨h₄, h₂⟩

theorem moveFree_queue (d e : Dir) (n : Nat) (list : ListId → List PageId) :
    moveFree d n list (.queue e) = list (.queue e) := by simp [moveFree]

theorem moveFree_mmap (d : Dir) (n : Nat) (list : ListId → List PageId) (t : Tier) :
    moveFree d n list (.mmap t) = list (.mmap t) := by simp [moveFree]

theorem moveLive_free (d : Dir) (n : Nat) (list : ListId → List PageId) (t : Tier) :
    moveLive d n list (.free t) = list (.free t) := by simp [moveLive]

/-- The queue loses its first pages. -/
theorem moveLive_queue (d e : Dir) (n : Nat) (list : ListId → List PageId) :
    moveLive d n list (.queue e) =
      if e = d then (list (.queue e)).drop n else list (.queue e) := by
  by_cases he : e = d
  · subst he
    simp [moveLive]
  · simp [moveLive, he]

/-- The mmap list of the destination gains them. -/
theorem moveLive_mmap (d : Dir) (n : Nat) (list : ListId → List PageId) (t : Tier) :
    moveLive d n list (.mmap t) =
      if t = d.dst then list (.mmap t) ++ (list (.queue d)).take n else list (.mmap t) := by
  by_cases ht : t = d.dst
  · subst ht
    simp [moveLive]
  · simp [moveLive, ht]

/-- The descriptors change from one free list to the other, which may be the same one. -/
theorem moveFree_free (d : Dir) (n : Nat) (list : ListId → List PageId) (t : Tier) :
    moveFree d n list (.free t) =
      (if t = d.dst then (list (.free t)).drop n else list (.free t)) ++
        if t = d.src then (list (.free d.dst)).take n else [] := by
  cases t <;> cases d <;> simp [moveFree, Dir.src, Dir.dst]

/-- Two batches leave the lists that one of both would leave. -/
theorem batched_list_add (hr : Ready d (k + n) s) :
    ((s.batched d k).batched d n).list = (s.batched d (k + n)).list := by
  rcases batchPairs_add hr with ⟨-, hrk, hrn⟩
  have hlen := hr.free
  rw [batched_list hr, batched_list hrn, batched_list hrk]
  funext l
  rcases l with t | t | e
  · -- what comes back in between is not taken again
    have hdrop : ∀ ys : List PageId, ((s.list (.free d.dst)).drop k ++ ys).drop n =
        (s.list (.free d.dst)).drop (k + n) ++ ys := fun ys => by
      rw [List.drop_append_of_le_length (by rw [List.length_drop]; omega), List.drop_drop]
    have htake : ∀ ys : List PageId, ((s.list (.free d.dst)).drop k ++ ys).take n =
        ((s.list (.free d.dst)).drop k).take n := fun ys =>
      List.take_append_of_le_length (by rw [List.length_drop]; omega)
    simp only [moveFree_free, moveLive_free, if_true]
    by_cases hdst : t = d.dst
    · subst hdst
      simp only [if_true, hdrop, htake, List.append_assoc, List.take_add]
      split <;> simp
    · simp only [if_neg hdst, htake, List.append_assoc, List.take_add]
      split <;> simp
  · -- the pages of the second batch are put behind those of the first
    simp only [moveFree_mmap, moveLive_mmap, moveFree_queue, moveLive_queue, if_true, List.take_add]
    split
    · rw [List.append_assoc]
    · rfl
  · -- both batches take their pages from the head of the queue
    simp only [moveFree_queue, moveLive_queue]
    split
    · rw [List.drop_drop]
    · rfl

/-- They leave the counters, too. -/
theorem batched_num_add :
    ((s.batched d k).batched d n).num = (s.batched d (k + n)).num := by
  funext l
  rw [batched_num, batched_num, batched_num, UInt64.ofNat_add]
  rcases l with t | t | e
  · simp only
    split
    · rfl
    · split
      · rw [UInt64.add_assoc]
      · rw [sub_sub_uint64]
  · simp only
    split
    · rw [UInt64.add_assoc]
    · rfl
  · simp only
    split
    · rw [sub_sub_uint64]
    · rfl

/-- Two batches, one after the other, are one batch. -/
theorem Wf.batched_add (h : Wf cfg s) (hr : Ready d (k + n) s) (hw : Wf cfg (s.batched d k)) :
    (s.batched d k).batched d n = s.batched d (k + n) := by
  have h₁ := h.migratedBy_add hr hw.pt
  have h₂ := migratedBy_batched h.pt d (k + n)
  ext1
  · exact funext fun x => h.batched_page_add hr hw x
  · exact batched_list_add hr
  · exact batched_num_add
  · rw [batched_pages, batched_pages, batched_pages]
  · rw [h₁.vm, h₂.vm]
  · exact funext fun a => by rw [h₁.registered, h₂.registered]
  · exact funext fun a => by rw [h₁.wp, h₂.wp]
  · rw [h₁.mem, h₂.mem]

/-! ## Which batches complete -/

/-- A registration is there already, or it is made by the batch for one of its pages. -/
theorem registered_batched (hpt : ∀ p, (s.page p).pt = .hugep) {a : Nat} :
    (s.batched d k).registered a = true ↔
      s.registered a = true ∨ ∃ b ∈ batchPairs d k s, inRange (s.page b.1).va pageSize a = true := by
  rw [(migratedBy_batched hpt d k).registered, Bool.or_eq_true, List.any_map, List.any_eq_true]
  rfl

/-- Batches that complete one after the other complete as one. -/
theorem Wf.completable_add (h : Wf cfg s) (hr : Ready d (k + n) s) (hk : Completable cfg d k s)
    (hn : Completable cfg d n (s.batched d k)) : Completable cfg d (k + n) s := by
  refine ⟨hr.free, fun b hb => ?_⟩
  rw [(batchPairs_add hr).1] at hb
  rcases List.mem_append.mp hb with hb | hb
  · exact hk.migratable b hb
  · rcases h.batched_later hr hb with ⟨hpage, hfree⟩
    have hmig := hn.migratable b hb
    rw [moveOf, hfree] at hmig
    rcases hmig with ⟨⟨hva, hal, hreg⟩, ⟨hdram, hold, hnew⟩⟩
    simp only [hpage] at hva hal hreg hdram hold hnew
    refine ⟨⟨hva, hal, ?_⟩, ⟨hdram, hold, hnew⟩⟩
    rcases (registered_batched h.pt).mp hreg with hreg | ⟨b', hb', hin⟩
    · exact hreg
    · -- both addresses are aligned, so they are the same
      have hprot := (hk.migratable b' hb').protectable
      have hal' := hprot.aligned
      have hsame : (s.page b.1).va = (s.page b'.1).va := by
        rw [inRange_iff] at hin
        simp only [moveOf, pageSize_eq] at *
        omega
      show s.registered (s.page b.1).va = true
      rw [hsame]
      exact hprot.registered

/-- If a batch can be completed, so can its first part, and its second part after that. -/
theorem Wf.completable_of_add (h : Wf cfg s) (hr : Ready d (k + n) s)
    (hc : Completable cfg d (k + n) s) :
    Completable cfg d k s ∧ Completable cfg d n (s.batched d k) := by
  rcases batchPairs_add hr with ⟨hpairs, hrk, hrn⟩
  refine ⟨⟨hrk.free, fun b hb => ?_⟩, ⟨hrn.free, fun b hb => ?_⟩⟩
  · exact hc.migratable b (hpairs ▸ List.mem_append_left _ hb)
  · rcases h.batched_later hr hb with ⟨hpage, hfree⟩
    rcases hc.migratable b (hpairs ▸ List.mem_append_right _ hb) with
      ⟨⟨hva, hal, hreg⟩, ⟨hdram, hold, hnew⟩⟩
    simp only [moveOf] at hva hal hreg hdram hold hnew
    rw [moveOf, hfree]
    refine ⟨⟨?_, ?_, ?_⟩, ⟨?_, ?_, ?_⟩⟩ <;> simp only [hpage]
    · exact hva
    · exact hal
    · exact (registered_batched h.pt).mpr (Or.inl hreg)
    · exact hdram
    · exact hold
    · exact hnew

/-! ## Draining -/

/-- A batch of no pages changes nothing. -/
theorem batched_zero (hpt : ∀ p, (s.page p).pt = .hugep) (d : Dir) : s.batched d 0 = s := by
  have hpairs : batchPairs d 0 s = [] := rfl
  have h := migratedBy_batched hpt d 0
  rw [hpairs, List.map_nil] at h
  ext1
  · exact funext fun x => batched_other (by simp [hpairs]) (by simp [hpairs])
  · rw [batched_list ⟨Nat.zero_le _, Nat.zero_le _⟩]
    funext l
    rcases l with t | t | e
    · simp [moveFree_free, moveLive_free]
    · simp [moveFree_mmap, moveLive_mmap]
    · simp [moveFree_queue, moveLive_queue]
  · funext l
    rw [batched_num]
    rcases l with t | t | e <;> simp
  · exact batched_pages s d 0
  · exact h.vm
  · exact funext fun a => by simpa using h.registered a
  · exact funext fun a => by simpa using h.wp a
  · exact h.mem

/-- An iteration on a queue that holds pages. -/
theorem Wf.migrationRequest_pos (h : Wf cfg s) {B : Nat} (hpos : 0 < (s.list (.queue d)).length) :
    migrationRequest cfg B d s = .ok s' ↔
      Completable cfg d (min B (s.list (.queue d)).length) s ∧
        s' = s.batched d (min B (s.list (.queue d)).length) := by
  have hnum : s.num (.queue d) ≠ 0 := by
    intro h0
    have hq := h.queueNum d
    rw [h0] at hq
    simp only [UInt64.toNat_zero] at hq
    omega
  have hsize : batchSize B d s = min B (s.list (.queue d)).length := by
    rw [batchSize, h.queueNum]
    split <;> omega
  rw [migrationRequest, if_neg hnum, h.migrateBatch_ok, hsize]

/-- An iteration on an empty queue. -/
theorem Wf.migrationRequest_nil (h : Wf cfg s) {B : Nat} (hnil : (s.list (.queue d)).length = 0) :
    migrationRequest cfg B d s = .ok s := by
  have hnum : s.num (.queue d) = 0 := by
    apply UInt64.toNat_inj.mp
    rw [h.queueNum d, hnil]
    rfl
  rw [migrationRequest, if_pos hnum]

/-- Iterations on one page each, as long as there are pages. -/
theorem Wf.drainLoop_one (h : Wf cfg s) (hr : Ready d k s)
    (hs' : drainLoop cfg 1 d k s = .ok s') : Completable cfg d k s ∧ s' = s.batched d k := by
  induction k generalizing s with
  | zero =>
    rw [drainLoop, Except.ok.injEq] at hs'
    refine ⟨⟨Nat.zero_le _, fun b hb => ?_⟩, by rw [← hs', batched_zero h.pt]⟩
    simp [batchPairs] at hb
  | succ k ih =>
    have hq := hr.queue
    rw [drainLoop, bind_eq_ok] at hs'
    rcases hs' with ⟨s₁, hs₁, hs'⟩
    rw [h.migrationRequest_pos (by omega), Nat.min_eq_left (by omega)] at hs₁
    rcases hs₁ with ⟨hone, rfl⟩
    rw [Nat.add_comm k 1] at hr ⊢
    rcases batchPairs_add hr with ⟨-, hr₁, hrk⟩
    have hw := h.batched hr₁ hone
    rcases ih hw hrk hs' with ⟨hk, rfl⟩
    exact ⟨h.completable_add hr hone hk, h.batched_add hr hw⟩

/-- Iterations on up to `B` pages each, until there are none left. -/
theorem Wf.drainLoop_ok (h : Wf cfg s) {B fuel : Nat} (hB : 1 ≤ B)
    (hn : (s.list (.queue d)).length = n) (hfuel : n ≤ fuel) (hc : Completable cfg d n s) :
    drainLoop cfg B d fuel s = .ok (s.batched d n) := by
  induction fuel generalizing s n with
  | zero =>
    obtain rfl : n = 0 := by omega
    rw [drainLoop, batched_zero h.pt]
  | succ fuel ih =>
    rw [drainLoop]
    -- an empty queue ends every later iteration at once
    rcases Nat.eq_zero_or_pos n with rfl | hpos
    · rw [h.migrationRequest_nil hn]
      exact ih h hn (Nat.zero_le _) hc
    · -- the batch of this iteration and the pages that it leaves
      have hsplit : min B n + (n - min B n) = n := by omega
      have hr : Ready d (min B n + (n - min B n)) s := by
        rw [hsplit]
        exact ⟨hn.ge, hc.enough⟩
      rcases batchPairs_add hr with ⟨-, hrk, -⟩
      rcases h.completable_of_add hr (by rw [hsplit]; exact hc) with ⟨hck, hcn⟩
      have hw := h.batched hrk hck
      have hstep : migrationRequest cfg B d s = .ok (s.batched d (min B n)) :=
        (h.migrationRequest_pos (by omega)).mpr (by rw [hn]; exact ⟨hck, rfl⟩)
      have hleft : ((s.batched d (min B n)).list (.queue d)).length = n - min B n := by
        rw [batched_queue hrk, if_pos rfl, List.length_drop, hn]
      simp only [hstep, bind, Except.bind]
      rw [ih hw hleft (by omega) hcn, h.batched_add hr hw, hsplit]

/-- The queue of a direction whose pages have all moved. -/
theorem Wf.batched_queue_nil (h : Wf cfg s) (hn : (s.list (.queue d)).length = n) :
    (s.batched d n).num (.queue d) = 0 := by
  rw [batched_queueNum, if_pos rfl]
  apply UInt64.toNat_inj.mp
  rw [toNat_sub_ofNat (by rw [h.queueNum, hn]), h.queueNum, hn, Nat.sub_self]
  rfl

/-- Whatever the size of the batches, a queue is drained into the state into which single
pages drain it. -/
theorem drain_eq (cfg : Config) {B : Nat} (hB : 1 ≤ B) (d : Dir) {s s' : St} (h : Wf cfg s)
    (hfree : (s.list (.queue d)).length ≤ (s.list (.free d.dst)).length)
    (hs' : drain cfg 1 d s = .ok s') :
    drain cfg B d s = .ok s' ∧ s'.num (.queue d) = 0 ∧ s'.list (.queue d) = [] := by
  rw [drain, h.queueNum] at hs' ⊢
  have hr : Ready d (s.list (.queue d)).length s := ⟨le_rfl, hfree⟩
  rcases h.drainLoop_one hr hs' with ⟨hc, rfl⟩
  refine ⟨h.drainLoop_ok hB rfl le_rfl hc, h.batched_queue_nil rfl, ?_⟩
  rw [batched_queue hr, if_pos rfl, List.drop_length]

/-- Two pages of DRAM that have been requested. -/
def twoRequests : List Op :=
  [.mmap 0x40000000 (2 * pageSize) true, .request .dramToNvm 2 false fun _ => 0]

/-- Two pages go to NVM one by one, or at once. -/
theorem drain_eq_twoRequests :
    ∃ s s', runs (exec smallConfig) twoRequests (pebsInit smallConfig) = .ok s ∧
      drain smallConfig 1 .dramToNvm s = .ok s' ∧ drain smallConfig 2 .dramToNvm s = .ok s' := by
  have hone : ((runs (exec smallConfig) twoRequests (pebsInit smallConfig)).bind
      (drain smallConfig 1 .dramToNvm)).map (fun s => s.list (.mmap .nvm)) = .ok [0, 1] := rfl
  have hfree : (runs (exec smallConfig) twoRequests (pebsInit smallConfig)).map
      (fun s => (s.list (.queue .dramToNvm), s.list (.free .nvm))) = .ok ([0, 1], [2, 3]) := rfl
  cases hs : runs (exec smallConfig) twoRequests (pebsInit smallConfig) with
  | error e =>
    rw [hs] at hone
    cases hone
  | ok s =>
    rw [hs] at hone hfree
    simp only [Except.bind, Except.map, Except.ok.injEq, Prod.mk.injEq] at hone hfree
    cases hs' : drain smallConfig 1 .dramToNvm s with
    | error e =>
      rw [hs'] at hone
      cases hone
    | ok s' =>
      have h : Wf smallConfig s :=
        of_runs (fun _ _ _ h hr => wf_exec h hr) (wf_pebsInit smallConfig) hs
      refine ⟨s, s', rfl, hs', (drain_eq smallConfig (by decide) .dramToNvm h ?_ hs').1⟩
      show (s.list (.queue .dramToNvm)).length ≤ (s.list (.free .nvm)).length
      rw [hfree.1, hfree.2]
      decide

end Hemem
