import Hemem.Draining
import Hemem.Mapped

/-!
# Hemem.Sweep — a region moves to the other tier

All pages of a region are put on one queue, one after the other, and the batches of the
migration thread move them to the other tier, in between and afterwards. The pages are then
spread over three lists: those that have not been put yet, those that wait, and those that
have moved. A batch gives a page the slot of the free descriptor at the head of its list, and
the free descriptor goes to the other free list with the offset of this slot: so the offsets
of the moved pages and of the free descriptors after them are the same throughout, and those
of the moved pages are found again at the end of the other list.
-/

namespace Hemem

open Lib

variable {cfg : Config} {s s' : St} {app : AppMemory} {d : Dir} {n k m : Nat}
  {new old : List Nat}

/-! ## Between operations -/

/-- Every operation that counts what it does. -/
def Op.counts (op : Op) : Bool := !op.isMunmap && !op.isMissingFault

/-- Such an operation keeps the lists, the table and the counters in step. -/
structure InStep (cfg : Config) (s : St) : Prop where
  wf : Wf cfg s
  tabled : Tabled s
  counters : CountersExact s

theorem inStep_pebsInit (cfg : Config) : InStep cfg (pebsInit cfg) :=
  ⟨wf_pebsInit cfg, tabled_pebsInit cfg, countersExact_pebsInit cfg⟩

/-- Every operation that counts keeps table and counters in step with the lists. -/
theorem InStep.exec (h : InStep cfg s) {op : Op} (hr : exec cfg op s = .ok s')
    (hop : op.counts = true) : InStep cfg s' := by
  have hkeeps : KeepsCount s op := by
    cases op with
    | missingFault va => cases hop
    | munmap fuel addr length accept => cases hop
    | mmap | request | migrate | write => trivial
  constructor
  · exact wf_exec h.wf hr
  · exact h.wf.tabled_exec h.tabled hr
  · exact (h.wf.countersExact_exec h.tabled h.counters hr).mpr hkeeps

/-- What such operations keep besides, as long as the slots that they take are fresh. -/
structure Sound (cfg : Config) (s : St) (app : AppMemory) : Prop where
  mem : MemInv cfg s app
  counters : CountersExact s
  total : TotalExact s

theorem Sound.inStep (h : Sound cfg s app) : InStep cfg s := ⟨h.mem.wf, h.mem.tabled, h.counters⟩

theorem sound_pebsInit (cfg : Config) : Sound cfg (pebsInit cfg) fun _ => none :=
  ⟨memInv_pebsInit cfg, countersExact_pebsInit cfg, totalExact_pebsInit cfg⟩

/-- An operation takes the memory of the application to what it expects. -/
theorem Sound.exec (h : Sound cfg s app) {op : Op} (hr : exec cfg op s = .ok s')
    (hop : op.counts = true) (hk : KernelMmap s op) (hf : TakesFreshSlots s op) :
    Sound cfg s' (appStep app op) := by
  have hkinds : op.isMunmap = false ∧ op.isMissingFault = false := by
    simpa [Op.counts] using hop
  constructor
  · exact h.mem.exec hkinds.1 hk hf hr
  · exact (h.inStep.exec hr hop).counters
  · exact h.total.exec h.mem.wf h.mem.tabled hkinds.2 hr

/-- The pages of the table lie in a region of which every address is watched. -/
structure Watched (c len : Nat) (s : St) : Prop where
  inside : ∀ {va p}, s.pages va = some p → inRange c len va = true
  registered : ∀ {a}, inRange c len a = true → s.registered a = true

/-- A region stays watched while no page of it leaves the table. -/
theorem Watched.mono {c len : Nat} (h : Watched c len s) (hpages : s'.pages = s.pages)
    (hreg : ∀ a, s.registered a = true → s'.registered a = true) : Watched c len s' := by
  constructor
  · intro va p hp
    rw [hpages] at hp
    exact h.inside hp
  · intro a ha
    exact hreg a (h.registered ha)

/-! ## The three lists -/

/-- The offsets of descriptors. -/
def offsets (s : St) (ps : List PageId) : List Nat := ps.map fun p => (s.page p).devdaxOffset

@[simp] theorem offsets_nil (s : St) : offsets s [] = [] := rfl

@[simp] theorem offsets_append (s : St) (ps qs : List PageId) :
    offsets s (ps ++ qs) = offsets s ps ++ offsets s qs := List.map_append

@[simp] theorem length_offsets (s : St) (ps : List PageId) : (offsets s ps).length = ps.length :=
  List.length_map _

theorem offsets_take (s : St) (ps : List PageId) (n : Nat) :
    offsets s (ps.take n) = (offsets s ps).take n := List.map_take

theorem offsets_drop (s : St) (ps : List PageId) (n : Nat) :
    offsets s (ps.drop n) = (offsets s ps).drop n := List.map_drop

theorem offsets_congr {ps : List PageId}
    (h : ∀ p ∈ ps, (s'.page p).devdaxOffset = (s.page p).devdaxOffset) :
    offsets s' ps = offsets s ps := List.map_congr_left h

/-- Of `n` pages `k` have been put on the queue of direction `d`, and some of these have moved.
`new` has the offsets to which the pages move, `old` those that the free descriptors of the
tier they leave had before. -/
structure Sweep (d : Dir) (n k : Nat) (new old : List Nat) (s : St) : Prop where
  toPut : (s.list (.mmap d.src)).length + k = n
  werePut : (s.list (.queue d)).length + (s.list (.mmap d.dst)).length = k
  others : ∀ e, e ≠ d → s.list (.queue e) = []
  new : offsets s (s.list (.mmap d.dst)) ++ offsets s (s.list (.free d.dst)) = new
  old : offsets s (s.list (.free d.src)) = old ++ offsets s (s.list (.mmap d.dst))

/-- The offsets to which the pages move are distinct, and there are enough of them. -/
structure Room (cfg : Config) (d : Dir) (n : Nat) (new : List Nat) : Prop where
  cross : d.src ≠ d.dst
  distinct : new.Nodup
  enough : n ≤ new.length
  fits : ∀ o ∈ new, o + pageSize ≤ cfg.size d.dst

/-- A page is on one of the three lists. -/
theorem Sweep.live_list (h : Sweep d n k new old s) (hcross : d.src ≠ d.dst) {p : PageId}
    (hp : Live s p) :
    p ∈ s.list (.mmap d.dst) ∨ p ∈ s.list (.mmap d.src) ∨ p ∈ s.list (.queue d) := by
  rcases hp with ⟨l, hl, hmem⟩
  cases l with
  | free t => cases hl
  | mmap t =>
    have ht : t = d.src ∨ t = d.dst := by
      revert hcross
      cases d <;> cases t <;> simp [Dir.src, Dir.dst]
    rcases ht with rfl | rfl
    · exact Or.inr (Or.inl hmem)
    · exact Or.inl hmem
  | queue e =>
    by_cases he : e = d
    · subst he
      exact Or.inr (Or.inr hmem)
    · rw [h.others e he] at hmem
      cases hmem

/-- A page that has not moved is still in its tier. -/
theorem Sweep.live (h : Sweep d n k new old s) (hcross : d.src ≠ d.dst) (hw : Wf cfg s)
    {p : PageId} (hp : Live s p) :
    p ∈ s.list (.mmap d.dst) ∨ (s.page p).tier = d.src := by
  apply (h.live_list hcross hp).imp_right
  intro hmem
  rcases hmem with hmem | hmem
  · exact (Prod.mk.inj (hw.slot_of_mem hmem)).1
  · exact (Prod.mk.inj (hw.slot_of_mem hmem)).1

/-- When all pages have been put and none of them waits any more, all are in the other tier. -/
theorem Sweep.arrived (h : Sweep d n n new old s) (hcross : d.src ≠ d.dst) (hw : Wf cfg s)
    (hq : s.list (.queue d) = []) {p : PageId} (hp : Live s p) : (s.page p).tier = d.dst := by
  have htoPut := h.toPut
  have hnil : s.list (.mmap d.src) = [] := List.eq_nil_of_length_eq_zero (by omega)
  rcases h.live_list hcross hp with hmem | hmem | hmem
  · exact (Prod.mk.inj (hw.slot_of_mem hmem)).1
  · rw [hnil] at hmem
    cases hmem
  · rw [hq] at hmem
    cases hmem

/-- There is a free descriptor for every page that waits. -/
theorem Sweep.enough (h : Sweep d n k new old s) (hroom : Room cfg d n new) :
    (s.list (.queue d)).length ≤ (s.list (.free d.dst)).length := by
  have hlen := congrArg List.length h.new
  have htoPut := h.toPut
  have hwerePut := h.werePut
  have henough := hroom.enough
  simp only [List.length_append, length_offsets] at hlen
  omega

/-! ## A batch -/

/-- The descriptors that a batch takes denote slots that no page is in. -/
theorem Sweep.freshSlots (h : Sweep d n k new old s) (hroom : Room cfg d n new)
    (hs : Sound cfg s app) (m : Nat) : FreshSlots s ((s.list (.free d.dst)).take m) := by
  have hw := hs.mem.wf
  have hnd := hroom.distinct
  rw [← h.new, List.nodup_append] at hnd
  have hslot : ∀ q ∈ (s.list (.free d.dst)).take m,
      (s.page q).slot = (d.dst, (s.page q).devdaxOffset) := by
    intro q hq
    exact hw.slot_of_mem (List.mem_of_mem_take hq)
  constructor
  · have hfree : (offsets s ((s.list (.free d.dst)).take m)).Nodup := by
      rw [offsets_take]
      exact hnd.2.1.sublist (List.take_sublist _ _)
    apply List.Nodup.of_map Prod.snd
    rw [List.map_map]
    exact hfree
  · intro q hq va p hp heq
    rw [hslot q hq] at heq
    rcases Prod.mk.inj heq with ⟨htier, hoff⟩
    rcases h.live hroom.cross hw (hs.mem.tabled.live hp) with hmoved | hstill
    · -- its offset would be there twice
      refine hnd.2.2 _ (List.mem_map_of_mem hmoved) _
        (List.mem_map_of_mem (List.mem_of_mem_take hq)) ?_
      exact hoff
    · exact hroom.cross (hstill.symm.trans htier)

/-- A batch of a sweep can be completed. -/
theorem Sweep.completable (h : Sweep d n k new old s) (hroom : Room cfg d n new)
    (hs : Sound cfg s app) {c len : Nat} (hwatch : Watched c len s)
    (hm : m ≤ (s.list (.queue d)).length) : Completable cfg d m s := by
  have hw := hs.mem.wf
  refine ⟨Nat.le_trans hm (h.enough hroom), ?_⟩
  intro b hb
  have hq := mem_queue_of_pair hb
  have hf := mem_free_of_pair hb
  have hpage : ptToPagesize (s.page b.1).pt = pageSize := by
    rw [hw.pt]
    rfl
  have hnew : (s.page b.2).devdaxOffset ∈ new := by
    rw [← h.new]
    exact List.mem_append_right _ (List.mem_map_of_mem hf)
  refine ⟨⟨hw.va_ne hq rfl, hw.aligned hq rfl, ?_⟩, ⟨hw.inDram hq, ?_, ?_⟩⟩
  · exact hwatch.registered (hwatch.inside (hs.mem.tracked b.1 ⟨_, rfl, hq⟩))
  · show _ + ptToPagesize (s.page b.1).pt ≤ _
    rw [hpage]
    exact hw.fits hq rfl
  · show _ + ptToPagesize (s.page b.1).pt ≤ _
    rw [hpage]
    exact hroom.fits _ hnew

/-- A batch changes the offsets of the pages that it moves only. -/
theorem Wf.batched_offset (hw : Wf cfg s) (hr : Ready d m s) {p : PageId}
    (hp : p ∉ s.list (.queue d)) :
    ((s.batched d m).page p).devdaxOffset = (s.page p).devdaxOffset := by
  have hfst : p ∉ (batchPairs d m s).map Prod.fst := by
    rw [batchPairs_fst hr.queue hr.free]
    exact fun hmem => hp (List.mem_of_mem_take hmem)
  by_cases hsnd : p ∈ (batchPairs d m s).map Prod.snd
  · rcases List.mem_map.mp hsnd with ⟨b, hb, rfl⟩
    rw [hw.batched_free hr hb, freed_devdaxOffset]
  · rw [batched_other hfst hsnd]

/-- The pages get the offsets of the free descriptors, in the same order. -/
theorem Wf.offsets_batched (hw : Wf cfg s) (hr : Ready d m s) :
    offsets (s.batched d m) ((s.list (.queue d)).take m) =
      offsets s ((s.list (.free d.dst)).take m) := by
  rw [← batchPairs_fst hr.queue hr.free, ← batchPairs_snd hr.queue hr.free, offsets, offsets,
    List.map_map, List.map_map]
  apply List.map_congr_left
  intro b hb
  rw [Function.comp_apply, hw.batched_live hr hb, moved_devdaxOffset, Function.comp_apply]

/-! The lists of the two tiers after the batch. -/

/-- A batch between tiers leaves the list of the source alone. -/
theorem batched_mmapSrc (hr : Ready d m s) (hcross : d.src ≠ d.dst) :
    (s.batched d m).list (.mmap d.src) = s.list (.mmap d.src) := by
  rw [batched_list hr, moveFree_mmap, moveLive_mmap, if_neg hcross]

/-- The pages of a batch come to the end of the list of the destination. -/
theorem batched_mmapDst (hr : Ready d m s) :
    (s.batched d m).list (.mmap d.dst) = s.list (.mmap d.dst) ++ (s.list (.queue d)).take m := by
  rw [batched_list hr, moveFree_mmap, moveLive_mmap, if_pos rfl]

/-- The descriptors leave the free list of the destination. -/
theorem batched_freeDst (hr : Ready d m s) (hcross : d.src ≠ d.dst) :
    (s.batched d m).list (.free d.dst) = (s.list (.free d.dst)).drop m := by
  rw [batched_list hr, moveFree_free, if_pos rfl, if_neg hcross.symm, List.append_nil,
    moveLive_free]

/-- They come to the free list of the source. -/
theorem batched_freeSrc (hr : Ready d m s) (hcross : d.src ≠ d.dst) :
    (s.batched d m).list (.free d.src) =
      s.list (.free d.src) ++ (s.list (.free d.dst)).take m := by
  rw [batched_list hr, moveFree_free, if_neg hcross, if_pos rfl, moveLive_free, moveLive_free]

/-- A batch goes on with the sweep. -/
theorem Sweep.batched (h : Sweep d n k new old s) (hroom : Room cfg d n new) (hw : Wf cfg s)
    (hr : Ready d m s) : Sweep d n k new old (s.batched d m) := by
  have hcross := hroom.cross
  -- a descriptor of another list keeps its offset
  have hsame : ∀ l ps, l ≠ .queue d → ps ⊆ s.list l →
      offsets (s.batched d m) ps = offsets s ps := by
    intro l ps hl hps
    apply offsets_congr
    intro p hp
    apply hw.batched_offset hr
    intro hq
    exact hl (hw.excl.unique (hps hp) hq)
  have hmoved : offsets (s.batched d m) ((s.batched d m).list (.mmap d.dst)) =
      offsets s (s.list (.mmap d.dst)) ++ offsets s ((s.list (.free d.dst)).take m) := by
    rw [batched_mmapDst hr, offsets_append, hsame (.mmap d.dst) _ (by simp) (List.Subset.refl _),
      hw.offsets_batched hr]
  constructor
  · rw [batched_mmapSrc hr hcross]
    exact h.toPut
  · have hput := h.werePut
    have hq := hr.queue
    rw [batched_queue hr, if_pos rfl, batched_mmapDst hr, List.length_append, List.length_drop,
      List.length_take]
    omega
  · intro e he
    rw [batched_queue hr, if_neg he]
    exact h.others e he
  · rw [hmoved, batched_freeDst hr hcross, hsame (.free d.dst) _ (by simp) (List.drop_subset _ _),
      List.append_assoc, ← offsets_append, List.take_append_drop]
    exact h.new
  · rw [hmoved, batched_freeSrc hr hcross, offsets_append,
      hsame (.free d.src) _ (by simp) (List.Subset.refl _),
      hsame (.free d.dst) _ (by simp) (List.take_subset _ _), h.old, List.append_assoc]

/-! ## The steps of a sweep -/

/-- The counter of an empty list is zero. -/
theorem CountersExact.num_eq_zero (h : CountersExact s) {l : ListId} (hl : s.list l = []) :
    s.num l = 0 := by
  apply UInt64.toNat_inj.mp
  rw [h, hl]
  rfl


/-- What is known of a state in the course of a sweep over the pages of a region. -/
structure Sweeping (cfg : Config) (c : Nat) (d : Dir) (n k : Nat) (new old : List Nat)
    (app : AppMemory) (s : St) : Prop where
  sound : Sound cfg s app
  watched : Watched c (n * pageSize) s
  lists : Sweep d n k new old s
  room : Room cfg d n new

variable {c : Nat}

/-- An iteration on a queue that nothing has been put on. -/
theorem Sound.migrate_idle (h : Sound cfg s app) {e : Dir} (he : s.list (.queue e) = [])
    (B : Nat) : migrationRequest cfg B e s = .ok s := by
  apply h.mem.wf.migrationRequest_nil
  rw [he, List.length_nil]

/-- An iteration on the queue of the sweep. -/
theorem Sweeping.migrate (h : Sweeping cfg c d n k new old app s) (B : Nat) :
    ∃ s', migrationRequest cfg B d s = .ok s' ∧ Sweeping cfg c d n k new old app s' ∧
      (s'.list (.queue d)).length = (s.list (.queue d)).length - B := by
  have hw := h.sound.mem.wf
  rcases Nat.eq_zero_or_pos (s.list (.queue d)).length with hnil | hpos
  · refine ⟨s, hw.migrationRequest_nil hnil, h, ?_⟩
    rw [hnil, Nat.zero_sub]
  have hm : min B (s.list (.queue d)).length ≤ (s.list (.queue d)).length := Nat.min_le_right _ _
  have hc := h.lists.completable h.room h.sound h.watched hm
  have hr : Ready d (min B (s.list (.queue d)).length) s := ⟨hm, hc.enough⟩
  have hstep := (hw.migrationRequest_pos (B := B) hpos).mpr ⟨hc, rfl⟩
  refine ⟨_, hstep, ⟨?_, ?_, h.lists.batched h.room hw hr, h.room⟩, ?_⟩
  · have hexec : exec cfg (.migrate B d) s =
        .ok (s.batched d (min B (s.list (.queue d)).length)) := hstep
    exact h.sound.exec hexec rfl trivial (h.lists.freshSlots h.room h.sound _)
  · apply h.watched.mono (batched_pages s d _)
    intro a ha
    exact (registered_batched hw.pt).mpr (Or.inl ha)
  · rw [batched_queue hr, if_pos rfl, List.length_drop]
    omega

/-- A request for one page is one iteration. -/
theorem request_one (d : Dir) (random : Bool) (r : Nat) (s : St) :
    request d 1 random (fun _ => r) s = beforeTake d random r s >>= putPage d := by
  show requestLoop d random (fun _ => r) 1 0 0 s = _
  simp only [requestLoop, Nat.zero_add]
  congr 1
  funext s₁
  cases putPage d s₁ <;> rfl

/-- An iteration of a request that has not yet put all pages. -/
theorem Sweeping.put (h : Sweeping cfg c d n k new old app s) (hk : k < n) (r : Nat) :
    ∃ s', (beforeTake d true r s >>= putPage d) = .ok (1, s') ∧
      Sweeping cfg c d n (k + 1) new old app s' := by
  have hw := h.sound.mem.wf
  have hreq : Requestable d s := hw.requestable d (h.sound.counters _)
  have htoPut := h.lists.toPut
  have hone : 1 ≤ (s.list (.mmap d.src)).length := by omega
  have hstep : request d 1 true (fun _ => r) s = .ok (1, s.randomly d (fun _ => r) 1) :=
    hreq.random_eq hone
  refine ⟨s.randomly d (fun _ => r) 1, (request_one d true r s).symm.trans hstep, ?_⟩
  have hexec : exec cfg (.request d 1 true fun _ => r) s = .ok (s.randomly d (fun _ => r) 1) := by
    rw [exec, hstep]
    rfl
  have hfresh : TakesFreshSlots s (.request d 1 true fun _ => r) :=
    ⟨List.nodup_nil, fun q hq => absurd hq List.not_mem_nil⟩
  -- the lists of the other tier and the offsets are as they were
  have hlist : ∀ l, l ≠ .mmap d.src → l ≠ .queue d →
      (s.randomly d (fun _ => r) 1).list l = s.list l := by
    intro l hsrc hqueue
    rw [St.randomly, St.requested_list, Function.update_of_ne hqueue, Function.update_of_ne hsrc]
  have hoffsets : ∀ ps, offsets (s.randomly d (fun _ => r) 1) ps = offsets s ps := by
    intro ps
    rfl
  have hdst : ListId.mmap d.dst ≠ .mmap d.src := by simpa using h.room.cross.symm
  refine ⟨h.sound.exec hexec rfl trivial hfresh, h.watched.mono rfl fun _ ha => ha, ?_, h.room⟩
  constructor
  · rw [St.randomly, requested_list_mmap, length_remaining hone]
    omega
  · have hput := h.lists.werePut
    rw [hlist _ hdst (by simp), St.randomly, St.requested_list, Function.update_self,
      List.length_append, length_selection hone]
    omega
  · intro e he
    rw [hlist _ (by simp) (by simpa using he)]
    exact h.lists.others e he
  · rw [hoffsets, hoffsets, hlist _ hdst (by simp), hlist _ (by simp) (by simp)]
    exact h.lists.new
  · rw [hoffsets, hoffsets, hlist _ hdst (by simp), hlist _ (by simp) (by simp)]
    exact h.lists.old

/-- A store changes the memory only. -/
theorem appWrite_ok {a : Nat} {v : Byte} (h : appWrite a v s = .ok s') :
    s' = { s with mem := s'.mem } := by
  unfold appWrite at h
  split at h
  · simp only [bind_eq_ok, check_eq_ok, Except.ok.injEq] at h
    rcases h with ⟨-, -, rfl⟩
    rfl
  · cases h

/-- A store in the region goes on with the sweep. -/
theorem Sweeping.write (h : Sweeping cfg c d n k new old app s) {a : Nat}
    (ha : (app a).isSome = true) (v : Byte) :
    ∃ s', appWrite a v s = .ok s' ∧
      Sweeping cfg c d n k new old (Function.update app a (some v)) s' := by
  rcases h.sound.mem.write_ok (v := v) ha with ⟨s', hstep⟩
  have hexec : exec cfg (.write a v) s = .ok s' := hstep
  have hfresh : TakesFreshSlots s (.write a v) :=
    ⟨List.nodup_nil, fun q hq => absurd hq List.not_mem_nil⟩
  have hs' := appWrite_ok hstep
  refine ⟨s', hstep, h.sound.exec hexec rfl trivial hfresh, ?_, ?_, h.room⟩
  · rw [hs']
    exact h.watched.mono rfl fun _ ha => ha
  · rw [hs']
    exact ⟨h.lists.toPut, h.lists.werePut, h.lists.others, h.lists.new, h.lists.old⟩

/-- When all pages have moved, the way back is open. -/
theorem Sweeping.turnRound (h : Sweeping cfg c d n n new old app s)
    (hq : s.list (.queue d) = []) {e : Dir} (hsrc : e.src = d.dst) (hdst : e.dst = d.src)
    (hroom : Room cfg e n (old ++ new.take n)) :
    Sweeping cfg c e n 0 (old ++ new.take n) (new.drop n) app s := by
  have hput := h.lists.werePut
  have htoPut := h.lists.toPut
  rw [hq, List.length_nil, Nat.zero_add] at hput
  have hnil : s.list (.mmap d.src) = [] := List.eq_nil_of_length_eq_zero (by omega)
  have hne : e ≠ d := by
    rintro rfl
    exact h.room.cross hsrc
  -- the moved pages have the first `n` of the new offsets
  have hsplit := h.lists.new
  have hmoved : offsets s (s.list (.mmap d.dst)) = new.take n := by
    rw [← hsplit, List.take_left' (by rw [length_offsets, hput])]
  have hleft : offsets s (s.list (.free d.dst)) = new.drop n := by
    rw [← hsplit, List.drop_left' (by rw [length_offsets, hput])]
  refine ⟨h.sound, h.watched, ?_, hroom⟩
  constructor
  · rw [hsrc, hput, Nat.add_zero]
  · rw [h.lists.others e hne, hdst, hnil, List.length_nil]
  · intro e' he'
    by_cases hd : e' = d
    · rw [hd, hq]
    · exact h.lists.others e' hd
  · rw [hdst, hnil, offsets_nil, List.nil_append, h.lists.old, hmoved]
  · rw [hsrc, hdst, hnil, offsets_nil, List.append_nil, hleft]

end Hemem
