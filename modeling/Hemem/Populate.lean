import Hemem.AppMemory
import Hemem.Scan
import Hemem.Lazy

/-!
# Hemem.Populate — the region that `hemem_mmap_populate` fills

The loop takes the free descriptors in the order in which `pebs_allocate_page` hands them
out, DRAM first and NVM when DRAM has run out, and places them one behind the other. What a
page of the loop changes is said once, and what the region is made of follows by induction
on its pages. The slot of a free descriptor need not lie within its device, since a
migration between the tiers leaves the offset of one device in a descriptor of the other;
the loop gets through exactly when the slots that it takes do.
-/

namespace Hemem

open Lib

variable {cfg : Config} {s s' : St}

/-! ## One page -/

/-- The state after an iteration has taken `q` from the free list of tier `t`. -/
def St.populate (s : St) (t : Tier) (q : PageId) (rest : List PageId) (va : Nat) : St :=
  ((s.alloc t q rest).place t q va).countAlloc t

/-- A descriptor after its page has been placed at `va`. -/
def placedAt (va : Nat) (g : HememPage) : HememPage :=
  { g with va := va, present := true, migrating := false, migrationsUp := 0, migrationsDown := 0 }

section

variable {t : Tier} {q : PageId} {rest : List PageId} {va : Nat}

/-- Only the descriptor that is taken changes. -/
theorem populate_page : (s.populate t q rest va).page =
    Function.update s.page q (placedAt va (s.page q)) := by
  simp [St.populate, St.place, St.alloc, placedAt]

/-- The page is entered in the table under its address. -/
theorem populate_pages : (s.populate t q rest va).pages =
    Function.update s.pages va (some q) := by
  simp [St.populate, St.place, St.alloc]

/-- The descriptor leaves the free list of its tier. -/
theorem populate_free (u : Tier) : (s.populate t q rest va).list (.free u) =
    if u = t then rest else s.list (.free u) := by
  simp [St.populate, St.place, St.alloc, Function.update_apply]

/-- It comes to the end of the mmap list of the tier. -/
theorem populate_mmap (u : Tier) : (s.populate t q rest va).list (.mmap u) =
    if u = t then s.list (.mmap u) ++ [q] else s.list (.mmap u) := by
  by_cases hu : u = t
  · subst hu
    simp [St.populate, St.place, St.alloc]
  · simp [St.populate, St.place, St.alloc, hu]

theorem populate_queue (d : Dir) :
    (s.populate t q rest va).list (.queue d) = s.list (.queue d) := by
  simp [St.populate, St.place, St.alloc]

/-- The counters of the tier follow the two lists. -/
theorem populate_num (l : ListId) : (s.populate t q rest va).num l =
    match l with
    | .free u => if u = t then s.num l - 1 else s.num l
    | .mmap u => if u = t then s.num l + 1 else s.num l
    | .queue _ => s.num l := by
  cases l with
  | queue d => simp [St.populate, St.place, St.alloc]
  | free u => by_cases hu : u = t <;> simp [St.populate, St.place, St.alloc, hu]
  | mmap u => by_cases hu : u = t <;> simp [St.populate, St.place, St.alloc, hu]

variable (hpt : (s.page q).pt = .hugep)
include hpt

/-- The page is mapped to the slot of the descriptor. -/
theorem populate_vm (a : Nat) : (s.populate t q rest va).vm a =
    if inRange va pageSize a then some (.slot t ((s.page q).devdaxOffset + (a - va)))
    else s.vm a := by
  simp [St.populate, St.place, St.alloc, hpt, ptToPagesize]

/-- The page is registered with `userfaultfd`. -/
theorem populate_registered (a : Nat) : (s.populate t q rest va).registered a =
    if inRange va pageSize a then true else s.registered a := by
  simp [St.populate, St.place, St.alloc, hpt, ptToPagesize]

/-- The new mapping is not write-protected. -/
theorem populate_wp (a : Nat) : (s.populate t q rest va).wp a =
    if inRange va pageSize a then false else s.wp a := by
  simp [St.populate, St.place, St.alloc, hpt, ptToPagesize]

/-- The slot is cleared, and the rest of both devices keeps its bytes. -/
theorem populate_mem (u : Tier) (o : Nat) : (s.populate t q rest va).mem u o =
    if u = t ∧ inRange (s.page q).devdaxOffset pageSize o then 0 else s.mem u o := by
  simp [St.populate, St.place, St.alloc, hpt, ptToPagesize]

end

/-- The descriptor that is taken is the first of the free ones. -/
theorem AllocFrom.freeOrder_populate {t : Tier} {q : Nat} {rest : List PageId}
    (hfrom : AllocFrom s t q rest) (va : Nat) :
    freeOrder s = q :: freeOrder (s.populate t q rest va) := hfrom.freeOrder_eq va

/-- The next free descriptor is the one that `pebs_allocate_page` takes. -/
theorem Wf.allocFrom (h : Wf cfg s) {q : PageId} {qs : List PageId}
    (hfree : freeOrder s = q :: qs) : ∃ t rest, AllocFrom s t q rest := by
  cases hdram : s.list dramFreeList with
  | cons p rest =>
    have hmem : p ∈ s.list (.free .dram) := hdram ▸ List.mem_cons_self
    rw [freeOrder, hdram, List.cons_append, List.cons.injEq] at hfree
    obtain rfl := hfree.1
    exact ⟨.dram, rest, hdram, by simp, h.inDram hmem, h.present hmem⟩
  | nil =>
    rw [freeOrder, hdram, List.nil_append] at hfree
    have hmem : q ∈ s.list (.free .nvm) := hfree ▸ List.mem_cons_self
    exact ⟨.nvm, qs, hfree, fun _ => hdram, h.inDram hmem, h.present hmem⟩

/-- An iteration of the loop keeps the invariant. -/
theorem Wf.populate (h : Wf cfg s) {t : Tier} {q va : Nat} {rest : List PageId}
    (hfrom : AllocFrom s t q rest) (hfit : Placeable cfg s t q va) :
    Wf cfg (s.populate t q rest va) := (h.place hfrom hfit).countAlloc t

/-- Every page is a huge page. -/
theorem Wf.ptToPagesize_eq (h : Wf cfg s) (q : PageId) :
    ptToPagesize (s.page q).pt = pageSize := by
  rw [h.pt]
  rfl

/-! ## The loop -/

/-- The loop places `n` pages from `va` on. -/
inductive Populated (cfg : Config) : Nat → Nat → St → St → Prop where
  | done {va s} : Populated cfg va 0 s s
  | next {va n s t q rest s'} (hfrom : AllocFrom s t q rest) (hfit : Placeable cfg s t q va)
      (hrest : Populated cfg (va + pageSize) n (s.populate t q rest va) s') :
      Populated cfg va (n + 1) s s'

/-- A loop over `n` pages that returns has placed `n` pages. -/
theorem Populated.of_loop {n : Nat} :
    ∀ {fuel va : Nat} {s : St}, Wf cfg s → va + n * pageSize < 2 ^ 64 →
      populateLoop cfg fuel va (va + n * pageSize) s = .ok s' → Populated cfg va n s s' := by
  induction n with
  | zero =>
    intro fuel va s _ _ h
    cases fuel with
    | zero => simp [populateLoop] at h
    | succ fuel =>
      rw [populateLoop, if_neg (by simp), Except.ok.injEq] at h
      exact h ▸ .done
  | succ n ih =>
    intro fuel va s hw hend h
    rcases pages_succ va n with ⟨hstop, hlt⟩
    rw [hstop] at hend
    cases fuel with
    | zero => simp [populateLoop] at h
    | succ fuel =>
      simp only [populateLoop, if_pos hlt, bind_eq_ok, Prod.exists] at h
      rcases h with ⟨k, s₁, hpage, hloop⟩
      rcases populatePage_ok hpage with ⟨t, q, rest, hfrom, hfit, rfl, rfl⟩
      -- the region ends before the address space does, so the address does not wrap
      rw [hw.ptToPagesize_eq, Nat.mod_eq_of_lt (by omega), hstop] at hloop
      exact .next hfrom hfit (ih (hw.populate hfrom hfit) hend hloop)

/-- The loop has enough iterations when it has one more than pages to place. -/
theorem Populated.loop {va n : Nat} (h : Populated cfg va n s s') (hw : Wf cfg s) {fuel : Nat}
    (hfuel : n < fuel) (hend : va + n * pageSize < 2 ^ 64) :
    populateLoop cfg fuel va (va + n * pageSize) s = .ok s' := by
  induction h generalizing fuel with
  | done =>
    rcases Nat.exists_eq_succ_of_ne_zero (Nat.ne_of_gt hfuel) with ⟨fuel, rfl⟩
    rw [populateLoop, if_neg (by simp)]
  | @next va n s t q rest s' hfrom hfit _ ih =>
    rcases Nat.exists_eq_succ_of_ne_zero (Nat.ne_zero_of_lt hfuel) with ⟨fuel, rfl⟩
    rcases pages_succ va n with ⟨hstop, hlt⟩
    rw [hstop] at hend
    have hrest := ih (hw.populate hfrom hfit) (Nat.lt_of_succ_lt_succ hfuel) hend
    simp only [populateLoop, if_pos hlt, hfrom.populatePage_eq hfit, bind, Except.bind]
    rw [hw.ptToPagesize_eq, Nat.mod_eq_of_lt (by omega), hstop]
    exact hrest

/-! ## The table -/

/-- The address of page `i` of a region. -/
def pageAt (va i : Nat) : Nat := va + i * pageSize

@[simp] theorem pageAt_zero (va : Nat) : pageAt va 0 = va := by simp [pageAt]

theorem pageAt_succ (va i : Nat) : pageAt va (i + 1) = pageAt (va + pageSize) i := by
  simp only [pageAt, pageSize_eq]
  omega

/-- Frame: the table outside the region. -/
theorem Populated.pages_other {va n : Nat} (h : Populated cfg va n s s') {vb : Nat}
    (hvb : ∀ i < n, vb ≠ pageAt va i) : s'.pages vb = s.pages vb := by
  induction h with
  | done => rfl
  | @next va n s t q rest s' _ _ _ ih =>
    have hne : vb ≠ va := by simpa using hvb 0 (Nat.succ_pos _)
    rw [ih fun i hi => pageAt_succ va i ▸ hvb (i + 1) (Nat.succ_lt_succ hi), populate_pages,
      Function.update_of_ne hne]

/-- The pages of the region are the first `n` free descriptors, in order. -/
theorem Populated.pages {va n : Nat} (h : Populated cfg va n s s') :
    ∀ i < n, s'.pages (pageAt va i) = (freeOrder s)[i]? := by
  induction h with
  | done => intro i hi; cases hi
  | @next va n s t q rest s' hfrom _ hrest ih =>
    intro i hi
    rw [hfrom.freeOrder_populate va]
    cases i with
    | zero =>
      rw [pageAt_zero, hrest.pages_other, populate_pages]
      · simp
      · intro i _
        simp only [pageAt, pageSize_eq]
        omega
    | succ i =>
      rw [pageAt_succ, ih i (Nat.lt_of_succ_lt_succ hi)]
      simp

/-- A page is placed where none is tracked. -/
theorem Populated.fresh {va n : Nat} (h : Populated cfg va n s s') :
    ∀ i < n, s.pages (pageAt va i) = none := by
  induction h with
  | done => intro i hi; cases hi
  | @next va n s t q rest s' _ hfit _ ih =>
    intro i hi
    cases i with
    | zero => simpa using hfit.fresh
    | succ i =>
      have hnone := ih i (Nat.lt_of_succ_lt_succ hi)
      rw [populate_pages, Function.update_of_ne] at hnone
      · rw [pageAt_succ]
        exact hnone
      · simp only [pageAt, pageSize_eq]
        omega

/-! ## The lists and the counters -/

/-- How many of the first `n` free descriptors are in tier `t`. -/
def takenFrom (s : St) (n : Nat) : Tier → Nat
  | .dram => min n (s.list dramFreeList).length
  | .nvm => n - (s.list dramFreeList).length

/-- The first descriptor counts for its tier, the others are the next ones. -/
theorem AllocFrom.takenFrom_succ {t : Tier} {q : PageId} {rest : List PageId}
    (hfrom : AllocFrom s t q rest) (va n : Nat) (u : Tier) :
    takenFrom s (n + 1) u =
      takenFrom (s.populate t q rest va) n u + if u = t then 1 else 0 := by
  have hhead := hfrom.head
  have hfree : (s.populate t q rest va).list (.free .dram) =
      if Tier.dram = t then rest else s.list (.free .dram) := populate_free .dram
  cases t with
  | dram =>
    cases u <;> simp only [takenFrom, hhead, hfree, List.length_cons, if_true, reduceCtorEq,
      if_false] <;> omega
  | nvm =>
    have hfull := hfrom.dramFull rfl
    cases u <;> simp [takenFrom, hfull, hfree]

/-- The free lists lose the descriptors that are taken, from the head. -/
theorem Populated.free {va n : Nat} (h : Populated cfg va n s s') (u : Tier) :
    s'.list (.free u) = (s.list (.free u)).drop (takenFrom s n u) := by
  induction h with
  | done => cases u <;> simp [takenFrom]
  | @next va n s t q rest s' hfrom _ _ ih =>
    rw [ih, hfrom.takenFrom_succ va, populate_free]
    split
    · rename_i hu
      rw [hu, hfrom.head, List.drop_succ_cons]
    · rfl

/-- The mmap lists gain them, in order, at the end. -/
theorem Populated.mmap {va n : Nat} (h : Populated cfg va n s s') (u : Tier) :
    s'.list (.mmap u) = s.list (.mmap u) ++ (s.list (.free u)).take (takenFrom s n u) := by
  induction h with
  | done => cases u <;> simp [takenFrom]
  | @next va n s t q rest s' hfrom _ _ ih =>
    rw [ih, hfrom.takenFrom_succ va, populate_mmap, populate_free]
    split
    · rename_i hu
      rw [hu, hfrom.head, List.take_succ_cons, List.append_assoc, List.singleton_append]
    · rfl

/-- Frame: the migration queues and their counters. -/
theorem Populated.queue {va n : Nat} (h : Populated cfg va n s s') (d : Dir) :
    s'.list (.queue d) = s.list (.queue d) ∧ s'.num (.queue d) = s.num (.queue d) := by
  induction h with
  | done => exact ⟨rfl, rfl⟩
  | next _ _ _ ih =>
    rw [ih.1, ih.2, populate_queue, populate_num]
    exact ⟨rfl, rfl⟩

/-- The counters of a tier follow its lists. -/
theorem Populated.tierNum {va n : Nat} (h : Populated cfg va n s s') (u : Tier) :
    s'.num (.free u) = s.num (.free u) - UInt64.ofNat (takenFrom s n u) ∧
      s'.num (.mmap u) = s.num (.mmap u) + UInt64.ofNat (takenFrom s n u) := by
  induction h with
  | done => cases u <;> simp [takenFrom]
  | @next va n s t q rest s' hfrom _ _ ih =>
    have hone : UInt64.ofNat 1 = 1 := rfl
    rw [ih.1, ih.2, hfrom.takenFrom_succ va, populate_num, populate_num]
    by_cases hu : u = t
    · simp only [hu, if_true, UInt64.ofNat_add, hone]
      grind
    · simp only [hu, if_false, Nat.add_zero, and_self]

/-! ## The descriptors -/

/-- No free descriptor is taken twice. -/
theorem Wf.freeOrder_nodup (h : Wf cfg s) : (freeOrder s).Nodup :=
  h.excl.nodup_append (by simp)

@[simp] theorem placedAt_slot (va : Nat) (g : HememPage) : (placedAt va g).slot = g.slot := rfl

/-- Placing a page moves no descriptor to another slot. -/
@[simp] theorem populate_slot {t : Tier} {q : PageId} {rest : List PageId} {va : Nat}
    (p : PageId) : ((s.populate t q rest va).page p).slot = (s.page p).slot := by
  rw [populate_page]
  by_cases hp : p = q
  · rw [hp, Function.update_self, placedAt_slot]
  · rw [Function.update_of_ne hp]

/-- No descriptor changes its slot. -/
theorem Populated.slot {va n : Nat} (h : Populated cfg va n s s') (p : PageId) :
    (s'.page p).slot = (s.page p).slot := by
  induction h with
  | done => rfl
  | next _ _ _ ih => rw [ih, populate_slot]

/-- Frame: the descriptors that are not taken. -/
theorem Populated.page_other {va n : Nat} (h : Populated cfg va n s s') {p : PageId}
    (hp : p ∉ (freeOrder s).take n) : s'.page p = s.page p := by
  induction h with
  | done => rfl
  | @next va n s t q rest s' hfrom _ _ ih =>
    rw [hfrom.freeOrder_populate va, List.take_succ_cons, List.mem_cons, not_or] at hp
    rw [ih hp.2, populate_page, Function.update_of_ne hp.1]

/-- The descriptors that are taken hold the pages of the region. -/
theorem Populated.page {va n : Nat} (h : Populated cfg va n s s') (hnd : (freeOrder s).Nodup) :
    ∀ i < n, ∀ p, (freeOrder s)[i]? = some p →
      s'.page p = placedAt (pageAt va i) (s.page p) := by
  induction h with
  | done => intro i hi; cases hi
  | @next va n s t q rest s' hfrom _ hrest ih =>
    intro i hi p hp
    rw [hfrom.freeOrder_populate va] at hp hnd
    rcases List.nodup_cons.mp hnd with ⟨hq, hnd⟩
    cases i with
    | zero =>
      obtain rfl : q = p := by simpa using hp
      rw [pageAt_zero, hrest.page_other fun hmem => hq (List.mem_of_mem_take hmem), populate_page,
        Function.update_self]
    | succ i =>
      rw [List.getElem?_cons_succ] at hp
      have hne : p ≠ q := by
        rintro rfl
        exact hq (List.mem_of_getElem? hp)
      rw [pageAt_succ, ih hnd i (Nat.lt_of_succ_lt_succ hi) p hp, populate_page,
        Function.update_of_ne hne]

/-! ## Device memory -/

/-- The byte `o` of the device of tier `t` lies in the slot of the descriptor. -/
def HememPage.Covers (g : HememPage) (t : Tier) (o : Nat) : Prop :=
  g.tier = t ∧ inRange g.devdaxOffset pageSize o = true

/-- What a descriptor covers depends on its slot only. -/
theorem covers_congr {g g' : HememPage} (h : g.slot = g'.slot) (t : Tier) (o : Nat) :
    g.Covers t o ↔ g'.Covers t o := by
  rcases Prod.mk.inj h with ⟨htier, hoff⟩
  unfold HememPage.Covers
  rw [htier, hoff]

/-- The flag of a free descriptor names the tier of its list. -/
theorem AllocFrom.tier_eq {t : Tier} {q : PageId} {rest : List PageId}
    (hfrom : AllocFrom s t q rest) : (s.page q).tier = t := by
  rw [HememPage.tier, hfrom.inDram, Tier.ofInDram_inDram]

/-- A page clears what its descriptor covers, and nothing else. -/
theorem AllocFrom.populate_mem {t : Tier} {q : PageId} {rest : List PageId}
    (hfrom : AllocFrom s t q rest) (hpt : (s.page q).pt = .hugep) {va o : Nat} {u : Tier} :
    ((s.page q).Covers u o → (s.populate t q rest va).mem u o = 0) ∧
      (¬ (s.page q).Covers u o → (s.populate t q rest va).mem u o = s.mem u o) := by
  rw [Hemem.populate_mem hpt]
  unfold HememPage.Covers
  rw [hfrom.tier_eq]
  constructor
  · rintro ⟨rfl, hin⟩
    rw [if_pos ⟨rfl, hin⟩]
  · intro hnot
    rw [if_neg fun hin => hnot ⟨hin.1.symm, hin.2⟩]

/-- Frame: the bytes that no descriptor covers that is taken. -/
theorem Populated.mem_other {va n : Nat} (h : Populated cfg va n s s') (hw : Wf cfg s) {t : Tier}
    {o : Nat} (ho : ∀ p ∈ (freeOrder s).take n, ¬ (s.page p).Covers t o) :
    s'.mem t o = s.mem t o := by
  induction h with
  | done => rfl
  | @next va n s u q rest s' hfrom hfit _ ih =>
    rw [hfrom.freeOrder_populate va, List.take_succ_cons] at ho
    rw [ih (hw.populate hfrom hfit) fun p hp => ?_]
    · exact (hfrom.populate_mem (hw.pt q)).2 (ho q List.mem_cons_self)
    · rw [covers_congr (populate_slot p)]
      exact ho p (List.mem_cons_of_mem _ hp)

/-- What reads zero still does when more pages have been placed. -/
theorem Populated.mem_zero {va n : Nat} (h : Populated cfg va n s s') (hw : Wf cfg s) {t : Tier}
    {o : Nat} (hzero : s.mem t o = 0) : s'.mem t o = 0 := by
  induction h with
  | done => exact hzero
  | @next va n s u q rest s' hfrom hfit _ ih =>
    apply ih (hw.populate hfrom hfit)
    by_cases hcov : (s.page q).Covers t o
    · exact (hfrom.populate_mem (hw.pt q)).1 hcov
    · rw [(hfrom.populate_mem (hw.pt q)).2 hcov, hzero]

/-- Every byte of a slot that is taken is zero, whatever comes after it. -/
theorem Populated.mem_cleared {va n : Nat} (h : Populated cfg va n s s') (hw : Wf cfg s) {t : Tier}
    {o : Nat} {p : PageId} (hp : p ∈ (freeOrder s).take n) (hcov : (s.page p).Covers t o) :
    s'.mem t o = 0 := by
  induction h with
  | done => simp at hp
  | @next va n s u q rest s' hfrom hfit hrest ih =>
    rw [hfrom.freeOrder_populate va, List.take_succ_cons] at hp
    rcases List.mem_cons.mp hp with rfl | hp
    · exact hrest.mem_zero (hw.populate hfrom hfit) ((hfrom.populate_mem (hw.pt p)).1 hcov)
    · exact ih (hw.populate hfrom hfit) hp ((covers_congr (populate_slot p) t o).mpr hcov)

/-! ## The address space -/

/-- Frame: the mappings outside the region. -/
theorem Populated.outside {va n : Nat} (h : Populated cfg va n s s') (hw : Wf cfg s) {a : Nat}
    (ha : inRange va (n * pageSize) a = false) :
    s'.vm a = s.vm a ∧ s'.registered a = s.registered a ∧ s'.wp a = s.wp a := by
  induction h with
  | done => exact ⟨rfl, rfl, rfl⟩
  | @next va n s t q rest s' hfrom hfit _ ih =>
    have hpage : inRange va pageSize a = false ∧
        inRange (va + pageSize) (n * pageSize) a = false := by
      simp only [← Bool.not_eq_true, inRange_iff, pageSize_eq] at ha ⊢
      omega
    rcases ih (hw.populate hfrom hfit) hpage.2 with ⟨hvm, hreg, hwp⟩
    rw [hvm, hreg, hwp, populate_vm (hw.pt q), populate_registered (hw.pt q),
      populate_wp (hw.pt q), hpage.1]
    simp

/-- The pages are watched for missing pages, and not protected. -/
theorem Populated.inside {va n : Nat} (h : Populated cfg va n s s') (hw : Wf cfg s) {a : Nat}
    (ha : inRange va (n * pageSize) a = true) : s'.registered a = true ∧ s'.wp a = false := by
  induction h with
  | done =>
    rw [Nat.zero_mul, inRange_iff] at ha
    omega
  | @next va n s t q rest s' hfrom hfit hrest ih =>
    -- a later page of the loop, or this one, which the later ones leave alone
    by_cases hrange : inRange (va + pageSize) (n * pageSize) a = true
    · exact ih (hw.populate hfrom hfit) hrange
    · have hpage : inRange va pageSize a = true := by
        simp only [inRange_iff, pageSize_eq] at ha hrange ⊢
        omega
      rcases hrest.outside (hw.populate hfrom hfit) (Bool.eq_false_iff.mpr hrange) with
        ⟨-, hreg, hwp⟩
      rw [hreg, hwp, populate_registered (hw.pt q), populate_wp (hw.pt q), hpage]
      simp

/-- Every page of the region is mapped to the slot of its descriptor. -/
theorem Populated.vm {va n : Nat} (h : Populated cfg va n s s') (hw : Wf cfg s) :
    ∀ i < n, ∀ p, (freeOrder s)[i]? = some p → ∀ k < pageSize,
      s'.vm (pageAt va i + k) = some (.slot (s.page p).tier ((s.page p).devdaxOffset + k)) := by
  induction h with
  | done => intro i hi; cases hi
  | @next va n s t q rest s' hfrom hfit hrest ih =>
    intro i hi p hp k hk
    rw [hfrom.freeOrder_populate va] at hp
    cases i with
    | zero =>
      obtain rfl : q = p := by simpa using hp
      have hlater : inRange (va + pageSize) (n * pageSize) (va + k) = false := by
        simp only [← Bool.not_eq_true, inRange_iff]
        omega
      rw [pageAt_zero, (hrest.outside (hw.populate hfrom hfit) hlater).1, populate_vm (hw.pt q),
        inRange_add hk, hfrom.tier_eq]
      simp
    | succ i =>
      rw [List.getElem?_cons_succ] at hp
      rw [pageAt_succ, ih (hw.populate hfrom hfit) i (Nat.lt_of_succ_lt_succ hi) p hp k hk]
      have hslot : ((s.populate t q rest va).page p).slot = (s.page p).slot := populate_slot p
      rcases Prod.mk.inj hslot with ⟨htier, hoff⟩
      rw [htier, hoff]

/-! ## When the loop gets through -/

/-- The slot of a descriptor lies within its device. -/
def Fits (cfg : Config) (g : HememPage) : Prop := g.devdaxOffset + pageSize ≤ cfg.size g.tier

instance (cfg : Config) (g : HememPage) : Decidable (Fits cfg g) :=
  inferInstanceAs (Decidable (_ ≤ _))

/-- Whether a descriptor lies within its device depends on its slot only. -/
theorem fits_congr {g g' : HememPage} (h : g.slot = g'.slot) : Fits cfg g ↔ Fits cfg g' := by
  rcases Prod.mk.inj h with ⟨htier, hoff⟩
  unfold Fits
  rw [htier, hoff]

/-- The slots that have been cleared lie within their devices. -/
theorem Populated.fits {va n : Nat} (h : Populated cfg va n s s') (hw : Wf cfg s) :
    ∀ p ∈ (freeOrder s).take n, Fits cfg (s.page p) := by
  induction h with
  | done => simp
  | @next va n s t q rest s' hfrom hfit _ ih =>
    rw [hfrom.freeOrder_populate va, List.take_succ_cons]
    intro p hp
    rcases List.mem_cons.mp hp with rfl | hp
    · have hfits := hfit.fits
      rw [hw.pt, ← hfrom.tier_eq] at hfits
      exact hfits
    · exact (fits_congr (populate_slot p)).mp (ih (hw.populate hfrom hfit) p hp)

/-- With enough free descriptors, whose slots lie within their devices, and none of the pages in
the table, the pages can be placed. -/
theorem Wf.populated {n : Nat} :
    ∀ {va : Nat} {s : St}, Wf cfg s → va ≠ 0 → va % pageSize = 0 →
      n ≤ (freeOrder s).length → (∀ p ∈ (freeOrder s).take n, Fits cfg (s.page p)) →
      (∀ i < n, s.pages (pageAt va i) = none) → ∃ s', Populated cfg va n s s' := by
  induction n with
  | zero => exact fun _ _ _ _ _ _ => ⟨_, .done⟩
  | succ n ih =>
    intro va s hw hva hal henough hfits hfresh
    cases hfree : freeOrder s with
    | nil =>
      rw [hfree] at henough
      cases henough
    | cons q qs =>
      rcases hw.allocFrom hfree with ⟨t, rest, hfrom⟩
      have hqs : qs = freeOrder (s.populate t q rest va) :=
        (List.cons.inj (hfree.symm.trans (hfrom.freeOrder_populate va))).2
      rw [hfree, List.take_succ_cons] at hfits
      have hfit : Placeable cfg s t q va := by
        refine ⟨?_, hva, hal, ?_⟩
        · rw [hw.pt, ← hfrom.tier_eq]
          exact hfits q List.mem_cons_self
        · simpa using hfresh 0 (Nat.succ_pos n)
      -- the rest of the region, from the state with the first page placed
      have hnext : ∃ s', Populated cfg (va + pageSize) n (s.populate t q rest va) s' := by
        refine ih (hw.populate hfrom hfit) ?_ ?_ ?_ ?_ ?_
        · omega
        · rw [Nat.add_mod_right]
          exact hal
        · rw [hfree, List.length_cons, hqs] at henough
          exact Nat.le_of_succ_le_succ henough
        · intro p hp
          rw [fits_congr (populate_slot p)]
          exact hfits p (List.mem_cons_of_mem _ (hqs ▸ hp))
        · intro i hi
          rw [populate_pages, Function.update_of_ne, ← pageAt_succ]
          · exact hfresh (i + 1) (Nat.succ_lt_succ hi)
          · simp only [pageAt, pageSize_eq]
            omega
      rcases hnext with ⟨s', hrest⟩
      exact ⟨s', .next hfrom hfit hrest⟩

/-! ## The region -/

/-- As many pages as have been placed were free. -/
theorem Populated.enough {va n : Nat} (h : Populated cfg va n s s') : n ≤ (freeOrder s).length := by
  induction h with
  | done => exact Nat.zero_le _
  | @next va n s t q rest s' hfrom _ _ ih =>
    rw [hfrom.freeOrder_populate va, List.length_cons]
    exact Nat.succ_le_succ ih

/-- The region `[p, p + len)` has been filled: its page `i` has got the `i`th free descriptor,
those of DRAM first, with its slot cleared and mapped, and nothing else has changed. -/
structure PopulatesRegion (p len : Nat) (s s' : St) : Prop where
  /-- the pages tile the region -/
  tiles : ∀ a, inRange p len a = true ↔
    ∃ i < len / pageSize, inRange (pageAt p i) pageSize a = true
  apart : ∀ {i j a}, inRange (pageAt p i) pageSize a = true →
    inRange (pageAt p j) pageSize a = true → i = j
  entered : ∀ i < len / pageSize, (s'.pages (pageAt p i)).isSome = true
  fromDram : ∀ i < len / pageSize, i < (s.list dramFreeList).length →
    s'.pages (pageAt p i) = (s.list dramFreeList)[i]?
  fromNvm : ∀ i < len / pageSize, (s.list dramFreeList).length ≤ i →
    s'.pages (pageAt p i) = (s.list nvmFreeList)[i - (s.list dramFreeList).length]?
  tableOther : ∀ va, (∀ i < len / pageSize, va ≠ pageAt p i) → s'.pages va = s.pages va
  page : ∀ i < len / pageSize, ∀ q, s'.pages (pageAt p i) = some q →
    s'.page q = placedAt (pageAt p i) (s.page q)
  pageOther : ∀ q, q ∉ (freeOrder s).take (len / pageSize) → s'.page q = s.page q
  mapped : ∀ i < len / pageSize, ∀ q, s'.pages (pageAt p i) = some q → ∀ k < pageSize,
    s'.vm (pageAt p i + k) = some (.slot (s.page q).tier ((s.page q).devdaxOffset + k))
  watched : ∀ a, inRange p len a = true → s'.registered a = true ∧ s'.wp a = false
  outside : ∀ a, inRange p len a = false →
    s'.vm a = s.vm a ∧ s'.registered a = s.registered a ∧ s'.wp a = s.wp a
  cleared : ∀ q ∈ (freeOrder s).take (len / pageSize), ∀ {t o}, (s.page q).Covers t o →
    s'.mem t o = 0
  memOther : ∀ {t o}, (∀ q ∈ (freeOrder s).take (len / pageSize), ¬ (s.page q).Covers t o) →
    s'.mem t o = s.mem t o
  free : ∀ t, s'.list (.free t) = (s.list (.free t)).drop (takenFrom s (len / pageSize) t)
  mmap : ∀ t, s'.list (.mmap t) =
    s.list (.mmap t) ++ (s.list (.free t)).take (takenFrom s (len / pageSize) t)
  freeNum : ∀ t,
    s'.num (.free t) = s.num (.free t) - UInt64.ofNat (takenFrom s (len / pageSize) t)
  mmapNum : ∀ t,
    s'.num (.mmap t) = s.num (.mmap t) + UInt64.ofNat (takenFrom s (len / pageSize) t)
  queue : ∀ d, s'.list (.queue d) = s.list (.queue d) ∧ s'.num (.queue d) = s.num (.queue d)

/-- What `n` placements do to a region that has just been reserved. -/
theorem Populated.region {p m : Nat} (h : Populated cfg p m (s.reserved p m) s') (hw : Wf cfg s) :
    PopulatesRegion p (m * pageSize) s s' := by
  have hw₀ : Wf cfg (s.reserved p m) := hw.congr rfl rfl fun _ => rfl
  have hm : m * pageSize / pageSize = m := Nat.mul_div_cancel _ (by decide)
  have henough : m ≤ (freeOrder s).length := h.enough
  have hpages : ∀ i < m, s'.pages (pageAt p i) = (freeOrder s)[i]? := h.pages
  constructor
  case tiles =>
    -- A byte of the region lies in the page its distance from the start counts to.
    intro a
    rw [hm]
    constructor
    · intro ha
      rw [inRange_iff] at ha
      refine ⟨(a - p) / pageSize, ?_, ?_⟩
      · simp only [pageSize_eq] at *
        omega
      · rw [inRange_iff]
        simp only [pageAt, pageSize_eq]
        omega
    · rintro ⟨i, hi, ha⟩
      rw [inRange_iff] at ha ⊢
      simp only [pageAt, pageSize_eq] at *
      omega
  case apart =>
    intro i j a hi hj
    rw [inRange_iff] at hi hj
    simp only [pageAt, pageSize_eq] at *
    omega
  case entered =>
    intro i hi
    rw [hm] at hi
    rw [hpages i hi, List.getElem?_eq_getElem (Nat.lt_of_lt_of_le hi henough)]
    rfl
  case fromDram =>
    intro i hi hdram
    rw [hm] at hi
    -- `pebs_pagefault` looks at the DRAM list first, so its slots go before those of NVM.
    rw [hpages i hi, freeOrder, List.getElem?_append_left hdram]
  case fromNvm =>
    intro i hi hdram
    rw [hm] at hi
    rw [hpages i hi, freeOrder, List.getElem?_append_right hdram]
  case tableOther =>
    rw [hm]
    exact fun va hva => h.pages_other hva
  case page =>
    intro i hi q hq
    rw [hm] at hi
    rw [hpages i hi] at hq
    exact h.page hw₀.freeOrder_nodup i hi q hq
  case pageOther =>
    rw [hm]
    exact fun q hq => h.page_other hq
  case mapped =>
    intro i hi q hq
    rw [hm] at hi
    rw [hpages i hi] at hq
    exact h.vm hw₀ i hi q hq
  case watched => exact fun a ha => h.inside hw₀ ha
  case outside =>
    intro a ha
    rcases h.outside hw₀ ha with ⟨hvm, hreg, hwp⟩
    rw [hvm, hreg, hwp]
    simp only [St.reserved, registerRange_vm, registerRange_registered, registerRange_wp,
      mmapReserve_vm, mmapReserve_registered, mmapReserve_wp, ha, Bool.false_eq_true, if_false,
      and_self]
  case cleared =>
    rw [hm]
    exact fun q hq t o hcov => h.mem_cleared hw₀ hq hcov
  case memOther =>
    rw [hm]
    exact fun ho => h.mem_other hw₀ ho
  case free =>
    rw [hm]
    exact h.free
  case mmap =>
    rw [hm]
    exact h.mmap
  case freeNum =>
    rw [hm]
    exact fun t => (h.tierNum t).1
  case mmapNum =>
    rw [hm]
    exact fun t => (h.tierNum t).2
  case queue => exact h.queue

/-! ## `hemem_mmap` with `MAP_POPULATE` -/

/-- A length that can be rounded up is rounded up to a number of pages. -/
theorem pageRoundUp_pages {length : Nat} (hlen : 0 < length)
    (hround : length + (pageSize - 1) < 2 ^ 64) :
    ∃ m, 0 < m ∧ pageRoundUp length = m * pageSize := by
  refine ⟨pageRoundUp length / pageSize, ?_, ?_⟩
  · simp only [pageRoundUp, pageSize_eq] at *
    omega
  · simp only [pageRoundUp, pageSize_eq] at *
    omega

/-- Past its assertions `hemem_mmap` is the loop of `hemem_mmap_populate`. -/
theorem hememMmap_populate_eq {p length m : Nat} (hlen : 0 < length) (hm : 0 < m)
    (hround : pageRoundUp length = m * pageSize) (hp : p ≠ 0)
    (hinside : p + m * pageSize < 2 ^ 64) :
    hememMmap cfg p length true s =
      populateLoop cfg (cfg.total + 1) p (p + m * pageSize) (s.reserved p m) := by
  have hlen' : (length != 0) = true := bne_iff_ne.mpr (Nat.ne_of_gt hlen)
  have hp' : (p != 0) = true := bne_iff_ne.mpr hp
  have hne : m * pageSize ≠ 0 := Nat.mul_ne_zero (Nat.ne_of_gt hm) (by decide)
  have hin : inRange p (m * pageSize) p = true := inRange_start (Nat.pos_of_ne_zero hne)
  have hvm : ((mmapReserve p (m * pageSize) s).vm p).isSome = true := by
    simp only [mmapReserve_vm, hin, if_true, Option.isSome_some]
  rw [← hememMmapPopulate_eq hp hne hinside]
  simp only [hememMmap, hround, check, uffdioRegister, bind, Except.bind, hp', hlen', hvm, if_true,
    St.reserved]

/-- With free descriptors whose slots are in place, a region where nothing is tracked is
filled. -/
theorem Wf.mmap_populates (hw : Wf cfg s) {p length : Nat} (hlen : 0 < length)
    (hround : length + (pageSize - 1) < 2 ^ 64) (hp : p ≠ 0) (hal : p % pageSize = 0)
    (hinside : p + pageRoundUp length < 2 ^ 64)
    (henough : pageRoundUp length / pageSize ≤
      (s.list dramFreeList).length + (s.list nvmFreeList).length)
    (huntracked : ∀ va, inRange p (pageRoundUp length) va = true → s.pages va = none)
    (hfits : ∀ q ∈ (freeOrder s).take (pageRoundUp length / pageSize), Fits cfg (s.page q)) :
    ∃ s', hememMmap cfg p length true s = .ok s' ∧
      PopulatesRegion p (pageRoundUp length) s s' := by
  rcases pageRoundUp_pages hlen hround with ⟨m, hm, hpages⟩
  have hdiv : m * pageSize / pageSize = m := Nat.mul_div_cancel _ (by decide)
  rw [hpages] at hinside huntracked ⊢
  rw [hpages, hdiv] at henough hfits
  have hw₀ : Wf cfg (s.reserved p m) := hw.congr rfl rfl fun _ => rfl
  -- one free descriptor a page, so the rounds of the loop are enough
  have hcount : m < cfg.total + 1 := by
    have hle := hw.free_length_le
    omega
  have hex : ∃ s', Populated cfg p m (s.reserved p m) s' := by
    refine Wf.populated hw₀ hp hal ?_ hfits fun i hi => ?_
    · rw [freeOrder, List.length_append]
      exact henough
    · apply huntracked
      rw [inRange_iff]
      simp only [pageAt, pageSize_eq] at *
      omega
  rcases hex with ⟨s', h⟩
  refine ⟨s', ?_, h.region hw⟩
  rw [hememMmap_populate_eq hlen hm hpages hp hinside]
  exact h.loop hw₀ hcount hinside

/-- A mapping that returns has rounded the length up to some pages, and filled them. -/
theorem Wf.populated_of_mmap (hw : Wf cfg s) {p length : Nat} (hlen : length < 2 ^ 64)
    (hinside : p + pageRoundUp length < 2 ^ 64)
    (hr : hememMmap cfg p length true s = .ok s') :
    ∃ m, 0 < m ∧ pageRoundUp length = m * pageSize ∧ Populated cfg p m (s.reserved p m) s' := by
  have hlength : 0 < length ∧ p ≠ 0 ∧ pageRoundUp length ≠ 0 := by
    simp only [hememMmap, hememMmapPopulate, bind_eq_ok, check_eq_ok, bne_iff_ne, if_true] at hr
    rcases hr with ⟨-, hne, -, hp, -, -, -, -, -, hround, -⟩
    exact ⟨Nat.pos_of_ne_zero hne, hp, hround⟩
  -- had the rounding wrapped, the length would be zero and the call refused
  have hround : length + (pageSize - 1) < 2 ^ 64 := by
    have hne := hlength.2.2
    simp only [pageRoundUp, pageSize_eq] at *
    omega
  rcases pageRoundUp_pages hlength.1 hround with ⟨m, hm, hpages⟩
  refine ⟨m, hm, hpages, ?_⟩
  rw [hpages] at hinside
  rw [hememMmap_populate_eq hlength.1 hm hpages hlength.2.1 hinside] at hr
  exact Populated.of_loop (hw.congr rfl rfl fun _ => rfl) hinside hr

/-- Mapping a region with `MAP_POPULATE` fills it exactly when the slots of the free
descriptors that it takes lie within their devices. -/
theorem hememMmap_populates_iff (cfg : Config) {s : St} (hw : Wf cfg s) {p length : Nat}
    (hlen : 0 < length) (hround : length + (pageSize - 1) < 2 ^ 64) (hp : p ≠ 0)
    (hal : p % pageSize = 0) (hinside : p + pageRoundUp length < 2 ^ 64)
    (henough : pageRoundUp length / pageSize ≤
      (s.list dramFreeList).length + (s.list nvmFreeList).length)
    (huntracked : ∀ va, inRange p (pageRoundUp length) va = true → s.pages va = none) :
    (∃ s', hememMmap cfg p length true s = .ok s' ∧
        PopulatesRegion p (pageRoundUp length) s s') ↔
      ∀ q ∈ (freeOrder s).take (pageRoundUp length / pageSize), Fits cfg (s.page q) := by
  constructor
  · rintro ⟨s', hr, -⟩
    have hlt : length < 2 ^ 64 := Nat.lt_of_le_of_lt (Nat.le_add_right _ _) hround
    rcases hw.populated_of_mmap hlt hinside hr with ⟨m, -, hpages, h⟩
    rw [hpages, Nat.mul_div_cancel _ (by decide)]
    exact h.fits (hw.congr rfl rfl fun _ => rfl)
  · exact hw.mmap_populates hlen hround hp hal hinside henough huntracked

/-- The free descriptors of `pebs_init` are in place. -/
theorem fits_pebsInit (cfg : Config) : ∀ p ∈ freeOrder (pebsInit cfg),
    Fits cfg ((pebsInit cfg).page p) := by
  intro p hp
  rw [pebsInit_page]
  rcases List.mem_append.mp hp with hp | hp
  · rcases mem_pebsInit.mp hp with ⟨-, hlt⟩ | ⟨heq, -⟩
    · rw [if_pos hlt]
      simp only [Fits, newPage, HememPage.tier, Tier.ofInDram_inDram, Config.npages,
        pageSize_eq] at *
      omega
    · cases heq
  · rcases mem_pebsInit.mp hp with ⟨heq, -⟩ | ⟨-, hge, hlt⟩
    · cases heq
    · rw [if_neg (Nat.not_lt_of_le hge), if_pos hlt]
      simp only [Fits, newPage, HememPage.tier, Tier.ofInDram_inDram, Config.total,
        Config.npages, pageSize_eq] at *
      omega

theorem pebsInit_pages (cfg : Config) : (pebsInit cfg).pages = fun _ => none := by
  simp only [pebsInit, initLoop_eq, St.empty]

/-- Right after `pebs_init` every region for which there are enough slots can be filled. -/
theorem pebsInit_populates (cfg : Config) (p length : Nat) (hlen : 0 < length)
    (hround : length + (pageSize - 1) < 2 ^ 64) (hp : p ≠ 0) (hal : p % pageSize = 0)
    (hinside : p + pageRoundUp length < 2 ^ 64)
    (henough : pageRoundUp length / pageSize ≤ cfg.total) :
    ∃ s', hememMmap cfg p length true (pebsInit cfg) = .ok s' ∧
      PopulatesRegion p (pageRoundUp length) (pebsInit cfg) s' := by
  refine (wf_pebsInit cfg).mmap_populates hlen hround hp hal hinside ?_ ?_ ?_
  · rw [pebsInit_list, pebsInit_list]
    simpa [Config.total] using henough
  · intro va _
    rw [pebsInit_pages]
  · exact fun q hq => fits_pebsInit cfg q (List.mem_of_mem_take hq)

/-- One page of DRAM and three of NVM. -/
def smallDram : Config := ⟨pageSize, 3 * pageSize, by decide, by decide⟩

/-- A page moves from DRAM to the second slot of NVM. -/
def movedDown : List Op :=
  [.mmap 0x40000000 (2 * pageSize) true, .request .dramToNvm 1 false fun _ => 0,
    .migrate 1 .dramToNvm]

/-- The descriptor that the migration has put on the DRAM free list has kept an offset of
NVM, and the device ends before it: clearing the page goes past the end of the mapping. -/
theorem hememMmap_populates_fails_movedDown :
    ∃ s, runs (exec smallDram) movedDown (pebsInit smallDram) = .ok s ∧
      pageRoundUp pageSize / pageSize ≤
        (s.list dramFreeList).length + (s.list nvmFreeList).length ∧
      (∀ va, inRange 0x80000000 (pageRoundUp pageSize) va = true → s.pages va = none) ∧
      hememMmap smallDram 0x80000000 pageSize true s = .error .badAccess := by
  have hruns : ∃ s, runs (exec smallDram) movedDown (pebsInit smallDram) = .ok s ∧
      (s.list dramFreeList = [2] ∧ s.list nvmFreeList = [3]) ∧ s.pages 0x80000000 = none ∧
      hememMmap smallDram 0x80000000 pageSize true s = .error .badAccess :=
    ⟨_, rfl, ⟨rfl, rfl⟩, rfl, rfl⟩
  rcases hruns with ⟨s, hr, ⟨hdram, hnvm⟩, hnone, herror⟩
  refine ⟨s, hr, ?_, fun va hva => ?_, herror⟩
  · rw [hdram, hnvm]
    decide
  · cases hp : s.pages va with
    | none => rfl
    | some p =>
      -- only one address of the region is that of a page, and it is not tracked
      have hal := (hugeTable_runs hr).aligned hp
      have hsize : pageRoundUp pageSize = pageSize := by decide
      rw [hsize, inRange_iff] at hva
      have heq : va = 0x80000000 := by
        simp only [pageSize_eq] at *
        omega
      rw [heq, hnone] at hp
      cases hp

/-- Three pages, of which the last one spills over to NVM. -/
theorem hememMmap_populates_spill :
    ∃ s', hememMmap smallConfig 0x40000000 (3 * pageSize) true (pebsInit smallConfig) = .ok s' ∧
      PopulatesRegion 0x40000000 (pageRoundUp (3 * pageSize)) (pebsInit smallConfig) s' := by
  refine (hememMmap_populates_iff smallConfig (wf_pebsInit smallConfig) (by decide) (by decide)
    (by decide) (by decide) (by decide) (by decide) ?_).mpr (by decide)
  intro va _
  rw [pebsInit_pages]

end Hemem
