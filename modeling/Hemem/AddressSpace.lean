import Hemem.Lib.Paging
import Hemem.Table

/-!
# Hemem.AddressSpace — descriptors and the mappings of the process

The device byte behind every address, and the invariant that ties it to the
descriptors: a live page is mapped, all of it, to the slot its descriptor denotes,
nothing else is mapped to a device, and no two addresses share a byte. A page can
be placed in or moved to a slot that no live page denotes.
-/

namespace Hemem

open Lib

variable {cfg : Config} {s s' : St}

/-- The byte of a device behind a mapping. -/
def locate : Option Backing → Option (Tier × Nat)
  | some (.slot t o) => some (t, o)
  | _ => none

/-- The byte of a device that an address is mapped to. -/
def device (s : St) (a : Nat) : Option (Tier × Nat) := locate (s.vm a)

/-- The contents of the two devices. -/
def St.bytes (s : St) (x : Tier × Nat) : Byte := s.mem x.1 x.2

theorem read_eq_load (s : St) : s.read = load (device s) s.bytes := by
  funext a
  unfold St.read load device locate
  cases s.vm a with
  | none => rfl
  | some b => cases b <;> rfl

/-- The byte `k` of the slot that a descriptor denotes. -/
def HememPage.byteAt (g : HememPage) (k : Nat) : Tier × Nat := (g.tier, g.devdaxOffset + k)

structure AddressSpace (live : PageId → Prop) (s : St) : Prop where
  /-- no two addresses share a device byte -/
  unaliased : Unaliased (device s)
  /-- a live page is mapped to its slot -/
  mapped : ∀ {p k}, live p → k < pageSize →
    device s ((s.page p).va + k) = some ((s.page p).byteAt k)
  /-- what is mapped to a device belongs to a live page -/
  owner : ∀ {a x}, device s a = some x → ∃ p, live p ∧ inRange (s.page p).va pageSize a = true
  aligned : ∀ {p}, live p → (s.page p).va % pageSize = 0
  va_inj : ∀ {p q}, live p → live q → (s.page p).va = (s.page q).va → p = q
  offAligned : ∀ p, (s.page p).devdaxOffset % pageSize = 0

variable {live : PageId → Prop}

/-- Two aligned pages that meet are the same. -/
theorem aligned_eq {x y i j : Nat} (hx : x % pageSize = 0) (hy : y % pageSize = 0)
    (hi : i < pageSize) (hj : j < pageSize) (h : x + i = y + j) : x = y := by
  simp only [pageSize_eq] at *
  omega

theorem inRange_add {va k : Nat} (hk : k < pageSize) : inRange va pageSize (va + k) = true :=
  inRange_iff.mpr ⟨Nat.le_add_right _ _, Nat.add_lt_add_left hk _⟩

/-- The invariant looks at the address, the slot and the mapping of the pages. -/
theorem AddressSpace.congr (h : AddressSpace live s) (hvm : ∀ a, device s' a = device s a)
    (hva : ∀ p, (s'.page p).va = (s.page p).va)
    (hslot : ∀ p, live p → (s'.page p).slot = (s.page p).slot)
    (hoff : ∀ p, (s'.page p).devdaxOffset = (s.page p).devdaxOffset) : AddressSpace live s' := by
  have hdev : device s' = device s := funext hvm
  constructor
  · exact hdev ▸ h.unaliased
  · intro p k hp hk
    have htier : (s'.page p).tier = (s.page p).tier := (Prod.mk.inj (hslot p hp)).1
    rw [hdev, hva, h.mapped hp hk, HememPage.byteAt, HememPage.byteAt, htier, hoff]
  · intro a x ha
    rcases h.owner (hdev ▸ ha) with ⟨p, hp, hin⟩
    exact ⟨p, hp, (hva p).symm ▸ hin⟩
  · exact fun hp => (hva _).symm ▸ h.aligned hp
  · exact fun hp hq heq => h.va_inj hp hq (by rwa [hva, hva] at heq)
  · exact fun p => (hoff p).symm ▸ h.offAligned p

/-- An address of a page is in no other live page. -/
theorem AddressSpace.page_eq (h : AddressSpace live s) {p q : PageId} (hp : live p) (hq : live q)
    {a : Nat} (hap : inRange (s.page p).va pageSize a = true)
    (haq : inRange (s.page q).va pageSize a = true) : p = q := by
  apply h.va_inj hp hq
  have h1 := h.aligned hp
  have h2 := h.aligned hq
  simp only [inRange_iff, pageSize_eq] at *
  omega

/-- The slot that a descriptor denotes, or that a page moves to, is denoted by no
live page. -/
def FreshSlot (live : PageId → Prop) (s : St) (t : Tier) (off : Nat) : Prop :=
  ∀ p, live p → (s.page p).slot ≠ (t, off)

/-- No address is mapped to a byte of a fresh slot. -/
theorem AddressSpace.not_mappedTo (h : AddressSpace live s) {t : Tier} {off k : Nat}
    (hal : off % pageSize = 0) (hk : k < pageSize) (hfresh : FreshSlot live s t off) :
    ¬ MappedTo (device s) (t, off + k) := by
  rintro ⟨a, ha⟩
  rcases h.owner ha with ⟨p, hp, hin⟩
  rw [inRange_iff] at hin
  rcases Nat.exists_eq_add_of_le hin.1 with ⟨j, rfl⟩
  have hj : j < pageSize := Nat.lt_of_add_lt_add_left hin.2
  rcases Prod.mk.inj (Option.some.inj ((h.mapped hp hj).symm.trans ha)) with ⟨htier, hoff⟩
  have heq := aligned_eq (h.offAligned p) hal hj hk hoff
  exact hfresh p hp (Prod.ext htier heq)

/-! ## Moving a page -/

theorem device_remap (s : St) (dst : Tier) (f : HememPage → HememPage) (m : Move) (a : Nat) :
    device (s.remap dst f m) a =
      if inRange (s.page m.1).va pageSize a then some (dst, m.2 + (a - (s.page m.1).va))
      else device s a := by
  have hvm : (s.remap dst f m).vm a =
      if inRange (s.page m.1).va pageSize a then
        some (.slot dst (m.2 + (a - (s.page m.1).va))) else s.vm a := rfl
  rw [device, hvm]
  split <;> rfl

/-- What moving a page to a slot requires: the slot is fresh and holds the page. -/
structure Movable (live : PageId → Prop) (dst : Tier) (s : St) (m : Move) : Prop where
  isLive : live m.1
  aligned : m.2 % pageSize = 0
  fresh : FreshSlot live s dst m.2
  copied : ∀ k, k < pageSize → s.mem dst (m.2 + k) = s.bytes ((s.page m.1).byteAt k)

theorem AddressSpace.relocates (h : AddressSpace live s) {dst : Tier} {m : Move}
    (hal : m.2 % pageSize = 0) (hfresh : FreshSlot live s dst m.2) (f : HememPage → HememPage) :
    Relocates (device s) (device (s.remap dst f m))
      (fun a => inRange (s.page m.1).va pageSize a = true)
      (fun a => (dst, m.2 + (a - (s.page m.1).va))) := by
  constructor
  · intro a ha
    rw [device_remap, if_pos ha]
  · intro a ha
    rw [device_remap, if_neg ha]
  · intro a b ha hb heq
    have hoff := (Prod.mk.inj heq).2
    rw [inRange_iff] at ha hb
    omega
  · intro a ha
    rw [inRange_iff] at ha
    exact h.not_mappedTo hal (by omega) hfresh

/-- A page that is copied and mapped to its new slot reads as before. -/
theorem AddressSpace.remap (h : AddressSpace live s) {dst : Tier} {f : HememPage → HememPage}
    {m : Move} (hm : Movable live dst s m) (hf : ∀ g, (f g).va = g.va) :
    AddressSpace live (s.remap dst f m) ∧ (s.remap dst f m).read = s.read := by
  have hrel := h.relocates hm.aligned hm.fresh f
  have hva : ∀ p, ((s.remap dst f m).page p).va = (s.page p).va := remap_va hf m
  constructor
  · constructor
    case unaliased => exact hrel.unaliased h.unaliased
    case mapped =>
      intro p k hp hk
      rw [hva, device_remap]
      -- the page itself is at its new slot; no other page has one of its addresses
      by_cases hpm : p = m.1
      · subst hpm
        rw [if_pos (inRange_add hk)]
        simp [HememPage.byteAt, HememPage.tier]
      · rw [if_neg, h.mapped hp hk]
        · simp [hpm]
        · exact fun hin => hpm (h.page_eq hp hm.isLive (inRange_add hk) hin)
    case owner =>
      intro a x ha
      rw [device_remap] at ha
      split at ha
      · rename_i hin
        exact ⟨m.1, hm.isLive, (hva m.1).symm ▸ hin⟩
      · rcases h.owner ha with ⟨p, hp, hin⟩
        exact ⟨p, hp, (hva p).symm ▸ hin⟩
    case aligned => exact fun hp => (hva _).symm ▸ h.aligned hp
    case va_inj => exact fun hp hq heq => h.va_inj hp hq (by rwa [hva, hva] at heq)
    case offAligned =>
      intro p
      by_cases hp : p = m.1
      · subst hp
        simpa using hm.aligned
      · simpa [hp] using h.offAligned p
  -- the bytes at the new slot are those that were read before
  · rw [read_eq_load, read_eq_load]
    refine hrel.load_eq fun a ha => ?_
    rw [inRange_iff] at ha
    rcases Nat.exists_eq_add_of_le ha.1 with ⟨k, rfl⟩
    have hk : k < pageSize := Nat.lt_of_add_lt_add_left ha.2
    rw [load_of_eq_some (h.mapped hm.isLive hk), Nat.add_sub_cancel_left]
    exact congrArg some (hm.copied k hk).symm

/-- The batch of pages moves one by one; the slots are distinct, so one that is
fresh stays fresh when another page has moved. -/
theorem AddressSpace.remapAll (h : AddressSpace live s) {dst : Tier} {f : HememPage → HememPage}
    {ms : List Move} (hms : ∀ m ∈ ms, Movable live dst s m) (hpages : (ms.map Prod.fst).Nodup)
    (hoffs : (ms.map Prod.snd).Nodup) (hf : ∀ g, (f g).va = g.va) :
    AddressSpace live (s.remapAll dst f ms) ∧ (s.remapAll dst f ms).read = s.read := by
  induction ms generalizing s with
  | nil => exact ⟨h, rfl⟩
  | cons m ms ih =>
    rw [List.map_cons, List.nodup_cons] at hpages hoffs
    have hm := hms m List.mem_cons_self
    rcases h.remap hm hf with ⟨h', hread⟩
    have hms' : ∀ m' ∈ ms, Movable live dst (s.remap dst f m) m' := by
      intro m' hm'
      rcases hms m' (List.mem_cons_of_mem _ hm') with ⟨hlive, hal, hfresh, hcopied⟩
      have hne : m'.1 ≠ m.1 := fun heq => hpages.1 (heq ▸ List.mem_map_of_mem hm')
      have hoff : m'.2 ≠ m.2 := fun heq => hoffs.1 (heq ▸ List.mem_map_of_mem hm')
      refine ⟨hlive, hal, fun p hp heq => ?_, fun k hk => ?_⟩
      · by_cases hpm : p = m.1
        · subst hpm
          rw [St.remap_page, Function.update_self] at heq
          exact hoff (Prod.mk.inj heq).2.symm
        · rw [St.remap_page, Function.update_of_ne hpm] at heq
          exact hfresh p hp heq
      · rw [St.remap_page, Function.update_of_ne hne, St.remap_mem]
        exact hcopied k hk
    rcases ih h' hms' hpages.2 hoffs.2 with ⟨hend, hreadEnd⟩
    exact ⟨hend, hreadEnd.trans hread⟩

/-! ## Copying -/

/-- One copy, to a slot that is not mapped. -/
theorem AddressSpace.bytes_copySlot (h : AddressSpace live s) {dst : Tier} {off : Nat}
    {src : Tier} {soff : Nat} (hal : off % pageSize = 0) (hfresh : FreshSlot live s dst off)
    {x : Tier × Nat} (hx : MappedTo (device s) x) :
    (copySlot src soff dst off pageSize s).bytes x = s.bytes x := by
  unfold St.bytes
  simp only [copySlot_mem]
  rw [if_neg]
  rintro ⟨ht, hin⟩
  rw [inRange_iff] at hin
  rcases Nat.exists_eq_add_of_le hin.1 with ⟨k, hk⟩
  refine h.not_mappedTo hal (k := k) (by omega) hfresh ?_
  rwa [← hk, ← ht]

/-- The copies of a batch leave what is mapped as it is and fill the new slots with
the pages. -/
theorem AddressSpace.copyAll (h : AddressSpace live s) {src dst : Tier} {ms : List Move}
    (hpt : ∀ p, (s.page p).pt = .hugep) (hlive : ∀ m ∈ ms, live m.1)
    (hsrc : ∀ m ∈ ms, (s.page m.1).tier = src) (hal : ∀ m ∈ ms, m.2 % pageSize = 0)
    (hfresh : ∀ m ∈ ms, FreshSlot live s dst m.2) (hoffs : (ms.map Prod.snd).Nodup) :
    (∀ x, MappedTo (device s) x → (s.copyAll src dst ms).bytes x = s.bytes x) ∧
      (∀ m ∈ ms, ∀ k, k < pageSize →
        (s.copyAll src dst ms).mem dst (m.2 + k) = s.bytes ((s.page m.1).byteAt k)) ∧
      (∀ o, (∀ m ∈ ms, inRange m.2 pageSize o = false) →
        (s.copyAll src dst ms).mem dst o = s.mem dst o) := by
  -- one page at a time: the copy of the first is not undone by the others
  induction ms generalizing s with
  | nil => exact ⟨fun _ _ => rfl, by simp, fun _ _ => rfl⟩
  | cons m ms ih =>
    rw [List.map_cons, List.nodup_cons] at hoffs
    have hlen : ptToPagesize (s.page m.1).pt = pageSize := by
      rw [hpt]
      rfl
    rw [copyAll_cons, hlen]
    obtain ⟨ih1, ih2, ih3⟩ := ih (s := copySlot src (s.page m.1).devdaxOffset dst m.2 pageSize s)
      (h.congr (fun _ => rfl) (fun _ => rfl) (fun _ _ => rfl) fun _ => rfl) hpt
      (fun m' hm' => hlive m' (List.mem_cons_of_mem _ hm'))
      (fun m' hm' => hsrc m' (List.mem_cons_of_mem _ hm'))
      (fun m' hm' => hal m' (List.mem_cons_of_mem _ hm'))
      (fun m' hm' => hfresh m' (List.mem_cons_of_mem _ hm')) hoffs.2
    have hmal := hal m List.mem_cons_self
    have hmfresh := hfresh m List.mem_cons_self
    refine ⟨fun x hx => ?_, fun m' hm' k hk => ?_, fun o ho => ?_⟩
    · exact (ih1 x hx).trans (h.bytes_copySlot hmal hmfresh hx)
    · rcases List.mem_cons.mp hm' with rfl | hm'
      · -- the copies that follow do not touch the slot of this page
        rw [ih3]
        simp only [copySlot_mem]
        rw [if_pos ⟨trivial, inRange_add hk⟩, Nat.add_sub_cancel_left]
        · have ht := hsrc m' List.mem_cons_self
          simp [St.bytes, HememPage.byteAt, ht]
        · intro m'' hm''
          have hal'' := hal m'' (List.mem_cons_of_mem _ hm'')
          have hne : m''.2 ≠ m'.2 := fun heq => hoffs.1 (heq ▸ List.mem_map_of_mem hm'')
          rw [Bool.eq_false_iff, ne_eq, inRange_iff]
          simp only [pageSize_eq] at *
          omega
      · have hmem : MappedTo (device s) ((s.page m'.1).byteAt k) :=
          ⟨_, h.mapped (hlive m' (List.mem_cons_of_mem _ hm')) hk⟩
        exact (ih2 m' hm' k hk).trans (h.bytes_copySlot hmal hmfresh hmem)
    · rw [ih3 o fun m' hm' => ho m' (List.mem_cons_of_mem _ hm')]
      simp only [copySlot_mem]
      rw [if_neg]
      rintro ⟨-, hin⟩
      rw [ho m List.mem_cons_self] at hin
      cases hin

/-! ## Placing a page -/

/-- A page placed in a fresh slot at an address that no page has: it reads zero, and
everything else reads what it read. -/
theorem AddressSpace.place (h : AddressSpace live s) {t : Tier} {p va : Nat}
    (hpt : (s.page p).pt = .hugep) (htier : (s.page p).tier = t)
    (hfresh : FreshSlot live s t (s.page p).devdaxOffset) (hp : ¬ live p)
    (hal : va % pageSize = 0) (hva : ∀ q, live q → (s.page q).va ≠ va) :
    AddressSpace (fun q => q = p ∨ live q) (s.place t p va) ∧
      (s.place t p va).read = fun a =>
        if inRange va pageSize a then some 0 else s.read a := by
  have hlen : ptToPagesize (s.page p).pt = pageSize := by
    rw [hpt]
    rfl
  have hdev : ∀ a, device (s.place t p va) a =
      if inRange va pageSize a then some (t, (s.page p).devdaxOffset + (a - va))
      else device s a := by
    intro a
    unfold device
    simp only [St.place, hlen]
    split <;> rfl
  have hpage : ∀ {q}, live q → (s.place t p va).page q = s.page q := by
    intro q hq
    have hqp : q ≠ p := fun heq => hp (heq ▸ hq)
    simp [St.place, hqp]
  have hself : (s.place t p va).page p =
      { s.page p with va := va, migrating := false, migrationsUp := 0, migrationsDown := 0 } := by
    simp [St.place]
  have hoff := h.offAligned p
  -- no live page has an address in the new range
  have hout : ∀ {q a}, live q → inRange (s.page q).va pageSize a = true →
      inRange va pageSize a = false := by
    intro q a hq hin
    have h1 := h.aligned hq
    have h2 := hva q hq
    rw [Bool.eq_false_iff, ne_eq]
    simp only [inRange_iff, pageSize_eq] at *
    omega
  -- only the addresses of the new page get other locations
  have hrel : Relocates (device s) (device (s.place t p va))
      (fun a => inRange va pageSize a = true)
      (fun a => (t, (s.page p).devdaxOffset + (a - va))) := by
    constructor
    · intro a ha
      rw [hdev, if_pos ha]
    · intro a ha
      rw [hdev, if_neg ha]
    · intro a b ha hb heq
      have := (Prod.mk.inj heq).2
      rw [inRange_iff] at ha hb
      omega
    · intro a ha
      rw [inRange_iff] at ha
      exact h.not_mappedTo hoff (by omega) hfresh
  constructor
  · constructor
    case unaliased => exact hrel.unaliased h.unaliased
    case mapped =>
      rintro q k (rfl | hq) hk
      · rw [hself, hdev, if_pos (inRange_add hk)]
        simp only [HememPage.byteAt, HememPage.tier, Nat.add_sub_cancel_left] at htier ⊢
        rw [htier]
      · rw [hpage hq, hdev, hout hq (inRange_add hk), if_neg (by simp), h.mapped hq hk]
    case owner =>
      intro a x ha
      rw [hdev] at ha
      split at ha
      · rename_i hin
        exact ⟨p, Or.inl rfl, by rw [hself]; exact hin⟩
      · rcases h.owner ha with ⟨q, hq, hin⟩
        exact ⟨q, Or.inr hq, (hpage hq).symm ▸ hin⟩
    case aligned =>
      rintro q (rfl | hq)
      · rw [hself]
        exact hal
      · rw [hpage hq]
        exact h.aligned hq
    case va_inj =>
      rintro q r (rfl | hq) (rfl | hr) heq
      · rfl
      · rw [hself, hpage hr] at heq
        exact absurd heq.symm (hva r hr)
      · rw [hself, hpage hq] at heq
        exact absurd heq (hva q hq)
      · rw [hpage hq, hpage hr] at heq
        exact h.va_inj hq hr heq
    case offAligned =>
      intro q
      by_cases hq : q = p
      · subst hq
        rw [hself]
        exact hoff
      · simpa [St.place, hq] using h.offAligned q
  · rw [read_eq_load, read_eq_load]
    refine hrel.load_fill (fun x hx => ?_) fun a ha => ?_
    · unfold St.bytes
      simp only [St.place, hlen]
      rw [if_neg]
      rintro ⟨ht, hin⟩
      rw [inRange_iff] at hin
      rcases Nat.exists_eq_add_of_le hin.1 with ⟨k, hk⟩
      refine h.not_mappedTo hoff (k := k) (by omega) hfresh ?_
      rwa [← hk, ← ht]
    · rw [inRange_iff] at ha
      unfold St.bytes
      simp only [St.place, hlen]
      rw [if_pos]
      refine ⟨trivial, ?_⟩
      rw [inRange_iff]
      omega

/-! ## Pages -/

/-- The page at `va` is mapped to the slot. -/
def MapsTo (s : St) (va : Nat) (slot : Tier × Nat) : Prop :=
  ∀ k, k < pageSize → device s (va + k) = some (slot.1, slot.2 + k)

/-- No device is mapped in the range. -/
def NoDevice (s : St) (va len : Nat) : Prop :=
  ∀ a, inRange va len a = true → device s a = none

/-- The pages are disjoint. -/
def Apart (va vb : Nat) : Prop := va + pageSize ≤ vb ∨ vb + pageSize ≤ va

theorem Apart.symm {va vb : Nat} (h : Apart va vb) : Apart vb va := Or.symm h

theorem Apart.notMem {va vb a : Nat} (h : Apart va vb) (ha : inRange vb pageSize a = true) :
    ¬ inRange va pageSize a = true := by
  rw [inRange_iff] at *
  unfold Apart at h
  omega

/-- A page that is mapped is apart from one at which nothing is. -/
theorem MapsTo.apart {va vb : Nat} {slot : Tier × Nat} (h : MapsTo s vb slot)
    (hfree : NoDevice s va pageSize) : Apart va vb := by
  by_contra hapart
  unfold Apart at hapart
  -- the larger of the two addresses is in both pages
  have hin : inRange va pageSize (max va vb) = true := by
    rw [inRange_iff]
    omega
  obtain ⟨k, hk⟩ : ∃ k, max va vb = vb + k := ⟨max va vb - vb, by omega⟩
  have hmapped := h k (by omega)
  rw [← hk, hfree _ hin] at hmapped
  cases hmapped

end Hemem
