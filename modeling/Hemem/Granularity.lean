import Hemem.Lib.Granular
import Hemem.Invariant

/-!
# Hemem.Granularity — the address space changes by whole pages

Every range that is mapped or registered consists of whole pages of `PAGE_SIZE`,
because the devices are mapped in units of this size: a reservation is aligned and
rounded up, a page is aligned, and the kernel refuses to split one. So a page that is
unmapped at one address is unmapped, and not registered, at all of them.
-/

namespace Hemem

open Lib

variable {cfg : Config} {s s' : St}

structure Grained (s : St) : Prop where
  mapped : Granular pageSize fun a => (s.vm a).isSome
  registered : Granular pageSize s.registered
  /-- what is registered is mapped -/
  backed : ∀ a, s.registered a = true → (s.vm a).isSome = true

/-- Only mappings and registrations matter. -/
theorem Grained.congr (h : Grained s) (hvm : s'.vm = s.vm) (hreg : s'.registered = s.registered) :
    Grained s' := by
  constructor
  · rw [hvm]
    exact h.mapped
  · rw [hreg]
    exact h.registered
  · rw [hvm, hreg]
    exact h.backed

/-- At the start nothing is mapped. -/
theorem grained_pebsInit (cfg : Config) : Grained (pebsInit cfg) := by
  have hvm : (pebsInit cfg).vm = fun _ => none := by
    simp [pebsInit, initLoop_eq, St.empty]
  have hreg : (pebsInit cfg).registered = fun _ => false := by
    simp [pebsInit, initLoop_eq, St.empty]
  constructor
  · rw [hvm]
    exact fun _ _ _ => rfl
  · rw [hreg]
    exact fun _ _ _ => rfl
  · rw [hreg]
    intro a ha
    cases ha

theorem pageSize_pos : 0 < pageSize := by decide

theorem add_mod_pageSize {x y : Nat} (hx : x % pageSize = 0) (hy : y % pageSize = 0) :
    (x + y) % pageSize = 0 := by
  simp only [pageSize_eq] at *
  omega

/-- A range of whole pages is mapped afresh. -/
theorem Grained.setVm (h : Grained s) {va len : Nat} {f : Nat → Backing}
    (hva : va % pageSize = 0) (hlen : len % pageSize = 0)
    (hvm : ∀ a, s'.vm a = if inRange va len a then some (f a) else s.vm a)
    (hreg : ∀ a, s'.registered a = if inRange va len a then false else s.registered a) :
    Grained s' := by
  have hend := add_mod_pageSize hva hlen
  constructor
  · have hset := h.mapped.setPages pageSize_pos (c := true) hva hend
    refine fun a b hab => ?_
    have := hset a b hab
    simp only [hvm, inRange_iff] at this ⊢
    split <;> split <;> simp_all
  · have hset := h.registered.setPages pageSize_pos (c := false) hva hend
    refine fun a b hab => ?_
    have := hset a b hab
    simp only [hreg, inRange_iff] at this ⊢
    exact this
  · intro a ha
    rw [hreg] at ha
    rw [hvm]
    split at ha
    · cases ha
    · rename_i hout
      rw [if_neg hout]
      exact h.backed a ha

/-- Mapping a page treats its addresses alike. -/
theorem Grained.mmapFixed (h : Grained s) {va : Nat} (hva : va % pageSize = 0) (t : Tier)
    (off : Nat) : Grained (mmapFixed va pageSize t off s) :=
  h.setVm hva (Nat.mod_self _) (fun _ => rfl) fun _ => rfl

/-- So does a reservation of whole pages. -/
theorem Grained.mmapReserve (h : Grained s) {p len : Nat} (hp : p % pageSize = 0)
    (hlen : len % pageSize = 0) : Grained (mmapReserve p len s) :=
  h.setVm hp hlen (f := fun _ => .reserved) (fun _ => rfl) fun _ => rfl

/-- A mapped range of whole pages is registered. -/
theorem Grained.registerRange (h : Grained s) {va len : Nat} (hva : va % pageSize = 0)
    (hlen : len % pageSize = 0) (hvm : ∀ a, inRange va len a = true → (s.vm a).isSome = true) :
    Grained (registerRange va len s) := by
  refine ⟨h.mapped, ?_, fun a ha => ?_⟩
  · have hset := h.registered.setPages pageSize_pos (c := true) hva
      (add_mod_pageSize hva hlen)
    refine fun a b hab => ?_
    have := hset a b hab
    simp only [registerRange_registered, inRange_iff] at this ⊢
    exact this
  · simp only [registerRange_registered] at ha
    split at ha
    · rename_i hin
      exact hvm a hin
    · exact h.backed a ha

/-- The page of an address is mapped when the address is. -/
theorem Grained.mapped_page (h : Grained s) {va a : Nat} (hva : va % pageSize = 0)
    (ha : inRange va pageSize a = true) : (s.vm a).isSome = (s.vm va).isSome := by
  rw [inRange_iff] at ha
  exact h.mapped a va (div_eq_of_page hva ha.1 ha.2)

/-- The page of an address is registered when the address is. -/
theorem Grained.registered_page (h : Grained s) {va a : Nat} (hva : va % pageSize = 0)
    (ha : inRange va pageSize a = true) : s.registered a = s.registered va := by
  rw [inRange_iff] at ha
  exact h.registered a va (div_eq_of_page hva ha.1 ha.2)

/-- And the registration of a page. -/
theorem Grained.registerPage (h : Grained s) {va : Nat} (hva : va % pageSize = 0)
    (hvm : (s.vm va).isSome = true) : Grained (Hemem.registerRange va pageSize s) :=
  h.registerRange hva (Nat.mod_self _) fun _ ha => (h.mapped_page hva ha).trans hvm

/-- The kernel splits no page. -/
theorem Grained.libcMunmap (h : Grained s) (addr length : Nat) (accept : Bool) :
    Grained (libcMunmap addr length accept s).2 := by
  unfold Hemem.libcMunmap
  split
  swap
  · exact h
  rename_i hok
  simp only [Bool.and_eq_true, Bool.not_eq_true', splitsPage, Bool.or_eq_false_iff,
    Bool.and_eq_false_iff, bne_eq_false_iff_eq, Option.isSome_eq_false_iff,
    Option.isNone_iff_eq_none] at hok
  rcases hok with ⟨-, hstart, hstop⟩
  have hle : addr ≤ munmapStop addr length := Nat.le_add_right _ _
  have hin : ∀ a, inRange addr (munmapStop addr length - addr) a = true ↔
      addr ≤ a ∧ a < munmapStop addr length := by
    intro a
    rw [inRange_iff]
    omega
  -- An end inside a page is taken only where that page is not mapped.
  have hnone : ∀ x, x % pageSize = 0 ∨ s.vm (x - x % pageSize) = none →
      x % pageSize ≠ 0 → s.vm (x - x % pageSize) = none :=
    fun x hx hne => hx.resolve_left hne
  have hunmapped : ∀ x, s.vm x = none → (s.vm x).isSome = false := fun x hx => by rw [hx]; rfl
  have hunregistered : ∀ x, s.vm x = none → s.registered x = false := by
    intro x hx
    by_contra hreg
    have := h.backed x (by simpa using hreg)
    simp [hx] at this
  constructor
  · have hset := h.mapped.set pageSize_pos (c := false)
      (fun hne => hunmapped _ (hnone _ hstart hne)) (fun hne => hunmapped _ (hnone _ hstop hne))
    refine fun a b hab => ?_
    have := hset a b hab
    simp only [unmapRange_vm, hin] at this ⊢
    split <;> split <;> simp_all
  · have hset := h.registered.set pageSize_pos (c := false)
      (fun hne => hunregistered _ (hnone _ hstart hne))
      (fun hne => hunregistered _ (hnone _ hstop hne))
    refine fun a b hab => ?_
    have := hset a b hab
    simp only [unmapRange_registered, hin] at this ⊢
    exact this
  · intro a ha
    simp only [unmapRange_registered, unmapRange_vm] at ha ⊢
    split at ha
    · cases ha
    · rename_i hout
      rw [if_neg hout]
      exact h.backed a ha

/-! ## Complete operations -/

/-- The kernel places a reservation of a device at a multiple of `PAGE_SIZE`. -/
def AlignedMmap : Op → Prop
  | .mmap p _ _ => p % pageSize = 0
  | _ => True

instance : DecidablePred AlignedMmap := fun op =>
  match op with
  | .mmap p _ _ => inferInstanceAs (Decidable (p % pageSize = 0))
  | .missingFault _ | .request .. | .migrate .. | .munmap .. | .write .. => isTrue trivial

/-- And its placement. -/
theorem Grained.place (h : Grained s) {t : Tier} {p va : Nat} (hva : va % pageSize = 0)
    (hpt : (s.page p).pt = .hugep) : Grained (s.place t p va) := by
  have hmap := h.mmapFixed hva t (s.page p).devdaxOffset
  have hreg := hmap.registerPage hva (by simp)
  refine hreg.congr ?_ ?_ <;> funext a <;>
    simp only [St.place, hpt, ptToPagesize, registerRange_vm, registerRange_registered,
      mmapFixed_vm, mmapFixed_registered, pageSize]
  split <;> simp_all

/-- And the remaps of a batch. -/
theorem Grained.remapAll {dst : Tier} {f : HememPage → HememPage} {ms : List Move}
    (hf : ∀ g, (f g).va = g.va) (h : Grained s)
    (hms : ∀ m ∈ ms, (s.page m.1).va % pageSize = 0) : Grained (s.remapAll dst f ms) := by
  induction ms generalizing s with
  | nil => exact h
  | cons m ms ih =>
    have hva := hms m List.mem_cons_self
    have hmap := h.mmapFixed hva dst m.2
    have hreg := hmap.registerPage hva (by simp)
    rw [remapAll_cons]
    refine ih (hreg.congr rfl rfl) fun m' hm' => ?_
    have hkeep : ((s.remap dst f m).page m'.1).va = (s.page m'.1).va := by
      by_cases heq : m'.1 = m.1
      · simp [St.remap, heq, hf]
      · simp [St.remap, heq]
    rw [hkeep]
    exact hms m' (List.mem_cons_of_mem _ hm')

/-- A batch of pages at multiples of their size. -/
theorem Grained.batched (h : Grained s) {d : Dir} {n : Nat}
    (hva : ∀ p ∈ s.list (.queue d), (s.page p).va % pageSize = 0) : Grained (s.batched d n) := by
  obtain ⟨ms, hms⟩ : ∃ ms, ms = (batchPairs d n s).map (moveOf s) := ⟨_, rfl⟩
  -- flags, protection and copies leave the mappings alone
  obtain ⟨y, hy⟩ : ∃ y, y = ((setMigrating true (ms.map Prod.fst) (s.dequeued d n)).protect
      (ms.map Prod.fst)).copyAll d.src d.dst ms := ⟨_, rfl⟩
  have hg : Grained y := by
    rw [hy, copyAll_eq, setMigrating_eq]
    exact h.congr rfl rfl
  have hpage : ∀ p, (y.page p).va = (s.page p).va := by
    intro p
    rw [hy, copyAll_page, St.protect_page, setMigrating_eq]
    simp only [dequeued_page]
    split <;> rfl
  have hmoved : Grained (y.remapAll d.dst (bump d) ms) := by
    refine hg.remapAll (fun g => (bump_va_pt d g).1) fun m hm => ?_
    rw [hms] at hm
    rcases List.mem_map.mp hm with ⟨b, hb, rfl⟩
    rw [hpage]
    exact hva b.1 (mem_queue_of_pair hb)
  refine hmoved.congr ?_ ?_ <;>
    · simp only [St.batched, St.migrated]
      rw [setMigrating_eq, hy, hms]
      cases d <;> rfl

/-- Every operation treats the addresses of a page alike. -/
theorem Wf.grained_exec (h : Wf cfg s) (hg : Grained s) {op : Op} (hop : AlignedMmap op)
    (hr : exec cfg op s = .ok s') : Grained s' := by
  have hplace : ∀ {s : St} {t p rest va}, Wf cfg s → Grained s → AllocFrom s t p rest →
      Placeable cfg s t p va → Grained ((s.alloc t p rest).place t p va) := by
    intro s t p rest va h hg _ hfit
    have halloc : Grained (s.alloc t p rest) := hg.congr rfl rfl
    apply halloc.place hfit.aligned
    simp [St.alloc, h.pt p]
  cases op with
  | mmap p length populate =>
    rcases hememMmap_ok hr with ⟨s₀, rfl, hcase⟩
    have hlen : pageRoundUp length % pageSize = 0 := Nat.mul_mod_left _ _
    have hg₀ : Grained (registerRange p (pageRoundUp length)
        (mmapReserve p (pageRoundUp length) s)) := by
      refine (hg.mmapReserve hop hlen).registerRange hop hlen fun a ha => ?_
      simp [ha]
    have h₀ : Wf cfg (registerRange p (pageRoundUp length)
        (mmapReserve p (pageRoundUp length) s)) := h.congr rfl rfl fun _ => rfl
    rcases hcase with ⟨-, rfl⟩ | ⟨-, hloop⟩
    · exact hg₀
    · refine (populateLoop_preserves (P := fun s => Wf cfg s ∧ Grained s) ?_ ⟨h₀, hg₀⟩ hloop).2
      intro s t p rest va hs hfrom hfit
      exact ⟨(hs.1.place hfrom hfit).countAlloc t,
        (hplace hs.1 hs.2 hfrom hfit).congr rfl rfl⟩
  | missingFault va =>
    rcases handleMissingFault_ok hr with ⟨t, p, rest, hfrom, hfit, rfl⟩
    exact hplace h hg hfrom hfit
  | request d n random rand =>
    simp only [exec, bind_eq_ok, Prod.exists, Except.ok.injEq] at hr
    rcases hr with ⟨k, s₁, hr, rfl⟩
    exact requestLoop_preserves (fun _ _ h => h.congr rfl rfl) (fun _ _ _ h _ => h.congr rfl rfl)
      hg hr
  | migrate numBatchs d =>
    simp only [exec, migrationRequest] at hr
    split at hr
    · simp only [Except.ok.injEq] at hr
      exact hr ▸ hg
    · rcases h.migrateBatch_ok.mp hr with ⟨-, rfl⟩
      exact hg.batched fun p hp => h.aligned hp rfl
  | munmap fuel addr length accept =>
    simp only [exec, hememMunmap, bind_eq_ok, Prod.exists, Except.ok.injEq] at hr
    rcases hr with ⟨ret, s₁, ⟨s₂, hscan, hunmap⟩, rfl⟩
    -- the scan changes no mapping
    have hg₂ : Grained s₂ := by
      refine munmapScan_preserves (fun s _ p hs _ => ?_) hg hscan
      refine hs.congr ?_ ?_ <;>
        · unfold untrackPage countMunmap
          split <;> rfl
    have hg₃ := hg₂.libcMunmap addr length accept
    rw [hunmap] at hg₃
    exact hg₃
  | write a v =>
    simp only [exec, appWrite] at hr
    split at hr
    · simp only [bind_eq_ok, check_eq_ok, Except.ok.injEq] at hr
      rcases hr with ⟨-, -, rfl⟩
      exact hg.congr rfl rfl
    · cases hr

/-- Every run whose reservations are aligned. -/
theorem grained_of_runs {ops : List Op} (hops : ∀ op ∈ ops, AlignedMmap op)
    (hr : runs (exec cfg) ops (pebsInit cfg) = .ok s) : Wf cfg s ∧ Grained s := by
  have hinv : ∀ (ops : List Op) (s₀ : St), Wf cfg s₀ ∧ Grained s₀ →
      (∀ op ∈ ops, AlignedMmap op) → runs (exec cfg) ops s₀ = .ok s → Wf cfg s ∧ Grained s := by
    intro ops
    induction ops with
    | nil =>
      intro s₀ h _ hr
      exact Except.ok.inj hr ▸ h
    | cons op ops ih =>
      intro s₀ h hops hr
      simp only [runs] at hr
      split at hr
      · rename_i s₁ hs₁
        exact ih s₁ ⟨wf_exec h.1 hs₁, h.1.grained_exec h.2 (hops op List.mem_cons_self) hs₁⟩
          (fun op hop => hops op (List.mem_cons_of_mem _ hop)) hr
      · cases hr
  exact hinv ops _ ⟨wf_pebsInit cfg, grained_pebsInit cfg⟩ hops hr

end Hemem
