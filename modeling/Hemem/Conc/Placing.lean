import Hemem.Conc.Allocation
import Hemem.Conc.Registers

/-!
# Hemem.Conc.Placing — how far an allocation has come

What each statement after `pagefault()` does, what holds of the local variables and the
descriptor when a given rest of them is left, and what all other steps leave alone: the
`va` and the slot of a page are assigned to by its allocator, in `place`, and by the
migration thread, and the address space changes with a reservation, the `MAP_FIXED` of
an allocator and that of the migration thread.
-/

namespace Hemem

open Lib

variable {cfg : Config} {s s' : St}

/-! ## The statements after `pagefault()` -/

/-- What a statement after `pagefault()` does. -/
structure AllocStep (p : PageId) (r : AllocRegs) (i : AllocInstr) (s : St) (r' : AllocRegs)
    (s' : St) : Prop where
  va : r'.va = r.va
  offset : r'.offset = if i = .readOffset then (s.page p).devdaxOffset else r.offset
  inDram : r'.inDram = if i = .readInDram then (s.page p).inDram else r.inDram
  len : r'.len = if i = .readLen then ptToPagesize (s.page p).pt else r.len
  other : ∀ q, q ≠ p → s'.page q = s.page q
  keepInDram : (s'.page p).inDram = (s.page p).inDram
  keepOffset : (s'.page p).devdaxOffset = (s.page p).devdaxOffset
  size : (s'.page p).pt = (s.page p).pt
  present : (s'.page p).present = (s.page p).present
  pageVa : (s'.page p).va = if i = .setVa then r.va else (s.page p).va
  vm : s'.vm = if i = .map then (mmapFixed r.va r.len (.ofInDram r.inDram) r.offset s).vm else s.vm
  table : s'.pages = if i = .addPage then Function.update s.pages (s.page p).va (some p) else s.pages
  untabled : i = .addPage → s.pages (s.page p).va = none
  va_ne : i = .assertVa → (s.page p).va ≠ 0
  aligned : i = .assertAligned → (s.page p).va % pageSize = 0

theorem AllocInstr.run_ok {i : AllocInstr} {p : PageId} {r r' : AllocRegs}
    (h : i.run cfg p r s = .ok (r', s')) : AllocStep p r i s r' s' := by
  cases i <;>
    simp only [AllocInstr.run, clearSlot, uffdioRegister, Hemem.addPage, findPage, bind_eq_ok,
      check_eq_ok, Except.ok.injEq, Prod.mk.injEq] at h
  case readOffset | readInDram | readLen | map =>
    rcases h with ⟨rfl, rfl⟩
    constructor <;> simp
  case count =>
    rcases h with ⟨rfl, rfl⟩
    cases hd : r.inDram <;> constructor <;> simp [countPopulate, hd]
  case clear | register =>
    rcases h with ⟨_, ⟨_, -, rfl⟩, rfl, rfl⟩
    constructor <;> simp
  case addPage =>
    rcases h with ⟨_, ⟨_, hnone, rfl⟩, rfl, rfl⟩
    constructor <;> simp_all
  case assertVa | assertAligned =>
    rcases h with ⟨_, hcheck, rfl, rfl⟩
    constructor <;> simp_all
  case setVa | setMigrating | setMigrationsDown | setMigrationsUp =>
    rcases h with ⟨rfl, rfl⟩
    constructor <;> simp +contextual

/-- What holds of the page `p` and the local variables when `code` is left. -/
structure Stage (s : St) (k : Site) (p : PageId) (r : AllocRegs) (code : List AllocInstr) :
    Prop where
  suffix : code <:+ k.code
  offset : .readOffset ∉ code → r.offset = (s.page p).devdaxOffset
  inDram : .readInDram ∉ code → r.inDram = (s.page p).inDram
  len : .readLen ∉ code → r.len = pageSize
  va : .setVa ∉ code → (s.page p).va = r.va
  va_ne : .assertVa ∉ code → r.va ≠ 0
  aligned : .assertAligned ∉ code → r.va % pageSize = 0

theorem Stage.begin (s : St) (k : Site) (p : PageId) (r : AllocRegs) : Stage s k p r k.code := by
  cases k <;> constructor <;> simp [Site.code]

/-- The statements before `MAP_FIXED`. -/
theorem Site.map_passed {k : Site} {i : AllocInstr} {code : List AllocInstr}
    (h : i :: code <:+ k.code) (hmap : .map ∉ code) :
    i ≠ .readOffset ∧ i ≠ .readInDram ∧ i ≠ .readLen ∧
      .readOffset ∉ code ∧ .readInDram ∉ code ∧ .readLen ∉ code := by
  cases k <;> cases i <;> simp [Site.code, List.suffix_cons_iff] at h <;> simp_all

theorem Site.map_mem (k : Site) : .map ∈ k.code := by
  cases k <;> simp [Site.code]

/-- No statement is there twice. -/
theorem Site.notMem_of_suffix {k : Site} {i : AllocInstr} {code : List AllocInstr}
    (h : i :: code <:+ k.code) : i ∉ code := by
  have hnodup : k.code.Nodup := by cases k <;> simp [Site.code]
  exact (List.nodup_cons.mp (hnodup.sublist h.sublist)).1

/-- The last statement enters the page in the table. -/
theorem Site.last {k : Site} {i : AllocInstr} (h : [i] <:+ k.code) : i = .addPage := by
  cases k <;> simpa [Site.code, List.suffix_cons_iff] using h

/-- The assertions come after the assignment to `va`. -/
theorem Site.setVa_passed {k : Site} {i : AllocInstr} {code : List AllocInstr}
    (h : i :: code <:+ k.code) (hi : i = .assertVa ∨ i = .assertAligned ∨ i = .addPage) :
    .setVa ∉ i :: code := by
  rcases hi with rfl | rfl | rfl <;> cases k <;>
    simp [Site.code, List.suffix_cons_iff] at h <;> simp [h]

theorem Stage.step {k : Site} {p : PageId} {r r' : AllocRegs} {i : AllocInstr}
    {code : List AllocInstr} (h : Stage s k p r (i :: code)) (hpt : (s.page p).pt = .hugep)
    (hs : AllocStep p r i s r' s') : Stage s' k p r' code := by
  have hrest : ∀ j, i ≠ j → j ∉ code → j ∉ i :: code := by
    intro j hij hj
    simp [Ne.symm hij, hj]
  refine ⟨(List.suffix_cons i code).trans h.suffix, fun hn => ?offset, fun hn => ?inDram,
    fun hn => ?len, fun hn => ?va, fun hn => ?va_ne, fun hn => ?aligned⟩
  case offset =>
    -- The statement that reads the register, or one that leaves both sides alone.
    rw [hs.offset, hs.keepOffset]
    split
    · rfl
    · rename_i hi
      exact h.offset (hrest _ hi hn)
  case inDram =>
    rw [hs.inDram, hs.keepInDram]
    split
    · rfl
    · rename_i hi
      exact h.inDram (hrest _ hi hn)
  case len =>
    rw [hs.len]
    split
    · rw [hpt]
      rfl
    · rename_i hi
      exact h.len (hrest _ hi hn)
  case va =>
    rw [hs.pageVa, hs.va]
    split
    · rfl
    · rename_i hi
      exact h.va (hrest _ hi hn)
  case va_ne =>
    rw [hs.va]
    by_cases hi : i = .assertVa
    · rw [← h.va (Site.setVa_passed h.suffix (Or.inl hi))]
      exact hs.va_ne hi
    · exact h.va_ne (hrest _ hi hn)
  case aligned =>
    rw [hs.va]
    by_cases hi : i = .assertAligned
    · rw [← h.va (Site.setVa_passed h.suffix (Or.inr (Or.inl hi)))]
      exact hs.aligned hi
    · exact h.aligned (hrest _ hi hn)

/-- The slot of the page, once the local variables have been read. -/
theorem Stage.slot {k : Site} {p : PageId} {r : AllocRegs} {code : List AllocInstr}
    (h : Stage s k p r code) (ho : .readOffset ∉ code) (hd : .readInDram ∉ code) :
    (s.page p).slot = (.ofInDram r.inDram, r.offset) := by
  rw [HememPage.slot, HememPage.tier, h.offset ho, h.inDram hd]

/-- Only the fields that are read matter. -/
theorem Stage.congr {k : Site} {p : PageId} {r : AllocRegs} {code : List AllocInstr}
    (h : Stage s k p r code) (hva : (s'.page p).va = (s.page p).va)
    (hslot : (s'.page p).slot = (s.page p).slot) : Stage s' k p r code := by
  rcases HememPage.slot_inj hslot with ⟨hinDram, hoffset⟩
  exact ⟨h.suffix, fun hn => hoffset ▸ h.offset hn, fun hn => hinDram ▸ h.inDram hn, h.len,
    fun hn => hva ▸ h.va hn, h.va_ne, h.aligned⟩

/-! ## What other steps leave alone -/

/-- The thread is in `hemem_munmap`. -/
def Pc.unmaps : Pc → Bool
  | .scan .. | .remove .. | .countRemoved .. | .advance .. | .unmap .. => true
  | _ => false

/-- A step that leaves the table, and the `va` and the slot of every page. -/
structure Quiet (pc : Pc) (s : St) (pc' : Pc) (s' : St) : Prop where
  pages : s'.pages = s.pages
  va : ∀ q, (s'.page q).va = (s.page q).va
  slot : ∀ q, (s'.page q).slot = (s.page q).slot
  pt : ∀ q, (s'.page q).pt = (s.page q).pt
  present : ∀ q, (s'.page q).present = true → (s.page q).present = true ∨ pc'.allocating = some q
  allocating : ∀ q, pc.allocating = some q → pc'.allocating = some q
  begins : ∀ {k p r code}, pc' = .place k p r code → code = k.code

theorem Quiet.same {pc pc' : Pc} (hpages : s'.pages = s.pages) (hpage : s'.page = s.page)
    (hpc : pc.allocating = none)
    (hpc' : ∀ k p r code, pc' ≠ .place k p r code) : Quiet pc s pc' s' where
  pages := hpages
  va q := by rw [hpage]
  slot q := by rw [hpage]
  pt q := by rw [hpage]
  present q hq := Or.inl (by rwa [hpage] at hq)
  allocating q hq := by simp [hpc] at hq
  begins heq := absurd heq (hpc' _ _ _ _)

/-- The steps of a thread outside `hemem_munmap`. -/
theorem ThreadStep.frame {pc pc' : Pc} {ev : List Event} (h : ThreadStep cfg pc s pc' s' ev)
    (hpc : pc.unmaps = false) :
    pc'.unmaps = false ∧
      ((Quiet pc s pc' s' ∧
        (s'.vm = s.vm ∨
          ∃ p length populate, pc = .reserve p length populate ∧
            s' = mmapReserve p (pageRoundUp length) s)) ∨
        ∃ k p r r' i code, pc = .place k p r (i :: code) ∧ pc' = .place k p r' code ∧
          AllocStep p r i s r' s') := by
  cases h
  case reserve =>
    exact ⟨rfl, Or.inl ⟨.same rfl rfl rfl (by simp), Or.inr ⟨_, _, _, rfl, rfl⟩⟩⟩
  case place hrun =>
    exact ⟨rfl, Or.inr ⟨_, _, _, _, _, _, rfl, rfl, AllocInstr.run_ok hrun⟩⟩
  case setPresent k va t p =>
    refine ⟨rfl, Or.inl ⟨⟨rfl, fun q => ?_, fun q => ?_, fun q => ?_, fun q hq => ?_,
      fun q hq => by simp [Pc.allocating] at hq, fun heq => nomatch heq⟩, Or.inl rfl⟩⟩
    all_goals by_cases hqp : q = p
    any_goals simp [hqp, HememPage.slot, HememPage.tier]
    · exact Or.inr (by simp [Pc.allocating])
    · exact Or.inl (by simpa [hqp] using hq)
  case publish k va t p =>
    refine ⟨rfl, Or.inl ⟨⟨rfl, fun q => rfl, fun q => rfl, fun q => rfl, fun q hq => Or.inl hq,
      fun q hq => ?_, ?_⟩, Or.inl rfl⟩⟩
    · cases k <;> exact hq
    · rintro k' p' r code ⟨rfl⟩
      rfl
  case placed k p r =>
    cases k
    · exact ⟨rfl, Or.inl ⟨.same rfl rfl rfl (by simp [Site.after]), Or.inl rfl⟩⟩
    · exact ⟨rfl, Or.inl ⟨.same rfl rfl rfl (by simp [Site.after]), Or.inl rfl⟩⟩
  case scanHit | scanMiss | scanDone | remove | countRemoved | advance | unmap | unmapFailed =>
    cases hpc
  all_goals
    exact ⟨by simp only [Pc.unmaps], Or.inl ⟨.same rfl rfl rfl (by simp), Or.inl rfl⟩⟩

end Hemem
