import Hemem.Populate

/-!
# Hemem.FaultLoop — the page-fault messages that `handle_fault` reads

One call of `read` returns up to `MAX_UFFD_MSGS` messages, and `handle_fault` treats them one by
one: it rounds the address down to its page, calls `handle_wp_fault` or `handle_missing_fault`,
and wakes the page. `handle_missing_fault` does not look whether the page is there. It takes a
descriptor, clears its slot and maps it before `add_page` asserts that the page is new, so a
second missing fault on a page, as two threads that touch it at the same time make it, stops
the process.
-/

namespace Hemem

open Lib

variable {cfg : Config} {s s' : St}

/-! ## The loop -/

/-- A page-fault message: the address, and the flag `UFFD_PAGEFAULT_FLAG_WP`. -/
structure FaultMsg where
  address : Nat
  wp : Bool
deriving DecidableEq, Repr

/-- `fault_addr & ~(PAGE_SIZE - 1)`. -/
def FaultMsg.pageBoundry (m : FaultMsg) : Nat := m.address / pageSize * pageSize

/-- `handle_wp_fault`; it spins as long as the page is being migrated. -/
def handleWpFault (pageBoundry : Nat) (s : St) : Except Fault St :=
  match findPage pageBoundry s with
  | none => .error .pageAssert
  | some p => if (s.page p).migrating then .error .running else .ok s

/-- The handler that the flag of a message selects. -/
def faultHandler (cfg : Config) (m : FaultMsg) (s : St) : Except Fault St :=
  if m.wp then handleWpFault m.pageBoundry s else handleMissingFault cfg m.pageBoundry s

/-- One iteration over a message; the result carries the page that is woken. -/
def handleMsg (cfg : Config) (m : FaultMsg) (s : St) : Except Fault (Nat × St) := do
  let s ← faultHandler cfg m s
  .ok (m.pageBoundry, s)

/-- The loop over the messages of one `read`. -/
def handleMsgs (cfg : Config) : List FaultMsg → St → Except Fault (List Nat × St)
  | [], s => .ok ([], s)
  | m :: ms, s => do
    let (woken, s) ← handleMsg cfg m s
    let (rest, s) ← handleMsgs cfg ms s
    .ok (woken :: rest, s)

/-- `handle_fault`, on what its calls of `read` return. -/
def handleFault (cfg : Config) : List (List FaultMsg) → St → Except Fault (List Nat × St)
  | [], s => .ok ([], s)
  | msgs :: reads, s => do
    let (woken, s) ← handleMsgs cfg msgs s
    let (rest, s) ← handleFault cfg reads s
    .ok (woken ++ rest, s)

/-- The messages of two reads are handled one after another. -/
theorem handleMsgs_append (ms ms' : List FaultMsg) (s : St) :
    handleMsgs cfg (ms ++ ms') s = (do
      let (woken, s) ← handleMsgs cfg ms s
      let (rest, s) ← handleMsgs cfg ms' s
      .ok (woken ++ rest, s)) := by
  induction ms generalizing s with
  | nil =>
    simp only [handleMsgs, bind, Except.bind, List.nil_append]
    cases handleMsgs cfg ms' s <;> rfl
  | cons m ms ih =>
    rw [List.cons_append, handleMsgs, handleMsgs]
    cases handleMsg cfg m s with
    | error e => rfl
    | ok r =>
      simp only [bind, Except.bind] at ih ⊢
      rw [ih]
      cases handleMsgs cfg ms r.2 with
      | error e => rfl
      | ok r' =>
        dsimp only
        cases handleMsgs cfg ms' r'.2 <;> rfl

/-- How the messages are split over the calls of `read` makes no difference. -/
theorem handleFault_flatten (reads : List (List FaultMsg)) (s : St) :
    handleFault cfg reads s = handleMsgs cfg reads.flatten s := by
  induction reads generalizing s with
  | nil => rfl
  | cons msgs reads ih =>
    rw [List.flatten_cons, handleMsgs_append, handleFault]
    simp only [ih]

/-! ## What is harmless -/

/-- The messages have been handled without harm: the first one for a page has given it a
descriptor with its slot, cleared, and one for a page that has been there changes nothing. -/
inductive Handled : List FaultMsg → St → St → Prop where
  | done (s : St) : Handled [] s s
  | again {m : FaultMsg} {ms : List FaultMsg} {s s' : St} {p : PageId}
      (htracked : s.pages m.pageBoundry = some p) (hrest : Handled ms s s') :
      Handled (m :: ms) s s'
  | first {m : FaultMsg} {ms : List FaultMsg} {s s' : St} {t : Tier} {q : PageId}
      {rest : List PageId} (hmissing : m.wp = false) (hnew : s.pages m.pageBoundry = none)
      (hfrom : AllocFrom s t q rest)
      (hrest : Handled ms ((s.alloc t q rest).place t q m.pageBoundry) s') :
      Handled (m :: ms) s s'

/-- Every message is handled without harm, and the page of each one is woken. -/
def Harmless (cfg : Config) (reads : List (List FaultMsg)) (s : St) : Prop :=
  ∃ s', handleFault cfg reads s = .ok (reads.flatten.map FaultMsg.pageBoundry, s') ∧
    Handled reads.flatten s s'

/-- The pages of the missing faults, in order. -/
def missingPages (ms : List FaultMsg) : List Nat :=
  (ms.filter fun m => !m.wp).map FaultMsg.pageBoundry

/-- No page is missed twice, nor missed while it is in the table; there are free descriptors
for the missed pages, with slots within their devices; and a write-protection fault is for a
page that is there and not being migrated. -/
structure Servable (cfg : Config) (s : St) (ms : List FaultMsg) : Prop where
  distinct : (missingPages ms).Nodup
  untracked : ∀ va ∈ missingPages ms, s.pages va = none
  va_ne : ∀ va ∈ missingPages ms, va ≠ 0
  enough : (missingPages ms).length ≤ (freeOrder s).length
  fits : ∀ q ∈ (freeOrder s).take (missingPages ms).length, Fits cfg (s.page q)
  guarded : ∀ pre m post, ms = pre ++ m :: post → m.wp = true →
    (∃ p, s.pages m.pageBoundry = some p ∧ (s.page p).migrating = false) ∨
      m.pageBoundry ∈ missingPages pre

/-! ## One message -/

/-- A write-protection fault changes nothing. -/
theorem handleWpFault_ok {va : Nat} : handleWpFault va s = .ok s' ↔
    ∃ p, s.pages va = some p ∧ (s.page p).migrating = false ∧ s' = s := by
  unfold handleWpFault findPage
  cases s.pages va with
  | none => simp
  | some p =>
    simp only [Option.some.injEq, exists_eq_left']
    cases (s.page p).migrating <;> simp [eq_comm]

/-- A missing fault succeeds exactly when a descriptor is free and the page can be placed. -/
theorem handleMissingFault_ok_iff {va : Nat} : handleMissingFault cfg va s = .ok s' ↔
    ∃ t q rest, AllocFrom s t q rest ∧ Placeable cfg s t q va ∧
      s' = (s.alloc t q rest).place t q va := by
  constructor
  · exact handleMissingFault_ok
  · rintro ⟨t, q, rest, hfrom, hfit, rfl⟩
    exact hfrom.handleMissingFault_eq hfit

/-- What a message does when its handler returns. -/
inductive Serves (cfg : Config) (m : FaultMsg) (s : St) : St → Prop where
  | wp {p : PageId} (hwp : m.wp = true) (hp : s.pages m.pageBoundry = some p)
      (hidle : (s.page p).migrating = false) : Serves cfg m s s
  | missing {t : Tier} {q : PageId} {rest : List PageId} (hwp : m.wp = false)
      (hfrom : AllocFrom s t q rest) (hfit : Placeable cfg s t q m.pageBoundry) :
      Serves cfg m s ((s.alloc t q rest).place t q m.pageBoundry)

/-- What the handling of a message does. -/
theorem faultHandler_ok {m : FaultMsg} :
    faultHandler cfg m s = .ok s' ↔ Serves cfg m s s' := by
  unfold faultHandler
  -- the flag of the message chooses the handler, and each outcome has its handler
  cases hwp : m.wp with
  | true =>
    rw [if_pos rfl, handleWpFault_ok]
    constructor
    · rintro ⟨p, hp, hidle, rfl⟩
      exact .wp hwp hp hidle
    · intro h
      cases h with
      | wp _ hp hidle => exact ⟨_, hp, hidle, rfl⟩
      | missing hmissing =>
        rw [hwp] at hmissing
        cases hmissing
  | false =>
    rw [if_neg Bool.false_ne_true, handleMissingFault_ok_iff]
    constructor
    · rintro ⟨t, q, rest, hfrom, hfit, rfl⟩
      exact .missing hwp hfrom hfit
    · intro h
      cases h with
      | wp hwp' =>
        rw [hwp] at hwp'
        cases hwp'
      | missing _ hfrom hfit => exact ⟨_, _, _, hfrom, hfit, rfl⟩

/-- The first message, then the others; the pages are woken in this order. -/
theorem handleMsgs_cons_ok {m : FaultMsg} {ms : List FaultMsg} {woken : List Nat} :
    handleMsgs cfg (m :: ms) s = .ok (woken, s') ↔
      ∃ s₁ rest, Serves cfg m s s₁ ∧ handleMsgs cfg ms s₁ = .ok (rest, s') ∧
        woken = m.pageBoundry :: rest := by
  simp only [handleMsgs, handleMsg, bind_eq_ok, Prod.exists, faultHandler_ok, Except.ok.injEq,
    Prod.mk.injEq]
  constructor
  · rintro ⟨_, s₁, ⟨_, hs, rfl, rfl⟩, rest, _, hrest, rfl, rfl⟩
    exact ⟨_, rest, hs, hrest, rfl⟩
  · rintro ⟨s₁, rest, hs, hrest, rfl⟩
    exact ⟨_, s₁, ⟨s₁, hs, rfl, rfl⟩, rest, _, hrest, rfl, rfl⟩

/-- A handler that gets through has woken every page and done no harm. -/
theorem handleMsgs_handled {ms : List FaultMsg} {woken : List Nat}
    (h : handleMsgs cfg ms s = .ok (woken, s')) :
    woken = ms.map FaultMsg.pageBoundry ∧ Handled ms s s' := by
  induction ms generalizing s woken with
  | nil =>
    cases h
    exact ⟨rfl, .done _⟩
  | cons m ms ih =>
    rcases handleMsgs_cons_ok.mp h with ⟨s₁, rest, hs, hrest, rfl⟩
    rcases ih hrest with ⟨rfl, hhandled⟩
    refine ⟨rfl, ?_⟩
    cases hs with
    | wp _ hp => exact .again hp hhandled
    | missing hwp hfrom hfit => exact .first hwp hfit.fresh hfrom hhandled

/-! ## Which messages are served -/

variable {m : FaultMsg} {ms : List FaultMsg}

theorem missingPages_wp (hwp : m.wp = true) (ms : List FaultMsg) :
    missingPages (m :: ms) = missingPages ms := by
  simp [missingPages, hwp]

theorem missingPages_missing (hwp : m.wp = false) (ms : List FaultMsg) :
    missingPages (m :: ms) = m.pageBoundry :: missingPages ms := by
  simp [missingPages, hwp]

/-- The handler rounds the address down to its page. -/
theorem pageBoundry_aligned (m : FaultMsg) : m.pageBoundry % pageSize = 0 :=
  Nat.mul_mod_left _ _

/-- A write-protection fault is on a page of the table that does not migrate. -/
theorem Servable.wp_head (h : Servable cfg s (m :: ms)) (hwp : m.wp = true) :
    ∃ p, s.pages m.pageBoundry = some p ∧ (s.page p).migrating = false := by
  rcases h.guarded [] m ms rfl hwp with hp | hmem
  · exact hp
  · cases hmem

/-- Handling it leaves what is to be said of the others. -/
theorem servable_wp (hwp : m.wp = true)
    (hp : ∃ p, s.pages m.pageBoundry = some p ∧ (s.page p).migrating = false) :
    Servable cfg s (m :: ms) ↔ Servable cfg s ms := by
  have hpages := missingPages_wp hwp ms
  constructor
  · rintro ⟨h1, h2, h3, h4, h5, h6⟩
    rw [hpages] at h1 h2 h3 h4 h5
    refine ⟨h1, h2, h3, h4, h5, fun pre m' post heq hwp' => ?_⟩
    have hguard := h6 (m :: pre) m' post (by rw [heq, List.cons_append]) hwp'
    rwa [missingPages_wp hwp] at hguard
  · rintro ⟨h1, h2, h3, h4, h5, h6⟩
    rw [← hpages] at h1 h2 h3 h4 h5
    refine ⟨h1, h2, h3, h4, h5, fun pre m' post heq hwp' => ?_⟩
    cases pre with
    | nil =>
      obtain rfl := (List.cons.inj heq).1
      exact Or.inl hp
    | cons m₁ pre =>
      rcases List.cons.inj heq with ⟨rfl, hms⟩
      rw [missingPages_wp hwp]
      exact h6 pre m' post hms hwp'

section Missing

variable {t : Tier} {q : PageId} {rest : List PageId}

theorem placed_page (va : Nat) : ((s.alloc t q rest).place t q va).page =
    Function.update s.page q (placedAt va (s.page q)) := populate_page

theorem placed_pages (va : Nat) : ((s.alloc t q rest).place t q va).pages =
    Function.update s.pages va (some q) := populate_pages

theorem placed_slot (va : Nat) (p : PageId) :
    (((s.alloc t q rest).place t q va).page p).slot = (s.page p).slot := populate_slot p

variable (hfrom : AllocFrom s t q rest)
include hfrom

/-- The page of a missing fault can be placed. -/
theorem Servable.placeable (h : Servable cfg s (m :: ms)) (hw : Wf cfg s) (hwp : m.wp = false) :
    Placeable cfg s t q m.pageBoundry := by
  have hmem : m.pageBoundry ∈ missingPages (m :: ms) := by
    rw [missingPages_missing hwp]
    exact List.mem_cons_self
  refine ⟨?_, h.va_ne _ hmem, pageBoundry_aligned m, h.untracked _ hmem⟩
  have hfits := h.fits q
  rw [missingPages_missing hwp, hfrom.freeOrder_eq m.pageBoundry, List.length_cons,
    List.take_succ_cons] at hfits
  rw [hw.pt, ← hfrom.tier_eq]
  exact hfits List.mem_cons_self

/-- A page of the table keeps its descriptor when another page is placed. -/
theorem guarded_placed (hw : Wf cfg s) (ht : Tabled s) (va : Nat) :
    (∃ p, ((s.alloc t q rest).place t q m.pageBoundry).pages va = some p ∧
      (((s.alloc t q rest).place t q m.pageBoundry).page p).migrating = false) ↔
    (∃ p, s.pages va = some p ∧ (s.page p).migrating = false) ∨ va = m.pageBoundry := by
  rw [placed_pages, placed_page]
  by_cases hva : va = m.pageBoundry
  · subst hva
    simp [placedAt]
  · simp only [Function.update_of_ne hva, hva, or_false]
    -- a tracked page is present, and `q` has been free
    have hne : ∀ p, s.pages va = some p → p ≠ q := by
      intro p hp heq
      rcases ht.live hp with ⟨l, hl, hmem⟩
      have hpresent := hw.present hmem
      rw [heq, hfrom.absent, hl] at hpresent
      cases hpresent
    constructor
    · rintro ⟨p, hp, hidle⟩
      rw [Function.update_of_ne (hne p hp)] at hidle
      exact ⟨p, hp, hidle⟩
    · rintro ⟨p, hp, hidle⟩
      refine ⟨p, hp, ?_⟩
      rwa [Function.update_of_ne (hne p hp)]

/-- A placement keeps the table in step with the descriptors. -/
theorem tabled_placed (hw : Wf cfg s) (ht : Tabled s) {va : Nat} (hfit : Placeable cfg s t q va) :
    Tabled ((s.alloc t q rest).place t q va) := by
  have hexec : exec cfg (.missingFault va) s = .ok ((s.alloc t q rest).place t q va) :=
    hfrom.handleMissingFault_eq hfit
  exact hw.tabled_exec ht hexec

/-- The messages after a missing fault are served from where it has left the state. -/
theorem Servable.placed (h : Servable cfg s (m :: ms)) (hw : Wf cfg s) (ht : Tabled s)
    (hwp : m.wp = false) : Servable cfg ((s.alloc t q rest).place t q m.pageBoundry) ms := by
  have hpages := missingPages_missing hwp ms
  have hfree := hfrom.freeOrder_eq m.pageBoundry
  rcases h with ⟨h1, h2, h3, h4, h5, h6⟩
  rw [hpages] at h1 h2 h3 h4 h5
  rw [List.nodup_cons] at h1
  rw [hfree, List.length_cons, List.length_cons] at h4
  rw [hfree, List.length_cons, List.take_succ_cons] at h5
  constructor
  case distinct => exact h1.2
  case untracked =>
    intro va hva
    rw [placed_pages, Function.update_of_ne]
    · exact h2 va (List.mem_cons_of_mem _ hva)
    · exact fun heq => h1.1 (heq ▸ hva)
  case va_ne => exact fun va hva => h3 va (List.mem_cons_of_mem _ hva)
  case enough => exact Nat.le_of_succ_le_succ h4
  case fits =>
    intro p hp
    rw [fits_congr (placed_slot m.pageBoundry p)]
    exact h5 p (List.mem_cons_of_mem _ hp)
  -- the write faults that follow have this message before them
  case guarded =>
    intro pre m' post heq hwp'
    rw [guarded_placed hfrom hw ht]
    have hguard := h6 (m :: pre) m' post (by rw [heq, List.cons_append]) hwp'
    rw [missingPages_missing hwp, List.mem_cons, ← or_assoc] at hguard
    exact hguard

/-- A missing fault in front of messages that are served once its page has been placed. -/
theorem Servable.of_placed (hw : Wf cfg s) (ht : Tabled s) (hwp : m.wp = false)
    (hfit : Placeable cfg s t q m.pageBoundry)
    (h : Servable cfg ((s.alloc t q rest).place t q m.pageBoundry) ms) :
    Servable cfg s (m :: ms) := by
  have hpages := missingPages_missing hwp ms
  have hfree := hfrom.freeOrder_eq m.pageBoundry
  rcases h with ⟨h1, h2, h3, h4, h5, h6⟩
  -- the page is tracked now, so it is not missed again
  have hnot : m.pageBoundry ∉ missingPages ms := by
    intro hmem
    have hnone := h2 _ hmem
    rw [placed_pages, Function.update_self] at hnone
    cases hnone
  constructor
  case distinct =>
    rw [hpages, List.nodup_cons]
    exact ⟨hnot, h1⟩
  case untracked =>
    intro va hva
    rw [hpages, List.mem_cons] at hva
    rcases hva with rfl | hva
    · exact hfit.fresh
    · have hne : va ≠ m.pageBoundry := by
        rintro rfl
        exact hnot hva
      have hnone := h2 va hva
      rwa [placed_pages, Function.update_of_ne hne] at hnone
  case va_ne =>
    intro va hva
    rw [hpages, List.mem_cons] at hva
    rcases hva with rfl | hva
    · exact hfit.va_ne
    · exact h3 va hva
  case enough =>
    rw [hpages, hfree, List.length_cons, List.length_cons]
    exact Nat.succ_le_succ h4
  case fits =>
    rw [hpages, hfree, List.length_cons, List.take_succ_cons]
    intro p hp
    rcases List.mem_cons.mp hp with rfl | hp
    · have hfits := hfit.fits
      rwa [hw.pt, ← hfrom.tier_eq] at hfits
    · exact (fits_congr (placed_slot m.pageBoundry p)).mp (h5 p hp)
  case guarded =>
    intro pre m' post heq hwp'
    cases pre with
    | nil =>
      obtain rfl := (List.cons.inj heq).1
      rw [hwp] at hwp'
      cases hwp'
    | cons m₁ pre =>
      rcases List.cons.inj heq with ⟨rfl, hms⟩
      have hguard := h6 pre m' post hms hwp'
      rw [guarded_placed hfrom hw ht, or_assoc, ← List.mem_cons] at hguard
      rwa [missingPages_missing hwp]

end Missing

/-- No messages, no condition. -/
theorem servable_nil : Servable cfg s [] where
  distinct := List.nodup_nil
  untracked := fun _ h => by cases h
  va_ne := fun _ h => by cases h
  enough := Nat.zero_le _
  fits := fun _ h => by cases h
  guarded := fun pre _ _ h => by cases pre <;> cases h

/-- The messages that are served. -/
theorem handleMsgs_ok_iff {ms : List FaultMsg} :
    ∀ {s : St}, Wf cfg s → Tabled s →
      ((∃ woken s', handleMsgs cfg ms s = .ok (woken, s')) ↔ Servable cfg s ms) := by
  induction ms with
  | nil => exact fun _ _ => iff_of_true ⟨[], _, rfl⟩ servable_nil
  | cons m ms ih =>
    intro s hw ht
    simp only [handleMsgs_cons_ok]
    constructor
    · rintro ⟨_, s', s₁, rest, hs, hrest, rfl⟩
      cases hs with
      | wp hwp hp hidle =>
        exact (servable_wp hwp ⟨_, hp, hidle⟩).mpr ((ih hw ht).mp ⟨rest, s', hrest⟩)
      | missing hwp hfrom hfit =>
        have hserved := (ih (hw.place hfrom hfit) (tabled_placed hfrom hw ht hfit)).mp
          ⟨rest, s', hrest⟩
        exact .of_placed hfrom hw ht hwp hfit hserved
    · intro h
      cases hwp : m.wp with
      | true =>
        rcases h.wp_head hwp with ⟨p, hp, hidle⟩
        have hserved := (servable_wp hwp ⟨p, hp, hidle⟩).mp h
        rcases (ih hw ht).mpr hserved with ⟨rest, s', hrest⟩
        exact ⟨_, s', s, rest, .wp hwp hp hidle, hrest, rfl⟩
      | false =>
        -- there is a descriptor for the missed page
        have hne : freeOrder s ≠ [] := by
          intro hnil
          have henough := h.enough
          rw [missingPages_missing hwp, hnil] at henough
          cases henough
        rcases List.exists_cons_of_ne_nil hne with ⟨q, qs, hfree⟩
        rcases hw.allocFrom hfree with ⟨t, rest, hfrom⟩
        have hfit := h.placeable hfrom hw hwp
        have hserved := h.placed hfrom hw ht hwp
        rcases (ih (hw.place hfrom hfit) (tabled_placed hfrom hw ht hfit)).mpr hserved with
          ⟨woken, s', hrest⟩
        exact ⟨_, s', _, woken, .missing hwp hfrom hfit, hrest, rfl⟩

/-- The messages that `handle_fault` reads do no harm exactly when no page is missed a second
time, the missed pages can be had, and the others are there. -/
theorem handleFault_harmless_iff (cfg : Config) {s : St} (hw : Wf cfg s) (ht : Tabled s)
    (reads : List (List FaultMsg)) :
    Harmless cfg reads s ↔ Servable cfg s reads.flatten := by
  rw [← handleMsgs_ok_iff hw ht]
  unfold Harmless
  simp only [handleFault_flatten]
  constructor
  · rintro ⟨s', hrun, -⟩
    exact ⟨_, s', hrun⟩
  · rintro ⟨woken, s', hrun⟩
    rcases handleMsgs_handled hrun with ⟨rfl, hhandled⟩
    exact ⟨s', hrun, hhandled⟩

/-- Faults on two pages of a region, and a store to the first one while it is protected. -/
def twoFaults : List (List FaultMsg) :=
  [[⟨0x40000010, false⟩], [⟨0x40200000, false⟩, ⟨0x40000020, true⟩]]

/-- The reads come to their end, and each page is placed once. -/
theorem handleFault_harmless_twoFaults :
    ∃ s, exec smallConfig (.mmap 0x40000000 0x40000000 false) (pebsInit smallConfig) = .ok s ∧
      Harmless smallConfig twoFaults s := by
  have hruns : ∃ s, exec smallConfig (.mmap 0x40000000 0x40000000 false)
        (pebsInit smallConfig) = .ok s ∧ (∀ va, s.pages va = none) ∧ freeOrder s = [0, 1, 2, 3] ∧
      s.page = (pebsInit smallConfig).page := ⟨_, rfl, fun _ => rfl, rfl, rfl⟩
  rcases hruns with ⟨s, hr, hpages, hfree, hpage⟩
  have hw := wf_exec (wf_pebsInit smallConfig) hr
  have ht := (wf_pebsInit smallConfig).tabled_exec (tabled_pebsInit smallConfig) hr
  refine ⟨s, hr, (handleFault_harmless_iff smallConfig hw ht twoFaults).mpr ?_⟩
  constructor
  case distinct => decide
  case untracked => exact fun va _ => hpages va
  case va_ne => decide
  case enough =>
    rw [hfree]
    decide
  case fits =>
    rw [hfree, hpage]
    decide
  case guarded =>
    -- the one protection fault is the third message
    have hflat : twoFaults.flatten =
        [⟨0x40000010, false⟩, ⟨0x40200000, false⟩, ⟨0x40000020, true⟩] := rfl
    rw [hflat]
    rintro (_ | ⟨m₁, _ | ⟨m₂, _ | ⟨m₃, pre⟩⟩⟩) m post heq hwp
    · cases heq
      cases hwp
    · cases heq
      cases hwp
    · cases heq
      exact Or.inr (by decide)
    · simp at heq

/-- Two threads touch a page at the same time, and one `read` returns both messages. -/
theorem handleFault_harmless_fails_twice :
    ∃ s, exec smallConfig (.mmap 0x40000000 0x40000000 false) (pebsInit smallConfig) = .ok s ∧
      handleFault smallConfig [[⟨0x40000010, false⟩, ⟨0x40001000, false⟩]] s =
        .error .tableAssert ∧
      ¬ Harmless smallConfig [[⟨0x40000010, false⟩, ⟨0x40001000, false⟩]] s := by
  have hruns : ∃ s, exec smallConfig (.mmap 0x40000000 0x40000000 false)
        (pebsInit smallConfig) = .ok s ∧
      handleFault smallConfig [[⟨0x40000010, false⟩, ⟨0x40001000, false⟩]] s =
        .error .tableAssert := ⟨_, rfl, rfl⟩
  rcases hruns with ⟨s, hr, herror⟩
  refine ⟨s, hr, herror, ?_⟩
  rintro ⟨s', hok, -⟩
  rw [herror] at hok
  cases hok

end Hemem
