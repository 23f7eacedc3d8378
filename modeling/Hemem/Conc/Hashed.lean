import Hemem.HashMap
import Hemem.Conc.Published

/-!
# Hemem.Conc.Hashed — the threads on the hash table

The system of `Hemem.Conc.Interleave` with the hash of `Hemem.Uthash` beside it: the steps that
call `find_page`, `add_page` and `remove_page` run the macros on the hash, and an assignment to
the `va` of a descriptor is one to its key. A page is in the table from its `add_page` on, its
`va` is assigned to before, and so the hash stands for the table of the system at every step,
whatever the threads do, as long as `remove_page` takes out a page that is in the table.

A call is one step here. `add_page` and `remove_page` are so because they hold `pages_lock`;
`find_page` takes no lock, and what its search does while another thread changes the hash is not
looked at.
-/

namespace Hemem

open Lib

abbrev PageCall := HashCall PageId Nat

/-- The call that the next step of a thread makes. -/
def Pc.hashCall : Pc → Option PageCall
  | .place _ p r (.setVa :: _) => some (.setKey p r.va)
  | .place _ p _ (.addPage :: _) => some (.add p)
  | .scan u pos => if pos < (u.addr + u.length) % 2 ^ 64 then some (.find pos) else none
  | .remove _ _ p => some (.del p)
  | _ => none

/-- What `find_page` gives on the table of the system. -/
def HashCall.answer (s : St) : PageCall → Option PageId
  | .find pos => findPage pos s
  | .add _ | .del _ | .setKey _ _ => none

/-- The table with the `va` of every descriptor. -/
def St.keyMap (s : St) : KeyMap PageId Nat := ⟨s.pages, fun p => (s.page p).va⟩

/-- The ways in which a run on the hash stops. -/
inductive HashedFault where
  | prog (f : Fault)
  | hash (f : HashFault)
  /-- the hash and the table give different pages -/
  | answer
deriving DecidableEq

variable {Tid : Type}

def Sys.hashCall (x : Sys Tid) : Label Tid → Option PageCall
  | .start _ _ | .migrate => none
  | .run t => (x.thr t).hashCall

/-- A step on the table and on the hash, with the whole of a call at once: also `find_page`, which
takes no lock in the source. -/
def hashedStep [DecidableEq Tid] (E : HashEnv Nat) (fuel : Nat) (cfg : Config) (numBatchs : Nat)
    (lbl : Label Tid) (x : Sys Tid × UtHash PageId Nat) :
    Except HashedFault (Sys Tid × UtHash PageId Nat) :=
  match step cfg numBatchs lbl x.1 with
  | .error f => .error (.prog f)
  | .ok x' =>
    match x.1.hashCall lbl with
    | none => .ok (x', x.2)
    | some c =>
      match c.run E fuel x.2 with
      | .error f => .error (.hash f)
      | .ok (r, u) => if r = c.answer x.1.st then .ok (x', u) else .error .answer

/-- `remove_page` takes out a page that is in the table. -/
def RemovesTracked (x : Sys Tid) (lbl : Label Tid) : Prop :=
  ∀ p, x.hashCall lbl = some (.del p) → findPage (x.st.page p).va x.st = some p

instance (x : Sys Tid) : DecidablePred (RemovesTracked x) := fun lbl =>
  match h : x.hashCall lbl with
  | some (.del p) =>
    decidable_of_iff (findPage (x.st.page p).va x.st = some p)
      ⟨by rintro hp _ heq; cases h.symm.trans heq; exact hp, fun hall => hall p h⟩
  | none => isTrue fun _ heq => nomatch h.symm.trans heq
  | some (.find _) => isTrue fun _ heq => nomatch h.symm.trans heq
  | some (.add _) => isTrue fun _ heq => nomatch h.symm.trans heq
  | some (.setKey _ _) => isTrue fun _ heq => nomatch h.symm.trans heq

/-! ## The table follows the calls -/

variable {cfg : Config} {s s' : St}

/-- The table after a call, if there is one. -/
def St.Follows (s : St) (c : Option PageCall) (s' : St) : Prop :=
  match c with
  | none => s'.keyMap = s.keyMap
  | some c => s.keyMap.call c = .ok (c.answer s, s'.keyMap)

/-- Only the table and the addresses matter. -/
theorem keyMap_congr (hpages : s'.pages = s.pages) (hva : ∀ p, (s'.page p).va = (s.page p).va) :
    s'.keyMap = s.keyMap := by
  simp only [St.keyMap, hpages, hva]

@[simp] theorem libcMunmap_pages (addr length : Nat) (accept : Bool) (s : St) :
    (libcMunmap addr length accept s).2.pages = s.pages := by
  unfold libcMunmap
  split <;> rfl

/-- A statement after the allocation does to the table what its call does. -/
theorem AllocStep.follows {k : Site} {p : PageId} {r r' : AllocRegs} {i : AllocInstr}
    {code : List AllocInstr} (h : AllocStep p r i s r' s') :
    s.Follows (Pc.place k p r (i :: code)).hashCall s' := by
  have hva : i ≠ .setVa → ∀ q, (s'.page q).va = (s.page q).va := by
    intro hi q
    by_cases hq : q = p
    · rw [hq, h.pageVa, if_neg hi]
    · rw [h.other q hq]
  cases i
  case setVa =>
    have hkeys : (fun q => (s'.page q).va) =
        Function.update (fun q => (s.page q).va) p r.va := by
      funext q
      by_cases hq : q = p
      · subst hq
        simpa using h.pageVa
      · rw [h.other q hq, Function.update_of_ne hq]
    have hpages : s'.pages = s.pages := by simpa using h.table
    simp only [St.Follows, Pc.hashCall, KeyMap.call, HashCall.answer, St.keyMap, hpages, hkeys]
  case addPage =>
    have hpages : s'.pages = Function.update s.pages (s.page p).va (some p) := by
      simpa using h.table
    have hkeys : (fun q => (s'.page q).va) = fun q => (s.page q).va := funext (hva (by simp))
    simp only [St.Follows, Pc.hashCall, KeyMap.call, HashCall.answer, St.keyMap, hpages, hkeys,
      h.untabled rfl]
  all_goals exact keyMap_congr (by simpa using h.table) (hva (by simp))

/-- So does every step of a thread. -/
theorem ThreadStep.follows {pc pc' : Pc} {ev : List Event} (h : ThreadStep cfg pc s pc' s' ev) :
    s.Follows pc.hashCall s' := by
  cases h
  case place hrun => exact (AllocInstr.run_ok hrun).follows
  case scanHit hlt hp | scanMiss hlt hp =>
    simp only [St.Follows, Pc.hashCall, if_pos hlt, KeyMap.call, HashCall.answer, findPage,
      St.keyMap]
  case scanDone hlt => simp only [St.Follows, Pc.hashCall, if_neg hlt]
  case setPresent k va t p =>
    refine keyMap_congr rfl fun q => ?_
    by_cases hq : q = p <;> simp [hq]
  case countRemoved =>
    refine keyMap_congr ?_ fun q => by rw [countMunmap_page]
    simp only [countMunmap]
    split <;> rfl
  case unmap | unmapFailed =>
    exact keyMap_congr (libcMunmap_pages ..) fun q => by rw [libcMunmap_page]
  all_goals rfl

/-- A page that is entered in the table, or whose key is assigned to, is being allocated. -/
theorem Pc.hashCall_allocating {pc : Pc} {p : PageId}
    (h : pc.hashCall = some (.add p) ∨ ∃ va, pc.hashCall = some (.setKey p va)) :
    pc.allocating = some p := by
  unfold Pc.hashCall at h
  split at h
  · simpa [Pc.allocating] using h
  · simpa [Pc.allocating] using h
  · split at h <;> simp at h
  · simp at h
  · simp at h

/-- The statements that are left of an allocation. -/
def Pc.Ordered : Pc → Prop
  | .place k _ _ code => code <:+ k.code
  | _ => True

/-- The `va` is assigned to before `add_page`, and not after. -/
theorem ThreadStep.ordered {pc pc' : Pc} {ev : List Event} (h : ThreadStep cfg pc s pc' s' ev)
    (hpc : pc.Ordered) : pc'.Ordered := by
  cases h
  case place i code hrun => exact (List.suffix_cons i code).trans hpc
  case publish k va t p => exact List.suffix_refl _
  case placed k p r => cases k <;> trivial
  all_goals trivial

/-- After `add_page` the allocation is finished. -/
theorem ThreadStep.added {pc pc' : Pc} {ev : List Event} (h : ThreadStep cfg pc s pc' s' ev)
    (hpc : pc.Ordered) {p : PageId} (hadd : pc.hashCall = some (.add p)) :
    pc'.allocating = none := by
  cases h
  case place k q r r' i code hrun =>
    cases i
    case addPage =>
      -- no statement follows
      have hnil : code = [] := by
        cases k <;> simpa [Pc.Ordered, Site.code, List.suffix_cons_iff] using hpc
      subst hnil
      rfl
    all_goals simp [Pc.hashCall] at hadd
  all_goals simp [Pc.hashCall] at hadd

/-! ## Pages of the table -/

/-- A page of the table is present under its `va`, and its allocation is finished. -/
structure Tracked (cfg : Config) (x : Sys Tid) : Prop where
  allocs : Allocs cfg x
  ordered : ∀ t, (x.thr t).Ordered
  alloc_lt : ∀ t p, (x.thr t).allocating = some p → p < cfg.total
  lt : ∀ va p, x.st.pages va = some p → p < cfg.total
  va_eq : ∀ va p, x.st.pages va = some p → (x.st.page p).va = va
  present : ∀ va p, x.st.pages va = some p → (x.st.page p).present = true
  done : ∀ va p, x.st.pages va = some p → ∀ t, (x.thr t).allocating ≠ some p

/-- With an empty table before any call the invariant holds. -/
theorem Wf.tracked_quiet (h : Wf cfg s) (hnone : ∀ va, s.pages va = none) :
    Tracked cfg (Sys.quiet s : Sys Tid) where
  allocs := h.allocs_quiet
  ordered _ := trivial
  alloc_lt _ _ hp := by cases hp
  lt va p hp := by simp [Sys.quiet, hnone] at hp
  va_eq va p hp := by simp [Sys.quiet, hnone] at hp
  present va p hp := by simp [Sys.quiet, hnone] at hp
  done va p hp := by simp [Sys.quiet, hnone] at hp

/-- The calls are legal where `remove_page` takes out a page that is in the table. -/
theorem Tracked.legal {x : Sys Tid} (h : Tracked cfg x) {lbl : Label Tid}
    (hr : RemovesTracked x lbl) {c : PageCall} (hc : x.hashCall lbl = some c) :
    c.Legal x.st.keyMap := by
  cases c with
  | find pos => trivial
  | add p => trivial
  | del p => exact hr p hc
  | setKey p va =>
    cases lbl with
    | start | migrate => cases hc
    | run t => exact fun hp => h.done _ p hp t (Pc.hashCall_allocating (Or.inr ⟨va, hc⟩))

variable [DecidableEq Tid] {numBatchs : Nat}

/-- The table after a step. -/
theorem step_follows {x x' : Sys Tid} {lbl : Label Tid} (hs : step cfg numBatchs lbl x = .ok x') :
    x.st.Follows (x.hashCall lbl) x'.st := by
  cases lbl with
  | start t c =>
    rcases step_start hs with rfl | ⟨-, rfl⟩ <;> rfl
  | run t =>
    rcases step_run hs with ⟨pc, ev, hok, -⟩
    exact (threadStep_ok hok).follows
  | migrate =>
    rcases step_migrate hs with ⟨ev, hok, -⟩
    have hstep := migStep_ok hok
    exact keyMap_congr hstep.pages fun p => (hstep.keeps p).va

/-- An entry of the table after a step has been there before, or its page is entered now. -/
theorem Tracked.entry_step {x x' : Sys Tid} (h : Tracked cfg x) {lbl : Label Tid}
    (hs : step cfg numBatchs lbl x = .ok x') {va : Nat} {p : PageId}
    (hp : x'.st.pages va = some p) :
    (x'.st.page p).va = va ∧
      (x.st.pages va = some p ∨ x.hashCall lbl = some (.add p)) := by
  have hfollows := step_follows hs
  have hkeep : ∀ {q}, x.st.pages va = some q → (x'.st.page q).va = (x.st.page q).va →
      (x'.st.page q).va = va := fun hq hva => hva.trans (h.va_eq _ _ hq)
  have hkeys : ∀ {pages va}, x'.st.keyMap = ⟨pages, va⟩ → x'.st.pages = pages ∧
      ∀ q, (x'.st.page q).va = va q := by
    rintro _ _ ⟨rfl, rfl⟩
    exact ⟨rfl, fun _ => rfl⟩
  cases hcall : x.hashCall lbl with
  | none =>
    rw [hcall] at hfollows
    rcases hkeys hfollows with ⟨hpages, hva⟩
    have hold : x.st.pages va = some p := hpages ▸ hp
    exact ⟨hkeep hold (hva p), Or.inl hold⟩
  | some c =>
    rw [hcall] at hfollows
    cases c with
    | find pos =>
      have hmap := (Prod.mk.inj (Except.ok.inj hfollows)).2
      rcases hkeys hmap.symm with ⟨hpages, hva⟩
      have hold : x.st.pages va = some p := hpages ▸ hp
      exact ⟨hkeep hold (hva p), Or.inl hold⟩
    | setKey q v =>
      have hmap := (Prod.mk.inj (Except.ok.inj hfollows)).2
      rcases hkeys hmap.symm with ⟨hpages, hva⟩
      have hold : x.st.pages va = some p := by
        rw [hpages] at hp
        exact hp
      -- a page that is being allocated is not in the table
      have hne : p ≠ q := by
        rintro rfl
        cases lbl with
        | start | migrate => cases hcall
        | run t => exact h.done va p hold t (Pc.hashCall_allocating (Or.inr ⟨v, hcall⟩))
      exact ⟨hkeep hold ((hva p).trans (Function.update_of_ne hne ..)), Or.inl hold⟩
    | del q =>
      have hmap := (Prod.mk.inj (Except.ok.inj hfollows)).2
      rcases hkeys hmap.symm with ⟨hpages, hva⟩
      have hold : x.st.pages va = some p := by
        rw [hpages] at hp
        dsimp only at hp
        split at hp
        · cases hp
        · exact hp
      exact ⟨hkeep hold (hva p), Or.inl hold⟩
    | add q =>
      cases hnone : x.st.pages (x.st.page q).va with
      | some r =>
        simp only [St.Follows, KeyMap.call, St.keyMap, hnone] at hfollows
        cases hfollows
      | none =>
        simp only [St.Follows, KeyMap.call, St.keyMap, hnone] at hfollows
        have hmap := (Prod.mk.inj (Except.ok.inj hfollows)).2
        rcases hkeys hmap.symm with ⟨hpages, hva⟩
        rw [hpages] at hp
        by_cases hvaq : va = (x.st.page q).va
        · rw [hvaq, Function.update_self] at hp
          obtain rfl := Option.some.inj hp
          exact ⟨(hva q).trans hvaq.symm, Or.inr rfl⟩
        · rw [Function.update_of_ne hvaq] at hp
          exact ⟨hkeep hp (hva p), Or.inl hp⟩

/-- Every step keeps it: a `va` is assigned to only while its page is not in the table. -/
theorem Tracked.step {x x' : Sys Tid} (h : Tracked cfg x) {lbl : Label Tid}
    (hs : step cfg numBatchs lbl x = .ok x') : Tracked cfg x' := by
  -- a page is entered by the thread that has been placing it
  have hadd : ∀ {p}, x.hashCall lbl = some (.add p) →
      ∃ t, lbl = .run t ∧ (x.thr t).allocating = some p ∧ (x'.thr t).allocating = none := by
    intro p hcall
    cases lbl with
    | start | migrate => cases hcall
    | run t =>
      rcases step_run hs with ⟨pc, ev, hok, hthr, -⟩
      have hnone := (threadStep_ok hok).added (h.ordered t) hcall
      exact ⟨t, rfl, Pc.hashCall_allocating (Or.inl hcall),
        by rw [hthr, Function.update_self, hnone]⟩
  refine ⟨h.allocs.step hs, fun t => ?ordered, fun t p hp => ?alloc_lt, fun va p hp => ?lt,
    fun va p hp => (h.entry_step hs hp).1, fun va p hp => ?present, fun va p hp t ht => ?done⟩
  case ordered =>
    cases lbl with
    | start u c =>
      rcases step_start hs with rfl | ⟨-, rfl⟩
      · exact h.ordered t
      · show (Function.update x.thr u c.begin t).Ordered
        by_cases ht : t = u
        · subst ht
          rw [Function.update_self]
          cases c <;> trivial
        · rw [Function.update_of_ne ht]
          exact h.ordered t
    | run u =>
      rcases step_run hs with ⟨pc, ev, hok, hthr, -⟩
      by_cases ht : t = u
      · subst ht
        rw [hthr, Function.update_self]
        exact (threadStep_ok hok).ordered (h.ordered t)
      · rw [hthr, Function.update_of_ne ht]
        exact h.ordered t
    | migrate =>
      rcases step_migrate hs with ⟨ev, -, hthr, -⟩
      exact hthr ▸ h.ordered t
  case alloc_lt =>
    rcases allocating_step hs hp with hold | ⟨hpresents, -, -⟩
    · exact h.alloc_lt t p hold
    · exact (h.allocs.custody.held p).mp ⟨_, (h.allocs.notPresent hpresents).1⟩
  case lt =>
    rcases (h.entry_step hs hp).2 with hold | hcall
    · exact h.lt va p hold
    · rcases hadd hcall with ⟨t, -, halloc, -⟩
      exact h.alloc_lt t p halloc
  case present =>
    rcases (h.entry_step hs hp).2 with hold | hcall
    · exact h.allocs.custody.present_step hs (h.present va p hold)
    · rcases hadd hcall with ⟨t, -, halloc, -⟩
      exact h.allocs.custody.present_step hs (h.allocs.live t p halloc)
  case done =>
    have hpresent : (x.st.page p).present = true := by
      rcases (h.entry_step hs hp).2 with hold | hcall
      · exact h.present va p hold
      · rcases hadd hcall with ⟨u, -, halloc, -⟩
        exact h.allocs.live u p halloc
    rcases allocating_step hs ht with hold | ⟨hpresents, -, -⟩
    · rcases (h.entry_step hs hp).2 with hentry | hcall
      · exact h.done va p hentry t hold
      · -- only the thread that enters the page has been allocating it
        rcases hadd hcall with ⟨u, -, halloc, hfinished⟩
        obtain rfl := h.allocs.unique t u p hold halloc
        rw [hfinished] at ht
        cases ht
    · rw [(h.allocs.notPresent hpresents).2] at hpresent
      cases hpresent

/-! ## The steps on the hash -/

variable {E : HashEnv Nat} {fuel : Nat}

/-- With pages from a finite set the hash has no more elements than this. -/
theorem StandsFor.bounded {n N : Nat} {u : UtHash PageId Nat} {m : KeyMap PageId Nat}
    (h : StandsFor E n u m) (hlt : ∀ va p, m.at? va = some p → p < N) : StandsFor E N u m := by
  rcases h.elements with ⟨items, helts, -, hat⟩
  refine ⟨⟨items, helts, ?_, hat⟩, h.key⟩
  have hsub : items ⊆ List.range N := fun p hp =>
    List.mem_range.mpr (hlt _ p ((hat _ p).mpr ⟨hp, rfl⟩))
  have hlen := helts.nodup.length_le_of_subset hsub
  rwa [List.length_range] at hlen

/-- The pages of the table are settled, and the hash stands for it. -/
structure HashedInv (E : HashEnv Nat) (cfg : Config) (x : Sys Tid × UtHash PageId Nat) : Prop where
  tracked : Tracked cfg x.1
  stands : StandsFor E cfg.total x.2 x.1.st.keyMap

/-- A step on the hash does what the step of the system does, unless memory runs out. -/
theorem HashedInv.step (numBatchs : Nat) {x : Sys Tid × UtHash PageId Nat} (h : HashedInv E cfg x)
    {lbl : Label Tid}
    (hr : RemovesTracked x.1 lbl) (hfuel : cfg.total + 1 < fuel) :
    hashedStep E fuel cfg numBatchs lbl x = .error (.hash .outOfMemory) ∨
      match step cfg numBatchs lbl x.1 with
      | .error f => hashedStep E fuel cfg numBatchs lbl x = .error (.prog f)
      | .ok y =>
        ∃ u, hashedStep E fuel cfg numBatchs lbl x = .ok (y, u) ∧ HashedInv E cfg (y, u) := by
  cases hs : Hemem.step cfg numBatchs lbl x.1 with
  | error f =>
    right
    simp only [hashedStep, hs]
  | ok y =>
    have htracked := h.tracked.step hs
    have hfollows := step_follows hs
    cases hcall : x.1.hashCall lbl with
    | none =>
      right
      rw [hcall] at hfollows
      refine ⟨x.2, by simp only [hashedStep, hs, hcall], htracked, ?_⟩
      rw [show y.st.keyMap = x.1.st.keyMap from hfollows]
      exact h.stands
    | some c =>
      rw [hcall] at hfollows
      have hmap : x.1.st.keyMap.call c = .ok (c.answer x.1.st, y.st.keyMap) := hfollows
      rcases h.stands.run (h.tracked.legal hr hcall) hfuel with
        hoom | ⟨f, hf, -⟩ | ⟨r, u, m, hu, hm, hstands⟩
      · left
        simp only [hashedStep, hs, hcall, hoom]
      · rw [hf] at hmap
        cases hmap
      · right
        rw [hm] at hmap
        rcases Prod.mk.inj (Except.ok.inj hmap) with ⟨rfl, rfl⟩
        exact ⟨u, by simp only [hashedStep, hs, hcall, hu, if_true], htracked,
          hstands.bounded htracked.lt⟩

/-- In every interleaving in which `remove_page` takes out pages that are in the table. -/
theorem hashed_runs {labels : List (Label Tid)} {x : Sys Tid × UtHash PageId Nat}
    (h : HashedInv E cfg x) (hfuel : cfg.total + 1 < fuel)
    (hr : Along (Hemem.step cfg numBatchs) RemovesTracked labels x.1) :
    runs (hashedStep E fuel cfg numBatchs) labels x = .error (.hash .outOfMemory) ∨
      match runs (Hemem.step cfg numBatchs) labels x.1 with
      | .error f => runs (hashedStep E fuel cfg numBatchs) labels x = .error (.prog f)
      | .ok y => ∃ u, runs (hashedStep E fuel cfg numBatchs) labels x = .ok (y, u) ∧
        HashedInv E cfg (y, u) := by
  induction labels generalizing x with
  | nil => exact Or.inr ⟨x.2, rfl, h⟩
  | cons lbl labels ih =>
    unfold Along at hr
    simp only [runs]
    cases hs : Hemem.step cfg numBatchs lbl x.1 with
    | error f =>
      right
      simp only [hashedStep, hs]
    | ok y =>
      rw [hs] at hr
      have hstep := h.step numBatchs hr.1 hfuel
      rw [hs] at hstep
      rcases hstep with hoom | ⟨u, hu, h'⟩
      · left
        rw [hoom]
      · rw [hu]
        exact ih h' hr.2

/-- The hash before any call: `pages = NULL`. -/
def hashInit (cfg : Config) (hh : PageId → UtHandle PageId) : UtHash PageId Nat :=
  .empty hh fun p => ((pebsInit cfg).page p).va

/-- From `pebs_init`: the hash holds the pages of the table under their addresses, and
`HASH_FSCK` finds nothing wrong. -/
theorem hashed_pebsInit (E : HashEnv Nat) (cfg : Config) (numBatchs : Nat)
    (hh : PageId → UtHandle PageId) (labels : List (Label Tid)) (hfuel : cfg.total + 1 < fuel)
    (hr : Along (Hemem.step cfg numBatchs) RemovesTracked labels (Sys.init cfg)) :
    runs (hashedStep E fuel cfg numBatchs) labels (Sys.init cfg, hashInit cfg hh) =
        .error (.hash .outOfMemory) ∨
      match runs (Hemem.step cfg numBatchs) labels (Sys.init cfg) with
      | .error f =>
        runs (hashedStep E fuel cfg numBatchs) labels (Sys.init cfg, hashInit cfg hh) =
          .error (.prog f)
      | .ok y => ∃ u items,
        runs (hashedStep E fuel cfg numBatchs) labels (Sys.init cfg, hashInit cfg hh) =
          .ok (y, u) ∧
        u.Elements E items ∧ (∀ va p, y.st.pages va = some p ↔ p ∈ items ∧ (y.st.page p).va = va) ∧
        u.hashFsck fuel = .ok () := by
  have hnone : ∀ va, (pebsInit cfg).pages va = none := by
    intro va
    simp only [pebsInit, initLoop_eq, St.empty]
  have hmap : (pebsInit cfg).keyMap = ⟨fun _ => none, fun p => ((pebsInit cfg).page p).va⟩ := by
    simp only [St.keyMap, funext hnone]
  have hinit : HashedInv E cfg ((Sys.init cfg : Sys Tid), hashInit cfg hh) := by
    refine ⟨(wf_pebsInit cfg).tracked_quiet hnone, ?_⟩
    have hempty := standsFor_empty E hh fun p => ((pebsInit cfg).page p).va
    rw [← hmap] at hempty
    exact hempty.bounded fun va p hp =>
      absurd (hp.symm.trans (hnone va)) (Option.some_ne_none p)
  refine (hashed_runs hinit hfuel hr).imp_right fun hruns => ?_
  cases hy : runs (Hemem.step cfg numBatchs) labels (Sys.init cfg : Sys Tid) with
  | error f =>
    rw [hy] at hruns
    exact hruns
  | ok y =>
    rw [hy] at hruns
    rcases hruns with ⟨u, hu, hinv⟩
    rcases hinv.stands.elements with ⟨items, helts, -, hat⟩
    exact ⟨u, items, hu, helts, hat, hinv.stands.hashFsck (by omega)⟩

/-- One thread maps a page and unmaps it. -/
def trackedRun : List (Label Bool) :=
  .start false (.mmap 0x40000000 pageSize true) :: List.replicate 24 (.run false) ++
    .start false (.munmap 0x40000000 pageSize true) :: List.replicate 6 (.run false)

/-- A page is added, found and taken out, on `HASH_JEN` and 2097152 buckets. -/
theorem hashed_pebsInit_tracked :
    ∃ y u items, runs (hashedStep pagesEnv 6 smallConfig 1) trackedRun
      (Sys.init smallConfig,
        hashInit smallConfig fun _ => ⟨none, none, none, none, none, none, 0, 0⟩) =
        .ok (y, u) ∧ u.Elements pagesEnv items ∧ u.hashFsck 6 = .ok () := by
  have hruns := hashed_pebsInit pagesEnv smallConfig 1
    (fun _ => ⟨none, none, none, none, none, none, 0, 0⟩) trackedRun
    (show smallConfig.total + 1 < 6 by decide)
    (by decide +kernel)
  rcases hruns with hoom | hruns
  · have hsome : (runs (hashedStep pagesEnv 6 smallConfig 1) trackedRun (Sys.init smallConfig,
        hashInit smallConfig fun _ =>
          ⟨none, none, none, none, none, none, 0, 0⟩)).toOption.isSome = true := by decide +kernel
    rw [hoom] at hsome
    cases hsome
  · rcases hruns with ⟨u, items, hu, helts, -, hfsck⟩
    exact ⟨_, u, items, hu, helts, hfsck⟩

/-- Both threads unmap the page, and find it before the other has taken it out: the second
`HASH_DEL` dereferences `NULL`. -/
def untrackedRun : List (Label Bool) :=
  .start false (.mmap 0x40000000 pageSize true) :: List.replicate 24 (.run false) ++
    [.start false (.munmap 0x40000000 pageSize true),
      .start true (.munmap 0x40000000 pageSize true),
      .run false, .run true, .run false, .run true]

/-- Without the condition the hash fails where the table does not. -/
theorem hashed_untracked :
    (runs (hashedStep pagesEnv 6 smallConfig 1) untrackedRun
      (Sys.init smallConfig,
        hashInit smallConfig fun _ => ⟨none, none, none, none, none, none, 0, 0⟩)).map
        (fun _ => ()) = .error (.hash .nullDeref) ∧
    (runs (step smallConfig 1) untrackedRun (Sys.init smallConfig)).toOption.isSome := by
  decide +kernel

end Hemem
