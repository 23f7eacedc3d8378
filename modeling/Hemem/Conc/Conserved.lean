import Mathlib.Data.Set.Card
import Mathlib.Tactic.Ring
import Hemem.Conc.Linked

/-!
# Hemem.Conc.Conserved — no descriptor is lost

The books of `Hemem.Conc.Custody` say that every descriptor is in one place. How many of them
are of either tier follows from their flags: a migration to another tier turns the flag of a
page, and later that of the free descriptor whose slot the page has taken. In between the
tiers are out of balance by the entries of which only the page has been turned, and these are
in the hands of the migration thread.
-/

namespace Hemem

open Lib

variable {Tid : Type} {cfg : Config} {s s' : St}

/-! ## The descriptors of a tier -/

/-- How many descriptors say that they are in tier `t`. -/
def St.inTier (cfg : Config) (s : St) (t : Tier) : Nat :=
  (List.range cfg.total).countP fun p => (s.page p).inDram == t.inDram

/-- Counting after a change to one element. -/
theorem countP_change {xs : List Nat} (hnd : xs.Nodup) {p : Nat} (hp : p ∈ xs) {f g : Nat → Bool}
    (hother : ∀ x, x ≠ p → g x = f x) :
    xs.countP g + (f p).toNat = xs.countP f + (g p).toNat := by
  rcases List.append_of_mem hp with ⟨as, bs, rfl⟩
  have hsame : ∀ ys : List Nat, p ∉ ys → ys.countP g = ys.countP f := fun ys hys =>
    List.countP_congr fun x hx => by rw [hother x fun h => hys (h ▸ hx)]
  rw [List.nodup_append, List.nodup_cons] at hnd
  have has : p ∉ as := fun h => hnd.2.2 p h p List.mem_cons_self rfl
  simp only [List.countP_append, List.countP_cons, hsame as has, hsame bs hnd.2.1.1]
  cases f p <;> cases g p <;> simp <;> omega

/-- Only the flags matter. -/
theorem inTier_congr (h : ∀ p, (s'.page p).inDram = (s.page p).inDram) (t : Tier) :
    s'.inTier cfg t = s.inTier cfg t := by
  simp only [St.inTier, h]

/-- A descriptor changes from tier `u` to tier `v`. -/
theorem inTier_turn {r : St} {p : PageId} (hp : p < cfg.total) {u v : Tier}
    (hu : (s.page p).inDram = u.inDram) (hv : (r.page p).inDram = v.inDram)
    (hother : ∀ q, q ≠ p → (r.page q).inDram = (s.page q).inDram) (t : Tier) :
    r.inTier cfg t + (if u = t then 1 else 0) = s.inTier cfg t + (if v = t then 1 else 0) := by
  have hcount := countP_change (f := fun q => (s.page q).inDram == t.inDram)
    (g := fun q => (r.page q).inDram == t.inDram) List.nodup_range (List.mem_range.mpr hp)
    fun q hq => by rw [hother q hq]
  simp only [hu, hv] at hcount
  cases u <;> cases v <;> cases t <;> simpa [St.inTier, Tier.inDram] using hcount

/-! ## The entries of which only the page has been turned -/

/-- Of an entry with `code` left in the loop `ph`. -/
def Phase.owing (ph : Phase) (code : List MigInstr) : Nat :=
  match ph with
  | .flag | .protect | .copy => 0
  | .remap => if .setInDram ∈ code then 0 else 1
  | .unflag => 1
  | .giveBack => if .setFreeInDram ∈ code then 1 else 0

def Mpc.owing : Mpc → Nat
  | .loop _ ph done [] _ _ => done.length * ph.owing []
  | .loop d ph done (_ :: todo) code _ =>
    ph.owing code + (done.length * ph.owing [] + todo.length * ph.owing (d.code ph))
  | _ => 0

/-- By how much tier `t` is short of descriptors, or has too many. -/
def Mpc.short (m : Mpc) (t : Tier) : Nat := if m.dir.src = t then m.owing else 0
def Mpc.over (m : Mpc) (t : Tier) : Nat := if m.dir.dst = t then m.owing else 0

/-- What a step that turns no flag has to keep. -/
theorem Mpc.balance_congr {m m' : Mpc} (hdir : m'.dir = m.dir) (howing : m'.owing = m.owing)
    (hpage : ∀ p, (s'.page p).inDram = (s.page p).inDram) (t : Tier) :
    s'.inTier cfg t + m'.short t + m.over t = s.inTier cfg t + m.short t + m'.over t := by
  rw [inTier_congr hpage]
  simp only [Mpc.short, Mpc.over, hdir, howing]

/-- Only the two assignments to `in_dram` change what is owed. -/
theorem Phase.owing_cons {i : MigInstr} (h₁ : i ≠ .setInDram) (h₂ : i ≠ .setFreeInDram)
    (ph : Phase) (code : List MigInstr) : ph.owing (i :: code) = ph.owing code := by
  cases ph <;> simp [Phase.owing, h₁.symm, h₂.symm]

/-- A loop ends with what the next one begins with. -/
theorem Phase.owing_next {d : Dir} {ph ph' : Phase} (h : ph.next = some ph') :
    ph'.owing (d.code ph') = ph.owing [] := by
  cases ph <;> simp only [Phase.next, Option.some.injEq, reduceCtorEq] at h <;> subst h <;>
    cases d <;> rfl

/-! ## Steps -/

/-- No thread of the application changes a tier. -/
theorem ThreadStep.inDram {pc pc' : Pc} {ev : List Event} (h : ThreadStep cfg pc s pc' s' ev)
    (p : PageId) : (s'.page p).inDram = (s.page p).inDram := by
  cases h
  case setPresent q =>
    by_cases hp : p = q <;> simp [hp]
  case place hrun =>
    -- with nothing in the hands there is no flag to turn
    cases AllocInstr.effect hrun with
    | frame _ flags _ => exact congrArg Prod.fst (congrFun flags p)
    | take _ _ _ _ flags _ => exact congrArg Prod.fst (congrFun flags p)
    | give _ _ _ _ flags _ => exact congrArg Prod.fst (congrFun flags p)
    | retag q v v' others list before after here other => exact absurd before.length_eq (by simp)
  case countRemoved => rw [countMunmap_page]
  case unmap | unmapFailed => rw [libcMunmap_page]
  all_goals rfl

/-- The statements that turn no flag `in_dram`. -/
theorem MigInstr.run_inDram {d : Dir} {e : Entry} {i : MigInstr} {r r' : MigRegs} {ev : List Event}
    (h₁ : i ≠ .setInDram) (h₂ : i ≠ .setFreeInDram) (h : i.run cfg d e r s = .ok (r', s', ev))
    (p : PageId) : (s'.page p).inDram = (s.page p).inDram := by
  cases MigInstr.run_ok h
  case setInDram => exact absurd rfl h₁
  case setFreeInDram => exact absurd rfl h₂
  case setMigrating q _ | bumpUp q _ | bumpDown q _ | setOffset q _ =>
    by_cases hp : p = q <;> simp [hp]
  case setFreeOffset | setFreePresent =>
    by_cases hp : p = e.next <;> simp [hp]
  all_goals rfl

/-- The migration thread moves a page to the new tier and a descriptor back; in between one is
owed. -/
theorem MigStep.inTier {numBatchs : Nat} {m m' : Mpc} {ev : List Event} (hm : m.Wf)
    (hbook : ∀ p v, (p, v) ∈ m.items → s.flags p = v ∧ p < cfg.total)
    (h : MigStep cfg numBatchs m s m' s' ev) (t : Tier) :
    s'.inTier cfg t + m'.short t + m.over t = s.inTier cfg t + m.short t + m'.over t := by
  cases h
  case instr d ph done e todo i code r r' hrun =>
    have hmem : i ∈ d.code ph := hm.sublist.mem List.mem_cons_self
    by_cases h₁ : i = .setInDram
    · subst h₁
      obtain rfl := Dir.setInDram_mem hmem
      have hnot := notMem_of_suffix hm
      cases MigInstr.run_ok hrun with
      | setInDram hp =>
        rename_i p
        have hitem := hbook p (d.src.inDram, true)
          (by simp [Mpc.items, Entry.items, Entry.pageItems, Dir.pageTier, hp, inUse])
        -- one page less in the source tier and one more in the destination, as the batch owes
        have hturn := inTier_turn (r := s.modPage p fun g => { g with inDram := d.dst.inDram })
          hitem.2 (u := d.src) (v := d.dst) (congrArg Prod.fst hitem.1) (by simp)
          (fun q hq => by simp [hq]) t
        simp only [Mpc.short, Mpc.over, Mpc.dir, Mpc.owing, Phase.owing, hnot, List.mem_cons,
          true_or, if_true, if_false]
        by_cases hsrc : d.src = t <;> by_cases hdst : d.dst = t <;>
          simp only [hsrc, hdst, if_true, if_false] at hturn ⊢ <;> omega
    by_cases h₂ : i = .setFreeInDram
    · subst h₂
      obtain rfl := Dir.giveBack_of_mem (i := .setFreeInDram) (by simp [Dir.code]) hmem
      have hnot := notMem_of_suffix hm
      cases MigInstr.run_ok hrun with
      | setFreeInDram =>
        have hitem := hbook e.next (d.dst.inDram, false)
          (by
            obtain rfl : code = [.enqueuePage, .enqueueFree] := by
              simpa using Dir.giveBack_suffix hm
            simp [Mpc.items, Entry.items, Entry.freeItems, Dir.freeTier, unused])
        -- the free descriptor goes the other way
        have hturn := inTier_turn (r := s.modPage e.next fun g => { g with inDram := d.src.inDram })
          hitem.2 (u := d.dst) (v := d.src) (congrArg Prod.fst hitem.1) (by simp)
          (fun q hq => by simp [hq]) t
        simp only [Mpc.short, Mpc.over, Mpc.dir, Mpc.owing, Phase.owing, hnot, List.mem_cons,
          true_or, if_true, if_false]
        by_cases hsrc : d.src = t <;> by_cases hdst : d.dst = t <;>
          simp only [hsrc, hdst, if_true, if_false] at hturn ⊢ <;> omega
    · refine Mpc.balance_congr ?_ ?_ (MigInstr.run_inDram h₁ h₂ hrun) t
      · rfl
      · simp only [Mpc.owing, Phase.owing_cons h₁ h₂]
  case begin d es =>
    refine Mpc.balance_congr ?_ ?_ (fun _ => rfl) t
    · rfl
    · cases es <;> simp [Mpc.owing, Phase.owing]
  case nextEntry d ph done e todo r =>
    refine Mpc.balance_congr ?_ ?_ (fun _ => rfl) t
    · rfl
    · cases todo <;> simp only [Mpc.owing, List.length_append, List.length_cons,
        List.length_nil] <;> ring
  case nextLoop d ph ph' done code r hnext =>
    refine Mpc.balance_congr ?_ ?_ (fun _ => rfl) t
    · rfl
    · cases done <;> simp only [Mpc.owing, List.length_cons, List.length_nil,
        Phase.owing_next hnext] <;> ring
  case lastLoop => exact Mpc.balance_congr rfl rfl (fun _ => rfl) t
  case count => exact Mpc.balance_congr rfl rfl (fun p => by rw [countBatch_page]) t
  case testZero => simp [Mpc.short, Mpc.over, Mpc.owing]
  all_goals exact Mpc.balance_congr rfl rfl (fun _ => rfl) t

/-! ## When the migration thread holds nothing -/

theorem Entry.items_ne_nil {d : Dir} {ph : Phase} {code : List MigInstr}
    (h : ph ≠ .giveBack ∨ .enqueueFree ∈ code) (e : Entry) : e.items d ph code ≠ [] := by
  simp [Entry.items, Entry.freeItems, h]

/-- With an empty book nothing is owed. -/
theorem Mpc.owing_of_items {m : Mpc} (hm : m.Wf) (h : m.items = []) : m.owing = 0 := by
  cases m with
  | loop d ph done todo code r =>
    by_cases hph : ph = .giveBack
    · subst hph
      cases todo with
      | nil => exact Nat.mul_zero _
      | cons e todo =>
        -- an entry that has nothing left has been through the whole loop
        simp only [Mpc.items, List.append_eq_nil_iff] at h
        have hcode : code = [] := by
          cases code with
          | nil => rfl
          | cons i code =>
            have hfree : .enqueueFree ∈ i :: code := by
              have := Dir.giveBack_suffix hm
              grind
            exact absurd h.1 (Entry.items_ne_nil (Or.inr hfree) e)
        subst hcode
        cases todo with
        | nil => simp [Mpc.owing, Phase.owing]
        | cons e' todo =>
          have hfree : .enqueueFree ∈ d.code .giveBack := by simp [Dir.code]
          exact absurd h.2.2 (by simp [Entry.items_ne_nil (Or.inr hfree)])
    · cases todo with
      | nil =>
        cases done with
        | nil => exact Nat.zero_mul _
        | cons e done =>
          exact absurd h (by simp [Mpc.items, Entry.items_ne_nil (Or.inl hph)])
      | cons e todo => exact absurd h (by simp [Mpc.items, Entry.items_ne_nil (Or.inl hph)])
  | _ => rfl

/-- The descriptors on the four lists of tier `t`, and those that a thread has taken from
them. -/
def Sys.ofTier (x : Sys Tid) (t : Tier) : Set PageId :=
  { p | (∃ l : ListId, l.tier = t ∧ p ∈ x.st.list l) ∨
    ∃ u present, (p, (t.inDram, present)) ∈ (x.thr u).items }

/-- The descriptors of a tier are on its lists or in somebody's hands. -/
theorem Sys.mem_ofTier {x : Sys Tid} {t : Tier} {p : PageId} : p ∈ x.ofTier t ↔
    (∃ l : ListId, l.tier = t ∧ p ∈ x.st.list l) ∨
      ∃ u present, (p, (t.inDram, present)) ∈ (x.thr u).items := Iff.rfl

structure Conserved (cfg : Config) (x : Sys Tid) : Prop where
  /-- a descriptor that `pebs_init` allocates is on one list or in the hands of one thread -/
  place : ∀ p, p < cfg.total → ∃! k, p ∈ entries x.items k
  once : ∀ k, (entries x.items k).Nodup
  /-- and these are all there are -/
  only : ∀ k, ∀ p ∈ entries x.items k, p < cfg.total
  capacity : x.mig.items = [] → ∀ t, (x.ofTier t).ncard = cfg.npages t

/-- The tiers are as far out of balance as the migration thread owes. -/
def Balanced (cfg : Config) (x : Sys Tid) : Prop :=
  ∀ t, x.st.inTier cfg t + x.mig.short t = cfg.npages t + x.mig.over t

/-- With books and tiers in balance no descriptor is lost, and none is in the wrong tier. -/
theorem Custody.conserved {x : Sys Tid} (hx : Custody cfg x) (hb : Balanced cfg x) :
    Conserved cfg x := by
  constructor
  case place =>
    intro p hp
    rcases (hx.held p).mpr hp with ⟨k, hk⟩
    exact ⟨k, hk, fun k' hk' => hx.books.excl.unique hk' hk⟩
  case once => exact hx.books.excl.nodup
  case only => exact fun k p hk => (hx.held p).mp ⟨k, hk⟩
  case capacity =>
    intro hnone t
    -- With no batch in hand every slot lies where its flag says, so a tier can be counted by
    -- flags.
    have hset : x.ofTier t = ↑((List.range cfg.total).filter
        fun p => (x.st.page p).inDram == t.inDram).toFinset := by
      ext p
      simp only [List.coe_toFinset, List.mem_filter, List.mem_range, beq_iff_eq,
        Sys.mem_ofTier]
      constructor
      · rintro (⟨l, rfl, hl⟩ | ⟨u, present, hu⟩)
        · have hl' : (p, l.flags) ∈ x.items (.list l) := List.mem_map_of_mem hl
          exact ⟨(hx.held p).mp ⟨.list l, mem_entries.mpr ⟨_, hl'⟩⟩,
            congrArg Prod.fst (hx.books.agree hl')⟩
        · have hu' : (p, t.inDram, present) ∈ x.items (.thread u) := hu
          exact ⟨(hx.held p).mp ⟨.thread u, mem_entries.mpr ⟨_, hu'⟩⟩,
            congrArg Prod.fst (hx.books.agree hu')⟩
      · rintro ⟨hp, htier⟩
        rcases (hx.held p).mpr hp with ⟨k, hk⟩
        rcases mem_entries.mp hk with ⟨v, hv⟩
        have hflags := hx.books.agree hv
        cases k with
        | list l =>
          left
          rcases List.mem_map.mp hv with ⟨q, hq, heq⟩
          rcases Prod.mk.inj heq with ⟨rfl, rfl⟩
          refine ⟨l, Tier.inDram_inj.mp ?_, hq⟩
          exact (congrArg Prod.fst hflags).symm.trans htier
        | thread u =>
          right
          refine ⟨u, v.2, ?_⟩
          rw [← htier, show (x.st.page p).inDram = v.1 from congrArg Prod.fst hflags]
          exact hv
        | migrator =>
          have hv' : (p, v) ∈ x.mig.items := hv
          rw [hnone] at hv'
          cases hv'
    rw [hset, Set.ncard_coe_finset, List.toFinset_card_of_nodup (List.nodup_range.filter _),
      ← List.countP_eq_length_filter]
    have hbal := hb t
    simp only [Mpc.short, Mpc.over, Mpc.owing_of_items hx.mig hnone, ite_self,
      Nat.add_zero] at hbal
    exact hbal

/-- At the start each tier has its own descriptors. -/
theorem balanced_init (cfg : Config) : Balanced cfg (Sys.init cfg : Sys Tid) := by
  intro t
  have htotal : cfg.total = cfg.npages .dram + cfg.npages .nvm := rfl
  have hdram : ∀ p ∈ List.range (cfg.npages .dram), ((pebsInit cfg).page p).inDram = true := by
    intro p hp
    rw [pebsInit_page, if_pos (List.mem_range.mp hp)]
    rfl
  have hnvm : ∀ p ∈ (List.range (cfg.npages .nvm)).map (cfg.npages .dram + ·),
      ((pebsInit cfg).page p).inDram = false := by
    intro p hp
    rcases List.mem_map.mp hp with ⟨i, hi, rfl⟩
    have hi' := List.mem_range.mp hi
    rw [pebsInit_page, if_neg (by omega), if_pos (by omega)]
    rfl
  -- the descriptors of DRAM come first, then those of NVM
  have hinTier : (pebsInit cfg).inTier cfg t = cfg.npages t := by
    rw [St.inTier, htotal, List.range_add, List.countP_append]
    cases t with
    | dram =>
      rw [List.countP_eq_length.mpr fun p hp => by simp [hdram p hp, Tier.inDram],
        List.countP_eq_zero.mpr fun p hp => by simp [hnvm p hp, Tier.inDram], List.length_range,
        Nat.add_zero]
    | nvm =>
      rw [List.countP_eq_zero.mpr fun p hp => by simp [hdram p hp, Tier.inDram],
        List.countP_eq_length.mpr fun p hp => by simp [hnvm p hp, Tier.inDram], List.length_map,
        List.length_range, Nat.zero_add]
  have howing : (Mpc.test .dramToDram).owing = 0 := rfl
  simp only [Sys.init, Sys.quiet, Mpc.short, Mpc.over, howing, ite_self, hinTier]

variable [DecidableEq Tid] {numBatchs : Nat}

/-- Every step keeps the balance. -/
theorem Balanced.step {x x' : Sys Tid} (hb : Balanced cfg x) (hx : Custody cfg x)
    (lbl : Label Tid) (hs : step cfg numBatchs lbl x = .ok x') : Balanced cfg x' := by
  intro t
  have hbal := hb t
  cases lbl with
  | start u c =>
    rcases step_start hs with rfl | ⟨-, rfl⟩
    · exact hbal
    · exact hbal
  | run u =>
    rcases step_run hs with ⟨pc, ev, hstep, -, hmig, -⟩
    rw [hmig, inTier_congr (threadStep_ok hstep).inDram]
    exact hbal
  | migrate =>
    rcases step_migrate hs with ⟨ev, hstep, -, -⟩
    have hbook : ∀ p v, (p, v) ∈ x.mig.items → x.st.flags p = v ∧ p < cfg.total := by
      intro p v hp
      have hp' : (p, v) ∈ x.items .migrator := hp
      exact ⟨hx.books.agree hp', (hx.held p).mp ⟨.migrator, mem_entries.mpr ⟨v, hp'⟩⟩⟩
    have hinTier := (migStep_ok hstep).inTier hx.mig hbook t
    omega

/-- In every interleaving every descriptor is in one place, no assertion of `fifo.c` fails,
and the tiers keep their capacity. -/
theorem conserved_throughout (cfg : Config) (numBatchs : Nat) (labels : List (Label Tid)) :
    ∃ rs h, Heap.empty.runCalls (initCalls cfg) = .ok (rs, h) ∧
      Throughout (linkedStep cfg numBatchs)
        (fun x => Conserved cfg x.1 ∧ Refines x.2 x.1.st.list) labels (Sys.init cfg, h) ∧
      ∀ f, runs (linkedStep cfg numBatchs) labels (Sys.init cfg, h) ≠ .error (.inr f) := by
  rcases heap_pebsInit cfg with ⟨rs, h, hinit, hr⟩
  have hinv : LinkedInv cfg ((Sys.init cfg, h) : Sys Tid × _) ∧
      Balanced cfg (Sys.init cfg : Sys Tid) :=
    ⟨⟨(wf_pebsInit cfg).custody_quiet, hr⟩, balanced_init cfg⟩
  have hstep : ∀ (x : Sys Tid × Heap PageId ListId) lbl x',
      LinkedInv cfg x ∧ Balanced cfg x.1 → linkedStep cfg numBatchs lbl x = .ok x' →
        LinkedInv cfg x' ∧ Balanced cfg x'.1 := fun x lbl x' hx hs =>
    ⟨hx.1.step lbl hs, hx.2.step hx.1.custody lbl (linkedStep_step hs)⟩
  refine ⟨rs, h, hinit, ?_, fun f hf => ?_⟩
  · refine Throughout.imp (fun x hx => ?_) (throughout_of_step hstep labels hinv)
    exact ⟨hx.1.custody.conserved hx.2, hx.1.refines⟩
  · have hstop := stopsIn_runs (E := fun e => ∀ f, e ≠ .inr f) hstep
      (fun x lbl hx e he f hef => hx.1.stops lbl (hef ▸ he)) labels hinv
    exact hstop _ hf f rfl

end Hemem
