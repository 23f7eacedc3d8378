import Hemem.FifoSteps
import Hemem.Conc.Linked

/-!
# Hemem.Conc.Locked — the threads inside `fifo.c`

The system of `Hemem.Conc.Linked` with the functions of `fifo.c` run statement by statement:
a thread that makes a call takes the `list_lock`, or waits for it, executes the statements on
the heap that all threads share, one at a time, and gives the lock back. In between the other
threads run. A thread that holds the lock of a list has the list, its pages and the page in its
hands for itself, so it does what it would do on a heap of its own, and the step that the
system takes at the unlock finds the page that the statements have found.
-/

namespace Hemem

open Lib

/-- Those who take steps. -/
inductive Actor (Tid : Type) where
  | thread (t : Tid)
  | migrator
deriving DecidableEq

variable {Tid : Type}

def Actor.label : Actor Tid → Label Tid
  | .thread t => .run t
  | .migrator => .migrate

def Actor.holder : Actor Tid → Holder Tid
  | .thread t => .thread t
  | .migrator => .migrator

/-- Every thread has a book of its own. -/
theorem Actor.holder_inj {a b : Actor Tid} (h : a.holder = b.holder) : a = b := by
  cases a <;> cases b <;> simp_all [Actor.holder]

theorem Actor.label_inj {a b : Actor Tid} (h : a.label = b.label) : a = b := by
  cases a <;> cases b <;> simp_all [Actor.label]

theorem Actor.holder_ne_list (a : Actor Tid) (l : ListId) : a.holder ≠ .list l := by
  cases a <;> simp [Actor.holder]

structure LockedSys (Tid : Type) where
  sys : Sys Tid
  heap : Heap PageId ListId
  /-- who holds the `list_lock` of a list -/
  owner : ListId → Option (Actor Tid)
  /-- the argument `queue` and the next statement of a thread between lock and unlock -/
  inside : Actor Tid → Option (ListId × FifoPc PageId)

/-- The ways in which a run stops. -/
inductive LockedFault where
  | prog (f : Fault)
  | statement (f : StatementFault)
  /-- the heap and the list give different pages -/
  | answer
deriving DecidableEq

/-- What the call of the next step returns on the lists. -/
def Sys.answer (x : Sys Tid) (lbl : Label Tid) : Option PageId :=
  (x.fifoCall lbl).bind fun c => (c.seqRun x.st.list).1

variable {cfg : Config}

/-! ## What a thread has for itself -/

/-- A call that a step makes is one of `fifo.c`. -/
theorem Sys.fifoCall_start {x : Sys Tid} {lbl : Label Tid} {c : ListCall}
    (hc : x.fifoCall lbl = some c) : ∃ l pc, c.start = some (l, pc) := by
  cases c with
  | enqueue l p => exact ⟨l, _, rfl⟩
  | dequeue l => exact ⟨l, _, rfl⟩
  | remove l p => exact absurd hc (x.fifoCall_ne_remove lbl l p)

/-- The pages that a thread has for itself while it holds the lock of `l`. -/
def Sys.footprint (x : Sys Tid) (c : ListCall) (l : ListId) : List PageId := c.pages ++ x.st.list l

/-- The page that is handed to `enqueue_fifo` is in the hands of the thread. -/
theorem Sys.pages_held {x : Sys Tid} (hm : x.mig.Wf) {a : Actor Tid} {c : ListCall}
    (hc : x.fifoCall a.label = some c) {p : PageId} (hp : p ∈ c.pages) :
    p ∈ entries x.items a.holder := by
  cases c with
  | dequeue l => cases hp
  | remove l q => exact absurd hc (x.fifoCall_ne_remove a.label l q)
  | enqueue l q =>
    obtain rfl := List.mem_singleton.mp hp
    cases a with
    | thread t => exact Pc.enqueue_mem hc
    | migrator => exact Mpc.enqueue_mem hm hc

/-- What a call touches is on its list or in the hands of its thread. -/
theorem Sys.footprint_home {x : Sys Tid} (hm : x.mig.Wf) {a : Actor Tid} {c : ListCall} {l : ListId}
    (hc : x.fifoCall a.label = some c) {p : PageId} (hp : p ∈ x.footprint c l) :
    ∃ k, p ∈ entries x.items k ∧ (k = a.holder ∨ k = .list l) := by
  rcases List.mem_append.mp hp with hp | hp
  · exact ⟨a.holder, Sys.pages_held hm hc hp, .inl rfl⟩
  · exact ⟨.list l, (Sys.entries_list x l).symm ▸ hp, .inr rfl⟩

/-- Two threads that hold two locks have no page in common. -/
theorem Custody.footprint_disjoint {x : Sys Tid} (hx : Custody cfg x) {a b : Actor Tid}
    {c d : ListCall} {l k : ListId} (hc : x.fifoCall a.label = some c)
    (hd : x.fifoCall b.label = some d) (hab : a ≠ b) (hlk : l ≠ k) {p : PageId}
    (hp : p ∈ x.footprint c l) : p ∉ x.footprint d k := by
  intro hq
  rcases Sys.footprint_home hx.mig hc hp with ⟨i, hi, hi'⟩
  rcases Sys.footprint_home hx.mig hd hq with ⟨j, hj, hj'⟩
  obtain rfl := hx.books.excl.unique hi hj
  rcases hi' with rfl | rfl <;> rcases hj' with hj' | hj'
  · exact hab (Actor.holder_inj hj')
  · exact absurd hj' (a.holder_ne_list k)
  · exact absurd hj'.symm (b.holder_ne_list l)
  · exact hlk (Holder.list.inj hj')

/-- So it is on no other list, and calls on two lists do not meet. -/
theorem Custody.footprint_free {x : Sys Tid} (hx : Custody cfg x) {a : Actor Tid} {c : ListCall}
    {l k : ListId} (hc : x.fifoCall a.label = some c) (hlk : k ≠ l) {p : PageId}
    (hp : p ∈ x.footprint c l) : p ∉ x.st.list k := by
  intro hq
  rcases Sys.footprint_home hx.mig hc hp with ⟨i, hi, hi'⟩
  rw [← Sys.entries_list] at hq
  obtain rfl := hx.books.excl.unique hi hq
  rcases hi' with hi' | hi'
  · exact absurd hi'.symm (a.holder_ne_list k)
  · exact hlk (Holder.list.inj hi')

/-! ## The invariant -/

/-- A thread is at `pc` of the call `c` on the list `l`: on a heap that has its list and its
pages in common with `h` it comes to the unlock with the value that the call has on the lists,
and with the list as the call leaves it. -/
def Running (list : ListId → List PageId) (h : Heap PageId ListId) (c : ListCall) (l : ListId)
    (pc : FifoPc PageId) : Prop :=
  ∃ pc₀ g gf, c.start = some (l, pc₀) ∧ Agree l (c.pages ++ list l) g h ∧
    Ends l (c.pages ++ list l) pc g (c.seqRun list).1 gf ∧ Refines gf (only l ((c.seqRun list).2 l))

structure LockedInv (cfg : Config) (x : LockedSys Tid) : Prop where
  custody : Custody cfg x.sys
  owner : ∀ l a, x.owner l = some a ↔ ∃ pc, x.inside a = some (l, pc)
  inside : ∀ a l pc, x.inside a = some (l, pc) →
    ∃ c, x.sys.fifoCall a.label = some c ∧ Running x.sys.st.list x.heap c l pc
  /-- a list whose lock is free is linked as it should be -/
  free : ∀ l, x.owner l = none → LinkedAs l (x.sys.st.list l) x.heap
  /-- a page on no list has no links, unless a thread is putting it on one -/
  off : ∀ p, ¬ Held x.sys.st.list p →
    (∀ a l pc c, x.inside a = some (l, pc) → x.sys.fifoCall a.label = some c → p ∉ c.pages) →
    x.heap.page p = .unlinked

/-- What a call does to its list depends on this list only. -/
theorem FifoCall.seqRun_congr {c : ListCall} {l : ListId} {pc : FifoPc PageId}
    {list list' : ListId → List PageId} (hc : c.start = some (l, pc)) (hl : list' l = list l) :
    (c.seqRun list').1 = (c.seqRun list).1 ∧ (c.seqRun list').2 l = (c.seqRun list).2 l := by
  cases c <;> simp only [FifoCall.start, Option.some.injEq, Prod.mk.injEq, reduceCtorEq] at hc <;>
    obtain ⟨rfl, -⟩ := hc <;> simp [FifoCall.seqRun, hl]

/-- What other threads do does not matter. -/
theorem Running.congr {list list' : ListId → List PageId} {h h' : Heap PageId ListId}
    {c : ListCall} {l : ListId} {pc : FifoPc PageId} (hr : Running list h c l pc)
    (hl : list' l = list l) (hq : h'.queue l = h.queue l)
    (hp : ∀ p ∈ c.pages ++ list l, h'.page p = h.page p) : Running list' h' c l pc := by
  rcases hr with ⟨pc₀, g, gf, hc, ha, he, hgf⟩
  have hsame := FifoCall.seqRun_congr hc hl
  rw [Running, hl, hsame.1, hsame.2]
  exact ⟨pc₀, g, gf, hc, ⟨hq.trans ha.queue, fun p hpF => (hp p hpF).trans (ha.page p hpF)⟩, he,
    hgf⟩

/-- A list stays linked as long as its own pages do. -/
theorem LinkedAs.congr {l : ListId} {s : List PageId} {h h' : Heap PageId ListId}
    (hl : LinkedAs l s h) (hq : h'.queue l = h.queue l) (hp : ∀ p ∈ s, h'.page p = h.page p) :
    LinkedAs l s h' := by
  rcases hl with ⟨g, hr, ha⟩
  exact ⟨g, hr, hq.trans ha.queue, fun p hps => (hp p hps).trans (ha.page p hps)⟩

variable {x : LockedSys Tid} {a : Actor Tid} {l : ListId} {lbl : Label Tid}

/-- A thread inside a call owns the lock of the list. -/
theorem LockedInv.owner_of (hx : LockedInv cfg x) {pc : FifoPc PageId}
    (ha : x.inside a = some (l, pc)) : x.owner l = some a := (hx.owner l a).mpr ⟨pc, ha⟩

/-- Two threads between lock and unlock are so on two lists. -/
theorem LockedInv.lists_ne (hx : LockedInv cfg x) {b : Actor Tid} {k : ListId}
    {pc pc' : FifoPc PageId} (ha : x.inside a = some (l, pc)) (hb : x.inside b = some (k, pc'))
    (hab : b ≠ a) : k ≠ l := by
  rintro rfl
  have hown := (hx.owner_of ha).symm.trans (hx.owner_of hb)
  exact hab (Option.some.inj hown).symm

/-- At the unlock a thread has found what the call gives on the lists. -/
theorem LockedInv.answer (hx : LockedInv cfg x) {r : Option PageId}
    (ha : x.inside a = some (l, .done r)) : r = x.sys.answer a.label := by
  rcases hx.inside a l _ ha with ⟨c, hcall, pc₀, g, gf, hc, -, hends, -⟩
  simp only [Sys.answer, hcall, Option.bind_some]
  exact hends.done_eq.1.symm

/-- All locks are free. -/
def LockedSys.quiet (s : Sys Tid) (h : Heap PageId ListId) : LockedSys Tid :=
  ⟨s, h, fun _ => none, fun _ => none⟩

/-- With no thread inside a call the heap stands for the lists. -/
theorem lockedInv_quiet {s : Sys Tid} {h : Heap PageId ListId} (hs : Custody cfg s)
    (hr : Refines h s.st.list) : LockedInv cfg (LockedSys.quiet s h) :=
  ⟨hs, fun l a => by simp [LockedSys.quiet], fun a l pc ha => by simp [LockedSys.quiet] at ha,
    fun l _ => hr.linkedAs l, fun p hp _ => hr.page_off hp⟩

/-- With all locks free the heap stands for the lists. -/
theorem LockedInv.refines (hx : LockedInv cfg x) (hfree : ∀ l, x.owner l = none) :
    Refines x.heap x.sys.st.list := by
  have hexcl : Exclusive x.sys.st.list := by
    refine ⟨fun l => ?_, fun {i j p} hi hj => ?_⟩
    · rw [← Sys.entries_list]
      exact hx.custody.books.excl.nodup _
    · rw [← Sys.entries_list] at hi hj
      exact Holder.list.inj (hx.custody.books.excl.unique hi hj)
  refine refines_of_linkedAs hexcl (fun l => hx.free l (hfree l)) fun p hp => ?_
  refine hx.off p hp fun a l pc c ha _ => ?_
  exact absurd ((hx.owner_of ha).symm.trans (hfree l)) (by simp)

/-! ## Steps -/

variable [DecidableEq Tid] {numBatchs : Nat}

/-- A step of the system, without the heap. -/
def LockedSys.plain (cfg : Config) (numBatchs : Nat) (lbl : Label Tid) (x : LockedSys Tid) :
    Except LockedFault (LockedSys Tid) :=
  match step cfg numBatchs lbl x.sys with
  | .error f => .error (.prog f)
  | .ok y => .ok { x with sys := y }

def LockedSys.lock (a : Actor Tid) (l : ListId) (pc : FifoPc PageId) (x : LockedSys Tid) :
    LockedSys Tid :=
  { x with
    owner := Function.update x.owner l (some a)
    inside := Function.update x.inside a (some (l, pc)) }

def LockedSys.unlock (a : Actor Tid) (l : ListId) (x : LockedSys Tid) : LockedSys Tid :=
  { x with owner := Function.update x.owner l none, inside := Function.update x.inside a none }

/-- The next step of a thread: at a call it waits for the lock, or takes it; with the lock it
executes a statement; at the unlock the call takes effect on the lists. -/
def LockedSys.act (cfg : Config) (numBatchs : Nat) (a : Actor Tid) (x : LockedSys Tid) :
    Except LockedFault (LockedSys Tid) :=
  match x.inside a with
  | some (l, .done r) =>
    if r = x.sys.answer a.label then
      match x.plain cfg numBatchs a.label with
      | .error f => .error f
      | .ok y => .ok (y.unlock a l)
    else .error .answer
  | some (l, pc) =>
    match fifoStep l pc x.heap with
    | .error f => .error (.statement f)
    | .ok (pc', h) =>
      .ok { x with heap := h, inside := Function.update x.inside a (some (l, pc')) }
  | none =>
    match (x.sys.fifoCall a.label).bind FifoCall.start with
    | none => x.plain cfg numBatchs a.label
    | some (l, pc) => if x.owner l = none then .ok (x.lock a l pc) else .ok x

def lockedStep (cfg : Config) (numBatchs : Nat) : Label Tid → LockedSys Tid →
    Except LockedFault (LockedSys Tid)
  | .start t c, x => x.plain cfg numBatchs (.start t c)
  | .run t, x => x.act cfg numBatchs (.thread t)
  | .migrate, x => x.act cfg numBatchs .migrator

/-- A step of another thread leaves the call that a thread is about to make. -/
theorem step_fifoCall_other {x y : Sys Tid} {c : ListCall}
    (hs : step cfg numBatchs lbl x = .ok y) (ha : a.label ≠ lbl)
    (hc : x.fifoCall a.label = some c) : y.fifoCall a.label = some c := by
  -- only a step of the thread itself changes what it is about to call
  cases lbl with
  | start t call =>
    rcases step_start hs with rfl | ⟨hidle, rfl⟩
    · exact hc
    · cases a with
      | migrator => exact hc
      | thread u =>
        have hu : u ≠ t := by
          rintro rfl
          simp [Actor.label, Sys.fifoCall, hidle, Pc.fifoCall] at hc
        simpa [Actor.label, Sys.fifoCall, hu] using hc
  | run t =>
    rcases step_run hs with ⟨pc, ev, -, hthr, hmig, -⟩
    cases a with
    | migrator => simpa [Actor.label, Sys.fifoCall, hmig] using hc
    | thread u =>
      have hu : u ≠ t := fun hut => ha (by rw [hut]; rfl)
      simpa [Actor.label, Sys.fifoCall, hthr, hu] using hc
  | migrate =>
    rcases step_migrate hs with ⟨ev, -, hthr, -⟩
    cases a with
    | migrator => exact absurd rfl ha
    | thread u => simpa [Actor.label, Sys.fifoCall, hthr] using hc

/-- A step that makes no call. -/
theorem LockedInv.noCall (hx : LockedInv cfg x) (hcall : x.sys.fifoCall lbl = none) {z : Sys Tid}
    (hs : step cfg numBatchs lbl x.sys = .ok z) : LockedInv cfg { x with sys := z } := by
  have hlist : z.st.list = x.sys.st.list := by simpa [hcall, seqOn] using step_seqOn hs
  have hother : ∀ {b : Actor Tid} {c : ListCall}, x.sys.fifoCall b.label = some c →
      z.fifoCall b.label = some c := by
    intro b c hc
    refine step_fifoCall_other hs (fun hb => ?_) hc
    rw [hb, hcall] at hc
    cases hc
  refine ⟨hx.custody.step lbl hs, hx.owner, fun b k pc hb => ?_, fun k hk => ?_, fun p hp hpb => ?_⟩
  · rcases hx.inside b k pc hb with ⟨c, hc, hr⟩
    exact ⟨c, hother hc, hlist.symm ▸ hr⟩
  · simpa only [hlist] using hx.free k hk
  · simp only [hlist] at hp
    exact hx.off p hp fun b k pc c hb hc => hpb b k pc c hb (hother hc)

/-- A thread takes a lock that is free. -/
theorem LockedInv.lock (hx : LockedInv cfg x) {c : ListCall} {pc : FifoPc PageId}
    (hnone : x.inside a = none) (hcall : x.sys.fifoCall a.label = some c)
    (hc : c.start = some (l, pc)) (hl : x.owner l = none) : LockedInv cfg (x.lock a l pc) := by
  have hold : ∀ {b k pc'}, x.inside b = some (k, pc') → b ≠ a ∧ k ≠ l := by
    intro b k pc' hb
    refine ⟨fun he => ?_, fun he => ?_⟩
    · rw [he, hnone] at hb
      cases hb
    · rw [← he, hx.owner_of hb] at hl
      cases hl
  refine ⟨hx.custody, fun k b => ?_, fun b k pc' hb => ?_, fun k hk => ?_, fun p hp hpb => ?_⟩
  case refine_1 =>
    by_cases hk : k = l
    · subst hk
      simp only [LockedSys.lock, Function.update_self, Option.some.injEq]
      constructor
      · rintro rfl
        exact ⟨pc, by simp⟩
      · rintro ⟨pc', hb⟩
        by_cases hba : b = a
        · exact hba.symm
        · rw [Function.update_of_ne hba] at hb
          exact absurd rfl (hold hb).2
    · simp only [LockedSys.lock, Function.update_of_ne hk, hx.owner]
      by_cases hba : b = a
      · subst hba
        simp [hnone, Ne.symm hk]
      · simp [hba]
  case refine_2 =>
    by_cases hba : b = a
    · subst hba
      simp only [LockedSys.lock, Function.update_self, Option.some.injEq, Prod.mk.injEq] at hb
      rcases hb with ⟨rfl, rfl⟩
      refine ⟨c, hcall, ?_⟩
      rcases hx.free l hl with ⟨g, hr, ha⟩
      -- the page that is put on the list is on none, and no other thread has it
      have hpage : ∀ p ∈ c.pages, ¬ Held x.sys.st.list p ∧ x.heap.page p = .unlinked := by
        intro p hp
        have hhome := Sys.pages_held hx.custody.mig hcall hp
        have hoff : ¬ Held x.sys.st.list p := by
          rintro ⟨k, hk⟩
          rw [← Sys.entries_list] at hk
          exact absurd (hx.custody.books.excl.unique hhome hk) (b.holder_ne_list k)
        refine ⟨hoff, hx.off p hoff fun b' k pc' d hb' hd hpd => ?_⟩
        have hsame := hx.custody.books.excl.unique hhome (Sys.pages_held hx.custody.mig hd hpd)
        exact (hold hb').1 (Actor.holder_inj hsame).symm
      have hok : c.Ok (only l (x.sys.st.list l)) := by
        have hokx := hx.custody.fifoCall_ok hcall
        cases c with
        | dequeue k => trivial
        | remove k p => exact absurd hcall (x.sys.fifoCall_ne_remove _ k p)
        | enqueue k p =>
          intro hp
          exact hokx ⟨l, held_only.mp hp⟩
      have hlen : (x.sys.st.list l).length + 1 < 2 ^ 64 := by
        have hle := hx.custody.length_le l
        have htotal := cfg.two_mul_total_lt
        omega
      rcases FifoCall.ends hc hr hok hlen with ⟨gf, hends, hgf⟩
      have honly := FifoCall.seqRun_only x.sys.st.list hc
      rw [honly.1] at hends
      rw [honly.2] at hgf
      refine ⟨pc, g, gf, hc, ⟨ha.queue, fun p hp => ?_⟩, hends, hgf⟩
      rcases List.mem_append.mp hp with hp | hp
      · have hpl : ¬ Held (only l (x.sys.st.list l)) p := fun hh =>
          (hpage p hp).1 ⟨l, held_only.mp hh⟩
        rw [show (x.lock b l pc).heap = x.heap from rfl, (hpage p hp).2, hr.page_off hpl]
      · exact ha.page p hp
    · simp only [LockedSys.lock, Function.update_of_ne hba] at hb
      exact hx.inside b k pc' hb
  case refine_3 =>
    have hkl : k ≠ l := by
      rintro rfl
      simp [LockedSys.lock] at hk
    simp only [LockedSys.lock, Function.update_of_ne hkl] at hk
    exact hx.free k hk
  case refine_4 =>
    refine hx.off p hp fun b k pc' d hb hd => hpb b k pc' d ?_ hd
    simp only [LockedSys.lock, Function.update_of_ne (hold hb).1, hb]

/-- A thread executes a statement. -/
theorem LockedInv.statement (hx : LockedInv cfg x) {pc : FifoPc PageId}
    (ha : x.inside a = some (l, pc)) (hpc : ∀ r, pc ≠ .done r) :
    ∃ pc' h, fifoStep l pc x.heap = .ok (pc', h) ∧
      LockedInv cfg { x with
        heap := h, inside := Function.update x.inside a (some (l, pc')) } := by
  rcases hx.inside a l pc ha with ⟨c, hcall, pc₀, g, gf, hc, hagree, hends, hgf⟩
  rcases hends.step hpc with ⟨pc', g', ht, hg, hends'⟩
  rcases fifoStep_local ht hagree hg with ⟨h, hh, hagree', hout⟩
  refine ⟨pc', h, hh, hx.custody, fun k b => ?_, fun b k pc₁ hb => ?_, fun k hk => ?_,
    fun p hp hpb => ?_⟩
  -- the lock stays with the thread
  case refine_1 =>
    rw [show ({ x with heap := h, inside := Function.update x.inside a (some (l, pc')) } :
      LockedSys Tid).owner = x.owner from rfl, hx.owner]
    by_cases hba : b = a
    · subst hba
      simp [ha]
    · simp [hba]
  -- another thread is inside another list, and the two have no page in common
  case refine_2 =>
    by_cases hba : b = a
    · subst hba
      simp only [Function.update_self, Option.some.injEq, Prod.mk.injEq] at hb
      rcases hb with ⟨rfl, rfl⟩
      exact ⟨c, hcall, pc₀, g', gf, hc, hagree', hends', hgf⟩
    · simp only [Function.update_of_ne hba] at hb
      rcases hx.inside b k pc₁ hb with ⟨d, hd, hr⟩
      have hkl := hx.lists_ne ha hb hba
      refine ⟨d, hd, hr.congr rfl (hout.queue k hkl) fun p hp => hout.page p ?_⟩
      exact hx.custody.footprint_disjoint hd hcall hba hkl hp
  -- a list whose lock is free is not this one
  case refine_3 =>
    have hkl : k ≠ l := by
      rintro rfl
      exact absurd ((hx.owner_of ha).symm.trans hk) (by simp)
    refine (hx.free k hk).congr (hout.queue k hkl) fun p hp => hout.page p fun hpF => ?_
    exact hx.custody.footprint_free hcall hkl hpF hp
  -- the statement writes the links of the pages of its call and of its list only
  case refine_4 =>
    have hpa : p ∉ c.pages := hpb a l pc' c (by simp) hcall
    have hpF : p ∉ c.pages ++ x.sys.st.list l := by
      rw [List.mem_append, not_or]
      exact ⟨hpa, fun hpl => hp ⟨l, hpl⟩⟩
    rw [hout.page p hpF]
    refine hx.off p hp fun b k pc₁ d hb hd => ?_
    by_cases hba : b = a
    · subst hba
      obtain rfl := Option.some.inj (hcall.symm.trans hd)
      exact hpa
    · exact hpb b k pc₁ d (by simpa [hba] using hb) hd

/-- The call takes effect, and the thread gives the lock back. -/
theorem LockedInv.unlock (hx : LockedInv cfg x) {r : Option PageId}
    (ha : x.inside a = some (l, .done r)) {z : Sys Tid}
    (hs : step cfg numBatchs a.label x.sys = .ok z) :
    LockedInv cfg (LockedSys.unlock a l { x with sys := z }) := by
  rcases hx.inside a l _ ha with ⟨c, hcall, pc₀, g, gf, hc, hagree, hends, hgf⟩
  obtain ⟨-, rfl⟩ := hends.done_eq
  have hlist : z.st.list = (c.seqRun x.sys.st.list).2 := by
    simpa [hcall, seqOn] using step_seqOn hs
  have hrest : ∀ {k}, k ≠ l → z.st.list k = x.sys.st.list k := fun hk => by
    rw [hlist, FifoCall.seqRun_other hc hk]
  have hinside : ∀ {b k pc}, (LockedSys.unlock a l { x with sys := z }).inside b = some (k, pc) →
      b ≠ a ∧ x.inside b = some (k, pc) := by
    intro b k pc hb
    have hba : b ≠ a := by
      rintro rfl
      simp [LockedSys.unlock] at hb
    exact ⟨hba, by simpa [LockedSys.unlock, hba] using hb⟩
  have hpage : ∀ p ∈ z.st.list l, p ∈ x.sys.footprint c l := by
    intro p hp
    rw [hlist] at hp
    cases c with
    | remove k q => cases hc
    | enqueue k q =>
      obtain ⟨rfl, -⟩ := Prod.mk.inj (Option.some.inj hc)
      simpa [FifoCall.seqRun, Sys.footprint, FifoCall.pages, or_comm] using hp
    | dequeue k =>
      obtain ⟨rfl, -⟩ := Prod.mk.inj (Option.some.inj hc)
      simp only [FifoCall.seqRun, Function.update_self] at hp
      exact List.mem_of_mem_tail hp
  refine ⟨hx.custody.step _ hs, fun k b => ?_, fun b k pc hb => ?_, fun k hk => ?_,
    fun p hp hpb => ?_⟩
  -- the owner
  case refine_1 =>
    by_cases hk : k = l
    · subst hk
      simp only [LockedSys.unlock, Function.update_self, reduceCtorEq, false_iff]
      rintro ⟨pc, hb⟩
      rcases hinside hb with ⟨hba, hb'⟩
      exact hx.lists_ne ha hb' hba rfl
    · simp only [LockedSys.unlock, Function.update_of_ne hk, hx.owner]
      by_cases hba : b = a
      · subst hba
        simp [ha, Ne.symm hk]
      · simp [hba]
  -- the threads still inside
  case refine_2 =>
    rcases hinside hb with ⟨hba, hb'⟩
    rcases hx.inside b k pc hb' with ⟨d, hd, hr⟩
    have hother := step_fifoCall_other hs (fun he => hba (Actor.label_inj he)) hd
    exact ⟨d, hother, hr.congr (hrest (hx.lists_ne ha hb' hba)) rfl fun _ _ => rfl⟩
  -- the lists without an owner: this one as the call leaves it, the others as before
  case refine_3 =>
    by_cases hkl : k = l
    · subst hkl
      refine ⟨gf, ?_, hagree.queue, fun p hp => hagree.page p (hpage p hp)⟩
      rw [show (LockedSys.unlock a k { x with sys := z }).sys.st.list k = z.st.list k from rfl,
        hlist]
      exact hgf
    · have hfree : x.owner k = none := by simpa [LockedSys.unlock, hkl] using hk
      rw [show (LockedSys.unlock a l { x with sys := z }).sys.st.list k = z.st.list k from rfl,
        hrest hkl]
      exact hx.free k hfree
  case refine_4 =>
    by_cases hpF : p ∈ x.sys.footprint c l
    · -- the thread has cleared the links
      have hgone : ¬ Held (only l ((c.seqRun x.sys.st.list).2 l)) p := by
        rw [held_only, ← hlist]
        exact fun hpl => hp ⟨l, hpl⟩
      exact (hagree.page p hpF).trans (hgf.page_off hgone)
    · refine hx.off p ?_ fun b k pc d hb hd => ?_
      · rintro ⟨k, hk⟩
        by_cases hkl : k = l
        · exact hpF (List.mem_append_right _ (hkl ▸ hk))
        · exact hp ⟨k, (hrest hkl).symm ▸ hk⟩
      · by_cases hba : b = a
        · subst hba
          obtain rfl := Option.some.inj (hcall.symm.trans hd)
          exact fun hpc => hpF (List.mem_append_left _ hpc)
        · refine hpb b k pc d (by simpa [LockedSys.unlock, hba] using hb) ?_
          exact step_fifoCall_other hs (fun he => hba (Actor.label_inj he)) hd

/-- A step that is one of the system. -/
theorem LockedInv.plain (hx : LockedInv cfg x) (hcall : x.sys.fifoCall lbl = none) :
    (∃ y, x.plain cfg numBatchs lbl = .ok y ∧ LockedInv cfg y ∧
        (y.sys = x.sys ∨ step cfg numBatchs lbl x.sys = .ok y.sys)) ∨
      ∃ f, x.plain cfg numBatchs lbl = .error (.prog f) ∧
        step cfg numBatchs lbl x.sys = .error f := by
  cases hs : step cfg numBatchs lbl x.sys with
  | error f => exact .inr ⟨f, by simp only [LockedSys.plain, hs], rfl⟩
  | ok z =>
    exact .inl ⟨_, by simp only [LockedSys.plain, hs], hx.noCall hcall hs, .inr rfl⟩

/-- A statement of a call keeps the invariant; it is a step of the system at the end of the call
and none before. -/
theorem LockedInv.act (hx : LockedInv cfg x) (a : Actor Tid) :
    (∃ y, x.act cfg numBatchs a = .ok y ∧ LockedInv cfg y ∧
        (y.sys = x.sys ∨ step cfg numBatchs a.label x.sys = .ok y.sys)) ∨
      ∃ f, x.act cfg numBatchs a = .error (.prog f) ∧
        step cfg numBatchs a.label x.sys = .error f := by
  -- the thread is outside the calls: it takes the lock, waits for it, or makes no call
  cases ha : x.inside a with
  | none =>
    cases hcall : x.sys.fifoCall a.label with
    | none => simpa only [LockedSys.act, ha, hcall, Option.bind_none] using hx.plain hcall
    | some c =>
      rcases Sys.fifoCall_start hcall with ⟨l, pc, hc⟩
      left
      by_cases hl : x.owner l = none
      · exact ⟨_, by simp only [LockedSys.act, ha, hcall, Option.bind_some, hc, hl, if_true],
          hx.lock ha hcall hc hl, .inl rfl⟩
      · exact ⟨x, by simp only [LockedSys.act, ha, hcall, Option.bind_some, hc, hl, if_false],
          hx, .inl rfl⟩
  | some at_ =>
    rcases at_ with ⟨l, pc⟩
    -- inside: at the unlock the step of the system is made, before it none
    by_cases hdone : ∃ r, pc = .done r
    · rcases hdone with ⟨r, rfl⟩
      have hanswer := hx.answer ha
      cases hs : step cfg numBatchs a.label x.sys with
      | error f =>
        right
        exact ⟨f, by simp only [LockedSys.act, ha, hanswer, if_true, LockedSys.plain, hs], rfl⟩
      | ok z =>
        left
        exact ⟨_, by simp only [LockedSys.act, ha, hanswer, if_true, LockedSys.plain, hs],
          hx.unlock ha hs, .inr rfl⟩
    · rcases hx.statement ha fun r hr => hdone ⟨r, hr⟩ with ⟨pc', h, hh, hinv⟩
      left
      refine ⟨_, ?_, hinv, .inl rfl⟩
      unfold LockedSys.act
      split
      · rename_i l' r heq
        rw [ha] at heq
        exact absurd ⟨r, (Prod.mk.inj (Option.some.inj heq)).2⟩ hdone
      · rename_i l' pc₁ _ heq
        rw [ha] at heq
        obtain ⟨rfl, rfl⟩ := Prod.mk.inj (Option.some.inj heq)
        simp only [hh]
      · rename_i heq
        rw [ha] at heq
        cases heq

/-- One step of the threads is one step of the system on the lists or none, and stops where that
one stops. -/
theorem LockedInv.step (numBatchs : Nat) (hx : LockedInv cfg x) (lbl : Label Tid) :
    (∃ y, lockedStep cfg numBatchs lbl x = .ok y ∧ LockedInv cfg y ∧
        (y.sys = x.sys ∨ Hemem.step cfg numBatchs lbl x.sys = .ok y.sys)) ∨
      ∃ f, lockedStep cfg numBatchs lbl x = .error (.prog f) ∧
        Hemem.step cfg numBatchs lbl x.sys = .error f := by
  cases lbl with
  | start t c => exact hx.plain rfl
  | run t => exact hx.act (.thread t)
  | migrate => exact hx.act .migrator

/-! ## Runs -/

/-- Every interleaving of the statements does what some of its steps do on the lists: no
assertion of `fifo.c` fails, no pointer is `NULL` where it is followed, every call returns the
page that it returns on the lists, and a list whose lock is free is linked as it should be. -/
theorem locked_pebsInit (cfg : Config) (numBatchs : Nat) (labels : List (Label Tid)) :
    ∃ rs h, Heap.empty.runCalls (initCalls cfg) = .ok (rs, h) ∧
      ∃ labels', labels'.Sublist labels ∧
        ((∃ y, runs (lockedStep cfg numBatchs) labels (.quiet (Sys.init cfg) h) = .ok y ∧
            runs (step cfg numBatchs) labels' (Sys.init cfg) = .ok y.sys ∧
            (∀ l, y.owner l = none → LinkedAs l (y.sys.st.list l) y.heap) ∧
            ((∀ l, y.owner l = none) → Refines y.heap y.sys.st.list)) ∨
          ∃ f, runs (lockedStep cfg numBatchs) labels (.quiet (Sys.init cfg) h) = .error (.prog f) ∧
            runs (step cfg numBatchs) labels' (Sys.init cfg) = .error f) := by
  rcases heap_pebsInit cfg with ⟨rs, h, hrun, hr⟩
  have hinit : LockedInv cfg (.quiet (Sys.init cfg : Sys Tid) h) :=
    lockedInv_quiet (wf_pebsInit cfg).custody_quiet hr
  rcases runs_simulates (step cfg numBatchs) LockedSys.sys LockedFault.prog
    (fun x lbl hx => hx.step numBatchs lbl) labels hinit with ⟨labels', hsub, hruns⟩
  refine ⟨rs, h, hrun, labels', hsub, hruns.imp_left ?_⟩
  rintro ⟨y, hy, hinv, hsys⟩
  exact ⟨y, hy, hsys, hinv.free, hinv.refines⟩

/-! ## Every lock is given back -/

/-- Who takes the step. -/
def Label.actor : Label Tid → Option (Actor Tid)
  | .start _ _ => none
  | .run t => some (.thread t)
  | .migrate => some .migrator

theorem plain_inside {lbl : Label Tid} {x y : LockedSys Tid}
    (hs : x.plain cfg numBatchs lbl = .ok y) : y.inside = x.inside := by
  unfold LockedSys.plain at hs
  split at hs
  · cases hs
  · obtain rfl := Except.ok.inj hs
    rfl

/-- The steps of others leave a thread where it is. -/
theorem act_inside {a b : Actor Tid} {x y : LockedSys Tid} (hab : a ≠ b)
    (hs : x.act cfg numBatchs b = .ok y) : y.inside a = x.inside a := by
  unfold LockedSys.act at hs
  split at hs
  · split at hs
    · split at hs
      · cases hs
      · rename_i z hz
        obtain rfl := Except.ok.inj hs
        simp [LockedSys.unlock, hab, plain_inside hz]
    · cases hs
  · split at hs
    · cases hs
    · obtain rfl := Except.ok.inj hs
      simp [hab]
  · split at hs
    · exact congrFun (plain_inside hs) a
    · split at hs <;> obtain rfl := Except.ok.inj hs
      · simp [LockedSys.lock, hab]
      · rfl

/-- Another thread does not move a thread within its call. -/
theorem lockedStep_inside {a : Actor Tid} {lbl : Label Tid} {x y : LockedSys Tid}
    (ha : lbl.actor ≠ some a) (hs : lockedStep cfg numBatchs lbl x = .ok y) :
    y.inside a = x.inside a := by
  cases lbl with
  | start t c => exact congrFun (plain_inside hs) a
  | run t => exact act_inside (fun hat => ha (by rw [hat]; rfl)) hs
  | migrate => exact act_inside (fun hat => ha (by rw [hat]; rfl)) hs

/-- The label of a thread is a step of this thread. -/
theorem lockedStep_actor {a : Actor Tid} {lbl : Label Tid} (ha : lbl.actor = some a)
    (x : LockedSys Tid) :
    lockedStep cfg numBatchs lbl x = x.act cfg numBatchs a := by
  cases lbl <;> simp only [Label.actor, Option.some.injEq, reduceCtorEq] at ha <;> subst ha <;> rfl

/-- A turn of a thread that holds the lock: one statement is executed, or the lock is free. -/
theorem LockedInv.turn {x y : LockedSys Tid} (hx : LockedInv cfg x) {pc : FifoPc PageId}
    (ha : x.inside a = some (l, pc)) (hs : x.act cfg numBatchs a = .ok y) :
    y.owner l = none ∨ ∃ pc', y.inside a = some (l, pc') ∧ pc'.left < pc.left := by
  by_cases hdone : ∃ r, pc = .done r
  · rcases hdone with ⟨r, rfl⟩
    simp only [LockedSys.act, ha, hx.answer ha, if_true] at hs
    split at hs
    · cases hs
    · obtain rfl := Except.ok.inj hs
      exact .inl (by simp [LockedSys.unlock])
  · have hpc : ∀ r, pc ≠ .done r := fun r hr => hdone ⟨r, hr⟩
    rcases hx.statement ha hpc with ⟨pc', h, hh, -⟩
    have hact : x.act cfg numBatchs a = .ok { x with
        heap := h, inside := Function.update x.inside a (some (l, pc')) } := by
      simp only [LockedSys.act, ha, hh]
    rw [hact] at hs
    obtain rfl := Except.ok.inj hs
    exact .inr ⟨pc', by simp, fifoStep_left hpc hh⟩

/-- By induction on the schedule: each turn of the holder brings it closer to the unlock. -/
theorem LockedInv.released {labels : List (Label Tid)} {x : LockedSys Tid} (hx : LockedInv cfg x)
    {pc : FifoPc PageId} (ha : x.inside a = some (l, pc))
    (hturns : pc.left < (labels.filterMap Label.actor).count a) :
    (∃ pre y, pre <+: labels ∧ runs (lockedStep cfg numBatchs) pre x = .ok y ∧ y.owner l = none) ∨
      ∃ f, runs (lockedStep cfg numBatchs) labels x = .error (.prog f) := by
  induction labels generalizing x pc with
  | nil => simp at hturns
  | cons lbl labels ih =>
    rcases hx.step numBatchs lbl with ⟨y, hy, hinv, -⟩ | ⟨f, hf, -⟩
    -- the rest of the schedule, when the thread is still inside after this step
    · have hprefix : ∀ {pc'}, y.inside a = some (l, pc') →
          pc'.left < (labels.filterMap Label.actor).count a →
          (∃ pre z, pre <+: lbl :: labels ∧ runs (lockedStep cfg numBatchs) pre x = .ok z ∧
              z.owner l = none) ∨
            ∃ f, runs (lockedStep cfg numBatchs) (lbl :: labels) x = .error (.prog f) := by
        intro pc' ha' hturns'
        rcases ih hinv ha' hturns' with ⟨pre, z, hpre, hz, hfree⟩ | ⟨f, hf⟩
        · refine .inl ⟨lbl :: pre, z, ?_, ?_, hfree⟩
          · exact List.cons_prefix_cons.mpr ⟨rfl, hpre⟩
          · simpa only [runs, hy] using hz
        · exact .inr ⟨f, by simpa only [runs, hy] using hf⟩
      by_cases hlbl : lbl.actor = some a
      · have hcount : ((lbl :: labels).filterMap Label.actor).count a =
            (labels.filterMap Label.actor).count a + 1 := by
          rw [List.filterMap_cons_some hlbl, List.count_cons_self]
        rw [lockedStep_actor hlbl] at hy
        rcases hx.turn ha hy with hfree | ⟨pc', ha', hleft⟩
        · refine .inl ⟨[lbl], y, ⟨labels, rfl⟩, ?_, hfree⟩
          simp only [runs, lockedStep_actor hlbl, hy]
        · exact hprefix ha' (by omega)
      -- a turn of somebody else does not count
      · have hcount : ((lbl :: labels).filterMap Label.actor).count a =
            (labels.filterMap Label.actor).count a := by
          cases hact : lbl.actor with
          | none => rw [List.filterMap_cons_none hact]
          | some b =>
            have hba : b ≠ a := fun hba => hlbl (hba ▸ hact)
            rw [List.filterMap_cons_some hact, List.count_cons_of_ne hba]
        refine hprefix ((lockedStep_inside hlbl hy).trans ha) ?_
        rw [← hcount]
        exact hturns
    · exact .inr ⟨f, by simp only [runs, hf]⟩

/-- A thread that holds a `list_lock` gives it back within eleven steps of its own, whatever the
others do in between. -/
theorem locked_released {labels labels' : List (Label Tid)} {rs : List (Option PageId)}
    {h : Heap PageId ListId} {y : LockedSys Tid} {l : ListId} {a : Actor Tid}
    (hinit : Heap.empty.runCalls (initCalls cfg) = .ok (rs, h))
    (hy : runs (lockedStep cfg numBatchs) labels (.quiet (Sys.init cfg) h) = .ok y)
    (hl : y.owner l = some a) (hturns : 11 ≤ (labels'.filterMap Label.actor).count a) :
    (∃ pre z, pre <+: labels' ∧ runs (lockedStep cfg numBatchs) pre y = .ok z ∧
        z.owner l = none) ∨
      ∃ f, runs (lockedStep cfg numBatchs) labels' y = .error (.prog f) := by
  rcases heap_pebsInit cfg with ⟨rs', h', hrun, hr⟩
  obtain ⟨rfl, rfl⟩ := Prod.mk.inj (Except.ok.inj (hinit.symm.trans hrun))
  have hquiet : LockedInv cfg (.quiet (Sys.init cfg : Sys Tid) h) :=
    lockedInv_quiet (wf_pebsInit cfg).custody_quiet hr
  have hinv : LockedInv cfg y := by
    refine of_runs (fun x lbl x' hx hs => ?_) hquiet hy
    rcases hx.step numBatchs lbl with ⟨z, hz, hzinv, -⟩ | ⟨f, hf, -⟩
    · obtain rfl := Except.ok.inj (hs.symm.trans hz)
      exact hzinv
    · rw [hf] at hs
      cases hs
  rcases (hinv.owner l a).mp hl with ⟨pc, ha⟩
  have hleft : pc.left ≤ 10 := by
    cases pc <;> simp [FifoPc.left]
  exact hinv.released ha (by omega)

/-- Two faults at the same time: the second thread waits while the first takes its page. -/
def waitingRun : List (Label Bool) :=
  [.start false (.missingFault 0x40000000), .start true (.missingFault 0x80000000), .run false,
    .run true, .run false, .run true]

def smallHeap : Heap PageId ListId :=
  ((Heap.empty.runCalls (initCalls smallConfig)).toOption.map Prod.snd).getD .empty

def waiting : LockedSys Bool :=
  let x := .quiet (Sys.init smallConfig) smallHeap
  (runs (lockedStep smallConfig 1) waitingRun x).toOption.getD x

/-- The waiting thread has the list after the other has released it. -/
theorem locked_released_waiting :
    waiting.owner dramFreeList = some (.thread false) ∧
      (waiting.sys.fifoCall (.run true)).isSome ∧ waiting.inside (.thread true) = none ∧
      ∃ pre z, pre <+: List.replicate 11 (Label.run false) ∧
        runs (lockedStep smallConfig 1) pre waiting = .ok z ∧ z.owner dramFreeList = none := by
  have hinit : ∃ rs, Heap.empty.runCalls (initCalls smallConfig) = .ok (rs, smallHeap) := ⟨_, rfl⟩
  have hrun : runs (lockedStep smallConfig 1) waitingRun
      (.quiet (Sys.init smallConfig) smallHeap) = .ok waiting := rfl
  have howner : waiting.owner dramFreeList = some (.thread false) := by decide +kernel
  refine ⟨howner, by decide +kernel, by decide +kernel, ?_⟩
  rcases hinit with ⟨rs, hinit⟩
  have hturns : 11 ≤
      ((List.replicate 11 (Label.run false)).filterMap Label.actor).count (.thread false) := by
    decide
  rcases locked_released hinit hrun howner hturns with hpre | ⟨f, hf⟩
  · exact hpre
  · have hsome : (runs (lockedStep smallConfig 1) (List.replicate 11 (Label.run false))
        waiting).toOption.isSome = true := by decide +kernel
    rw [hf] at hsome
    cases hsome

end Hemem
