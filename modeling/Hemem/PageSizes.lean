import Hemem.Batch

/-!
# Hemem.PageSizes — the length each page of a batch is remapped with

The two loops of `hemem_migrate_*` with a log of the lengths they pass to the copy, to
`libc_mmap` and to `UFFDIO_REGISTER`. The second loops of `hemem_migrate_up` and
`hemem_migrate_nvm` ask every page for its size. Those of `hemem_migrate_down` and
`hemem_migrate_dram` go on with the `pagesize` of the first loop, which is the size of the last
page, and so a batch of pages of one type is all that they remap as the others do.
-/

namespace Hemem

open Lib

variable {cfg : Config} {d : Dir} {src dst : Tier} {stale : Option Nat}
  {f : HememPage → HememPage} {ms : List Move} {s s' : St}

/-! ## The loops with their log -/

/-- The lengths of a run, one for each page of the batch, in its order. -/
structure Lengths where
  copied : List Nat
  mapped : List Nat
  registered : List Nat
deriving DecidableEq, Repr

/-- `copyPage` with the length of its copy. -/
def copyPageLog (cfg : Config) (src dst : Tier) (m : Move) (s : St) : Except Fault (Nat × St) := do
  checkMove cfg src dst m s
  let pagesize := ptToPagesize (s.page m.1).pt
  .ok (pagesize, copySlot src (s.page m.1).devdaxOffset dst m.2 pagesize s)

/-- The first loop; the result carries the last value of `pagesize` too. -/
def copyLoopLog (cfg : Config) (src dst : Tier) :
    List Move → Nat → St → Except Fault (Nat × List Nat × St)
  | [], pagesize, s => .ok (pagesize, [], s)
  | m :: ms, _, s => do
    let (n, s') ← copyPageLog cfg src dst m s
    let (pagesize, copied, s'') ← copyLoopLog cfg src dst ms (ptToPagesize (s.page m.1).pt) s'
    .ok (pagesize, n :: copied, s'')

/-- `remapPage` with the lengths of `libc_mmap` and of `UFFDIO_REGISTER`. -/
def remapPageLog (dst : Tier) (stale : Option Nat) (f : HememPage → HememPage) (m : Move)
    (s : St) : Except Fault ((Nat × Nat) × St) := do
  let pagesize := remapLength stale m.1 s
  let va := (s.page m.1).va
  let s := mmapFixed va pagesize dst m.2 s
  check (va % pageSize == 0) .vaAssert
  let s ← uffdioRegister va pagesize s
  .ok ((pagesize, pagesize),
    s.modPage m.1 fun g => { f g with inDram := dst.inDram, devdaxOffset := m.2 })

def remapLoopLog (dst : Tier) (stale : Option Nat) (f : HememPage → HememPage) :
    List Move → St → Except Fault (List (Nat × Nat) × St)
  | [], s => .ok ([], s)
  | m :: ms, s => do
    let (n, s) ← remapPageLog dst stale f m s
    let (ns, s) ← remapLoopLog dst stale f ms s
    .ok (n :: ns, s)

/-- The common body of the four functions; `stale` is what becomes of `pagesize` between the
two loops. -/
def migrateLog (cfg : Config) (src dst : Tier) (stale : Nat → Option Nat)
    (f : HememPage → HememPage) (ms : List Move) (s : St) : Except Fault (Lengths × St) := do
  let (pagesize, copied, s) ← copyLoopLog cfg src dst ms 0 s
  let (ns, s) ← remapLoopLog dst (stale pagesize) f ms s
  .ok (⟨copied, ns.map Prod.fst, ns.map Prod.snd⟩, s)

def hememMigrateUpLog (cfg : Config) :=
  migrateLog cfg .nvm .dram (fun _ => none) fun g => { g with migrationsUp := g.migrationsUp + 1 }

def hememMigrateDownLog (cfg : Config) :=
  migrateLog cfg .dram .nvm some fun g => { g with migrationsDown := g.migrationsDown + 1 }

def hememMigrateDramLog (cfg : Config) := migrateLog cfg .dram .dram some id

def hememMigrateNvmLog (cfg : Config) := migrateLog cfg .nvm .nvm (fun _ => none) id

def hememMigrateLog (cfg : Config) : Dir → List Move → St → Except Fault (Lengths × St)
  | .dramToDram => hememMigrateDramLog cfg
  | .dramToNvm => hememMigrateDownLog cfg
  | .nvmToDram => hememMigrateUpLog cfg
  | .nvmToNvm => hememMigrateNvmLog cfg

/-! ## The log and the run -/

/-- The log of a copy has the size of its page. -/
theorem copyPageLog_eq (m : Move) : copyPageLog cfg src dst m s =
    (copyPage cfg src dst m s).map fun s' => (ptToPagesize (s.page m.1).pt, s') := by
  simp only [copyPageLog, copyPage, map_bind]
  rfl

/-- The lengths of the first loop are the sizes of the pages. -/
theorem copyLoopLog_eq {n : Nat} : copyLoopLog cfg src dst ms n s =
    (copyLoop cfg src dst ms n s).map fun r =>
      (r.1, ms.map fun m => ptToPagesize (s.page m.1).pt, r.2) := by
  induction ms generalizing n s with
  | nil => rfl
  | cons m ms ih =>
    simp only [copyLoopLog, copyLoop, copyPageLog_eq, map_bind]
    cases hcopy : copyPage cfg src dst m s with
    | error e => rfl
    | ok s₁ =>
      -- a copy changes no descriptor, so the sizes are those before the loop
      have hpage : s₁.page = s.page := by
        rw [(copyPage_ok.mp hcopy).2, copySlot_page]
      simp only [Except.map, bind, Except.bind, ih, hpage]
      cases copyLoop cfg src dst ms (ptToPagesize (s.page m.1).pt) s₁ <;> rfl

/-- That of a remap has the length that it is made with. -/
theorem remapPageLog_eq (m : Move) : remapPageLog dst stale f m s =
    (remapPage dst stale f m s).map fun s' =>
      ((remapLength stale m.1 s, remapLength stale m.1 s), s') := by
  simp only [remapPageLog, remapPage, map_bind]
  rfl

/-- Remapping a page leaves all page types as they are. -/
theorem remapPage_pt (hf : ∀ g, (f g).pt = g.pt) {m : Move}
    (h : remapPage dst stale f m s = .ok s') (p : PageId) : (s'.page p).pt = (s.page p).pt := by
  simp only [remapPage, uffdioRegister, bind_eq_ok, Except.ok.injEq] at h
  rcases h with ⟨-, -, s₁, ⟨-, -, rfl⟩, rfl⟩
  by_cases hp : p = m.1
  · rw [hp, St.modPage_page, Function.update_self]
    exact hf _
  · rw [St.modPage_page, Function.update_of_ne hp]
    rfl

/-- The second loop logs a length for every page. -/
theorem remapLoopLog_eq (hf : ∀ g, (f g).pt = g.pt) : remapLoopLog dst stale f ms s =
    (remapLoop dst stale f ms s).map fun s' =>
      (ms.map fun m => (remapLength stale m.1 s, remapLength stale m.1 s), s') := by
  induction ms generalizing s with
  | nil => rfl
  | cons m ms ih =>
    simp only [remapLoopLog, remapLoop, remapPageLog_eq, map_bind]
    cases hremap : remapPage dst stale f m s with
    | error e => rfl
    | ok s₁ =>
      -- remapping changes descriptors, but not their types
      have hlen : ∀ p, remapLength stale p s₁ = remapLength stale p s := by
        intro p
        rw [remapLength, remapPage_pt hf hremap, remapLength]
      simp only [Except.map, bind, Except.bind, ih, hlen]
      cases remapLoop dst stale f ms s₁ <;> rfl

/-- The lengths of a run whose second loop uses `stale`. -/
def lengthsOf (s : St) (ms : List Move) (stale : Option Nat) : Lengths where
  copied := ms.map fun m => ptToPagesize (s.page m.1).pt
  mapped := ms.map fun m => remapLength stale m.1 s
  registered := ms.map fun m => remapLength stale m.1 s

section Body

variable {stale : Nat → Option Nat} {l : Lengths} (hf : ∀ g, (f g).pt = g.pt)

include hf in
/-- Without its log it is the function, and the log is known. -/
theorem migrateLog_eq : migrateLog cfg src dst stale f ms s =
    (copyLoop cfg src dst ms 0 s >>= fun r => remapLoop dst (stale r.1) f ms r.2).map
      fun s' => (lengthsOf s ms (stale (lastSize s ms 0)), s') := by
  rw [migrateLog, copyLoopLog_eq, map_bind]
  cases hcopy : copyLoop cfg src dst ms 0 s with
  | error e => rfl
  | ok r =>
    obtain rfl := (copyLoop_iff.mp hcopy).2
    have hlen : ∀ t p, remapLength t p (s.copyAll src dst ms) = remapLength t p s := by
      intro t p
      rw [remapLength, copyAll_page, remapLength]
    simp only [Except.map, bind, Except.bind, remapLoopLog_eq hf, hlen]
    cases remapLoop dst (stale (lastSize s ms 0)) f ms (s.copyAll src dst ms) with
    | error e => rfl
    | ok s' => simp [lengthsOf]

end Body

/-- The four functions with the values of their direction. -/
theorem hememMigrateLog_def (cfg : Config) (d : Dir) :
    hememMigrateLog cfg d = migrateLog cfg d.src d.dst d.staleSize (bump d) := by
  cases d <;> rfl

theorem bump_pt (d : Dir) (g : HememPage) : (bump d g).pt = g.pt := (bump_va_pt d g).2

/-- Without its log, a run is that of the function. -/
theorem hememMigrateLog_erase (cfg : Config) (d : Dir) (ms : List Move) (s : St) :
    (hememMigrateLog cfg d ms s).map Prod.snd = hememMigrate cfg d ms s := by
  rw [hememMigrateLog_def, migrateLog_eq (bump_pt d), hememMigrate_def]
  cases copyLoop cfg d.src d.dst ms 0 s >>= fun r =>
    remapLoop d.dst (d.staleSize r.1) (bump d) ms r.2 <;> rfl

/-! ## Own sizes -/

/-- The four functions but for the lengths of the second loop: each page has its own. -/
def migrateOwn (cfg : Config) (d : Dir) : List Move → St → Except Fault (Lengths × St) :=
  migrateLog cfg d.src d.dst (fun _ => none) (bump d)

/-- Every page is copied, mapped and registered with its own size, and the function differs
from the others in its tiers only. -/
structure OwnSizes (cfg : Config) (d : Dir) (ms : List Move) (s : St) (l : Lengths) : Prop where
  copied : l.copied = ms.map fun m => ptToPagesize (s.page m.1).pt
  mapped : l.mapped = ms.map fun m => ptToPagesize (s.page m.1).pt
  registered : l.registered = ms.map fun m => ptToPagesize (s.page m.1).pt
  asOne : hememMigrateLog cfg d ms s = migrateOwn cfg d ms s

/-- All pages of the batch are of the type of the last one. -/
def AsLast (s : St) (ms : List Move) : Prop :=
  ∀ m ∈ ms, ∀ m', ms.getLast? = some m' → (s.page m.1).pt = (s.page m'.1).pt

/-- Types of different pages have different sizes. -/
theorem ptToPagesize_inj {a b : Pagetype} (h : ptToPagesize a = ptToPagesize b) : a = b := by
  cases a <;> cases b <;> first | rfl | cases h

/-- All pages have the size of the last one. -/
theorem asLast_iff {n : Nat} :
    AsLast s ms ↔ ∀ m ∈ ms, lastSize s ms n = ptToPagesize (s.page m.1).pt := by
  rcases List.eq_nil_or_concat ms with rfl | ⟨ms, m', rfl⟩
  · simp [AsLast]
  · have hsize : lastSize s (ms ++ [m']) n = ptToPagesize (s.page m'.1).pt := by
      simp [lastSize]
    simp only [AsLast, List.concat_eq_append, List.getLast?_concat, Option.some.injEq,
      forall_eq', hsize]
    constructor
    · intro h m hm
      rw [h m hm]
    · exact fun h m hm => (ptToPagesize_inj (h m hm)).symm

/-- The second loop looks at `stale` only for the lengths. -/
theorem remapLoop_congr (hf : ∀ g, (f g).pt = g.pt) {stale' : Option Nat}
    (hlen : ∀ m ∈ ms, remapLength stale m.1 s = remapLength stale' m.1 s) :
    remapLoop dst stale f ms s = remapLoop dst stale' f ms s := by
  induction ms generalizing s with
  | nil => rfl
  | cons m ms ih =>
    have hpage : remapPage dst stale f m s = remapPage dst stale' f m s := by
      unfold remapPage
      rw [hlen m List.mem_cons_self]
    rw [remapLoop, remapLoop, hpage]
    cases hremap : remapPage dst stale' f m s with
    | error e => rfl
    | ok s₁ =>
      refine ih fun m' hm' => ?_
      have h := hlen m' (List.mem_cons_of_mem _ hm')
      unfold remapLength at h ⊢
      rwa [remapPage_pt hf hremap]

/-- With the lengths it would have taken anyway, `stale` makes no difference. -/
theorem ownSizes_of_lengths
    (hlen : ∀ m ∈ ms, remapLength (d.staleSize (lastSize s ms 0)) m.1 s =
      ptToPagesize (s.page m.1).pt) :
    OwnSizes cfg d ms s (lengthsOf s ms (d.staleSize (lastSize s ms 0))) where
  copied := rfl
  mapped := List.map_congr_left hlen
  registered := List.map_congr_left hlen
  asOne := by
    have hlengths : lengthsOf s ms (d.staleSize (lastSize s ms 0)) = lengthsOf s ms none := by
      unfold lengthsOf
      rw [List.map_congr_left hlen]
      rfl
    rw [hememMigrateLog_def, migrateOwn, migrateLog_eq (bump_pt d), migrateLog_eq (bump_pt d),
      hlengths]
    congr 1
    cases hcopy : copyLoop cfg d.src d.dst ms 0 s with
    | error e => rfl
    | ok r =>
      obtain rfl := (copyLoop_iff.mp hcopy).2
      refine remapLoop_congr (bump_pt d) fun m hm => ?_
      rw [remapLength, copyAll_page, ← remapLength, hlen m hm, remapLength, copyAll_page,
        Option.getD_none]

/-- The lengths of a run that succeeds. -/
theorem lengths_of_ok {l : Lengths} (h : hememMigrateLog cfg d ms s = .ok (l, s')) :
    l = lengthsOf s ms (d.staleSize (lastSize s ms 0)) := by
  rw [hememMigrateLog_def, migrateLog_eq (bump_pt d)] at h
  cases hrun : copyLoop cfg d.src d.dst ms 0 s >>= fun r =>
      remapLoop d.dst (d.staleSize r.1) (bump d) ms r.2 with
  | error e =>
    rw [hrun] at h
    cases h
  | ok s₁ =>
    rw [hrun] at h
    cases h
    rfl

/-- A batch that passes the assertions is remapped page by page with the sizes it was copied
with, by `hemem_migrate_up` and `hemem_migrate_nvm` always, and by the other two when its pages
are all of the type of the last one. -/
theorem hememMigrate_ownSizes_iff {l : Lengths}
    (h : hememMigrateLog cfg d ms s = .ok (l, s')) :
    OwnSizes cfg d ms s l ↔ d.src = .nvm ∨ AsLast s ms := by
  obtain rfl := lengths_of_ok h
  constructor
  · intro hown
    -- the lengths of `libc_mmap` say enough: those of `UFFDIO_REGISTER` are the same
    have hlen := List.map_inj_left.mp hown.mapped
    cases d with
    | nvmToDram | nvmToNvm => exact Or.inl rfl
    | dramToDram | dramToNvm => exact Or.inr (asLast_iff.mpr hlen)
  · intro hcond
    refine ownSizes_of_lengths fun m hm => ?_
    cases d with
    | nvmToDram | nvmToNvm => rfl
    | dramToDram | dramToNvm =>
      have hlast : AsLast s ms := hcond.resolve_left (by decide)
      exact asLast_iff.mp hlast m hm

/-- Two pages of the tier `t`, a huge one and a base page. -/
def mixedPages (t : Tier) : St :=
  { St.empty with
    page := fun p =>
      ⟨0x40000000 + p * pageSize, p * pageSize, t.inDram, if p = 0 then .hugep else .basep,
        false, true, 0, 0⟩ }

/-- `hemem_migrate_up` reads the size again in its second loop. -/
theorem hememMigrate_ownSizes_up :
    ∃ l s', hememMigrateLog smallConfig .nvmToDram [(0, 0), (1, pageSize)] (mixedPages .nvm) =
        .ok (l, s') ∧
      OwnSizes smallConfig .nvmToDram [(0, 0), (1, pageSize)] (mixedPages .nvm) l := by
  refine ⟨_, _, rfl, ?_⟩
  exact (hememMigrate_ownSizes_iff rfl).mpr (Or.inl rfl)

/-- `hemem_migrate_down` maps and registers the first 4 KiB of the huge page it has copied. -/
theorem hememMigrate_ownSizes_fails_down :
    ∃ l s', hememMigrateLog smallConfig .dramToNvm [(0, 0), (1, pageSize)] (mixedPages .dram) =
        .ok (l, s') ∧
      l.copied = [hugepageSize, basepageSize] ∧ l.mapped = [basepageSize, basepageSize] ∧
      l.registered = [basepageSize, basepageSize] ∧
      ¬ OwnSizes smallConfig .dramToNvm [(0, 0), (1, pageSize)] (mixedPages .dram) l := by
  refine ⟨_, _, rfl, rfl, rfl, rfl, fun h => ?_⟩
  exact absurd h.mapped (by decide)

end Hemem
