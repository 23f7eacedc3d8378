import Hemem.Mapping

/-!
# Hemem.Conc.Thread — the threads of the application, step by step

The functions of `Hemem.Pebs` and `Hemem.Mapping` as threads run them at the same
time: one step is one locked list operation, one `pages_lock` or `stats_lock`
section, one `find_page` — which takes no lock, and whose search is one step all the
same —, one system call, or one access to a field of a descriptor. What a thread
knows between two steps — its local variables — is in its program counter.

A thread is idle or inside one of four calls: `hemem_mmap`, `handle_missing_fault`
(the fault thread), a request function, `hemem_munmap`.
-/

namespace Hemem

/-- What the history records of a step. -/
inductive Event where
  /-- a request has put the page on the queue of the direction -/
  | put (d : Dir) (p : PageId)
  /-- the migration thread has put the page on the mmap list of the destination,
  with this value of `in_dram` -/
  | moved (d : Dir) (p : PageId) (inDram : Bool)
  /-- `hemem_munmap(addr, length)` has unmapped its range and returns 0 -/
  | unmapped (addr length : Nat)
deriving DecidableEq, Repr

/-! ## Calls and program counters -/

inductive Call where
  /-- `hemem_mmap`; the kernel returns `p` -/
  | mmap (p length : Nat) (populate : Bool)
  | missingFault (pageBoundry : Nat)
  | request (d : Dir) (pagesNum : Int) (random : Bool) (rand : Nat → Nat)
  /-- `accept` as in `libcMunmap` -/
  | munmap (addr length : Nat) (accept : Bool)

/-- Which of its two copies runs the allocation of a page: the loop of
`hemem_mmap_populate` that ends at `stop`, or `handle_missing_fault`. -/
inductive Site where
  | populate (stop : Nat)
  | fault
deriving DecidableEq, Repr

/-- The statements that follow `pagefault()`, one access or call each. -/
inductive AllocInstr where
  | readOffset
  | readInDram
  | readLen
  | clear
  | map
  | count
  | register
  | setVa
  | assertVa
  | assertAligned
  | setMigrating
  | setMigrationsDown
  | setMigrationsUp
  | addPage
deriving DecidableEq, Repr

/-- The statements in the order of the source; only `hemem_mmap_populate` counts. -/
def Site.code : Site → List AllocInstr
  | .populate _ =>
    [.readOffset, .readInDram, .readLen, .clear, .map, .count, .register, .setVa, .assertVa,
      .assertAligned, .setMigrating, .setMigrationsDown, .setMigrationsUp, .addPage]
  | .fault =>
    [.readOffset, .readInDram, .readLen, .clear, .map, .register, .setVa, .assertVa,
      .assertAligned, .setMigrating, .setMigrationsDown, .setMigrationsUp, .addPage]

/-- The local variables `page_boundry`, `offset`, `in_dram` and `pagesize`. -/
structure AllocRegs where
  va : Nat
  offset : Nat
  inDram : Bool
  len : Nat
deriving DecidableEq, Repr

/-- A request: its arguments and the stream of draws. -/
structure Req where
  d : Dir
  random : Bool
  rand : Nat → Nat

/-- The arguments of a `hemem_munmap`. -/
structure Unmap where
  addr : Nat
  length : Nat
  accept : Bool
deriving DecidableEq, Repr

/-- Where a thread is; the constructor names what its next step does. -/
inductive Pc where
  | idle
  -- `hemem_mmap`
  | reserve (p length : Nat) (populate : Bool)
  | registerAll (p length : Nat) (populate : Bool)
  | populateTest (va stop : Nat)
  -- the assertion at the head of `handle_missing_fault`
  | missing (va : Nat)
  -- `pebs_allocate_page`
  | takeDram (k : Site) (va : Nat)
  | takeNvm (k : Site) (va : Nat)
  | assertTier (k : Site) (va : Nat) (t : Tier) (p : PageId)
  | assertAbsent (k : Site) (va : Nat) (t : Tier) (p : PageId)
  | setPresent (k : Site) (va : Nat) (t : Tier) (p : PageId)
  | publish (k : Site) (va : Nat) (t : Tier) (p : PageId)
  -- the statements after `pagefault()`
  | place (k : Site) (p : PageId) (r : AllocRegs) (code : List AllocInstr)
  -- a request function, with `left` iterations from iteration `i` on
  | requestTest (q : Req) (i left : Nat)
  | choose (q : Req) (i left : Nat)
  | rotate (q : Req) (i left choose : Nat)
  | rotated (q : Req) (i left choose : Nat) (e : Option PageId)
  | take (q : Req) (i left : Nat)
  | assertInDram (q : Req) (i left : Nat) (p : PageId)
  | assertPresent (q : Req) (i left : Nat) (p : PageId)
  | put (q : Req) (i left : Nat) (p : PageId)
  | countPut (q : Req) (i left : Nat)
  -- `hemem_munmap`
  | scan (u : Unmap) (pos : Nat)
  | remove (u : Unmap) (pos : Nat) (p : PageId)
  | countRemoved (u : Unmap) (pos : Nat) (p : PageId)
  | advance (u : Unmap) (pos : Nat) (p : PageId)
  | unmap (u : Unmap)

/-- The start of a call. -/
def Call.begin : Call → Pc
  | .mmap p length populate => .reserve p length populate
  | .missingFault pageBoundry => .missing pageBoundry
  | .request d pagesNum random rand => .requestTest ⟨d, random, rand⟩ 0 pagesNum.toNat
  | .munmap addr length accept => .scan ⟨addr, length, accept⟩ (addr % 2 ^ 64)

/-! ## Steps -/

/-- One of the statements that follow `pagefault()`, for page `p`. -/
def AllocInstr.run (cfg : Config) (p : PageId) (r : AllocRegs) :
    AllocInstr → St → Except Fault (AllocRegs × St)
  | .readOffset, s => .ok ({ r with offset := (s.page p).devdaxOffset }, s)
  | .readInDram, s => .ok ({ r with inDram := (s.page p).inDram }, s)
  | .readLen, s => .ok ({ r with len := ptToPagesize (s.page p).pt }, s)
  | .clear, s => do
    let s ← clearSlot cfg (.ofInDram r.inDram) r.offset r.len s
    .ok (r, s)
  | .map, s => .ok (r, mmapFixed r.va r.len (.ofInDram r.inDram) r.offset s)
  | .count, s => .ok (r, countPopulate r.inDram s)
  | .register, s => do
    let s ← uffdioRegister r.va r.len s
    .ok (r, s)
  | .setVa, s => .ok (r, s.modPage p fun g => { g with va := r.va })
  | .assertVa, s => do
    check ((s.page p).va != 0) .vaAssert
    .ok (r, s)
  | .assertAligned, s => do
    check ((s.page p).va % pageSize == 0) .vaAssert
    .ok (r, s)
  | .setMigrating, s => .ok (r, s.modPage p fun g => { g with migrating := false })
  | .setMigrationsDown, s => .ok (r, s.modPage p fun g => { g with migrationsDown := 0 })
  | .setMigrationsUp, s => .ok (r, s.modPage p fun g => { g with migrationsUp := 0 })
  | .addPage, s => do
    let s ← Hemem.addPage p s
    .ok (r, s)

/-- What follows the last statement of an allocation. -/
def Site.after (k : Site) (r : AllocRegs) : Pc :=
  match k with
  | .populate stop => .populateTest ((r.va + r.len) % 2 ^ 64) stop
  | .fault => .idle

/-- One step of a thread. -/
def threadStep (cfg : Config) : Pc → St → Except Fault (Pc × St × List Event)
  | .idle, s => .ok (.idle, s, [])
  | .reserve p length populate, s => do
    check (length != 0) .lengthAssert
    check (p != 0) .ioctlFailed
    .ok (.registerAll p (pageRoundUp length) populate, mmapReserve p (pageRoundUp length) s, [])
  | .registerAll p length populate, s => do
    let s ← uffdioRegister p length s
    if populate then do
      check (p != 0) .vaAssert
      check (length != 0) .lengthAssert
      .ok (.populateTest p ((p + length) % 2 ^ 64), s, [])
    else .ok (.idle, s, [])
  | .populateTest va stop, s =>
    .ok (if va < stop then .takeDram (.populate stop) va else .idle, s, [])
  | .missing va, s => do
    check (va != 0) .vaAssert
    .ok (.takeDram .fault va, s, [])
  | .takeDram k va, s =>
    match dequeueFifo dramFreeList s with
    | (some p, s) => .ok (.assertTier k va .dram p, s, [])
    | (none, s) => .ok (.takeNvm k va, s, [])
  | .takeNvm k va, s =>
    match dequeueFifo nvmFreeList s with
    | (some p, s) => .ok (.assertTier k va .nvm p, s, [])
    | (none, _) => .error .outOfMemory
  | .assertTier k va t p, s => do
    check ((s.page p).inDram == t.inDram) .inDramAssert
    .ok (.assertAbsent k va t p, s, [])
  | .assertAbsent k va t p, s => do
    check (!(s.page p).present) .presentAssert
    .ok (.setPresent k va t p, s, [])
  | .setPresent k va t p, s =>
    .ok (.publish k va t p, s.modPage p fun g => { g with present := true }, [])
  | .publish k va t p, s => do
    let s ← enqueueFifo (.mmap t) (some p) s
    .ok (.place k p ⟨va, 0, false, 0⟩ k.code, s, [])
  | .place k p r (i :: code), s => do
    let (r, s) ← i.run cfg p r s
    .ok (.place k p r code, s, [])
  | .place k _ r [], s => .ok (k.after r, s, [])
  | .requestTest q i left, s =>
    match left with
    | 0 => .ok (.idle, s, [])
    | left + 1 => .ok (if q.random then .choose q i left else .take q i left, s, [])
  | .choose q i left, s => do
    check (s.num (.mmap q.d.src) != 0) .divByZero
    .ok (.rotate q i left (q.rand i % (s.num (.mmap q.d.src)).toNat), s, [])
  | .rotate q i left choose, s =>
    match choose with
    | 0 => .ok (.take q i left, s, [])
    | choose + 1 =>
      let (e, s) := dequeueFifo (.mmap q.d.src) s
      .ok (.rotated q i left choose e, s, [])
  | .rotated q i left choose e, s => do
    let s ← enqueueFifo (.mmap q.d.src) e s
    .ok (.rotate q i left choose, s, [])
  | .take q i left, s =>
    match dequeueFifo (.mmap q.d.src) s with
    | (some p, s) => .ok (.assertInDram q i left p, s, [])
    | (none, s) => .ok (.requestTest q (i + 1) left, s, [])
  | .assertInDram q i left p, s => do
    check ((s.page p).inDram == q.d.src.inDram) .inDramAssert
    .ok (.assertPresent q i left p, s, [])
  | .assertPresent q i left p, s => do
    check ((s.page p).present) .presentAssert
    .ok (.put q i left p, s, [])
  | .put q i left p, s => do
    let s ← enqueueFifo (.queue q.d) (some p) s
    .ok (.countPut q i left, s, [.put q.d p])
  | .countPut q i left, s =>
    .ok (.requestTest q (i + 1) left, (s.addNum (.queue q.d) 1).subNum (.mmap q.d.src) 1, [])
  | .scan u pos, s =>
    if pos < (u.addr + u.length) % 2 ^ 64 then
      match findPage pos s with
      | some p => .ok (.remove u pos p, s, [])
      | none => .ok (.scan u ((pos + basepageSize) % 2 ^ 64), s, [])
    else .ok (.unmap u, s, [])
  | .remove u pos p, s => .ok (.countRemoved u pos p, removePage p s, [])
  | .countRemoved u pos p, s => .ok (.advance u pos p, countMunmap (s.page p).inDram s, [])
  | .advance u pos p, s =>
    .ok (.scan u ((pos + ptToPagesize (s.page p).pt) % 2 ^ 64), s, [])
  | .unmap u, s =>
    match libcMunmap u.addr u.length u.accept s with
    | (0, s) => .ok (.idle, s, [.unmapped u.addr u.length])
    | (_, s) => .ok (.idle, s, [])

end Hemem
