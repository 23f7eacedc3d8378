import Hemem.Conc.Thread

/-!
# Hemem.Conc.Migrator — the migration thread, step by step

`migration_request` with `pebs_migrate_*`, `hemem_wp_page` and `hemem_migrate_*`
inside it, at the granularity of `Hemem.Conc.Thread`. An iteration reads the counter
three times: in the test of the loop, in the comparison with `NUM_BATCHS` and, when
that fails, for the value. The entries of the batch are dequeued one by one; then the
batch goes through six loops, each of which runs the same statements for every
entry.

The arrays `page`, `next_page` and `offset` are a list of entries, so a value of
`num` beyond `NUM_BATCHS` — the counter may grow between the comparison and the
read — is carried on with.
-/

namespace Hemem

/-- The loops of an iteration after the entries have been dequeued. -/
inductive Phase where
  /-- `page[i]->migrating = true` -/
  | flag
  /-- `hemem_wp_page` -/
  | protect
  /-- the first loop of `hemem_migrate_*` -/
  | copy
  /-- the second loop of `hemem_migrate_*` -/
  | remap
  /-- `page[i]->migrating = false` -/
  | unflag
  /-- the second loop of `migration_request` -/
  | giveBack
deriving DecidableEq, Repr

def Phase.next : Phase → Option Phase
  | .flag => some .protect
  | .protect => some .copy
  | .copy => some .remap
  | .remap => some .unflag
  | .unflag => some .giveBack
  | .giveBack => none

/-- The statements of the loops, one access or call each. -/
inductive MigInstr where
  | setMigrating (b : Bool)
  | readAddr
  | readLen
  | assertAddr
  | assertAligned
  | writeprotect
  | assertInDram
  | readOffset
  | assertOldOffset
  | assertNewOffset
  | copy
  | map
  | assertVa
  | register
  | bumpUp
  | bumpDown
  | setInDram
  | setOffset
  | setFreeOffset
  | setFreePresent
  | setFreeInDram
  | enqueuePage
  | enqueueFree
deriving DecidableEq, Repr

/-- The statements of a loop for one entry, in the order of the source. The
functions that move pages out of NVM check the old offset first and read the size
of the page again before they remap it. -/
def Dir.code (d : Dir) : Phase → List MigInstr
  | .flag => [.setMigrating true]
  | .protect => [.readAddr, .readLen, .assertAddr, .assertAligned, .writeprotect]
  | .copy =>
    match d.src with
    | .nvm => [.assertInDram, .readLen, .readOffset, .assertOldOffset, .assertNewOffset, .copy]
    | .dram => [.assertInDram, .readLen, .readOffset, .assertNewOffset, .assertOldOffset, .copy]
  | .remap =>
    match d with
    | .nvmToDram =>
      [.readLen, .readAddr, .map, .assertVa, .register, .bumpUp, .setInDram, .setOffset]
    | .nvmToNvm => [.readLen, .readAddr, .map, .assertVa, .register, .setInDram, .setOffset]
    | .dramToNvm => [.readAddr, .map, .assertVa, .register, .bumpDown, .setInDram, .setOffset]
    | .dramToDram => [.readAddr, .map, .assertVa, .register, .setInDram, .setOffset]
  | .unflag => [.setMigrating false]
  | .giveBack => [.setFreeOffset, .setFreePresent, .setFreeInDram, .enqueuePage, .enqueueFree]

/-- The local variables `addr` (or the argument of `mmap`), `pagesize` and
`old_addr_offset`. -/
structure MigRegs where
  addr : Nat
  len : Nat
  old : Nat
deriving DecidableEq, Repr

/-- Where the migration thread is; the constructor names what its next step does. -/
inductive Mpc where
  /-- the test of the loop of the direction -/
  | test (d : Dir)
  /-- the comparison of the counter with `NUM_BATCHS` -/
  | compare (d : Dir)
  /-- the read of the counter that follows when it is not larger -/
  | read (d : Dir)
  /-- `left` entries are still to be dequeued, `es` have been -/
  | dequeuePage (d : Dir) (left : Nat) (es : List Entry)
  | dequeueFree (d : Dir) (left : Nat) (es : List Entry) (page : Option PageId)
  | readFree (d : Dir) (left : Nat) (es : List Entry) (page next : Option PageId)
  /-- in a loop: `done` is behind, the first entry of `todo` has `code` left -/
  | loop (d : Dir) (ph : Phase) (done todo : List Entry) (code : List MigInstr) (r : MigRegs)
  /-- the `stats_lock` section -/
  | count (d : Dir) (num : Nat)
deriving DecidableEq

/-- The loop that `migration_request` comes to next. -/
def Dir.next : Dir → Dir
  | .dramToDram => .dramToNvm
  | .dramToNvm => .nvmToDram
  | .nvmToDram => .nvmToNvm
  | .nvmToNvm => .dramToDram

/-- One statement of a loop, for the entry `e`. -/
def MigInstr.run (cfg : Config) (d : Dir) (e : Entry) (r : MigRegs) :
    MigInstr → St → Except Fault (MigRegs × St × List Event)
  | .setMigrating b, s => do
    let p ← deref e.page
    .ok (r, s.modPage p fun g => { g with migrating := b }, [])
  | .readAddr, s => do
    let p ← deref e.page
    .ok ({ r with addr := (s.page p).va }, s, [])
  | .readLen, s => do
    let p ← deref e.page
    .ok ({ r with len := ptToPagesize (s.page p).pt }, s, [])
  | .assertAddr, s => do
    check (r.addr != 0) .vaAssert
    .ok (r, s, [])
  | .assertAligned, s => do
    check (r.addr % pageSize == 0) .vaAssert
    .ok (r, s, [])
  | .writeprotect, s => do
    let s ← uffdioWriteprotect r.addr r.len s
    .ok (r, s, [])
  | .assertInDram, s => do
    let p ← deref e.page
    check ((s.page p).inDram == d.src.inDram) .inDramAssert
    .ok (r, s, [])
  | .readOffset, s => do
    let p ← deref e.page
    .ok ({ r with old := (s.page p).devdaxOffset }, s, [])
  | .assertOldOffset, s => do
    check (decide (r.old < cfg.size d.src)) .offsetAssert
    check (decide (r.old + r.len ≤ cfg.size d.src)) .offsetAssert
    .ok (r, s, [])
  | .assertNewOffset, s => do
    check (decide (e.offset < cfg.size d.dst)) .offsetAssert
    check (decide (e.offset + r.len ≤ cfg.size d.dst)) .offsetAssert
    .ok (r, s, [])
  | .copy, s => .ok (r, copySlot d.src r.old d.dst e.offset r.len s, [])
  | .map, s => .ok (r, mmapFixed r.addr r.len d.dst e.offset s, [])
  | .assertVa, s => do
    let p ← deref e.page
    check ((s.page p).va % pageSize == 0) .vaAssert
    .ok (r, s, [])
  | .register, s => do
    let s ← uffdioRegister r.addr r.len s
    .ok (r, s, [])
  | .bumpUp, s => do
    let p ← deref e.page
    .ok (r, s.modPage p fun g => { g with migrationsUp := g.migrationsUp + 1 }, [])
  | .bumpDown, s => do
    let p ← deref e.page
    .ok (r, s.modPage p fun g => { g with migrationsDown := g.migrationsDown + 1 }, [])
  | .setInDram, s => do
    let p ← deref e.page
    .ok (r, s.modPage p fun g => { g with inDram := d.dst.inDram }, [])
  | .setOffset, s => do
    let p ← deref e.page
    .ok (r, s.modPage p fun g => { g with devdaxOffset := e.offset }, [])
  | .setFreeOffset, s =>
    .ok (r, s.modPage e.next fun g => { g with devdaxOffset := e.offset }, [])
  | .setFreePresent, s => .ok (r, s.modPage e.next fun g => { g with present := false }, [])
  | .setFreeInDram, s => .ok (r, s.modPage e.next fun g => { g with inDram := d.src.inDram }, [])
  | .enqueuePage, s => do
    let p ← deref e.page
    let s' ← enqueueFifo (.mmap d.dst) (some p) s
    .ok (r, s', [.moved d p (s.page p).inDram])
  | .enqueueFree, s => do
    let s ← enqueueFifo (.free d.src) (some e.next) s
    .ok (r, s, [])

/-- One step of the migration thread. -/
def migStep (cfg : Config) (numBatchs : Nat) : Mpc → St → Except Fault (Mpc × St × List Event)
  | .test d, s => .ok (if s.num (.queue d) = 0 then .test d.next else .compare d, s, [])
  | .compare d, s =>
    .ok (if numBatchs < (s.num (.queue d)).toNat then .dequeuePage d numBatchs [] else .read d,
      s, [])
  | .read d, s => .ok (.dequeuePage d (s.num (.queue d)).toNat [], s, [])
  | .dequeuePage d left es, s =>
    match left with
    | 0 => .ok (.loop d .flag [] es (d.code .flag) ⟨0, 0, 0⟩, s, [])
    | left + 1 =>
      let (page, s) := dequeueFifo (.queue d) s
      .ok (.dequeueFree d left es page, s, [])
  | .dequeueFree d left es page, s =>
    let (next, s) := dequeueFifo (.free d.dst) s
    .ok (.readFree d left es page next, s, [])
  | .readFree d left es page next, s => do
    let next ← deref next
    .ok (.dequeuePage d left (es ++ [⟨page, next, (s.page next).devdaxOffset⟩]), s, [])
  | .loop d ph done (e :: todo) (i :: code) r, s => do
    let (r, s, ev) ← i.run cfg d e r s
    .ok (.loop d ph done (e :: todo) code r, s, ev)
  | .loop d ph done (e :: todo) [] r, s =>
    .ok (.loop d ph (done ++ [e]) todo (d.code ph) r, s, [])
  | .loop d ph done [] _ r, s =>
    match ph.next with
    | some ph' => .ok (.loop d ph' [] done (d.code ph') r, s, [])
    | none => .ok (.count d done.length, s, [])
  | .count d num, s => .ok (.test d, countBatch d (UInt64.ofNat num) s, [])

end Hemem
