import Hemem.Machine

/-!
# Hemem.Migrate — `hemem_wp_page` and the four `hemem_migrate_*`

A batch is the list of the pages it moves, each with its entry of
`new_offset`. The four functions have the same two loops — copy the slots, then
remap the pages — and differ in the tiers, in the migration count they bump,
and in the length they remap with: `hemem_migrate_up` and `hemem_migrate_nvm`
take the size of the page at hand, `hemem_migrate_down` and
`hemem_migrate_dram` the value that the first loop has left in `pagesize`.

The copies are made in the order of the batch. The `UFFDIO_DMA_COPY` build
issues them in one request after the checks, the other build one by one between
the checks; a failing check ends the process in either.
-/

namespace Hemem

/-- One page of a batch with its new offset. -/
abbrev Move := PageId × Nat

/-! ## `hemem_wp_page` -/

/-- One iteration of `hemem_wp_page(page, true, num)`. -/
def wpPage (p : PageId) (s : St) : Except Fault St := do
  check ((s.page p).va != 0) .vaAssert
  check ((s.page p).va % pageSize == 0) .vaAssert
  uffdioWriteprotect (s.page p).va (ptToPagesize (s.page p).pt) s

/-- `hemem_wp_page(page, true, num)`. -/
def hememWpPage : List PageId → St → Except Fault St
  | [], s => .ok s
  | p :: ps, s => do
    let s ← wpPage p s
    hememWpPage ps s

/-! ## The two loops of `hemem_migrate_*` -/

/-- The assertions of the first loop: the page is in the source tier, and neither its old slot
nor its new one reaches beyond the device. -/
def checkMove (cfg : Config) (src dst : Tier) (m : Move) (s : St) : Except Fault Unit := do
  let pagesize := ptToPagesize (s.page m.1).pt
  check ((s.page m.1).inDram == src.inDram) .inDramAssert
  check (decide ((s.page m.1).devdaxOffset < cfg.size src)) .offsetAssert
  check (decide ((s.page m.1).devdaxOffset + pagesize ≤ cfg.size src)) .offsetAssert
  check (decide (m.2 < cfg.size dst)) .offsetAssert
  check (decide (m.2 + pagesize ≤ cfg.size dst)) .offsetAssert

/-- One iteration of the first loop: the assertions and the copy. -/
def copyPage (cfg : Config) (src dst : Tier) (m : Move) (s : St) : Except Fault St := do
  checkMove cfg src dst m s
  .ok (copySlot src (s.page m.1).devdaxOffset dst m.2 (ptToPagesize (s.page m.1).pt) s)

/-- The first loop; the result carries the last value of `pagesize`. -/
def copyLoop (cfg : Config) (src dst : Tier) : List Move → Nat → St → Except Fault (Nat × St)
  | [], pagesize, s => .ok (pagesize, s)
  | m :: ms, _, s => do
    let s' ← copyPage cfg src dst m s
    copyLoop cfg src dst ms (ptToPagesize (s.page m.1).pt) s'

/-- The length an iteration of the second loop remaps with: the size of the
page, unless the loop uses the `pagesize` left by the first loop. -/
def remapLength (stale : Option Nat) (p : PageId) (s : St) : Nat :=
  stale.getD (ptToPagesize (s.page p).pt)

/-- One iteration of the second loop: map the page to its new slot, register
the new mapping, and update the descriptor. -/
def remapPage (dst : Tier) (stale : Option Nat) (bump : HememPage → HememPage) (m : Move)
    (s : St) : Except Fault St := do
  let pagesize := remapLength stale m.1 s
  let va := (s.page m.1).va
  let s := mmapFixed va pagesize dst m.2 s
  check (va % pageSize == 0) .vaAssert
  let s ← uffdioRegister va pagesize s
  .ok (s.modPage m.1 fun g => { bump g with inDram := dst.inDram, devdaxOffset := m.2 })

def remapLoop (dst : Tier) (stale : Option Nat) (bump : HememPage → HememPage) :
    List Move → St → Except Fault St
  | [], s => .ok s
  | m :: ms, s => do
    let s ← remapPage dst stale bump m s
    remapLoop dst stale bump ms s

/-! ## `hemem_migrate_up`, `_down`, `_dram`, `_nvm` -/

def hememMigrateUp (cfg : Config) (ms : List Move) (s : St) : Except Fault St := do
  let (_, s) ← copyLoop cfg .nvm .dram ms 0 s
  remapLoop .dram none (fun g => { g with migrationsUp := g.migrationsUp + 1 }) ms s

def hememMigrateDown (cfg : Config) (ms : List Move) (s : St) : Except Fault St := do
  let (pagesize, s) ← copyLoop cfg .dram .nvm ms 0 s
  remapLoop .nvm (some pagesize) (fun g => { g with migrationsDown := g.migrationsDown + 1 }) ms s

def hememMigrateDram (cfg : Config) (ms : List Move) (s : St) : Except Fault St := do
  let (pagesize, s) ← copyLoop cfg .dram .dram ms 0 s
  remapLoop .dram (some pagesize) id ms s

def hememMigrateNvm (cfg : Config) (ms : List Move) (s : St) : Except Fault St := do
  let (_, s) ← copyLoop cfg .nvm .nvm ms 0 s
  remapLoop .nvm none id ms s

/-- The `hemem_migrate_*` of a direction. -/
def hememMigrate (cfg : Config) : Dir → List Move → St → Except Fault St
  | .dramToDram => hememMigrateDram cfg
  | .dramToNvm => hememMigrateDown cfg
  | .nvmToDram => hememMigrateUp cfg
  | .nvmToNvm => hememMigrateNvm cfg

/-! ## `pebs_migrate_*` -/

/-- `for (int i=0; i < num; i++) page[i]->migrating = b`. -/
def setMigrating (b : Bool) : List PageId → St → St
  | [], s => s
  | p :: ps, s => setMigrating b ps (s.modPage p fun g => { g with migrating := b })

/-- The common body of `pebs_migrate_up`, `_down`, `_dram` and `_nvm`. The first
assignment of `migrating` dereferences every entry of the array `page`. -/
def pebsMigrateWith (migrate : List Move → St → Except Fault St)
    (page : List (Option PageId)) (offset : List Nat) (s : St) : Except Fault St := do
  let page ← page.mapM deref
  let s := setMigrating true page s
  let s ← hememWpPage page s
  let s ← migrate (page.zip offset) s
  .ok (setMigrating false page s)

def pebsMigrateUp (cfg : Config) := pebsMigrateWith (hememMigrateUp cfg)
def pebsMigrateDown (cfg : Config) := pebsMigrateWith (hememMigrateDown cfg)
def pebsMigrateDram (cfg : Config) := pebsMigrateWith (hememMigrateDram cfg)
def pebsMigrateNvm (cfg : Config) := pebsMigrateWith (hememMigrateNvm cfg)

/-- The `pebs_migrate_*` that the loop of direction `d` calls. -/
def pebsMigrate (cfg : Config) : Dir → List (Option PageId) → List Nat → St → Except Fault St
  | .dramToDram => pebsMigrateDram cfg
  | .dramToNvm => pebsMigrateDown cfg
  | .nvmToDram => pebsMigrateUp cfg
  | .nvmToNvm => pebsMigrateNvm cfg

end Hemem
