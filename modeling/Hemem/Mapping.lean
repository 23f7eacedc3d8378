import Hemem.Pebs

/-!
# Hemem.Mapping — `hemem_mmap`, `handle_missing_fault`, `hemem_munmap`

The two places where a page is allocated and mapped are separate copies of one
procedure in the source and are kept separate here: only
`hemem_mmap_populate` updates the counters.

The scans of `hemem_mmap_populate` and `hemem_munmap` compare and advance
positions of type `uint64_t`, so they wrap; a step bound `fuel` stands for the
number of iterations they are given.
-/

namespace Hemem

/-- `memset(tmpaddr, 0, pagesize)` on the slot of a page: the device mapping
ends after `DRAMSIZE` or `NVMSIZE` bytes. -/
def clearSlot (cfg : Config) (t : Tier) (off len : Nat) (s : St) : Except Fault St := do
  check (decide (off + len ≤ cfg.size t)) .badAccess
  .ok (zeroSlot t off len s)

/-- The `pages_lock` section of `hemem_mmap_populate`. -/
def countPopulate (inDram : Bool) (s : St) : St :=
  if inDram then (s.addNum dramMmapList 1).subNum dramFreeList 1
  else (s.addNum nvmMmapList 1).subNum nvmFreeList 1

/-- The `pages_lock` section of `hemem_munmap`. -/
def countMunmap (inDram : Bool) (s : St) : St :=
  if inDram then (s.subNum dramMmapList 1).addNum dramFreeList 1
  else (s.subNum nvmMmapList 1).addNum nvmFreeList 1

/-- The iteration of `hemem_mmap_populate` for the page at `pageBoundry`. -/
def populatePage (cfg : Config) (pageBoundry : Nat) (s : St) : Except Fault (Nat × St) := do
  let (p, s) ← pebsPagefault s
  let offset := (s.page p).devdaxOffset
  let inDram := (s.page p).inDram
  let pagesize := ptToPagesize (s.page p).pt
  let s ← clearSlot cfg (.ofInDram inDram) offset pagesize s
  let s := mmapFixed pageBoundry pagesize (.ofInDram inDram) offset s
  let s := countPopulate inDram s
  let s ← uffdioRegister pageBoundry pagesize s
  let s := s.modPage p fun g => { g with va := pageBoundry }
  check ((s.page p).va != 0) .vaAssert
  check ((s.page p).va % pageSize == 0) .vaAssert
  let s := s.modPage p fun g =>
    { g with migrating := false, migrationsUp := 0, migrationsDown := 0 }
  let s ← addPage p s
  .ok (pagesize, s)

/-- The loop of `hemem_mmap_populate` from `pageBoundry` to `stop`. -/
def populateLoop (cfg : Config) : Nat → Nat → Nat → St → Except Fault St
  | 0, _, _, _ => .error .running
  | fuel + 1, pageBoundry, stop, s =>
    if pageBoundry < stop then do
      let (pagesize, s) ← populatePage cfg pageBoundry s
      populateLoop cfg fuel ((pageBoundry + pagesize) % 2 ^ 64) stop s
    else .ok s

/-- `hemem_mmap_populate`. Every iteration takes a descriptor off a free list, so
one more iteration than there are descriptors is never needed. -/
def hememMmapPopulate (cfg : Config) (addr length : Nat) (s : St) : Except Fault St := do
  check (addr != 0) .vaAssert
  check (length != 0) .lengthAssert
  populateLoop cfg (cfg.total + 1) addr ((addr + length) % 2 ^ 64) s

/-- `PAGE_ROUND_UP`, on `uint64_t`. -/
def pageRoundUp (x : Nat) : Nat := (x + (pageSize - 1)) % 2 ^ 64 / pageSize * pageSize

/-- `hemem_mmap`; `p` is the address the kernel returns for the reservation. -/
def hememMmap (cfg : Config) (p length : Nat) (populate : Bool) (s : St) : Except Fault St := do
  check (length != 0) .lengthAssert
  check (p != 0) .ioctlFailed
  let length := pageRoundUp length
  let s := mmapReserve p length s
  let s ← uffdioRegister p length s
  if populate then hememMmapPopulate cfg p length s else .ok s

/-- `handle_missing_fault`. -/
def handleMissingFault (cfg : Config) (pageBoundry : Nat) (s : St) : Except Fault St := do
  check (pageBoundry != 0) .vaAssert
  let (p, s) ← pebsPagefault s
  let offset := (s.page p).devdaxOffset
  let inDram := (s.page p).inDram
  let pagesize := ptToPagesize (s.page p).pt
  let s ← clearSlot cfg (.ofInDram inDram) offset pagesize s
  let s := mmapFixed pageBoundry pagesize (.ofInDram inDram) offset s
  let s ← uffdioRegister pageBoundry pagesize s
  let s := s.modPage p fun g => { g with va := pageBoundry }
  check ((s.page p).va != 0) .vaAssert
  check ((s.page p).va % pageSize == 0) .vaAssert
  let s := s.modPage p fun g =>
    { g with migrating := false, migrationsUp := 0, migrationsDown := 0 }
  addPage p s

/-- What the scan of `hemem_munmap` does to a page it finds. -/
def untrackPage (p : PageId) (s : St) : St :=
  countMunmap (s.page p).inDram (removePage p s)

/-- The scan of `hemem_munmap` from `pageBoundry` to `stop`. -/
def munmapScan : Nat → Nat → Nat → St → Except Fault St
  | 0, _, _, _ => .error .running
  | fuel + 1, pageBoundry, stop, s =>
    if pageBoundry < stop then
      match findPage pageBoundry s with
      | some p =>
        munmapScan fuel ((pageBoundry + ptToPagesize (s.page p).pt) % 2 ^ 64) stop
          (untrackPage p s)
      | none => munmapScan fuel ((pageBoundry + basepageSize) % 2 ^ 64) stop s
    else .ok s

/-- `hemem_munmap`; `accept` is the kernel's answer to `libc_munmap` where this
state does not decide it. -/
def hememMunmap (fuel addr length : Nat) (accept : Bool) (s : St) : Except Fault (Int × St) := do
  let s ← munmapScan fuel (addr % 2 ^ 64) ((addr + length) % 2 ^ 64) s
  .ok (libcMunmap addr length accept s)

end Hemem
