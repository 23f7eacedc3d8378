import Hemem.Migrate

/-!
# Hemem.Pebs — `pebs.c`

`pebs_init`, the allocator behind `pagefault()`, the four request functions and
one iteration of each of the four loops of `migration_request`.

The request functions differ in the list they take from and the queue they put
on, which the direction determines; so do the four loops.
-/

namespace Hemem

/-! ## `pebs_init` -/

/-- A descriptor as `pebs_init` fills it in after `calloc`. -/
def newPage (t : Tier) (i : Nat) : HememPage :=
  { va := 0, devdaxOffset := i * pageSize, inDram := t.inDram, pt := .hugep,
    migrating := false, present := false, migrationsUp := 0, migrationsDown := 0 }

/-- One iteration of a loop of `pebs_init`, which allocates descriptor `p`. -/
def initPage (t : Tier) (p : PageId) (i : Nat) (s : St) : St :=
  let s := s.modPage p fun _ => newPage t i
  let s := s.setList (.free t) (s.list (.free t) ++ [p])
  s.addNum (.free t) 1

/-- A loop of `pebs_init`; `first` is the number of the first descriptor it
allocates. -/
def initLoop (t : Tier) (first n : Nat) (s : St) : St :=
  (List.range n).foldl (fun s i => initPage t (first + i) i s) s

/-- The state before `pebs_init`: static storage is zero. -/
def St.empty : St where
  page _ := newPage .nvm 0
  list _ := []
  num _ := 0
  pages _ := none
  vm _ := none
  registered _ := false
  wp _ := false
  mem _ _ := 0

/-- `pebs_init`. -/
def pebsInit (cfg : Config) : St :=
  initLoop .nvm (cfg.npages .dram) (cfg.npages .nvm)
    (initLoop .dram 0 (cfg.npages .dram) St.empty)

/-! ## `pebs_allocate_page` -/

/-- The arm of `pebs_allocate_page` for a page dequeued from the free list of
tier `t`. -/
def takeFree (t : Tier) (p : PageId) (s : St) : Except Fault (PageId × St) := do
  check ((s.page p).inDram == t.inDram) .inDramAssert
  check (!(s.page p).present) .presentAssert
  let s := s.modPage p fun g => { g with present := true }
  let s ← enqueueFifo (.mmap t) (some p) s
  .ok (p, s)

/-- `pebs_allocate_page`: DRAM first, and NVM when DRAM is full. -/
def pebsAllocatePage (s : St) : Except Fault (PageId × St) :=
  match dequeueFifo dramFreeList s with
  | (some p, s) => takeFree .dram p s
  | (none, s) =>
    match dequeueFifo nvmFreeList s with
    | (some p, s) => takeFree .nvm p s
    | (none, _) => .error .outOfMemory

/-- `pebs_pagefault`. -/
def pebsPagefault (s : St) : Except Fault (PageId × St) := pebsAllocatePage s

/-! ## The request functions -/

/-- `while (choose--) enqueue_fifo(&list, dequeue_fifo(&list))`. -/
def rotate (l : ListId) : Nat → St → Except Fault St
  | 0, s => .ok s
  | choose + 1, s => do
    let s ← enqueueFifo l (dequeueFifo l s).1 (dequeueFifo l s).2
    rotate l choose s

/-- `choose = rand() % mmap_list_num` and the rotation by `choose`. -/
def choosePage (t : Tier) (r : Nat) (s : St) : Except Fault St := do
  check (s.num (.mmap t) != 0) .divByZero
  rotate (.mmap t) (r % (s.num (.mmap t)).toNat) s

/-- What the branch `if (random)` does before it dequeues the page. -/
def beforeTake (d : Dir) (random : Bool) (r : Nat) (s : St) : Except Fault St :=
  if random then choosePage d.src r s else .ok s

/-- The rest of an iteration, which both branches share; the result is what it
adds to `page_put`. -/
def putPage (d : Dir) (s : St) : Except Fault (Nat × St) :=
  match dequeueFifo (.mmap d.src) s with
  | (none, s) => .ok (0, s)
  | (some p, s) => do
    check ((s.page p).inDram == d.src.inDram) .inDramAssert
    check ((s.page p).present) .presentAssert
    let s ← enqueueFifo (.queue d) (some p) s
    .ok (1, (s.addNum (.queue d) 1).subNum (.mmap d.src) 1)

/-- The loop of a request from iteration `i` on, with `n` iterations left;
`rand` is the stream of draws. -/
def requestLoop (d : Dir) (random : Bool) (rand : Nat → Nat) :
    Nat → Nat → Nat → St → Except Fault (Nat × St)
  | 0, _, pagePut, s => .ok (pagePut, s)
  | n + 1, i, pagePut, s => do
    let s ← beforeTake d random (rand i) s
    let (k, s) ← putPage d s
    requestLoop d random rand n (i + 1) (pagePut + k) s

/-- The common body of the four request functions; `for (i = 0; i < pages_num;
i++)` makes no iteration when `pages_num` is negative. -/
def request (d : Dir) (pagesNum : Int) (random : Bool) (rand : Nat → Nat) (s : St) :
    Except Fault (Nat × St) :=
  requestLoop d random rand pagesNum.toNat 0 0 s

def migDramToDramRequest := request .dramToDram
def migNvmToNvmRequest := request .nvmToNvm
def migrateDownRequest := request .dramToNvm
def migrateUpRequest := request .nvmToDram

/-! ## `migration_request` -/

/-- What an iteration holds in `page[i]`, `next_page[i]` and `offset[i]`. -/
structure Entry where
  page : Option PageId
  next : PageId
  offset : Nat
deriving DecidableEq, Repr

/-- The first loop of an iteration. `next_page[i]` is dereferenced at once. -/
def dequeueBatch (d : Dir) : Nat → St → Except Fault (List Entry × St)
  | 0, s => .ok ([], s)
  | n + 1, s => do
    let (page, s) := dequeueFifo (.queue d) s
    let (next, s) := dequeueFifo (.free d.dst) s
    let next ← deref next
    let offset := (s.page next).devdaxOffset
    let (es, s) ← dequeueBatch d n s
    .ok (⟨page, next, offset⟩ :: es, s)

/-- The second loop of an iteration: the free descriptor is rewritten, the moved
page goes to the mmap list of the destination and the free descriptor to the
free list of the source. -/
def enqueueBatch (d : Dir) : List Entry → St → Except Fault St
  | [], s => .ok s
  | e :: es, s => do
    let s := s.modPage e.next fun g =>
      { g with devdaxOffset := e.offset, present := false, inDram := d.src.inDram }
    let s ← enqueueFifo (.mmap d.dst) e.page s
    let s ← enqueueFifo (.free d.src) (some e.next) s
    enqueueBatch d es s

/-- The `stats_lock` section at the end of an iteration. -/
def countBatch (d : Dir) (num : UInt64) (s : St) : St :=
  match d with
  | .dramToDram => (s.addNum dramMmapList num).subNum dramToDramList num
  | .dramToNvm =>
    (((s.addNum nvmMmapList num).addNum dramFreeList num).subNum nvmFreeList num).subNum
      dramToNvmList num
  | .nvmToDram =>
    (((s.addNum dramMmapList num).addNum nvmFreeList num).subNum dramFreeList num).subNum
      nvmToDramList num
  | .nvmToNvm => (s.addNum nvmMmapList num).subNum nvmToNvmList num

/-- `int num = list_num > NUM_BATCHS ? NUM_BATCHS : list_num`. -/
def batchSize (numBatchs : Nat) (d : Dir) (s : St) : Nat :=
  if numBatchs < (s.num (.queue d)).toNat then numBatchs else (s.num (.queue d)).toNat

/-- The body of the loop of direction `d` of `migration_request`. -/
def migrateBatch (cfg : Config) (numBatchs : Nat) (d : Dir) (s : St) : Except Fault St := do
  let num := batchSize numBatchs d s
  let (es, s) ← dequeueBatch d num s
  let s ← pebsMigrate cfg d (es.map Entry.page) (es.map Entry.offset) s
  let s ← enqueueBatch d es s
  .ok (countBatch d (UInt64.ofNat num) s)

/-- One test of `while (list_num)` with the iteration it admits. -/
def migrationRequest (cfg : Config) (numBatchs : Nat) (d : Dir) (s : St) : Except Fault St :=
  if s.num (.queue d) = 0 then .ok s else migrateBatch cfg numBatchs d s

end Hemem
