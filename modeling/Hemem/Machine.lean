import Mathlib.Algebra.Ring.Nat
import Mathlib.Logic.Function.Basic
import Mathlib.Tactic.Simps.Basic

/-!
# Hemem.Machine — descriptors, lists, counters and the address space

The data model of the page manager: the `struct hemem_page` descriptors, the
eight `fifo_list`s of `pebs.c` with their eight counters, the `pages` hash
table of `hemem.c`, and what the kernel keeps for the process — which byte of
which device every address is mapped to, which addresses are registered with
userfaultfd and which are write-protected.

* A `fifo_list` is the list of its entries in dequeue order: `enqueue_fifo`
  appends, `dequeue_fifo` takes the head.
* Counters are `uint64_t`, hence `UInt64`. Addresses are `Nat`; the two places
  where the code lets one wrap reduce it modulo `2 ^ 64` explicitly.
* A descriptor pointer is the number of the descriptor in the order in which
  `pebs_init` allocates them; `NULL` is `none`.
-/

namespace Hemem

/-- `BASEPAGE_SIZE`. -/
def basepageSize : Nat := 4096

/-- `HUGEPAGE_SIZE`. -/
def hugepageSize : Nat := 2097152

/-- `PAGE_SIZE`, which `hemem.h` defines as `HUGEPAGE_SIZE`. -/
def pageSize : Nat := hugepageSize

@[simp] theorem basepageSize_eq : basepageSize = 4096 := rfl
@[simp] theorem hugepageSize_eq : hugepageSize = 2097152 := rfl
@[simp] theorem pageSize_eq : pageSize = 2097152 := rfl

/-- The two devices: `/dev/dax0.0` and `/dev/dax1.0`. -/
inductive Tier where
  | dram
  | nvm
deriving DecidableEq, Repr

/-- The value of `in_dram` for a page of the tier. -/
def Tier.inDram : Tier → Bool
  | .dram => true
  | .nvm => false

@[simp] theorem Tier.inDram_inj {t u : Tier} : t.inDram = u.inDram ↔ t = u := by
  cases t <;> cases u <;> simp [Tier.inDram]

/-- The tier a value of `in_dram` stands for. -/
def Tier.ofInDram : Bool → Tier
  | true => .dram
  | false => .nvm

@[simp] theorem Tier.ofInDram_inDram (t : Tier) : Tier.ofInDram t.inDram = t := by
  cases t <;> rfl

@[simp] theorem Tier.inDram_ofInDram (b : Bool) : (Tier.ofInDram b).inDram = b := by
  cases b <;> rfl

/-- The four migration directions, one per loop of `migration_request`. -/
inductive Dir where
  | dramToDram
  | dramToNvm
  | nvmToDram
  | nvmToNvm
deriving DecidableEq, Repr

def Dir.src : Dir → Tier
  | .dramToDram | .dramToNvm => .dram
  | .nvmToDram | .nvmToNvm => .nvm

def Dir.dst : Dir → Tier
  | .dramToDram | .nvmToDram => .dram
  | .dramToNvm | .nvmToNvm => .nvm

/-- The eight lists of `pebs.c`. -/
inductive ListId where
  | free (t : Tier)
  | mmap (t : Tier)
  | queue (d : Dir)
deriving DecidableEq, Repr

abbrev dramFreeList : ListId := .free .dram
abbrev nvmFreeList : ListId := .free .nvm
abbrev dramMmapList : ListId := .mmap .dram
abbrev nvmMmapList : ListId := .mmap .nvm
abbrev dramToDramList : ListId := .queue .dramToDram
abbrev dramToNvmList : ListId := .queue .dramToNvm
abbrev nvmToDramList : ListId := .queue .nvmToDram
abbrev nvmToNvmList : ListId := .queue .nvmToNvm

/-- The tier of the pages that wait on a list. -/
def ListId.tier : ListId → Tier
  | .free t | .mmap t => t
  | .queue d => d.src

/-- The value of `present` for the pages of a list: false on the two free
lists, true on the other six. -/
def ListId.present : ListId → Bool
  | .free _ => false
  | .mmap _ | .queue _ => true

/-- `enum pagetypes`. -/
inductive Pagetype where
  | hugep
  | basep
deriving DecidableEq, Repr

/-- `pt_to_pagesize`. -/
def ptToPagesize : Pagetype → Nat
  | .hugep => hugepageSize
  | .basep => basepageSize

/-- The fields of `struct hemem_page` that the modelled functions use. -/
structure HememPage where
  va : Nat
  devdaxOffset : Nat
  inDram : Bool
  pt : Pagetype
  migrating : Bool
  present : Bool
  migrationsUp : Nat
  migrationsDown : Nat
deriving DecidableEq, Repr

/-- The tier the descriptor says its page is in. -/
def HememPage.tier (g : HememPage) : Tier := .ofInDram g.inDram

/-- The physical slot a descriptor denotes: its tier and its device offset. -/
def HememPage.slot (g : HememPage) : Tier × Nat := (g.tier, g.devdaxOffset)

theorem HememPage.slot_inj {g g' : HememPage} (h : g.slot = g'.slot) :
    g.inDram = g'.inDram ∧ g.devdaxOffset = g'.devdaxOffset := by
  rcases Prod.mk.inj h with ⟨htier, hoffset⟩
  refine ⟨?_, hoffset⟩
  rw [← Tier.inDram_ofInDram g.inDram, ← Tier.inDram_ofInDram g'.inDram]
  exact congrArg Tier.inDram htier

abbrev PageId := Nat
abbrev Byte := UInt8

/-- What an address of the process is mapped to: a range that `hemem_mmap` has
reserved and whose pages are still missing, or one byte of a device. -/
inductive Backing where
  | reserved
  | slot (t : Tier) (off : Nat)
deriving DecidableEq, Repr

/-- The ways in which the program stops instead of completing an operation. -/
inductive Fault where
  /-- a `NULL` descriptor is dereferenced -/
  | nullDeref
  /-- `rand() % 0` -/
  | divByZero
  /-- `assert(!"Out of memory")` -/
  | outOfMemory
  /-- `assert(page->in_dram)` or `assert(!page->in_dram)` -/
  | inDramAssert
  /-- `assert(page->present)` or `assert(!page->present)` -/
  | presentAssert
  /-- `assert(addr != 0)`, `assert(addr % PAGE_SIZE == 0)` -/
  | vaAssert
  /-- the offset assertions of the first loop of `hemem_migrate_*` -/
  | offsetAssert
  /-- `assert(length != 0)` -/
  | lengthAssert
  /-- `assert(p == NULL)` in `add_page` -/
  | tableAssert
  /-- `assert(page != NULL)` in `handle_wp_fault` -/
  | pageAssert
  /-- an `ioctl` returns an error: `perror` and `assert(0)` -/
  | ioctlFailed
  /-- `memset` beyond the end of a device mapping -/
  | badAccess
  /-- an application access to an address that is not mapped, or that blocks -/
  | noAccess
  /-- a scan that is still running when the step bound is used up -/
  | running
deriving DecidableEq, Repr

/-- `assert(b)`. -/
def check (b : Bool) (f : Fault) : Except Fault Unit :=
  if b then .ok () else .error f

@[simp] theorem check_eq_ok {b : Bool} {f : Fault} {u : Unit} :
    check b f = .ok u ↔ b = true := by
  cases b <;> simp [check]

/-- A `struct hemem_page *` is dereferenced. -/
def deref : Option PageId → Except Fault PageId
  | some p => .ok p
  | none => .error .nullDeref

@[simp] theorem deref_eq_ok {e : Option PageId} {p : PageId} :
    deref e = .ok p ↔ e = some p := by
  cases e <;> simp [deref]

/-- The sizes of the two devices: `DRAMSIZE` and `NVMSIZE`, both of type
`long`. -/
structure Config where
  dramSize : Nat
  nvmSize : Nat
  dramSize_lt : dramSize < 2 ^ 63
  nvmSize_lt : nvmSize < 2 ^ 63

/-- `DRAMSIZE` or `NVMSIZE`. -/
def Config.size (cfg : Config) : Tier → Nat
  | .dram => cfg.dramSize
  | .nvm => cfg.nvmSize

/-- `FASTMEM_PAGES` or `SLOWMEM_PAGES`: the trip count of a loop of
`pebs_init`. -/
def Config.npages (cfg : Config) (t : Tier) : Nat := cfg.size t / pageSize

/-- The number of descriptors that `pebs_init` allocates. -/
def Config.total (cfg : Config) : Nat := cfg.npages .dram + cfg.npages .nvm

theorem Config.size_lt (cfg : Config) (t : Tier) : cfg.size t < 2 ^ 63 := by
  cases t
  · exact cfg.dramSize_lt
  · exact cfg.nvmSize_lt

/-- Two counts of descriptors add up without a wrap. -/
theorem Config.two_mul_total_lt (cfg : Config) : 2 * cfg.total < 2 ^ 64 := by
  have hd := cfg.size_lt .dram
  have hn := cfg.size_lt .nvm
  simp only [Config.total, Config.npages, pageSize_eq]
  omega

/-- The number of descriptors fits into a counter. -/
theorem Config.total_lt (cfg : Config) : cfg.total < 2 ^ 64 := by
  have := cfg.two_mul_total_lt
  omega

/-- The shared state of the process. -/
@[ext]
structure St where
  /-- the descriptors -/
  page : PageId → HememPage
  /-- the eight `fifo_list`s -/
  list : ListId → List PageId
  /-- the eight counters `*_list_num` -/
  num : ListId → UInt64
  /-- the hash table `pages` -/
  pages : Nat → Option PageId
  /-- the address space: the mapping of every byte -/
  vm : Nat → Option Backing
  /-- the addresses registered with userfaultfd -/
  registered : Nat → Bool
  /-- the addresses under userfaultfd write protection -/
  wp : Nat → Bool
  /-- the contents of the two devices -/
  mem : Tier → Nat → Byte

/-! ## Updates of one component -/

/-- An assignment to fields of the descriptor `p`. -/
@[simps -fullyApplied] def St.modPage (s : St) (p : PageId) (f : HememPage → HememPage) : St :=
  { s with page := Function.update s.page p (f (s.page p)) }

@[simps -fullyApplied] def St.setList (s : St) (l : ListId) (ps : List PageId) : St :=
  { s with list := Function.update s.list l ps }

@[simps -fullyApplied] def St.addNum (s : St) (l : ListId) (n : UInt64) : St :=
  { s with num := Function.update s.num l (s.num l + n) }

@[simps -fullyApplied] def St.subNum (s : St) (l : ListId) (n : UInt64) : St :=
  { s with num := Function.update s.num l (s.num l - n) }

/-! ## `fifo.c`, on the list of entries -/

/-- `dequeue_fifo`: the oldest entry, or `NULL` when the list is empty. -/
def dequeueFifo (l : ListId) (s : St) : Option PageId × St :=
  match s.list l with
  | [] => (none, s)
  | p :: rest => (some p, s.setList l rest)

/-- `enqueue_fifo`; a `NULL` entry is dereferenced by its first statement. -/
def enqueueFifo (l : ListId) (e : Option PageId) (s : St) : Except Fault St := do
  let p ← deref e
  .ok (s.setList l (s.list l ++ [p]))

/-! ## `add_page`, `remove_page`, `find_page` -/

/-- `find_page`. -/
def findPage (va : Nat) (s : St) : Option PageId := s.pages va

/-- `HASH_ADD`: the key is the descriptor's `va`. -/
@[simps -fullyApplied] def hashAdd (p : PageId) (s : St) : St :=
  { s with pages := Function.update s.pages (s.page p).va (some p) }

/-- `add_page`. -/
def addPage (p : PageId) (s : St) : Except Fault St := do
  check (findPage (s.page p).va s).isNone .tableAssert
  .ok (hashAdd p s)

/-- `remove_page`: `HASH_DEL` unlinks the descriptor, whatever its key. -/
@[simps -fullyApplied] def removePage (p : PageId) (s : St) : St :=
  { s with pages := fun va => if s.pages va = some p then none else s.pages va }

/-! ## System calls

What the kernel documents for the calls the program makes, on the address
space of the process. A call whose failure is not a matter of this state is
taken to succeed: every such failure ends in `assert(0)`. -/

/-- Whether `a` lies in the range `[start, start + len)`. -/
def inRange (start len a : Nat) : Bool := decide (start ≤ a ∧ a < start + len)

@[simp] theorem inRange_iff {start len a : Nat} :
    inRange start len a = true ↔ start ≤ a ∧ a < start + len := by
  simp [inRange]

/-- `mmap` with `MAP_FIXED` of `len` bytes of a device: it replaces whatever was
mapped, and the new mapping is neither registered nor protected. -/
@[simps -fullyApplied] def mmapFixed (va len : Nat) (t : Tier) (off : Nat) (s : St) : St :=
  { s with
    vm := fun a => if inRange va len a then some (.slot t (off + (a - va))) else s.vm a
    registered := fun a => if inRange va len a then false else s.registered a
    wp := fun a => if inRange va len a then false else s.wp a }

/-- The `mmap` with which `hemem_mmap` reserves a region. -/
@[simps -fullyApplied] def mmapReserve (va len : Nat) (s : St) : St :=
  { s with
    vm := fun a => if inRange va len a then some .reserved else s.vm a
    registered := fun a => if inRange va len a then false else s.registered a
    wp := fun a => if inRange va len a then false else s.wp a }

@[simps -fullyApplied] def registerRange (va len : Nat) (s : St) : St :=
  { s with registered := fun a => if inRange va len a then true else s.registered a }

@[simps -fullyApplied] def protectRange (va len : Nat) (s : St) : St :=
  { s with wp := fun a => if inRange va len a then true else s.wp a }

/-- `ioctl(uffd, UFFDIO_REGISTER)`: an error when nothing is mapped there. -/
def uffdioRegister (va len : Nat) (s : St) : Except Fault St := do
  check (s.vm va).isSome .ioctlFailed
  .ok (registerRange va len s)

/-- `ioctl(uffd, UFFDIO_WRITEPROTECT)` with `UFFDIO_WRITEPROTECT_MODE_WP`: an
error when the range is not registered. -/
def uffdioWriteprotect (va len : Nat) (s : St) : Except Fault St := do
  check (s.registered va) .ioctlFailed
  .ok (protectRange va len s)

/-- Whether unmapping `[addr, stop)` would split a huge page of a device: only
the pages at the two ends of the range can be split. -/
def splitsPage (addr stop : Nat) (s : St) : Bool :=
  (addr % pageSize != 0 && (s.vm (addr - addr % pageSize)).isSome) ||
    (stop % pageSize != 0 && (s.vm (stop - stop % pageSize)).isSome)

/-- The end of the range that `munmap(addr, length)` unmaps: the kernel rounds
the length up to whole base pages. -/
def munmapStop (addr length : Nat) : Nat :=
  addr + (length + (basepageSize - 1)) / basepageSize * basepageSize

/-- The address space after `[start, start + len)` has been unmapped. -/
@[simps -fullyApplied] def unmapRange (start len : Nat) (s : St) : St :=
  { s with
    vm := fun a => if inRange start len a then none else s.vm a
    registered := fun a => if inRange start len a then false else s.registered a
    wp := fun a => if inRange start len a then false else s.wp a }

/-- `libc_munmap`. The kernel refuses an unaligned, empty or wrapping range and a
range that splits a huge page of a device; `accept` is whether it accepts the
range otherwise. -/
def libcMunmap (addr length : Nat) (accept : Bool) (s : St) : Int × St :=
  if accept && addr % basepageSize == 0 && length != 0 &&
      decide (munmapStop addr length < 2 ^ 64) && !splitsPage addr (munmapStop addr length) s then
    (0, unmapRange addr (munmapStop addr length - addr) s)
  else
    (-1, s)

/-! ## Device memory -/

/-- `memset(tmpaddr, 0, pagesize)` on a device mapping. -/
@[simps -fullyApplied] def zeroSlot (t : Tier) (off len : Nat) (s : St) : St :=
  { s with mem := fun u o => if u = t ∧ inRange off len o then 0 else s.mem u o }

/-- One page copied from a slot to a slot. -/
@[simps -fullyApplied] def copySlot (st : Tier) (soff : Nat) (dt : Tier) (doff len : Nat) (s : St) : St :=
  { s with
    mem := fun u o =>
      if u = dt ∧ inRange doff len o then s.mem st (soff + (o - doff)) else s.mem u o }

/-- A load by the application. -/
def St.read (s : St) (a : Nat) : Option Byte :=
  match s.vm a with
  | some (.slot t o) => some (s.mem t o)
  | _ => none

end Hemem
