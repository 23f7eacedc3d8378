import Hemem.Conc.Migrator
import Hemem.Mapped

/-!
# Hemem.MigTest — `mig-test.c`

The program that measures migration: it maps a region, fills it, has all pages moved to NVM
and back, and unmaps the region. It waits for the migration thread by testing the counter of
the queue, and in the end the total of the mapped pages.

A step of `main` is a call, a store, an iteration of a request or a test; a step of the
migration thread is a test of one of its loops with the batch it admits. The steps of both
come in any order.
-/

namespace Hemem

open Lib

/-- What `main` does not choose itself. -/
structure MigTest where
  /-- the address that the kernel returns for the mapping -/
  c : Nat
  /-- `SIZE / PG_SIZE` -/
  npage : Nat
  /-- the numbers that `rand` draws after `srand(1)` -/
  rand : Nat → Nat
  /-- whether `libc_munmap` gets its way at the end -/
  accept : Bool
  npage_pos : 0 < npage
  /-- `migrate_down_request` takes the number as an `int` -/
  npage_lt : npage < 2 ^ 31
  c_ne : c ≠ 0
  aligned : c % pageSize = 0
  inside : c + npage * pageSize + pageSize < 2 ^ 64

namespace MigTest

/-- `SIZE`. -/
def size (t : MigTest) : Nat := t.npage * pageSize

/-- `rand() & 0x00ff`, as a `char`. -/
def value (t : MigTest) (i : Nat) : Byte := UInt8.ofNat (t.rand i &&& 0x00ff)

end MigTest

/-- The two halves of the measurement. -/
inductive Half where
  | down
  | up
deriving DecidableEq, Repr

/-- The queue that `migrate_down_request` or `migrate_up_request` fills. -/
def Half.dir : Half → Dir
  | .down => .dramToNvm
  | .up => .nvmToDram

/-- Where `main` is. -/
inductive TestPc where
  | map
  /-- `c[i] = rand() & 0x00ff` -/
  | store (i : Nat)
  /-- iteration `i` of the request, which has counted `pagePut` so far -/
  | request (h : Half) (i pagePut : Nat)
  /-- `while (get_dram_to_nvm_list_num())`, `while (get_nvm_to_dram_list_num())` -/
  | wait (h : Half)
  | unmap
  /-- `while (get_total_mmap())` -/
  | waitTotal
  | done
deriving DecidableEq, Repr

/-- What follows the loop that waits. -/
def Half.next : Half → TestPc
  | .down => .request .up 0 0
  | .up => .unmap

/-- `get_dram_to_nvm_list_num` and `get_nvm_to_dram_list_num`, which return an `int`. -/
def getListNum (d : Dir) (s : St) : Int32 := (s.num (.queue d)).toUInt32.toInt32

/-- The process: `dir` is the loop that the migration thread is in, `printed` what `main` has
printed. -/
structure TestSys where
  st : St
  dir : Dir
  pc : TestPc
  printed : List Nat

def testInit (cfg : Config) : TestSys := ⟨pebsInit cfg, .dramToDram, .map, []⟩

/-- A step of `main`. -/
def mainStep (cfg : Config) (t : MigTest) (x : TestSys) : Except Fault TestSys :=
  match x.pc with
  | .map => do
    let s ← hememMmap cfg t.c t.size true x.st
    .ok { x with st := s, pc := .store 0 }
  | .store i =>
    if i < t.size then do
      let s ← appWrite (t.c + i) (t.value i) x.st
      .ok { x with st := s, pc := .store (i + 1) }
    else .ok { x with pc := .request .down 0 0 }
  | .request h i pagePut =>
    if i < t.npage then do
      let s ← beforeTake h.dir true (t.rand i) x.st
      let r ← putPage h.dir s
      .ok { x with st := r.2, pc := .request h (i + 1) (pagePut + r.1) }
    else .ok { x with pc := .wait h, printed := x.printed ++ [pagePut] }
  | .wait h => .ok (if getListNum h.dir x.st ≠ 0 then x else { x with pc := h.next })
  | .unmap => do
    let r ← hememMunmap (t.size / basepageSize + 2) t.c t.size t.accept x.st
    .ok { x with st := r.2, pc := .waitTotal }
  | .waitTotal => .ok (if getTotalMmap x.st ≠ 0 then x else { x with pc := .done })
  | .done => .ok x

/-- A step of the migration thread. -/
def migratorStep (cfg : Config) (numBatchs : Nat) (x : TestSys) : Except Fault TestSys := do
  let s ← migrationRequest cfg numBatchs x.dir x.st
  .ok { x with st := s, dir := if x.st.num (.queue x.dir) = 0 then x.dir.next else x.dir }

/-- The two threads of the process. -/
inductive TestThread where
  | main
  | migrator
deriving DecidableEq, Repr

def testStep (cfg : Config) (numBatchs : Nat) (t : MigTest) :
    TestThread → TestSys → Except Fault TestSys
  | .main => mainStep cfg t
  | .migrator => migratorStep cfg numBatchs

end Hemem
