import Hemem.Lib.Run
import Hemem.Mapping

/-!
# Hemem.System — complete operations, one after another

The operations of the page manager as an application without overlapping calls
sees them: each runs from its start to its return before the next one begins. A
run starts in the state that `pebs_init` leaves. An operation that stops the
process ends the run.
-/

namespace Hemem

open Lib

inductive Op where
  /-- `hemem_mmap`, with or without `MAP_POPULATE`; the kernel returns `p` -/
  | mmap (p length : Nat) (populate : Bool)
  /-- a missing fault on the page at `pageBoundry` -/
  | missingFault (pageBoundry : Nat)
  /-- one of the four request functions -/
  | request (d : Dir) (pagesNum : Int) (random : Bool) (rand : Nat → Nat)
  /-- one test of a loop of `migration_request`, with the batch it admits -/
  | migrate (numBatchs : Nat) (d : Dir)
  /-- `hemem_munmap` -/
  | munmap (fuel addr length : Nat) (accept : Bool)
  /-- a store by the application -/
  | write (a : Nat) (v : Byte)

/-- A store by the application; it blocks on a protected address. -/
def appWrite (a : Nat) (v : Byte) (s : St) : Except Fault St :=
  match s.vm a with
  | some (.slot t o) => do
    check (!s.wp a) .noAccess
    .ok { s with mem := fun u o' => if u = t ∧ o' = o then v else s.mem u o' }
  | _ => .error .noAccess

/-- One complete operation. -/
def exec (cfg : Config) : Op → St → Except Fault St
  | .mmap p length populate, s => hememMmap cfg p length populate s
  | .missingFault pageBoundry, s => handleMissingFault cfg pageBoundry s
  | .request d pagesNum random rand, s => do
    let (_, s) ← request d pagesNum random rand s
    .ok s
  | .migrate numBatchs d, s => migrationRequest cfg numBatchs d s
  | .munmap fuel addr length accept, s => do
    let (_, s) ← hememMunmap fuel addr length accept s
    .ok s
  | .write a v, s => appWrite a v s

/-- Two pages of DRAM and two of NVM. -/
def smallConfig : Config := ⟨2 * pageSize, 2 * pageSize, by decide, by decide⟩

end Hemem
