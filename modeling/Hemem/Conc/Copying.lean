import Hemem.Lib.Run
import Hemem.Lib.Barrier
import Hemem.Machine

/-!
# Hemem.Conc.Copying — the copy threads and their barrier

`hemem_parallel_memcpy` and `hemem_parallel_memset` leave their arguments in `pmemcpy`, meet
the copy threads at its barrier, and meet them there again when the job is done; each copy
thread reads the arguments between the two meetings. One record serves all calls, one lock
keeps them apart, and a copy thread may still be leaving the second meeting of a call when
the next one writes its arguments: it does not read them before the meeting that follows.

Any number of clients and of copy threads run here, one access or one barrier call at a time.
`pthread_barrier_wait` is taken apart into the arrival and the return, and both values that
it may return pass the assertion behind it.
-/

namespace Hemem

open Lib

/-! ## Calls and jobs -/

/-- A call with its arguments; nothing reads the `c` of `hemem_parallel_memset`. -/
inductive CopyCall where
  | memcpy (dst src length : Nat)
  | memset (addr : Nat) (c : Int) (n : Nat)
deriving DecidableEq, Repr

/-- The arguments as a copy thread reads them; `src` only when there is something to copy. -/
structure PmemcpyJob where
  dst : Nat
  src : Option Nat
  length : Nat
  writeZeros : Bool
deriving DecidableEq, Repr

def CopyCall.job : CopyCall → PmemcpyJob
  | .memcpy dst src length => ⟨dst, some src, length, false⟩
  | .memset addr _ n => ⟨addr, none, n, true⟩

/-- The fields of `pmemcpy` that hold the arguments. -/
structure Pmemcpy where
  dst : Nat
  src : Nat
  length : Nat
  writeZeros : Bool
deriving DecidableEq, Repr

def Pmemcpy.job (p : Pmemcpy) : PmemcpyJob :=
  ⟨p.dst, if p.writeZeros then none else some p.src, p.length, p.writeZeros⟩

/-- An assignment to a field of `pmemcpy`. -/
inductive Assign where
  | dst (v : Nat)
  | src (v : Nat)
  | length (v : Nat)
  | writeZeros (b : Bool)
deriving DecidableEq, Repr

def Assign.run (p : Pmemcpy) : Assign → Pmemcpy
  | .dst v => { p with dst := v }
  | .src v => { p with src := v }
  | .length v => { p with length := v }
  | .writeZeros b => { p with writeZeros := b }

/-- The assignments of a call, in the order of the source. -/
def CopyCall.code : CopyCall → List Assign
  | .memcpy dst src length => [.dst dst, .src src, .length length, .writeZeros false]
  | .memset addr _ n => [.dst addr, .length n, .writeZeros true]

/-- The `memcpy` or `memset` of the copy thread `tid` of `maxCopyThreads`. -/
def PmemcpyJob.runChunk (maxCopyThreads tid : Nat) (j : PmemcpyJob) (mem : Nat → Byte) : Nat → Byte :=
  let chunkSize := j.length / maxCopyThreads
  let dst := j.dst + tid * chunkSize
  fun a =>
    if dst ≤ a ∧ a < dst + chunkSize then
      match j.src with
      | some src => mem (src + tid * chunkSize + (a - dst))
      | none => 0
    else mem a

/-! ## The system -/

/-- Where a copy thread is; `wait g` has arrived at the barrier in the generation `g`. -/
inductive WorkerPc where
  | arrive
  | wait (g : Nat)
  | count
  | readLength
  | readDst (length : Nat)
  | readWriteZeros (length dst : Nat)
  | readSrc (length dst : Nat)
  | run (j : PmemcpyJob)
  | arriveEnd
  | waitEnd (g : Nat)
deriving DecidableEq, Repr

/-- Where a client is; with no assignment left it is about to call the barrier. -/
inductive ClientPc where
  | idle
  | lock (k : CopyCall)
  | write (k : CopyCall) (todo : List Assign)
  | wait (k : CopyCall) (g : Nat)
  | arriveEnd (k : CopyCall)
  | waitEnd (k : CopyCall) (g : Nat)
  | unlock (k : CopyCall)
deriving DecidableEq, Repr

/-- The history says which calls have got the lock and which have returned, in order, and
which jobs each copy thread has run. -/
structure Copying (T : Nat) (Client : Type) where
  barrier : Barrier
  owner : Option Client
  params : Pmemcpy
  worker : Fin T → WorkerPc
  client : Client → ClientPc
  memcps : UInt64
  mem : Nat → Byte
  begun : List (Client × CopyCall)
  returned : List (Client × CopyCall)
  done : Fin T → List PmemcpyJob

/-- The copy threads have been created, and there has been no call. -/
def Copying.init (T : Nat) (Client : Type) (params : Pmemcpy) (mem : Nat → Byte) :
    Copying T Client :=
  ⟨.init, none, params, fun _ => .arrive, fun _ => .idle, 0, mem, [], [], fun _ => []⟩

inductive CopyLabel (T : Nat) (Client : Type) where
  /-- an idle client calls -/
  | start (c : Client) (k : CopyCall)
  /-- a client takes its next step -/
  | client (c : Client)
  /-- a copy thread takes its next step -/
  | worker (t : Fin T)
deriving DecidableEq, Repr

variable {T : Nat} {Client : Type}

def Copying.setWorker (x : Copying T Client) (t : Fin T) (pc : WorkerPc) : Copying T Client :=
  { x with worker := Function.update x.worker t pc }

/-- One step of the loop of `memcpy_thread`. -/
def workerStep (t : Fin T) (x : Copying T Client) : Copying T Client :=
  match x.worker t with
  | .arrive =>
    { x.setWorker t (.wait x.barrier.generation) with barrier := x.barrier.arrive (T + 1) }
  | .wait g => if g < x.barrier.generation then x.setWorker t .count else x
  | .count =>
    if t.val = 0 then { x.setWorker t .readLength with memcps := x.memcps + 1 }
    else x.setWorker t .readLength
  | .readLength => x.setWorker t (.readDst x.params.length)
  | .readDst length => x.setWorker t (.readWriteZeros length x.params.dst)
  | .readWriteZeros length dst =>
    if x.params.writeZeros then x.setWorker t (.run ⟨dst, none, length, true⟩)
    else x.setWorker t (.readSrc length dst)
  | .readSrc length dst => x.setWorker t (.run ⟨dst, some x.params.src, length, false⟩)
  | .run j =>
    { x.setWorker t .arriveEnd with
      mem := j.runChunk T t.val x.mem
      done := Function.update x.done t (x.done t ++ [j]) }
  | .arriveEnd =>
    { x.setWorker t (.waitEnd x.barrier.generation) with barrier := x.barrier.arrive (T + 1) }
  | .waitEnd g => if g < x.barrier.generation then x.setWorker t .arrive else x

variable [DecidableEq Client]

def Copying.setClient (x : Copying T Client) (c : Client) (pc : ClientPc) : Copying T Client :=
  { x with client := Function.update x.client c pc }

/-- One step of `hemem_parallel_memcpy` or `hemem_parallel_memset`. -/
def clientStep (c : Client) (x : Copying T Client) : Copying T Client :=
  match x.client c with
  | .idle => x
  | .lock k =>
    match x.owner with
    | none =>
      { x.setClient c (.write k k.code) with owner := some c, begun := x.begun ++ [(c, k)] }
    | some _ => x
  | .write k (a :: todo) => { x.setClient c (.write k todo) with params := a.run x.params }
  | .write k [] =>
    { x.setClient c (.wait k x.barrier.generation) with barrier := x.barrier.arrive (T + 1) }
  | .wait k g => if g < x.barrier.generation then x.setClient c (.arriveEnd k) else x
  | .arriveEnd k =>
    { x.setClient c (.waitEnd k x.barrier.generation) with barrier := x.barrier.arrive (T + 1) }
  | .waitEnd k g => if g < x.barrier.generation then x.setClient c (.unlock k) else x
  | .unlock k =>
    { x.setClient c .idle with owner := none, returned := x.returned ++ [(c, k)] }

/-- One step of the system; none stops it. -/
def copyStep (lbl : CopyLabel T Client) (x : Copying T Client) : Except Empty (Copying T Client) :=
  match lbl with
  | .start c k => .ok (if x.client c = .idle then x.setClient c (.lock k) else x)
  | .client c => .ok (clientStep c x)
  | .worker t => .ok (workerStep t x)

/-- The jobs of calls. -/
def jobsOf (calls : List (Client × CopyCall)) : List PmemcpyJob := calls.map fun k => k.2.job

/-- Every copy thread runs the jobs of the calls, all of them, in their order, each once and
with the arguments of its call; a call returns after all copy threads have run its job. When
no call is in progress, `memcps` counts the calls. -/
structure Copying.Isolated (x : Copying T Client) : Prop where
  done : ∀ t, x.done t <+: jobsOf x.begun
  returned : ∀ t, jobsOf x.returned <+: x.done t
  order : x.returned <+: x.begun
  idle : (∀ c, x.client c = .idle) →
    x.begun = x.returned ∧ (∀ t, x.done t = jobsOf x.returned) ∧
      x.memcps = UInt64.ofNat x.returned.length

end Hemem
