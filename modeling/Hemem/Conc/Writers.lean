import Hemem.AddressSpace
import Hemem.Conc.Registers

/-!
# Hemem.Conc.Writers — the application writes while pages migrate

Any number of threads that write, `pebs_migrate_*`, and the fault thread in
`handle_fault`. A write to a protected address leaves a message for the fault thread
and blocks until a `UFFDIO_WAKE` of its page, after which it is tried again.
`handle_wp_fault` looks the page up and waits until `migrating` is false; it does not
touch the protection.

`hemem_migrate_*` collects the copies of the batch and has them made by one
`UFFDIO_DMA_COPY`, which returns when nothing is left to copy. The pieces in which and
the order in which this is done are arbitrary, and a piece may be copied as soon as its
copy has been asked for: without `USE_DMA` the threads of `hemem_parallel_memcpy` begin
at once.
-/

namespace Hemem

/-- A copy that `hemem_migrate_*` has asked for, and the pieces still to be copied. -/
structure CopyJob where
  page : Option PageId
  src : Tier × Nat
  dst : Tier × Nat
  len : Nat
  left : List (Nat × Nat)
deriving DecidableEq, Repr

/-- The `n` bytes from `k` on in pieces of the sizes `cuts`, the last one being the
rest. -/
def pieces : Nat → Nat → List Nat → List (Nat × Nat)
  | k, n, [] => [(k, n)]
  | k, n, c :: cs => (k, min c n) :: pieces (k + min c n) (n - min c n) cs

/-- A thread that writes. -/
inductive Writer where
  | idle
  /-- the next step is the store -/
  | store (a : Nat) (v : Byte)
  /-- the store has faulted and waits for a `UFFDIO_WAKE` -/
  | blocked (a : Nat) (v : Byte)
deriving DecidableEq, Repr

/-- The fault thread. -/
inductive Handler where
  /-- about to read a message -/
  | idle
  /-- in the loop of `handle_wp_fault` -/
  | spin (pageBoundry : Nat) (p : PageId)
  /-- about to wake the threads that wait for the page -/
  | wake (pageBoundry : Nat)
deriving DecidableEq, Repr

structure WriteSys (Wid : Type) where
  st : St
  /-- the migration thread, when it is in `pebs_migrate_*` -/
  mig : Option Mpc
  /-- the copies of the batch -/
  jobs : List CopyJob
  writer : Wid → Writer
  /-- the messages that the fault thread has not read -/
  msgs : List Nat
  handler : Handler
  /-- the last write to each address that has completed -/
  last : Nat → Byte

inductive WriteLabel (Wid : Type) where
  /-- an idle thread begins to write -/
  | write (w : Wid) (a : Nat) (v : Byte)
  /-- a thread executes its store -/
  | store (w : Wid)
  /-- `pebs_migrate_*` is called with a batch -/
  | begin (d : Dir) (es : List Entry)
  /-- the migration thread takes its next step; a copy is to be made in pieces of the
  sizes `cuts` -/
  | migrate (cuts : List Nat)
  /-- piece `j` of copy `i` is copied -/
  | copy (i j : Nat)
  /-- the fault thread takes its next step -/
  | handle

variable {Wid : Type} [DecidableEq Wid]

/-- A store. Where no device is mapped it has no effect here: it is a missing fault or
an error of the application. -/
def WriteSys.store (w : Wid) (a : Nat) (v : Byte) (x : WriteSys Wid) : WriteSys Wid :=
  match x.st.vm a with
  | some (.slot t o) =>
    if x.st.wp a then
      { x with
        writer := Function.update x.writer w (.blocked a v)
        msgs := x.msgs ++ [a / pageSize * pageSize] }
    else
      { x with
        st := { x.st with mem := fun u o' => if u = t ∧ o' = o then v else x.st.mem u o' }
        writer := Function.update x.writer w .idle
        last := Function.update x.last a v }
  | _ => x

/-- `UFFDIO_WAKE` of the page at `pageBoundry`. -/
def wake (pageBoundry : Nat) : Writer → Writer
  | .blocked a v => if inRange pageBoundry pageSize a then .store a v else .blocked a v
  | w => w

/-- The `ioctl` waits for the copies at the end of the first loop of `hemem_migrate_*`. -/
def Mpc.waits : Mpc → Bool
  | .loop _ .copy _ [] _ _ => true
  | _ => false

/-- One step of the migration thread in `pebs_migrate_*`. -/
def WriteSys.migrate (cfg : Config) (cuts : List Nat) (m : Mpc) (x : WriteSys Wid) :
    Except Fault (WriteSys Wid) :=
  match m with
  | .loop d ph done (e :: todo) (.copy :: code) r =>
    .ok { x with
      mig := some (.loop d ph done (e :: todo) code r)
      jobs := x.jobs ++
        [⟨e.page, (d.src, r.old), (d.dst, e.offset), r.len, pieces 0 r.len cuts⟩] }
  | .loop _ .unflag _ [] _ _ => .ok { x with mig := none }
  | m =>
    if m.waits && x.jobs.any (fun j => !j.left.isEmpty) then .ok x
    else do
      let (m, s, _) ← migStep cfg 0 m x.st
      .ok { x with mig := some m, st := s }

/-- One step of the fault thread. -/
def WriteSys.handle (x : WriteSys Wid) : Except Fault (WriteSys Wid) :=
  match x.handler, x.msgs with
  | .idle, [] => .ok x
  | .idle, pageBoundry :: msgs =>
    match findPage pageBoundry x.st with
    | some p => .ok { x with handler := .spin pageBoundry p, msgs := msgs }
    | none => .error .pageAssert
  | .spin pageBoundry p, _ =>
    .ok (if (x.st.page p).migrating then x else { x with handler := .wake pageBoundry })
  | .wake pageBoundry, _ =>
    .ok { x with handler := .idle, writer := fun w => wake pageBoundry (x.writer w) }

def writeStep (cfg : Config) : WriteLabel Wid → WriteSys Wid → Except Fault (WriteSys Wid)
  | .write w a v, x =>
    match x.writer w with
    | .idle => .ok { x with writer := Function.update x.writer w (.store a v) }
    | _ => .ok x
  | .store w, x =>
    match x.writer w with
    | .store a v => .ok (x.store w a v)
    | _ => .ok x
  | .begin d es, x =>
    match x.mig with
    | none => .ok { x with mig := some (.loop d .flag [] es (d.code .flag) ⟨0, 0, 0⟩), jobs := [] }
    | some _ => .ok x
  | .migrate cuts, x =>
    match x.mig with
    | none => .ok x
    | some m => x.migrate cfg cuts m
  | .copy i j, x =>
    match x.jobs[i]? with
    | none => .ok x
    | some job =>
      match job.left[j]? with
      | none => .ok x
      | some (k, n) =>
        .ok { x with
          st := copySlot job.src.1 (job.src.2 + k) job.dst.1 (job.dst.2 + k) n x.st
          jobs := x.jobs.set i { job with left := job.left.eraseIdx j } }
  | .handle, x => x.handle

/-- All threads are idle; every address reads what was last written to it. -/
def WriteSys.quiet (s : St) : WriteSys Wid where
  st := s
  mig := none
  jobs := []
  writer _ := .idle
  msgs := []
  handler := .idle
  last a := (s.read a).getD 0

end Hemem
