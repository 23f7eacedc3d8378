import Mathlib.Algebra.Ring.Nat
import Mathlib.Logic.Function.Basic
import Hemem.Lib.Run

/-!
# Hemem.Uthash — the hash table of `uthash.h`

The macros behind `pages`: `HASH_FIND`, `HASH_ADD` and `HASH_DEL` with what they expand to,
on pointers. A table is an array of buckets; the handle inside an element is linked twice, in
the order in which the elements were added and in the chain of its bucket. When a chain gets
too long the array is replaced by one of twice the size and every element is moved.

* Elements, keys and the hash function are parameters; a handle is named by its element, so
  `ELMT_FROM_HH` and `HH_FROM_ELMT` are the identity. `NULL` is `none`.
* `key` is the memory of the key fields: `hh.key` points to the field of an element.
* `unsigned` is `UInt32`. The loops over a chain take a step bound `fuel`.
* A table that has been freed is `none`; `uthash_malloc` may refuse, which ends the program.
-/

namespace Hemem

open Lib

/-- The ways in which a macro does not end as it should. -/
inductive HashFault where
  /-- a `NULL` pointer is dereferenced -/
  | nullDeref
  /-- a table is used after it has been freed -/
  | freed
  /-- a bucket beyond the end of the array -/
  | outOfBounds
  /-- `uthash_fatal("out of memory")`: `exit(-1)` -/
  | outOfMemory
  /-- `assert(p == NULL)` of `add_page` -/
  | present
  /-- `HASH_OOPS` of `HASH_FSCK` -/
  | oops
  | running
deriving DecidableEq, Repr

/-- `UT_hash_handle`. -/
structure UtHandle (Elt : Type) where
  tbl : Option Nat
  prev : Option Elt
  next : Option Elt
  hhPrev : Option Elt
  hhNext : Option Elt
  key : Option Elt
  keylen : UInt32
  hashv : UInt32
deriving DecidableEq, Repr

/-- `UT_hash_bucket`. -/
structure UtBucket (Elt : Type) where
  hhHead : Option Elt
  count : UInt32
  expandMult : UInt32
deriving DecidableEq, Repr

/-- `UT_hash_table`, with the number of buckets that have been allocated. -/
structure UtTable (Elt : Type) where
  buckets : Nat → UtBucket Elt
  allocated : Nat
  numBuckets : UInt32
  log2NumBuckets : UInt32
  numItems : UInt32
  tail : Option Elt
  idealChainMaxlen : UInt32
  nonidealItems : UInt32
  ineffExpands : UInt32
  noexpand : Bool

/-- The head of the hash, the handles and keys of all elements, and the tables by address. -/
structure UtHash (Elt Key : Type) where
  head : Option Elt
  hh : Elt → UtHandle Elt
  key : Elt → Key
  tables : Nat → Option (UtTable Elt)
  /-- how often memory has been asked for; the next table is put at this address -/
  mallocs : Nat

/-- What the macros are given from outside: the hash function, the answers of
`uthash_malloc` to request number `n` for so many bytes, and
`HASH_INITIAL_NUM_BUCKETS_LOG2`. -/
structure HashEnv (Key : Type) where
  hash : Key → UInt32
  malloc : Nat → Nat → Bool
  initLog2 : Nat
  initLog2_lt : initLog2 < 32
  /-- no block of 64 GiB is to be had: the array never has `2 ^ 32` buckets -/
  malloc_lt : ∀ n size, 2 ^ 36 ≤ size → malloc n size = false

/-- `sizeof(UT_hash_table)`. -/
def sizeofTable : Nat := 64

/-- `sizeof(UT_hash_bucket)`. -/
def sizeofBucket : Nat := 16

/-- `HASH_BKT_CAPACITY_THRESH`. -/
def hashBktCapacityThresh : UInt32 := 10

/-- `sizeof(uint64_t)`, the length of every key. -/
def keyLen : UInt32 := 8

/-- A pointer is dereferenced. -/
def derefPtr {α : Type} : Option α → Except HashFault α
  | some a => .ok a
  | none => .error .nullDeref

@[simp] theorem derefPtr_some {α : Type} (a : α) : derefPtr (some a) = .ok a := rfl

/-- `HASH_TO_BKT`. -/
def hashToBkt (hashv numBkts : UInt32) : Nat := (hashv &&& (numBkts - 1)).toNat

/-- An array of buckets that `uthash_bzero` has cleared. -/
def emptyBuckets {Elt : Type} : Nat → UtBucket Elt := fun _ => ⟨none, 0, 0⟩

variable {Elt Key : Type} [DecidableEq Elt] [DecidableEq Key]

/-! ## Accesses -/

/-- Assignments to fields of a handle. -/
def UtHash.modHandle (e : Elt) (f : UtHandle Elt → UtHandle Elt) (u : UtHash Elt Key) :
    UtHash Elt Key :=
  { u with hh := Function.update u.hh e (f (u.hh e)) }

/-- Assignments to fields of `*o`, if `o` is not `NULL`. -/
def UtHash.modPtr : Option Elt → (UtHandle Elt → UtHandle Elt) → UtHash Elt Key → UtHash Elt Key
  | some e, f, u => u.modHandle e f
  | none, _, u => u

/-- `tbl->buckets[i]`. -/
def UtTable.bucket (T : UtTable Elt) (i : Nat) : Except HashFault (UtBucket Elt) :=
  if i < T.allocated then .ok (T.buckets i) else .error .outOfBounds

def UtTable.setBucket (T : UtTable Elt) (i : Nat) (b : UtBucket Elt) : UtTable Elt :=
  { T with buckets := Function.update T.buckets i b }

/-- `*tbl`. -/
def UtHash.tableAt (u : UtHash Elt Key) (tbl : Option Nat) :
    Except HashFault (Nat × UtTable Elt) := do
  let id ← derefPtr tbl
  match u.tables id with
  | some T => .ok (id, T)
  | none => .error .freed

/-- `*(head)->hh.tbl`. -/
def UtHash.table (u : UtHash Elt Key) : Except HashFault (Nat × UtTable Elt) := do
  let head ← derefPtr u.head
  u.tableAt (u.hh head).tbl

def UtHash.setTable (u : UtHash Elt Key) (id : Nat) (T : Option (UtTable Elt)) : UtHash Elt Key :=
  { u with tables := Function.update u.tables id T }

/-- `uthash_malloc`, which ends the program when it fails. -/
def UtHash.uthashMalloc (E : HashEnv Key) (size : Nat) (u : UtHash Elt Key) :
    Except HashFault (Nat × UtHash Elt Key) :=
  if E.malloc u.mallocs size then .ok (u.mallocs, { u with mallocs := u.mallocs + 1 })
  else .error .outOfMemory

/-! ## `HASH_FIND` -/

/-- The loop of `HASH_FIND_IN_BKT`. -/
def UtHash.hashFindInBkt (k : Key) (hashval : UInt32) (u : UtHash Elt Key) :
    Nat → Option Elt → Except HashFault (Option Elt)
  | 0, _ => .error .running
  | _ + 1, none => .ok none
  | fuel + 1, some out =>
    if (u.hh out).hashv = hashval ∧ (u.hh out).keylen = keyLen then do
      let key ← derefPtr (u.hh out).key
      if u.key key = k then .ok (some out)
      else u.hashFindInBkt k hashval fuel (u.hh out).hhNext
    else u.hashFindInBkt k hashval fuel (u.hh out).hhNext

def UtHash.hashFind (E : HashEnv Key) (fuel : Nat) (k : Key) (u : UtHash Elt Key) :
    Except HashFault (Option Elt) :=
  match u.head with
  | none => .ok none
  | some _ => do
    let hashv := E.hash k
    let (_, T) ← u.table
    let b ← T.bucket (hashToBkt hashv T.numBuckets)
    u.hashFindInBkt k hashv fuel b.hhHead

/-! ## `HASH_EXPAND_BUCKETS` -/

/-- What the loops change: the handles, the new buckets, and `nonideal_items`. -/
structure Expansion (Elt Key : Type) where
  hash : UtHash Elt Key
  buckets : Nat → UtBucket Elt
  nonideal : UInt32

/-- The count and the multiplier of a new bucket that gets one more item. -/
def UtBucket.counted (ideal : UInt32) (b : UtBucket Elt) : UtBucket Elt :=
  let count := b.count + 1
  if count > ideal ∧ count > b.expandMult * ideal then
    { b with count := count, expandMult := b.expandMult + 1 }
  else { b with count := count }

/-- The inner loop: the chain from `thh` on goes to the new buckets. -/
def expandChain (ideal numBkts : UInt32) (allocated : Nat) :
    Nat → Option Elt → Expansion Elt Key → Except HashFault (Expansion Elt Key)
  | 0, _, _ => .error .running
  | _ + 1, none, x => .ok x
  | fuel + 1, some thh, x =>
    let nxt := (x.hash.hh thh).hhNext
    let bkt := hashToBkt (x.hash.hh thh).hashv numBkts
    if bkt < allocated then
      let newbkt := (x.buckets bkt).counted ideal
      let nonideal := if newbkt.count > ideal then x.nonideal + 1 else x.nonideal
      let u := x.hash.modHandle thh fun g => { g with hhPrev := none, hhNext := newbkt.hhHead }
      let u := u.modPtr newbkt.hhHead fun g => { g with hhPrev := some thh }
      let buckets := Function.update x.buckets bkt { newbkt with hhHead := some thh }
      expandChain ideal numBkts allocated fuel nxt ⟨u, buckets, nonideal⟩
    else .error .outOfBounds

/-- The outer loop: `left` old buckets from bucket `i` on. -/
def expandBuckets (ideal numBkts : UInt32) (allocated fuel : Nat) (old : UtTable Elt) :
    Nat → Nat → Expansion Elt Key → Except HashFault (Expansion Elt Key)
  | 0, _, x => .ok x
  | left + 1, i, x => do
    let b ← old.bucket i
    let x ← expandChain ideal numBkts allocated fuel b.hhHead x
    expandBuckets ideal numBkts allocated fuel old left (i + 1) x

/-- `ideal_chain_maxlen` for twice as many buckets. -/
def UtTable.idealLen (T : UtTable Elt) : UInt32 :=
  (T.numItems >>> (T.log2NumBuckets + 1)) +
    if T.numItems &&& (T.numBuckets * 2 - 1) ≠ 0 then 1 else 0

/-- The table after its items have been moved. -/
def UtTable.expanded (T : UtTable Elt) (x : Expansion Elt Key) : UtTable Elt :=
  let ineff := if x.nonideal > T.numItems >>> 1 then T.ineffExpands + 1 else 0
  { T with
    buckets := x.buckets
    allocated := 2 * T.numBuckets.toNat
    numBuckets := T.numBuckets * 2
    log2NumBuckets := T.log2NumBuckets + 1
    idealChainMaxlen := T.idealLen
    nonidealItems := x.nonideal
    ineffExpands := ineff
    noexpand := T.noexpand || decide (ineff > 1) }

def UtHash.hashExpandBuckets (E : HashEnv Key) (fuel : Nat) (tbl : Option Nat)
    (u : UtHash Elt Key) : Except HashFault (UtHash Elt Key) := do
  let (id, T) ← u.tableAt tbl
  let (_, u) ← u.uthashMalloc E (2 * T.numBuckets.toNat * sizeofBucket)
  let x ← expandBuckets T.idealLen (T.numBuckets * 2) (2 * T.numBuckets.toNat) fuel T
    T.numBuckets.toNat 0 ⟨u, emptyBuckets, 0⟩
  .ok (x.hash.setTable id (some (T.expanded x)))

/-! ## `HASH_ADD` -/

/-- A table that has been cleared, with its buckets and its tail. -/
def UtTable.made (E : HashEnv Key) (add : Elt) : UtTable Elt :=
  { buckets := emptyBuckets
    allocated := 2 ^ E.initLog2
    numBuckets := UInt32.ofNat (2 ^ E.initLog2)
    log2NumBuckets := UInt32.ofNat E.initLog2
    numItems := 0
    tail := some add
    idealChainMaxlen := 0
    nonidealItems := 0
    ineffExpands := 0
    noexpand := false }

def UtHash.hashMakeTable (E : HashEnv Key) (add : Elt) (u : UtHash Elt Key) :
    Except HashFault (UtHash Elt Key) := do
  let (id, u) ← u.uthashMalloc E sizeofTable
  let (_, u) ← u.uthashMalloc E (2 ^ E.initLog2 * sizeofBucket)
  let u := u.modHandle add fun g => { g with tbl := some id }
  .ok (u.setTable id (some (UtTable.made E add)))

def UtHash.hashAppendList (add : Elt) (u : UtHash Elt Key) :
    Except HashFault (UtHash Elt Key) := do
  let (id, T) ← u.table
  let u := u.modHandle add fun g => { g with next := none, prev := T.tail }
  let tail ← derefPtr T.tail
  let u := u.modHandle tail fun g => { g with next := some add }
  .ok (u.setTable id (some { T with tail := some add }))

/-- `HASH_ADD_TO_BKT` on bucket `i` of `(head)->hh.tbl`. -/
def UtHash.hashAddToBkt (E : HashEnv Key) (fuel i : Nat) (addhh : Elt) (u : UtHash Elt Key) :
    Except HashFault (UtHash Elt Key) := do
  let (id, T) ← u.table
  let b ← T.bucket i
  let u := u.modHandle addhh fun g => { g with hhNext := b.hhHead, hhPrev := none }
  let u := u.modPtr b.hhHead fun g => { g with hhPrev := some addhh }
  let b := { b with count := b.count + 1, hhHead := some addhh }
  let u := u.setTable id (some (T.setBucket i b))
  let (_, T) ← u.tableAt (u.hh addhh).tbl
  if b.count ≥ (b.expandMult + 1) * hashBktCapacityThresh ∧ T.noexpand = false then
    u.hashExpandBuckets E fuel (u.hh addhh).tbl
  else .ok u

def UtHash.hashAddToTable (E : HashEnv Key) (fuel : Nat) (hashval : UInt32) (add : Elt)
    (u : UtHash Elt Key) : Except HashFault (UtHash Elt Key) := do
  let (id, T) ← u.table
  let u := u.setTable id (some { T with numItems := T.numItems + 1 })
  u.hashAddToBkt E fuel (hashToBkt hashval T.numBuckets) add

/-- `HASH_ADD`: the key is the field of the element itself. -/
def UtHash.hashAdd (E : HashEnv Key) (fuel : Nat) (add : Elt) (u : UtHash Elt Key) :
    Except HashFault (UtHash Elt Key) := do
  let hashv := E.hash (u.key add)
  let u := u.modHandle add fun g => { g with hashv := hashv, key := some add, keylen := keyLen }
  let u ←
    match u.head with
    | none => do
      let u := u.modHandle add fun g => { g with next := none, prev := none }
      let u ← u.hashMakeTable E add
      .ok { u with head := some add }
    | some head => do
      let u := u.modHandle add fun g => { g with tbl := (u.hh head).tbl }
      u.hashAppendList add
  u.hashAddToTable E fuel hashv add

/-! ## `HASH_DEL` -/

/-- `HASH_DEL_IN_BKT` on bucket `i` of `(head)->hh.tbl`. -/
def UtHash.hashDelInBkt (i : Nat) (delhh : Elt) (u : UtHash Elt Key) :
    Except HashFault (UtHash Elt Key) := do
  let (id, T) ← u.table
  let b ← T.bucket i
  let b := { b with count := b.count - 1 }
  let b := if b.hhHead = some delhh then { b with hhHead := (u.hh delhh).hhNext } else b
  let u := u.modPtr (u.hh delhh).hhPrev fun g => { g with hhNext := (u.hh delhh).hhNext }
  let u := u.modPtr (u.hh delhh).hhNext fun g => { g with hhPrev := (u.hh delhh).hhPrev }
  .ok (u.setTable id (some (T.setBucket i b)))

/-- The lines of `HASH_DELETE_HH` that take `del` out of the order of the elements, with the
table `T` at `id`. -/
def UtHash.unlink (del : Elt) (id : Nat) (T : UtTable Elt) (u : UtHash Elt Key) :
    UtHash Elt Key :=
  let T := if T.tail = some del then { T with tail := (u.hh del).prev } else T
  let u := u.setTable id (some T)
  let u :=
    match (u.hh del).prev with
    | some prev => u.modHandle prev fun g => { g with next := (u.hh del).next }
    | none => { u with head := (u.hh del).next }
  u.modPtr (u.hh del).next fun g => { g with prev := (u.hh del).prev }

/-- `HASH_DELETE_HH`. -/
def UtHash.hashDelete (del : Elt) (u : UtHash Elt Key) : Except HashFault (UtHash Elt Key) :=
  if (u.hh del).prev = none ∧ (u.hh del).next = none then do
    let (id, _) ← u.table
    .ok ({ u with head := none }.setTable id none)
  else do
    let (id, T) ← u.table
    let u := u.unlink del id T
    let (_, T) ← u.table
    let u ← u.hashDelInBkt (hashToBkt (u.hh del).hashv T.numBuckets) del
    let (id, T) ← u.table
    .ok (u.setTable id (some { T with numItems := T.numItems - 1 }))

/-! ## `HASH_FSCK` -/

/-- A loop of `HASH_FSCK` along the links `forth` from `thh` on: every handle has the one
before it as `back`. The number of handles is counted. -/
def fsckLoop (back forth : Elt → Option Elt) : Nat → Option Elt → Option Elt → UInt32 →
    Except HashFault UInt32
  | 0, _, _, _ => .error .running
  | _ + 1, none, _, n => .ok n
  | fuel + 1, some thh, prev, n =>
    if back thh = prev then fsckLoop back forth fuel (forth thh) (some thh) (n + 1)
    else .error .oops

/-- `left` buckets from bucket `i` on. -/
def UtHash.fsckBuckets (fuel : Nat) (T : UtTable Elt) (u : UtHash Elt Key) :
    Nat → Nat → UInt32 → Except HashFault UInt32
  | 0, _, n => .ok n
  | left + 1, i, n => do
    let b ← T.bucket i
    let m ← fsckLoop (fun e => (u.hh e).hhPrev) (fun e => (u.hh e).hhNext) fuel b.hhHead none 0
    if b.count = m then u.fsckBuckets fuel T left (i + 1) (n + m) else .error .oops

def UtHash.hashFsck (fuel : Nat) (u : UtHash Elt Key) : Except HashFault Unit :=
  match u.head with
  | none => .ok ()
  | some head => do
    let (_, T) ← u.table
    let n ← u.fsckBuckets fuel T T.numBuckets.toNat 0 0
    if n = T.numItems then do
      let n ← fsckLoop (fun e => (u.hh e).prev) (fun e => (u.hh e).next) fuel (some head) none 0
      if n = T.numItems then .ok () else .error .oops
    else .error .oops

/-! ## Calls -/

/-- What `hemem.c` does with the hash: `find_page`, `add_page`, `remove_page`, and an
assignment to a key field. -/
inductive HashCall (Elt Key : Type) where
  | find (k : Key)
  | add (e : Elt)
  | del (e : Elt)
  | setKey (e : Elt) (k : Key)
deriving DecidableEq, Repr

/-- `add_page`: no element with the key of the new one may be in the table. -/
def UtHash.addPage (E : HashEnv Key) (fuel : Nat) (e : Elt) (u : UtHash Elt Key) :
    Except HashFault (UtHash Elt Key) := do
  match ← u.hashFind E fuel (u.key e) with
  | none => u.hashAdd E fuel e
  | some _ => .error .present

/-- A call, with the element that `HASH_FIND` gives. -/
def HashCall.run (E : HashEnv Key) (fuel : Nat) :
    HashCall Elt Key → UtHash Elt Key → Except HashFault (Option Elt × UtHash Elt Key)
  | .find k, u => do
    let out ← u.hashFind E fuel k
    .ok (out, u)
  | .add e, u => do
    let u ← u.addPage E fuel e
    .ok (none, u)
  | .del e, u => do
    let u ← u.hashDelete e
    .ok (none, u)
  | .setKey e k, u => .ok (none, { u with key := Function.update u.key e k })

/-- The calls one after the other, with what they give. -/
def UtHash.runCalls (E : HashEnv Key) (fuel : Nat) : List (HashCall Elt Key) → UtHash Elt Key →
    Except HashFault (List (Option Elt) × UtHash Elt Key)
  | [], u => .ok ([], u)
  | c :: calls, u => do
    let (r, u) ← c.run E fuel u
    let (rs, u) ← UtHash.runCalls E fuel calls u
    .ok (r :: rs, u)

/-- `pages = NULL`, with the memory of the elements as it is. -/
def UtHash.empty (hh : Elt → UtHandle Elt) (key : Elt → Key) : UtHash Elt Key :=
  ⟨none, hh, key, fun _ => none, 0⟩

/-! ## `HASH_JEN` -/

/-- `HASH_JEN_MIX`. -/
def hashJenMix (a b c : UInt32) : UInt32 × UInt32 × UInt32 :=
  let a := (a - b - c) ^^^ (c >>> 13)
  let b := (b - c - a) ^^^ (a <<< 8)
  let c := (c - a - b) ^^^ (b >>> 13)
  let a := (a - b - c) ^^^ (c >>> 12)
  let b := (b - c - a) ^^^ (a <<< 16)
  let c := (c - a - b) ^^^ (b >>> 5)
  let a := (a - b - c) ^^^ (c >>> 3)
  let b := (b - c - a) ^^^ (a <<< 10)
  let c := (c - a - b) ^^^ (b >>> 15)
  (a, b, c)

/-- The bytes `i` to `i + 3` of the key as a little-endian number; a byte beyond its end
counts as zero. -/
def keyWord (key : List UInt8) (i : Nat) : UInt32 :=
  (key.getD i 0).toUInt32 + (key.getD (i + 1) 0).toUInt32 <<< 8 +
    (key.getD (i + 2) 0).toUInt32 <<< 16 + (key.getD (i + 3) 0).toUInt32 <<< 24

/-- The loop over whole blocks of twelve bytes, with what is left of the key after it. -/
def hashJenBlocks (i j hashv : UInt32) :
    List UInt8 → (UInt32 × UInt32 × UInt32) × List UInt8
  | k0 :: k1 :: k2 :: k3 :: k4 :: k5 :: k6 :: k7 :: k8 :: k9 :: k10 :: k11 :: rest =>
    let (i, j, hashv) := hashJenMix (i + keyWord [k0, k1, k2, k3] 0)
      (j + keyWord [k4, k5, k6, k7] 0) (hashv + keyWord [k8, k9, k10, k11] 0)
    hashJenBlocks i j hashv rest
  | rest => ((i, j, hashv), rest)

/-- `HASH_JEN`. The cases of its `switch` fall through: every byte that is left is added, the
last three above the lowest byte of `hashv`, which has the length. -/
def hashJen (key : List UInt8) : UInt32 :=
  let ((i, j, hashv), rest) := hashJenBlocks 0x9e3779b9 0x9e3779b9 0xfeedbeef key
  let hashv := hashv + UInt32.ofNat key.length
  let hashv := hashv + (rest.getD 10 0).toUInt32 <<< 24 + (rest.getD 9 0).toUInt32 <<< 16 +
    (rest.getD 8 0).toUInt32 <<< 8
  (hashJenMix (i + keyWord rest 0) (j + keyWord rest 4) hashv).2.2

/-- The bytes of a `uint64_t` in memory. -/
def leBytes (n : UInt64) : List UInt8 :=
  (List.range 8).map fun i => (n >>> UInt64.ofNat (8 * i)).toUInt8

/-- What `pages` is hashed with: `HASH_JEN` on the eight bytes of the `va`, 2097152 buckets to
begin with, and memory for every block below 64 GiB. -/
def pagesEnv : HashEnv Nat where
  hash va := hashJen (leBytes (UInt64.ofNat va))
  malloc _ size := decide (size < 2 ^ 36)
  initLog2 := 21
  initLog2_lt := by decide
  malloc_lt _ size h := by simpa using h

end Hemem
