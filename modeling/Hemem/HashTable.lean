import Mathlib.Data.Nat.Bitwise
import Hemem.Lib.Buckets
import Hemem.Uthash

/-!
# Hemem.HashTable — the hash holds its elements

`HashInv E u id T items chain`: the head of the hash `u` leads to the table `T` at the address
`id`; `items` are its elements in the order in which they were added, `chain i` those of bucket
`i` from its head on. Each macro has a closed form on such a hash: `HASH_FIND` gives the
element with the key, `HASH_ADD` appends an element to `items`, `HASH_EXPAND_BUCKETS` only
sorts the elements anew, `HASH_DEL` takes one out. None of them dereferences a `NULL` pointer,
uses a freed table or goes beyond the array.
-/

namespace Hemem

open Lib

variable {Elt Key : Type}

/-! ## Indices of buckets -/

/-- With a power of two of buckets the mask is a remainder. -/
theorem hashToBkt_eq {hashv numBkts : UInt32} {k : Nat} (h : numBkts.toNat = 2 ^ k) :
    hashToBkt hashv numBkts = hashv.toNat % numBkts.toNat := by
  have hpos : 1 ≤ numBkts := by
    rw [UInt32.le_iff_toNat_le, h]
    exact Nat.one_le_two_pow
  rw [hashToBkt, UInt32.toNat_and, UInt32.toNat_sub_of_le _ _ hpos, h]
  exact Nat.and_two_pow_sub_one_eq_mod _ _

/-- The bucket of a hash value is within the array. -/
theorem hashToBkt_lt {hashv numBkts : UInt32} {k : Nat} (h : numBkts.toNat = 2 ^ k) :
    hashToBkt hashv numBkts < numBkts.toNat := by
  rw [hashToBkt_eq h]
  exact Nat.mod_lt _ (h ▸ Nat.two_pow_pos k)

/-- The array has as many buckets as the table says, a power of two. -/
structure UtTable.Sized (T : UtTable Elt) : Prop where
  log2_lt : T.log2NumBuckets.toNat < 32
  numBuckets : T.numBuckets.toNat = 2 ^ T.log2NumBuckets.toNat
  allocated : T.allocated = T.numBuckets.toNat

/-- No access to the bucket of a hash value is out of bounds. -/
theorem UtTable.Sized.bucket {T : UtTable Elt} (h : T.Sized) (hashv : UInt32) :
    T.bucket (hashToBkt hashv T.numBuckets) =
      .ok (T.buckets (hashToBkt hashv T.numBuckets)) := by
  rw [UtTable.bucket, if_pos (h.allocated ▸ hashToBkt_lt h.numBuckets)]

section SetTable

variable {u : UtHash Elt Key} {id : Nat} {T : Option (UtTable Elt)}

@[simp] theorem setTable_hh : (u.setTable id T).hh = u.hh := rfl
@[simp] theorem setTable_head : (u.setTable id T).head = u.head := rfl
@[simp] theorem setTable_key : (u.setTable id T).key = u.key := rfl
@[simp] theorem setTable_mallocs : (u.setTable id T).mallocs = u.mallocs := rfl
@[simp] theorem setTable_tables : (u.setTable id T).tables id = T := Function.update_self ..

/-- There is still no table but the one. -/
theorem setTable_only (h : ∀ i, i ≠ id → u.tables i = none) :
    ∀ i, i ≠ id → (u.setTable id T).tables i = none :=
  fun i hi => (Function.update_of_ne hi ..).trans (h i hi)

end SetTable

/-! ## The invariant -/

/-- The elements with `held` are sorted into the buckets by their hash values. -/
structure Binned (u : UtHash Elt Key) (buckets : Nat → UtBucket Elt) (numBkts : UInt32)
    (held : Elt → Prop) (chain : Nat → List Elt) : Prop where
  bins : Buckets (fun e => (u.hh e).hhPrev) (fun e => (u.hh e).hhNext)
    (fun e => hashToBkt (u.hh e).hashv numBkts) held chain
  heads : ∀ i, (buckets i).hhHead = (chain i).head?
  counts : ∀ i, (buckets i).count = UInt32.ofNat (chain i).length

/-- The head of the hash leads through its elements, and their handles to the table. -/
structure Listed (E : HashEnv Key) (u : UtHash Elt Key) (id : Nat) (T : UtTable Elt)
    (items : List Elt) : Prop where
  live : u.tables id = some T
  only : ∀ i, i ≠ id → u.tables i = none
  head : u.head = items.head?
  tail : T.tail = items.getLast?
  nodup : items.Nodup
  links : Segment (fun e => (u.hh e).prev) (fun e => (u.hh e).next) none items none
  tbl : ∀ e ∈ items, (u.hh e).tbl = some id
  key : ∀ e ∈ items, (u.hh e).key = some e
  keylen : ∀ e ∈ items, (u.hh e).keylen = keyLen
  hashv : ∀ e ∈ items, (u.hh e).hashv = E.hash (u.key e)
  keys : ∀ e ∈ items, ∀ f ∈ items, u.key e = u.key f → e = f
  sized : T.Sized

structure HashInv (E : HashEnv Key) (u : UtHash Elt Key) (id : Nat) (T : UtTable Elt)
    (items : List Elt) (chain : Nat → List Elt) : Prop extends Listed E u id T items where
  binned : Binned u T.buckets T.numBuckets (· ∈ items) chain
  numItems : T.numItems = UInt32.ofNat items.length

variable {E : HashEnv Key} {u u' : UtHash Elt Key} {id : Nat} {T : UtTable Elt}
  {items : List Elt} {chain : Nat → List Elt} {e : Elt} {fuel : Nat}

/-- The table that an element of the hash leads to. -/
theorem Listed.tableAt (h : Listed E u id T items) (he : e ∈ items) :
    u.tableAt (u.hh e).tbl = .ok (id, T) := by
  simp only [UtHash.tableAt, h.tbl e he, derefPtr_some, bind, Except.bind, h.live]

/-- A hash with elements has its table. -/
theorem Listed.table (h : Listed E u id T items) (hne : items ≠ []) :
    u.table = .ok (id, T) := by
  have hhead := h.head
  rw [List.head?_eq_some_head hne] at hhead
  simp only [UtHash.table, hhead, derefPtr_some, bind, Except.bind]
  exact h.tableAt (List.head_mem hne)

/-- A chain is no longer than the hash has elements. -/
theorem Binned.length_le {buckets : Nat → UtBucket Elt} {numBkts : UInt32}
    (h : Binned u buckets numBkts (· ∈ items) chain) (i : Nat) :
    (chain i).length ≤ items.length :=
  (h.bins.nodup i).length_le_of_subset fun _ hx => (h.bins.mem.mp hx).1

/-- In a chain an element does not come before itself. -/
theorem Binned.hhPrev_ne {buckets : Nat → UtBucket Elt} {numBkts : UInt32} {held : Elt → Prop}
    (h : Binned u buckets numBkts held chain) (he : held e) : (u.hh e).hhPrev ≠ some e := by
  have hmem := h.bins.mem.mpr ⟨he, rfl⟩
  rcases List.append_of_mem hmem with ⟨xs, ys, hl⟩
  have hlinks := h.bins.links (hashToBkt (u.hh e).hashv numBkts)
  have hnd := h.bins.nodup (hashToBkt (u.hh e).hashv numBkts)
  rw [hl] at hlinks hnd
  rw [hlinks.links.1, Option.or_none]
  intro hlast
  exact (List.nodup_append.mp hnd).2.2 e (List.mem_of_getLast? hlast) e List.mem_cons_self rfl

/-! ## `HASH_FIND` -/

section Find

variable [DecidableEq Key]

/-- The loop finds the element of the chain that has the key. -/
theorem hashFindInBkt_eq {k : Key} {es : List Elt}
    (hes : ∀ e ∈ es, (u.hh e).key = some e ∧ (u.hh e).keylen = keyLen ∧
      (u.hh e).hashv = E.hash (u.key e))
    {o : Option Elt} (hchain : Chain (fun e => (u.hh e).hhNext) o es) (hfuel : es.length < fuel) :
    u.hashFindInBkt k (E.hash k) fuel o = .ok (es.find? fun e => u.key e = k) := by
  -- on the chain that the walk has left
  induction es generalizing o fuel with
  | nil =>
    cases fuel with
    | zero => exact absurd hfuel (Nat.not_lt_zero _)
    | succ fuel =>
      rw [show o = none from hchain]
      rfl
  | cons e es ih =>
    cases fuel with
    | zero => exact absurd hfuel (Nat.not_lt_zero _)
    | succ fuel =>
      rcases hchain with ⟨rfl, hrest⟩
      have hnext := ih (fun f hf => hes f (List.mem_cons_of_mem e hf)) hrest
        (Nat.lt_of_succ_lt_succ hfuel)
      rcases hes e List.mem_cons_self with ⟨hkey, hlen, hhash⟩
      rw [UtHash.hashFindInBkt]
      by_cases hk : u.key e = k
      · rw [if_pos ⟨by rw [hhash, hk], hlen⟩, hkey]
        simp [hk, bind, Except.bind]
      · -- another key: the comparison fails, or already that of the hash values
        rw [List.find?_cons_of_neg (by simpa using hk), ← hnext]
        split
        · simp [hkey, hk, bind, Except.bind]
        · rfl

/-- `HASH_FIND` gives the element with the key. -/
theorem HashInv.hashFind (h : HashInv E u id T items chain) (hfuel : items.length < fuel)
    (k : Key) :
    ∃ out, u.hashFind E fuel k = .ok out ∧ ∀ e, out = some e ↔ e ∈ items ∧ u.key e = k := by
  rcases List.eq_nil_or_concat items with rfl | ⟨as, a, hitems⟩
  · refine ⟨none, ?_, by simp⟩
    rw [UtHash.hashFind, h.head]
    rfl
  have hne : items ≠ [] := by simp [hitems]
  let bkt := hashToBkt (E.hash k) T.numBuckets
  have hin : ∀ e ∈ chain bkt, e ∈ items := fun e he => (h.binned.bins.mem.mp he).1
  have hfind := hashFindInBkt_eq (k := k) (E := E) (u := u)
    (fun e he => ⟨h.key e (hin e he), h.keylen e (hin e he), h.hashv e (hin e he)⟩)
    (h.binned.bins.links bkt).chain_prev (Nat.lt_of_le_of_lt (h.binned.length_le bkt) hfuel)
  refine ⟨(chain bkt).find? fun e => u.key e = k, ?_, fun e => ?_⟩
  · have hhead := h.head
    rw [List.head?_eq_some_head hne] at hhead
    simp only [UtHash.hashFind, hhead, h.table hne, h.sized.bucket, bind, Except.bind]
    rw [h.binned.heads]
    exact hfind
  · constructor
    · intro he
      refine ⟨hin e (List.mem_of_find?_eq_some he), ?_⟩
      simpa using List.find?_some he
    · rintro ⟨he, hk⟩
      -- an element with the key is in the bucket of its hash value, and is the only one
      have hmem : e ∈ chain bkt := h.binned.bins.mem.mpr ⟨he, by rw [h.hashv e he, hk]⟩
      have hsome : ((chain bkt).find? fun e => u.key e = k).isSome := by
        rw [List.find?_isSome]
        exact ⟨e, hmem, by simpa using hk⟩
      rcases Option.isSome_iff_exists.mp hsome with ⟨f, hf⟩
      have hfk : u.key f = k := by simpa using List.find?_some hf
      rw [hf, h.keys f (hin f (List.mem_of_find?_eq_some hf)) e he (hfk.trans hk.symm)]

end Find

/-! ## Links of the buckets -/

/-- Only links of buckets have changed. -/
structure Relinked (u u' : UtHash Elt Key) : Prop where
  head : u'.head = u.head
  key : u'.key = u.key
  tables : u'.tables = u.tables
  tbl : ∀ e, (u'.hh e).tbl = (u.hh e).tbl
  prev : ∀ e, (u'.hh e).prev = (u.hh e).prev
  next : ∀ e, (u'.hh e).next = (u.hh e).next
  hhKey : ∀ e, (u'.hh e).key = (u.hh e).key
  keylen : ∀ e, (u'.hh e).keylen = (u.hh e).keylen
  hashv : ∀ e, (u'.hh e).hashv = (u.hh e).hashv

theorem Relinked.refl (u : UtHash Elt Key) : Relinked u u := by
  constructor <;> intros <;> rfl

theorem Relinked.trans {v w : UtHash Elt Key} (h : Relinked u v) (h' : Relinked v w) :
    Relinked u w := by
  exact ⟨h'.head.trans h.head, h'.key.trans h.key, h'.tables.trans h.tables,
    fun e => (h'.tbl e).trans (h.tbl e), fun e => (h'.prev e).trans (h.prev e),
    fun e => (h'.next e).trans (h.next e), fun e => (h'.hhKey e).trans (h.hhKey e),
    fun e => (h'.keylen e).trans (h.keylen e), fun e => (h'.hashv e).trans (h.hashv e)⟩

/-- The order of the elements and the contents of their handles are the same. -/
theorem Listed.relinked (h : Listed E u id T items) (hr : Relinked u u') {T' : UtTable Elt}
    (htail : T'.tail = T.tail) (hsized : T'.Sized) :
    Listed E (u'.setTable id (some T')) id T' items := by
  constructor
  case live => exact setTable_tables ..
  case only => exact setTable_only fun i hi => hr.tables ▸ h.only i hi
  case head => exact hr.head.trans h.head
  case tail => rw [htail, h.tail]
  case nodup => exact h.nodup
  case links => exact h.links.congr fun e _ => ⟨hr.prev e, hr.next e⟩
  case tbl => exact fun e he => (hr.tbl e).trans (h.tbl e he)
  case key => exact fun e he => (hr.hhKey e).trans (h.key e he)
  case keylen => exact fun e he => (hr.keylen e).trans (h.keylen e he)
  case hashv =>
    intro e he
    rw [setTable_key, hr.key, ← h.hashv e he]
    exact hr.hashv e
  case keys =>
    rw [setTable_key, hr.key]
    exact h.keys
  case sized => exact hsized

/-! ## Updates -/

@[simp] theorem counted_hhHead (ideal : UInt32) (b : UtBucket Elt) :
    (b.counted ideal).hhHead = b.hhHead := by
  simp only [UtBucket.counted]
  split <;> rfl

@[simp] theorem counted_count (ideal : UInt32) (b : UtBucket Elt) :
    (b.counted ideal).count = b.count + 1 := by
  simp only [UtBucket.counted]
  split <;> rfl

/-- An array that has just been cleared holds nothing. -/
theorem binned_empty (u : UtHash Elt Key) (numBkts : UInt32) {held : Elt → Prop}
    (hheld : ∀ e, ¬ held e) : Binned u emptyBuckets numBkts held fun _ => [] :=
  ⟨Buckets.empty hheld, fun _ => rfl, fun _ => rfl⟩

/-- A table that has been given an array twice as large has fewer than `2 ^ 31` buckets. -/
theorem UtTable.Sized.expanded {T : UtTable Elt} (h : T.Sized) {n : Nat}
    (hmalloc : E.malloc n (2 * T.numBuckets.toNat * sizeofBucket) = true) (x : Expansion Elt Key) :
    (T.numBuckets * 2).toNat = 2 * T.numBuckets.toNat ∧ (T.expanded x).Sized := by
  have hsize : 2 * T.numBuckets.toNat * sizeofBucket < 2 ^ 36 := by
    by_contra hge
    rw [E.malloc_lt n _ (Nat.not_lt.mp hge)] at hmalloc
    cases hmalloc
  have hlt : T.numBuckets.toNat < 2 ^ 31 := by
    simp only [sizeofBucket] at hsize
    omega
  have hlog : T.log2NumBuckets.toNat < 31 := by
    rw [h.numBuckets] at hlt
    exact (Nat.pow_lt_pow_iff_right (by decide)).mp hlt
  have hmul : (T.numBuckets * 2).toNat = 2 * T.numBuckets.toNat := by
    rw [UInt32.toNat_mul, Nat.mul_comm]
    exact Nat.mod_eq_of_lt (by simp only [UInt32.reduceToNat]; omega)
  have hadd : (T.log2NumBuckets + 1).toNat = T.log2NumBuckets.toNat + 1 := by
    rw [UInt32.toNat_add]
    exact Nat.mod_eq_of_lt (by simp only [UInt32.reduceToNat]; omega)
  refine ⟨hmul, ?_, ?_, hmul.symm⟩
  · show (T.log2NumBuckets + 1).toNat < 32
    omega
  · show (T.numBuckets * 2).toNat = 2 ^ (T.log2NumBuckets + 1).toNat
    rw [hmul, hadd, h.numBuckets, Nat.pow_succ, Nat.mul_comm]

/-- A new table has as many buckets as its header says. -/
theorem made_sized (E : HashEnv Key) (e : Elt) : (UtTable.made E e).Sized := by
  have hpow : (UInt32.ofNat (2 ^ E.initLog2)).toNat = 2 ^ E.initLog2 := by
    rw [UInt32.toNat_ofNat']
    exact Nat.mod_eq_of_lt (Nat.pow_lt_pow_right (by decide) E.initLog2_lt)
  have hlog : (UInt32.ofNat E.initLog2).toNat = E.initLog2 := by
    rw [UInt32.toNat_ofNat']
    exact Nat.mod_eq_of_lt (E.initLog2_lt.trans (by decide))
  refine ⟨?_, ?_, hpow.symm⟩
  · show (UInt32.ofNat E.initLog2).toNat < 32
    rw [hlog]
    exact E.initLog2_lt
  · show (UInt32.ofNat (2 ^ E.initLog2)).toNat = 2 ^ (UInt32.ofNat E.initLog2).toNat
    rw [hpow, hlog]

section Updates

variable {u : UtHash Elt Key} {e x : Elt} {o : Option Elt} {f : UtHandle Elt → UtHandle Elt}

variable [DecidableEq Elt]

@[simp] theorem modHandle_hh :
    (u.modHandle e f).hh x = if x = e then f (u.hh x) else u.hh x := by
  by_cases hx : x = e
  · subst hx
    simp [UtHash.modHandle]
  · simp [UtHash.modHandle, hx]

@[simp] theorem modHandle_head : (u.modHandle e f).head = u.head := rfl
@[simp] theorem modHandle_key : (u.modHandle e f).key = u.key := rfl
@[simp] theorem modHandle_tables : (u.modHandle e f).tables = u.tables := rfl
@[simp] theorem modHandle_mallocs : (u.modHandle e f).mallocs = u.mallocs := rfl

@[simp] theorem modPtr_hh : (u.modPtr o f).hh x = if o = some x then f (u.hh x) else u.hh x := by
  cases o with
  | none => simp [UtHash.modPtr]
  | some e =>
    rw [UtHash.modPtr, modHandle_hh]
    by_cases hx : x = e
    · simp [hx]
    · simp [hx, Ne.symm hx]

@[simp] theorem modPtr_head : (u.modPtr o f).head = u.head := by cases o <;> rfl
@[simp] theorem modPtr_key : (u.modPtr o f).key = u.key := by cases o <;> rfl
@[simp] theorem modPtr_tables : (u.modPtr o f).tables = u.tables := by cases o <;> rfl
@[simp] theorem modPtr_mallocs : (u.modPtr o f).mallocs = u.mallocs := by cases o <;> rfl


end Updates

variable [DecidableEq Elt]

/-- The handle of `x` after it has been put before that of `o`. -/
def UtHash.pushed (x : Elt) (o : Option Elt) (u : UtHash Elt Key) : UtHash Elt Key :=
  (u.modHandle x fun g => { g with hhPrev := none, hhNext := o }).modPtr o
    fun g => { g with hhPrev := some x }

/-- Putting an element at the head of a chain changes links only. -/
theorem relinked_pushed (x : Elt) (o : Option Elt) (u : UtHash Elt Key) :
    Relinked u (u.pushed x o) := by
  refine ⟨by simp [UtHash.pushed], by simp [UtHash.pushed], by simp [UtHash.pushed], ?_, ?_, ?_,
    ?_, ?_, ?_⟩ <;> intro e <;> simp only [UtHash.pushed, modPtr_hh, modHandle_hh] <;>
    split <;> split <;> rfl

/-- An element that is in no bucket is put at the head of its own. -/
theorem Binned.push {buckets : Nat → UtBucket Elt} {numBkts : UInt32} {held : Elt → Prop}
    (h : Binned u buckets numBkts held chain) {x : Elt} (hx : ¬ held x) {j : Nat}
    (hj : hashToBkt (u.hh x).hashv numBkts = j) {b : UtBucket Elt} (hhead : b.hhHead = some x)
    (hcount : b.count = (buckets j).count + 1) :
    Binned (u.pushed x (buckets j).hhHead) (Function.update buckets j b) numBkts
      (fun e => held e ∨ e = x) (Function.update chain j (x :: chain j)) := by
  -- the new element is in no chain, so it is not the old head of this one
  have hheld : (buckets j).hhHead ≠ some x := by
    rw [h.heads]
    exact fun hm => hx (h.bins.mem.mp (List.mem_of_mem_head? hm)).1
  have hr := relinked_pushed x (buckets j).hhHead u
  refine ⟨?bins, fun i => ?heads, fun i => ?counts⟩
  case bins =>
    have hsame : Buckets (fun e => (u.hh e).hhPrev) (fun e => (u.hh e).hhNext)
        (fun e => hashToBkt ((u.pushed x (buckets j).hhHead).hh e).hashv numBkts) held chain :=
      h.bins.congr (fun _ => Iff.rfl) fun e _ => ⟨rfl, rfl, by rw [hr.hashv]⟩
    refine hsame.push hx (by rw [hr.hashv]; exact hj) ⟨?_, ?_⟩ (fun y hy => ?_) fun y hy => ?_
    · simp [UtHash.pushed, hheld]
    · rw [← h.heads]
      simp [UtHash.pushed, hheld]
    · rw [← h.heads]
      by_cases ho : (buckets j).hhHead = some y <;> simp [UtHash.pushed, ho, hy]
    · by_cases ho : (buckets j).hhHead = some y <;> simp [UtHash.pushed, ho, hy]
  case heads =>
    by_cases hi : i = j
    · rw [hi, Function.update_self, Function.update_self, hhead]
      rfl
    · rw [Function.update_of_ne hi, Function.update_of_ne hi, h.heads]
  case counts =>
    by_cases hi : i = j
    · rw [hi, Function.update_self, Function.update_self, hcount, h.counts, List.length_cons,
        UInt32.ofNat_add]
      rfl
    · rw [Function.update_of_ne hi, Function.update_of_ne hi, h.counts]

/-! ## `HASH_EXPAND_BUCKETS` -/

/-- The inner loop moves the elements of a chain to the new buckets. -/
theorem expandChain_ok (ideal : UInt32) {numBkts : UInt32} {allocated : Nat}
    (halloc : ∀ hashv, hashToBkt hashv numBkts < allocated) {rest : List Elt}
    {x : Expansion Elt Key} {o : Option Elt} {held : Elt → Prop} {new : Nat → List Elt}
    (hrest : Chain (fun e => (x.hash.hh e).hhNext) o rest) (hnd : rest.Nodup)
    (hout : ∀ e ∈ rest, ¬ held e) (hnew : Binned x.hash x.buckets numBkts held new)
    (hfuel : rest.length < fuel) :
    ∃ x' new', expandChain ideal numBkts allocated fuel o x = .ok x' ∧
      Binned x'.hash x'.buckets numBkts (fun e => held e ∨ e ∈ rest) new' ∧
      Relinked x.hash x'.hash ∧
      ∀ e, ¬ held e → e ∉ rest → x'.hash.hh e = x.hash.hh e := by
  induction rest generalizing x o held new fuel with
  | nil =>
    cases fuel with
    | zero => exact absurd hfuel (Nat.not_lt_zero _)
    | succ fuel =>
      rw [show o = none from hrest]
      refine ⟨x, new, rfl, ?_, Relinked.refl _, fun _ _ _ => rfl⟩
      simpa using hnew
  | cons thh rest ih =>
    cases fuel with
    | zero => exact absurd hfuel (Nat.not_lt_zero _)
    | succ fuel =>
      rcases hrest with ⟨rfl, hrest⟩
      rw [List.nodup_cons] at hnd
      have hthh := hout thh List.mem_cons_self
      let j := hashToBkt (x.hash.hh thh).hashv numBkts
      let b := (x.buckets j).counted ideal
      let x₁ : Expansion Elt Key :=
        ⟨x.hash.pushed thh (x.buckets j).hhHead,
          Function.update x.buckets j { b with hhHead := some thh },
          if b.count > ideal then x.nonideal + 1 else x.nonideal⟩
      have hstep : expandChain ideal numBkts allocated (fuel + 1) (some thh) x =
          expandChain ideal numBkts allocated fuel (x.hash.hh thh).hhNext x₁ := by
        rw [expandChain, if_pos (halloc _)]
        simp only [counted_hhHead]
        rfl
      have hnew₁ : Binned x₁.hash x₁.buckets numBkts (fun e => held e ∨ e = thh)
          (Function.update new j (thh :: new j)) :=
        hnew.push hthh rfl rfl (counted_count ideal _)
      -- what is not held and not the element that is moved keeps its handle
      have hframe : ∀ e, ¬ held e → e ≠ thh → x₁.hash.hh e = x.hash.hh e := by
        intro e he hne
        have hhead : (x.buckets j).hhHead ≠ some e := by
          rw [hnew.heads]
          exact fun hm => he (hnew.bins.mem.mp (List.mem_of_mem_head? hm)).1
        simp [x₁, UtHash.pushed, hhead, hne]
      have hne : ∀ e ∈ rest, e ≠ thh := fun e he heq => hnd.1 (heq ▸ he)
      have hrest₁ : Chain (fun e => (x₁.hash.hh e).hhNext) (x.hash.hh thh).hhNext rest :=
        hrest.congr fun e he => by
          rw [hframe e (hout e (List.mem_cons_of_mem thh he)) (hne e he)]
      have hout₁ : ∀ e ∈ rest, ¬ (held e ∨ e = thh) := fun e he =>
        not_or.mpr ⟨hout e (List.mem_cons_of_mem thh he), hne e he⟩
      rcases ih hrest₁ hnd.2 hout₁ hnew₁ (Nat.lt_of_succ_lt_succ hfuel) with
        ⟨x', new', hrun, hbinned, hrel, hkeep⟩
      refine ⟨x', new', hstep.trans hrun, ?_, (relinked_pushed ..).trans hrel, fun e he hmem => ?_⟩
      · have hheld : (fun e => held e ∨ e ∈ thh :: rest) =
            fun e => (held e ∨ e = thh) ∨ e ∈ rest := by
          funext e
          rw [List.mem_cons, or_assoc]
        rw [hheld]
        exact hbinned
      · rw [List.mem_cons, not_or] at hmem
        rw [hkeep e (not_or.mpr ⟨he, hmem.1⟩) hmem.2, hframe e he hmem.1]

/-- The outer loop moves the elements of the buckets from `i` on. -/
theorem expandBuckets_ok (ideal : UInt32) {numBkts : UInt32} {allocated left i : Nat}
    {old : UtTable Elt} (halloc : ∀ hashv, hashToBkt hashv numBkts < allocated)
    (hleft : i + left = old.allocated)
    (hnd : ∀ j, (chain j).Nodup) (hunique : ∀ {j k e}, e ∈ chain j → e ∈ chain k → j = k)
    (hfuel : ∀ j, (chain j).length < fuel) {x : Expansion Elt Key} {held : Elt → Prop}
    {new : Nat → List Elt}
    (hold : ∀ j, i ≤ j → Chain (fun e => (x.hash.hh e).hhNext) (old.buckets j).hhHead (chain j))
    (hout : ∀ j, i ≤ j → ∀ e ∈ chain j, ¬ held e)
    (hnew : Binned x.hash x.buckets numBkts held new) :
    ∃ x' new', expandBuckets ideal numBkts allocated fuel old left i x = .ok x' ∧
      Binned x'.hash x'.buckets numBkts
        (fun e => held e ∨ ∃ j, i ≤ j ∧ j < old.allocated ∧ e ∈ chain j) new' ∧
      Relinked x.hash x'.hash := by
  induction left generalizing i x held new with
  | zero =>
    refine ⟨x, new, rfl, ?_, Relinked.refl _⟩
    have hheld : (fun e => held e ∨ ∃ j, i ≤ j ∧ j < old.allocated ∧ e ∈ chain j) = held := by
      funext e
      refine propext ⟨fun he => ?_, Or.inl⟩
      rcases he with he | ⟨j, hij, hj, -⟩
      · exact he
      · omega
    rw [hheld]
    exact hnew
  | succ left ih =>
    rcases expandChain_ok ideal halloc (hold i (Nat.le_refl i)) (hnd i)
      (hout i (Nat.le_refl i)) hnew (hfuel i) with ⟨x₁, new₁, hrun₁, hnew₁, hrel₁, hkeep₁⟩
    have hlater : ∀ j, i + 1 ≤ j → ∀ e ∈ chain j, e ∉ chain i := fun j hj e he hi =>
      absurd (hunique he hi) (by omega)
    have hold₁ : ∀ j, i + 1 ≤ j →
        Chain (fun e => (x₁.hash.hh e).hhNext) (old.buckets j).hhHead (chain j) := by
      intro j hj
      refine (hold j (by omega)).congr fun e he => ?_
      rw [hkeep₁ e (hout j (by omega) e he) (hlater j hj e he)]
    have hout₁ : ∀ j, i + 1 ≤ j → ∀ e ∈ chain j, ¬ (held e ∨ e ∈ chain i) := fun j hj e he =>
      not_or.mpr ⟨hout j (by omega) e he, hlater j hj e he⟩
    rcases ih (by omega) hold₁ hout₁ hnew₁ with ⟨x', new', hrun, hbinned, hrel⟩
    refine ⟨x', new', ?_, ?_, hrel₁.trans hrel⟩
    · have hbucket : old.bucket i = .ok (old.buckets i) := by
        rw [UtTable.bucket, if_pos (by omega)]
      simp only [expandBuckets, hbucket, hrun₁, bind, Except.bind]
      exact hrun
    · have hheld : (fun e => held e ∨ ∃ j, i ≤ j ∧ j < old.allocated ∧ e ∈ chain j) =
          fun e => (held e ∨ e ∈ chain i) ∨
            ∃ j, i + 1 ≤ j ∧ j < old.allocated ∧ e ∈ chain j := by
        funext e
        rw [or_assoc]
        refine propext (or_congr_right ⟨?_, ?_⟩)
        · rintro ⟨j, hij, hj, he⟩
          rcases Nat.eq_or_lt_of_le hij with rfl | hlt
          · exact Or.inl he
          · exact Or.inr ⟨j, hlt, hj, he⟩
        · rintro (he | ⟨j, hij, hj, he⟩)
          · exact ⟨i, Nat.le_refl i, by omega, he⟩
          · exact ⟨j, by omega, hj, he⟩
      rw [hheld]
      exact hbinned

/-- The elements are sorted into twice as many buckets. -/
theorem HashInv.hashExpandBuckets (h : HashInv E u id T items chain)
    (hfuel : items.length < fuel) :
    u.hashExpandBuckets E fuel (some id) = .error .outOfMemory ∨
      ∃ u' T' chain', u.hashExpandBuckets E fuel (some id) = .ok u' ∧
        HashInv E u' id T' items chain' ∧ u'.key = u.key := by
  have htable : u.tableAt (some id) = .ok (id, T) := by
    simp only [UtHash.tableAt, derefPtr_some, bind, Except.bind, h.live]
  cases hmalloc : E.malloc u.mallocs (2 * T.numBuckets.toNat * sizeofBucket) with
  | false =>
    left
    simp [UtHash.hashExpandBuckets, UtHash.uthashMalloc, htable, hmalloc, bind, Except.bind]
  | true =>
    right
    let u₁ : UtHash Elt Key := { u with mallocs := u.mallocs + 1 }
    have hmul := (h.sized.expanded hmalloc ⟨u₁, emptyBuckets, 0⟩).1
    have hpow : (T.numBuckets * 2).toNat = 2 ^ (T.log2NumBuckets.toNat + 1) := by
      rw [hmul, h.sized.numBuckets, Nat.pow_succ, Nat.mul_comm]
    have hbins := h.binned.bins
    have hhalloc : ∀ hashv, hashToBkt hashv (T.numBuckets * 2) < 2 * T.numBuckets.toNat :=
      fun hashv => hmul ▸ hashToBkt_lt hpow
    have hleft : 0 + T.numBuckets.toNat = T.allocated := by
      rw [h.sized.allocated, Nat.zero_add]
    have hempty : Binned u₁ emptyBuckets (T.numBuckets * 2) (fun _ => False) fun _ => [] :=
      binned_empty u₁ _ fun _ => not_false
    rcases expandBuckets_ok T.idealLen (x := ⟨u₁, emptyBuckets, 0⟩) hhalloc hleft
      hbins.nodup hbins.unique (fun j => Nat.lt_of_le_of_lt (h.binned.length_le j) hfuel)
      (fun j _ => by rw [h.binned.heads]; exact (hbins.links j).chain_prev)
      (fun _ _ _ _ => not_false) hempty with ⟨x', new', hrun, hbinned, hrel⟩
    refine ⟨x'.hash.setTable id (some (T.expanded x')), T.expanded x', new', ?_, ?_, hrel.key⟩
    · simp only [UtHash.hashExpandBuckets, UtHash.uthashMalloc, htable, hmalloc, bind, Except.bind,
        if_true]
      rw [show { u with mallocs := u.mallocs + 1 } = u₁ from rfl, hrun]
    · have hheld : (fun e => False ∨ ∃ j, 0 ≤ j ∧ j < T.allocated ∧ e ∈ chain j) =
          (· ∈ items) := by
        funext e
        refine propext ⟨?_, fun he => Or.inr ?_⟩
        · rintro (hf | ⟨j, -, -, he⟩)
          · exact hf.elim
          · exact (hbins.mem.mp he).1
        · refine ⟨_, Nat.zero_le _, ?_, hbins.mem.mpr ⟨he, rfl⟩⟩
          exact h.sized.allocated ▸ hashToBkt_lt h.sized.numBuckets
      rw [hheld] at hbinned
      have hrel₀ : Relinked u x'.hash :=
        (⟨rfl, rfl, rfl, fun _ => rfl, fun _ => rfl, fun _ => rfl, fun _ => rfl, fun _ => rfl,
          fun _ => rfl⟩ : Relinked u u₁).trans hrel
      exact ⟨h.toListed.relinked hrel₀ rfl (h.sized.expanded hmalloc x').2,
        ⟨hbinned.bins, hbinned.heads, hbinned.counts⟩, h.numItems⟩

/-! ## `HASH_ADD` -/

/-- The elements of a hash, in the order in which they were added. -/
def UtHash.Elements (E : HashEnv Key) (u : UtHash Elt Key) (items : List Elt) : Prop :=
  (items = [] ∧ u.head = none ∧ ∀ i, u.tables i = none) ∨
    ∃ id T chain, items ≠ [] ∧ HashInv E u id T items chain

/-- Bucket `i` gets the last of the elements, and is split up if it has become too full. -/
theorem Listed.hashAddToBkt (h : Listed E u id T (items ++ [e])) (he : e ∉ items)
    (hbinned : Binned u T.buckets T.numBuckets (· ∈ items) chain)
    (hnum : T.numItems = UInt32.ofNat (items ++ [e]).length)
    (hfuel : (items ++ [e]).length < fuel) :
    u.hashAddToBkt E fuel (hashToBkt (u.hh e).hashv T.numBuckets) e = .error .outOfMemory ∨
      ∃ u', u.hashAddToBkt E fuel (hashToBkt (u.hh e).hashv T.numBuckets) e = .ok u' ∧
        u'.Elements E (items ++ [e]) ∧ u'.key = u.key := by
  have hmem : e ∈ items ++ [e] := List.mem_append_right _ List.mem_cons_self
  have hne : items ++ [e] ≠ [] := List.ne_nil_of_mem hmem
  let i := hashToBkt (u.hh e).hashv T.numBuckets
  let b : UtBucket Elt := { T.buckets i with count := (T.buckets i).count + 1, hhHead := some e }
  have hpush := hbinned.push he (j := i) rfl (b := b) rfl rfl
  have hheld : (fun x => x ∈ items ∨ x = e) = (· ∈ items ++ [e]) := by
    funext x
    simp
  rw [hheld] at hpush
  let u₁ := (u.pushed e (T.buckets i).hhHead).setTable id (some (T.setBucket i b))
  have hinv : HashInv E u₁ id (T.setBucket i b) (items ++ [e])
      (Function.update chain i (e :: chain i)) :=
    ⟨h.relinked (relinked_pushed ..) rfl
        ⟨h.sized.log2_lt, h.sized.numBuckets, h.sized.allocated⟩,
      ⟨hpush.bins, hpush.heads, hpush.counts⟩, hnum⟩
  have hkey : u₁.key = u.key := (relinked_pushed ..).key
  have hrun : u.hashAddToBkt E fuel i e =
      if b.count ≥ (b.expandMult + 1) * hashBktCapacityThresh ∧ T.noexpand = false then
        u₁.hashExpandBuckets E fuel (some id)
      else .ok u₁ := by
    have htable : u₁.tableAt (u₁.hh e).tbl = .ok (id, T.setBucket i b) := hinv.tableAt hmem
    have hbucket : T.bucket i = .ok (T.buckets i) := h.sized.bucket _
    have hstep : u.hashAddToBkt E fuel i e = (do
        let x ← u₁.tableAt (u₁.hh e).tbl
        if b.count ≥ (b.expandMult + 1) * hashBktCapacityThresh ∧ x.2.noexpand = false then
          u₁.hashExpandBuckets E fuel (u₁.hh e).tbl
        else .ok u₁) := by
      rw [UtHash.hashAddToBkt, h.table hne]
      simp only [bind, Except.bind, hbucket]
      rfl
    rw [hstep, htable, hinv.tbl e hmem]
    rfl
  show u.hashAddToBkt E fuel i e = _ ∨ ∃ u', u.hashAddToBkt E fuel i e = _ ∧ _
  rw [hrun]
  split
  · rcases hinv.hashExpandBuckets hfuel with hoom | ⟨u', T', chain', hok, hinv', hkey'⟩
    · exact Or.inl hoom
    · exact Or.inr ⟨u', hok, Or.inr ⟨id, T', chain', hne, hinv'⟩, hkey'.trans hkey⟩
  · exact Or.inr ⟨u₁, rfl, Or.inr ⟨id, _, _, hne, hinv⟩, hkey⟩

/-- The new element goes into its bucket, and the array may be expanded on the way. -/
theorem Listed.hashAddToTable (h : Listed E u id T (items ++ [e])) (he : e ∉ items)
    (hbinned : Binned u T.buckets T.numBuckets (· ∈ items) chain)
    (hnum : T.numItems = UInt32.ofNat items.length) (hfuel : (items ++ [e]).length < fuel) :
    u.hashAddToTable E fuel (u.hh e).hashv e = .error .outOfMemory ∨
      ∃ u', u.hashAddToTable E fuel (u.hh e).hashv e = .ok u' ∧
        u'.Elements E (items ++ [e]) ∧ u'.key = u.key := by
  let T' : UtTable Elt := { T with numItems := T.numItems + 1 }
  have hlisted : Listed E (u.setTable id (some T')) id T' (items ++ [e]) :=
    h.relinked (Relinked.refl u) rfl ⟨h.sized.log2_lt, h.sized.numBuckets, h.sized.allocated⟩
  have hcount : T'.numItems = UInt32.ofNat (items ++ [e]).length := by
    show T.numItems + 1 = _
    rw [hnum, List.length_append, UInt32.ofNat_add]
    rfl
  have hrun : u.hashAddToTable E fuel (u.hh e).hashv e =
      (u.setTable id (some T')).hashAddToBkt E fuel (hashToBkt (u.hh e).hashv T'.numBuckets) e := by
    rw [UtHash.hashAddToTable, h.table (by simp)]
    rfl
  rw [hrun]
  exact hlisted.hashAddToBkt he ⟨hbinned.bins, hbinned.heads, hbinned.counts⟩ hcount hfuel

/-- The fields of a handle that the first lines of `HASH_ADD` set. -/
def UtHandle.keyed (E : HashEnv Key) (u : UtHash Elt Key) (e : Elt) :
    UtHandle Elt → UtHandle Elt :=
  fun g => { g with hashv := E.hash (u.key e), key := some e, keylen := keyLen }

/-- A new element is put at the end. -/
theorem HashInv.hashAppendList (h : HashInv E u id T items chain) (hne : items ≠ [])
    (he : e ∉ items) (hfresh : ∀ x ∈ items, u.key x ≠ u.key e) :
    ∃ u', ((u.modHandle e (UtHandle.keyed E u e)).modHandle e
        fun g => { g with tbl := some id }).hashAppendList e = .ok u' ∧
      Listed E u' id { T with tail := some e } (items ++ [e]) ∧
      Binned u' T.buckets T.numBuckets (· ∈ items) chain ∧
      u'.key = u.key ∧ (u'.hh e).hashv = E.hash (u.key e) := by
  rcases List.eq_nil_or_concat items with hnil | ⟨as, t, hitems⟩
  · exact absurd hnil hne
  rw [List.concat_eq_append] at hitems
  have hlast : items.getLast? = some t := by rw [hitems, List.getLast?_append]; rfl
  have htmem : t ∈ items := List.mem_of_getLast? hlast
  have htail : T.tail = some t := h.tail.trans hlast
  have hneE : ∀ x ∈ items, x ≠ e := fun x hx hxe => he (hxe ▸ hx)
  let u₀ := (u.modHandle e (UtHandle.keyed E u e)).modHandle e fun g => { g with tbl := some id }
  have htable : u₀.table = .ok (id, T) := by
    have hhead : u₀.head = some (items.head hne) := by
      rw [← List.head?_eq_some_head hne, ← h.head]
      rfl
    have htbl : (u₀.hh (items.head hne)).tbl = some id := by
      simp [u₀, hneE _ (List.head_mem hne), h.tbl _ (List.head_mem hne)]
    have hlive : u₀.tables id = some T := h.live
    simp only [UtHash.table, hhead, derefPtr_some, bind, Except.bind, UtHash.tableAt, htbl, hlive]
  -- the element that was last gets the new one after it
  let u' := ((u₀.modHandle e fun g => { g with next := none, prev := T.tail }).modHandle t
    fun g => { g with next := some e }).setTable id (some { T with tail := some e })
  have hold : ∀ x ∈ items, u'.hh x = if x = t then { u.hh x with next := some e } else u.hh x := by
    intro x hx
    by_cases hxt : x = t <;> simp [u', u₀, hxt, hneE x hx, hneE t htmem]
  have hnew : u'.hh e =
      { (UtHandle.keyed E u e (u.hh e)) with tbl := some id, next := none, prev := T.tail } := by
    simp [u', u₀, (hneE t htmem).symm, UtHandle.keyed]
  have hboth : ∀ {P : Elt → Prop}, (∀ x ∈ items, P x) → P e → ∀ x ∈ items ++ [e], P x := by
    intro P hP hPe x hx
    rcases List.mem_append.mp hx with hx | hx
    · exact hP x hx
    · exact List.mem_singleton.mp hx ▸ hPe
  refine ⟨u', ?_, ?_, ?_, rfl, by rw [hnew]; rfl⟩
  · show u₀.hashAppendList e = _
    simp only [UtHash.hashAppendList, htable, htail, bind, Except.bind, derefPtr_some]
    simp only [u', htail]
  · constructor
    case live => exact setTable_tables ..
    case only => exact setTable_only h.only
    case head =>
      rw [List.head?_append, List.head?_eq_some_head hne, Option.some_or,
        ← List.head?_eq_some_head hne, ← h.head]
      rfl
    case tail => simp
    case nodup => exact List.Nodup.append h.nodup (List.nodup_singleton e) (by simpa using he)
    case links =>
      refine h.links.concat h.nodup ⟨?_, ?_⟩ (fun x hx => ?_) fun x hx => ?_
      · rw [hnew, h.tail]
      · rw [hnew]
      · rw [hold x hx]
        split <;> rfl
      · rw [hold x hx, hlast]
        by_cases hxt : x = t
        · simp [hxt]
        · simp [hxt, Ne.symm hxt]
    case tbl =>
      refine hboth (fun x hx => ?_) (by rw [hnew])
      rw [hold x hx, ← h.tbl x hx]
      split <;> rfl
    case key =>
      refine hboth (fun x hx => ?_) (by rw [hnew]; rfl)
      rw [hold x hx, ← h.key x hx]
      split <;> rfl
    case keylen =>
      refine hboth (fun x hx => ?_) (by rw [hnew]; rfl)
      rw [hold x hx, ← h.keylen x hx]
      split <;> rfl
    case hashv =>
      refine hboth (fun x hx => ?_) (by rw [hnew]; rfl)
      rw [hold x hx]
      refine Eq.trans ?_ (h.hashv x hx)
      split <;> rfl
    case keys =>
      refine hboth (fun x hx => hboth (fun y hy => h.keys x hx y hy) fun heq => ?_)
        (hboth (fun y hy heq => ?_) fun _ => rfl)
      · exact absurd heq (hfresh x hx)
      · exact absurd heq.symm (hfresh y hy)
    case sized => exact ⟨h.sized.log2_lt, h.sized.numBuckets, h.sized.allocated⟩
  · refine ⟨h.binned.bins.congr (fun _ => Iff.rfl) fun x hx => ?_, h.binned.heads, h.binned.counts⟩
    rw [hold x hx]
    split <;> exact ⟨rfl, rfl, rfl⟩

/-- The first element gets a new table. -/
theorem hashMakeTable_ok (E : HashEnv Key) (u : UtHash Elt Key) (e : Elt)
    (hnone : ∀ i, u.tables i = none) :
    let u₀ := (u.modHandle e (UtHandle.keyed E u e)).modHandle e
      fun g => { g with next := none, prev := none }
    u₀.hashMakeTable E e = .error .outOfMemory ∨
      ∃ u', u₀.hashMakeTable E e = .ok u' ∧
        Listed E { u' with head := some e } u.mallocs (UtTable.made E e) [e] ∧
        u'.key = u.key ∧ (u'.hh e).hashv = E.hash (u.key e) := by
  intro u₀
  -- the table, then its buckets
  cases hfst : E.malloc u.mallocs sizeofTable with
  | false =>
    left
    simp [UtHash.hashMakeTable, UtHash.uthashMalloc, u₀, hfst, bind, Except.bind]
  | true =>
    cases hsnd : E.malloc (u.mallocs + 1) (2 ^ E.initLog2 * sizeofBucket) with
    | false =>
      left
      simp [UtHash.hashMakeTable, UtHash.uthashMalloc, u₀, hfst, hsnd, bind, Except.bind]
    | true =>
      right
      let u₂ : UtHash Elt Key := { u₀ with mallocs := u.mallocs + 1 + 1 }
      let u' := (u₂.modHandle e fun g => { g with tbl := some u.mallocs }).setTable u.mallocs
        (some (UtTable.made E e))
      have hnew : u'.hh e =
          { (UtHandle.keyed E u e (u.hh e)) with
            next := none, prev := none, tbl := some u.mallocs } := by
        simp [u', u₂, u₀, UtHash.modHandle]
      refine ⟨u', ?_, ?_, rfl, by rw [hnew]; rfl⟩
      · simp [UtHash.hashMakeTable, UtHash.uthashMalloc, u', u₂, u₀, hfst, hsnd, bind, Except.bind]
      · constructor
        case live => exact setTable_tables ..
        case only => exact setTable_only fun i _ => hnone i
        case head => rfl
        case tail => rfl
        case nodup => exact List.nodup_singleton e
        case links => simp [segment_singleton, hnew]
        case tbl => simp [hnew]
        case key => simp [hnew, UtHandle.keyed]
        case keylen => simp [hnew, UtHandle.keyed]
        case hashv =>
          intro x hx
          obtain rfl := List.mem_singleton.mp hx
          show (u'.hh x).hashv = _
          rw [hnew]
          rfl
        case keys => simp
        case sized => exact made_sized E e

/-- `HASH_ADD` of an element whose key no other has puts it after all others. -/
theorem UtHash.Elements.hashAdd (h : u.Elements E items) (he : e ∉ items)
    (hfresh : ∀ x ∈ items, u.key x ≠ u.key e) (hfuel : items.length + 1 < fuel) :
    u.hashAdd E fuel e = .error .outOfMemory ∨
      ∃ u', u.hashAdd E fuel e = .ok u' ∧ u'.Elements E (items ++ [e]) ∧ u'.key = u.key := by
  have hlen : (items ++ [e]).length < fuel := by simpa using hfuel
  rcases h with ⟨rfl, hhead, hnone⟩ | ⟨id, T, chain, hne, h⟩
  -- the first element: a table is made, and it is the head
  · have hrun : u.hashAdd E fuel e = (do
        let v ← ((u.modHandle e (UtHandle.keyed E u e)).modHandle e
          fun g => { g with next := none, prev := none }).hashMakeTable E e
        { v with head := some e }.hashAddToTable E fuel (E.hash (u.key e)) e) := by
      delta UtHandle.keyed
      simp only [UtHash.hashAdd, modHandle_head, hhead, bind, Except.bind]
    rw [hrun]
    rcases hashMakeTable_ok E u e hnone with hoom | ⟨u', hok, hlisted, hkey, hhash⟩
    · left
      rw [hoom]
      rfl
    · rw [hok, ← hhash, ← hkey]
      exact hlisted.hashAddToTable he (binned_empty _ _ fun _ => List.not_mem_nil) rfl hlen
  -- the hash has a table, and the element is appended to the list
  · have hrun : u.hashAdd E fuel e = (do
        let v ← ((u.modHandle e (UtHandle.keyed E u e)).modHandle e
          fun g => { g with tbl := some id }).hashAppendList e
        v.hashAddToTable E fuel (E.hash (u.key e)) e) := by
      have hhead := h.head.trans (List.head?_eq_some_head hne)
      have hhd := List.head_mem hne
      have hne' : items.head hne ≠ e := fun hxe => he (hxe ▸ hhd)
      delta UtHandle.keyed
      simp only [UtHash.hashAdd, modHandle_head, hhead, modHandle_hh, if_neg hne', h.tbl _ hhd,
        bind, Except.bind]
    rw [hrun]
    rcases h.hashAppendList hne he hfresh with ⟨u', hok, hlisted, hbinned, hkey, hhash⟩
    rw [hok, ← hhash, ← hkey]
    exact hlisted.hashAddToTable he hbinned h.numItems hlen

/-! ## `HASH_DEL` -/

/-- The neighbours in the order of insertion are linked with each other. -/
theorem unlink_hh {x : Elt} (hprev : (u.hh e).prev ≠ some e) :
    (u.unlink e id T).hh x =
      { u.hh x with
        prev := if (u.hh e).next = some x then (u.hh e).prev else (u.hh x).prev
        next := if (u.hh e).prev = some x then (u.hh e).next else (u.hh x).next } := by
  cases hp : (u.hh e).prev with
  | none =>
    by_cases hn : (u.hh e).next = some x <;> simp [UtHash.unlink, hp, hn]
  | some p =>
    rw [hp] at hprev
    have hpe : e ≠ p := fun h => hprev (h ▸ rfl)
    by_cases hxp : x = p
    · subst hxp
      by_cases hn : (u.hh e).next = some x <;> simp [UtHash.unlink, hp, hn, hpe]
    · by_cases hn : (u.hh e).next = some x <;>
        simp [UtHash.unlink, hp, hn, hpe, hxp, Ne.symm hxp]

@[simp] theorem unlink_key : (u.unlink e id T).key = u.key := by
  rw [UtHash.unlink, modPtr_key]
  split <;> rfl

/-- An element of a hash with at least two is taken out of their order. -/
theorem HashInv.unlink (h : HashInv E u id T items chain) (he : e ∈ items)
    (hmany : items.erase e ≠ []) :
    ∃ T', Listed E (u.unlink e id T) id T' (items.erase e) ∧
      Binned (u.unlink e id T) T'.buckets T'.numBuckets (· ∈ items) chain ∧
      T'.numItems = T.numItems := by
  rcases List.append_of_mem he with ⟨xs, ys, hl⟩
  have hlinks := h.links
  have hnd := h.nodup
  rw [hl] at hlinks hnd
  have hat := hlinks.links
  rw [Option.or_none, Option.or_none] at hat
  have hsplit := List.nodup_append.mp hnd
  have hxs : e ∉ xs := fun hm => hsplit.2.2 e hm e List.mem_cons_self rfl
  have hys : e ∉ ys := (List.nodup_cons.mp hsplit.2.1).1
  -- the element stands between `xs` and `ys`, its neighbours are the last and the first of these
  have herase : items.erase e = xs ++ ys := by
    rw [hl, List.erase_append_right _ hxs, List.erase_cons_head]
  rw [herase] at hmany ⊢
  -- no element is its own neighbour, so the assignments to the neighbours leave its handle alone
  have hprev : (u.hh e).prev ≠ some e := by
    rw [hat.1]
    exact fun hm => hxs (List.mem_of_getLast? hm)
  let T' := if T.tail = some e then { T with tail := (u.hh e).prev } else T
  have hT' : T'.buckets = T.buckets ∧ T'.numBuckets = T.numBuckets ∧ T'.numItems = T.numItems ∧
      T'.log2NumBuckets = T.log2NumBuckets ∧ T'.allocated = T.allocated := by
    simp only [T']
    split <;> exact ⟨rfl, rfl, rfl, rfl, rfl⟩
  have hmem : ∀ x ∈ xs ++ ys, x ∈ items := by
    intro x hx
    rw [← herase] at hx
    exact List.mem_of_mem_erase hx
  refine ⟨T', ?listed, ?binned, hT'.2.2.1⟩
  case listed =>
    constructor
    case live =>
      rw [UtHash.unlink, modPtr_tables]
      split <;> exact setTable_tables ..
    case only =>
      rw [UtHash.unlink, modPtr_tables]
      split <;> exact setTable_only h.only
    -- with nothing before the element the head moves on to its successor
    case head =>
      rw [UtHash.unlink, modPtr_head]
      cases xs with
      | nil =>
        rw [List.getLast?_nil] at hat
        simp [hat.1, hat.2]
      | cons x xs =>
        have hhead := h.head
        rw [hl, List.cons_append, List.head?_cons] at hhead
        rw [List.getLast?_cons] at hat
        simp [hat.1, hhead]
    -- with nothing behind it the tail goes back to its predecessor
    case tail =>
      have htail := h.tail
      rw [hl, List.getLast?_append] at htail
      cases ys with
      | nil =>
        have hlast : T.tail = some e := by simpa using htail
        simp [T', hlast, hat.1]
      | cons y ys =>
        have hlast : T.tail = (y :: ys).getLast? := by
          rw [htail, List.getLast?_cons_cons, List.getLast?_cons, Option.some_or]
        have hneq : T.tail ≠ some e := by
          rw [hlast]
          exact fun hm => hys (List.mem_of_getLast? hm)
        rw [show T' = T from if_neg hneq, hlast, List.getLast?_append, List.getLast?_cons,
          Option.some_or]
    case nodup => exact (herase ▸ h.nodup.erase e : (xs ++ ys).Nodup)
    case links =>
      exact hlinks.remove hnd (fun x _ => by rw [unlink_hh hprev, hat.2])
        fun x _ => by rw [unlink_hh hprev, hat.1]
    case tbl => exact fun x hx => by rw [unlink_hh hprev]; exact h.tbl x (hmem x hx)
    case key => exact fun x hx => by rw [unlink_hh hprev]; exact h.key x (hmem x hx)
    case keylen => exact fun x hx => by rw [unlink_hh hprev]; exact h.keylen x (hmem x hx)
    case hashv =>
      intro x hx
      rw [unlink_hh hprev, unlink_key]
      exact h.hashv x (hmem x hx)
    case keys =>
      rw [unlink_key]
      exact fun x hx y hy => h.keys x (hmem x hx) y (hmem y hy)
    case sized =>
      refine ⟨?_, ?_, ?_⟩
      · exact hT'.2.2.2.1 ▸ h.sized.log2_lt
      · rw [hT'.2.1, hT'.2.2.2.1]
        exact h.sized.numBuckets
      · rw [hT'.2.2.2.2, hT'.2.1]
        exact h.sized.allocated
  case binned =>
    rw [hT'.1, hT'.2.1]
    refine ⟨h.binned.bins.congr (fun _ => Iff.rfl) fun x _ => ?_, h.binned.heads,
      h.binned.counts⟩
    rw [unlink_hh hprev]
    exact ⟨rfl, rfl, rfl⟩

/-- The hash after `e` has been taken out of the chain of its bucket. -/
def UtHash.detached (e : Elt) (u : UtHash Elt Key) : UtHash Elt Key :=
  let u := u.modPtr (u.hh e).hhPrev fun g => { g with hhNext := (u.hh e).hhNext }
  u.modPtr (u.hh e).hhNext fun g => { g with hhPrev := (u.hh e).hhPrev }

/-- The neighbours in the chain are linked with each other. -/
theorem detached_hh {x : Elt} (hprev : (u.hh e).hhPrev ≠ some e) :
    (u.detached e).hh x =
      { u.hh x with
        hhPrev := if (u.hh e).hhNext = some x then (u.hh e).hhPrev else (u.hh x).hhPrev
        hhNext := if (u.hh e).hhPrev = some x then (u.hh e).hhNext else (u.hh x).hhNext } := by
  by_cases hp : (u.hh e).hhPrev = some x
  · have hxe : x ≠ e := fun hxe => hprev (hxe ▸ hp)
    by_cases hn : (u.hh e).hhNext = some x <;> simp [UtHash.detached, hp, hn, hxe]
  · by_cases hn : (u.hh e).hhNext = some x <;> simp [UtHash.detached, hp, hn, hprev]

/-- Taking an element out of its chain changes links only. -/
theorem relinked_detached (hprev : (u.hh e).hhPrev ≠ some e) : Relinked u (u.detached e) := by
  refine ⟨by simp [UtHash.detached], by simp [UtHash.detached], by simp [UtHash.detached], ?_, ?_,
    ?_, ?_, ?_, ?_⟩ <;> intro x <;> rw [detached_hh hprev]

/-- The bucket loses the element. -/
def UtBucket.without (next e : Option Elt) (b : UtBucket Elt) : UtBucket Elt :=
  let b := { b with count := b.count - 1 }
  if b.hhHead = e then { b with hhHead := next } else b

/-- The chain of the bucket loses the element, the others keep theirs. -/
theorem Binned.remove {buckets : Nat → UtBucket Elt} {numBkts : UInt32} {held : Elt → Prop}
    (h : Binned u buckets numBkts held chain) (he : held e) {j : Nat}
    (hj : hashToBkt (u.hh e).hashv numBkts = j) :
    Binned (u.detached e)
      (Function.update buckets j ((buckets j).without (u.hh e).hhNext (some e))) numBkts
      (fun x => held x ∧ x ≠ e) (Function.update chain j ((chain j).erase e)) := by
  have hprev := h.hhPrev_ne he
  have hmem : e ∈ chain j := h.bins.mem.mpr ⟨he, hj⟩
  refine ⟨?bins, fun i => ?heads, fun i => ?counts⟩
  case bins =>
    have hsame : Buckets (fun x => (u.hh x).hhPrev) (fun x => (u.hh x).hhNext)
        (fun x => hashToBkt ((u.detached e).hh x).hashv numBkts) held chain :=
      h.bins.congr (fun _ => Iff.rfl) fun x _ => ⟨rfl, rfl, by rw [detached_hh hprev]⟩
    refine hsame.remove he (by rw [detached_hh hprev]; exact hj) (fun x _ => ?_) fun x _ => ?_ <;>
      rw [detached_hh hprev]
  case heads =>
    by_cases hi : i = j
    · rw [hi, Function.update_self, Function.update_self]
      have hhead := h.heads j
      rcases List.append_of_mem hmem with ⟨xs, ys, hl⟩
      have hlinks := h.bins.links j
      rw [hl] at hlinks hhead ⊢
      cases xs with
      | nil =>
        have hat := hlinks.links.2
        rw [Option.or_none] at hat
        simp [UtBucket.without, hhead, hat]
      | cons x xs =>
        have hxe : x ≠ e := by
          have hnd := h.bins.nodup j
          rw [hl] at hnd
          exact fun hxe => (List.nodup_cons.mp hnd).1 (by simp [hxe])
        simp [UtBucket.without, hhead, hxe]
    · rw [Function.update_of_ne hi, Function.update_of_ne hi, h.heads]
  case counts =>
    by_cases hi : i = j
    · have hcount : ((buckets j).without (u.hh e).hhNext (some e)).count =
          (buckets j).count - 1 := by
        simp only [UtBucket.without]
        split <;> rfl
      rw [hi, Function.update_self, Function.update_self, hcount, h.counts,
        List.length_erase_of_mem hmem, UInt32.ofNat_sub]
      · rfl
      · exact List.length_pos_of_mem hmem
    · rw [Function.update_of_ne hi, Function.update_of_ne hi, h.counts]

/-- After the element has left the order of insertion, it leaves its chain and the count. -/
theorem Listed.hashDelInBkt (h : Listed E u id T (items.erase e)) (hnd : items.Nodup)
    (he : e ∈ items) (hmany : items.erase e ≠ [])
    (hbinned : Binned u T.buckets T.numBuckets (· ∈ items) chain) :
    ∃ u' T' chain', u.hashDelInBkt (hashToBkt (u.hh e).hashv T.numBuckets) e = .ok u' ∧
      Listed E u' id T' (items.erase e) ∧
      Binned u' T'.buckets T'.numBuckets (· ∈ items.erase e) chain' ∧
      T'.numItems = T.numItems ∧ u'.key = u.key := by
  let i := hashToBkt (u.hh e).hashv T.numBuckets
  let T' := T.setBucket i ((T.buckets i).without (u.hh e).hhNext (some e))
  have hprev := hbinned.hhPrev_ne he
  have hremove := hbinned.remove he (j := i) rfl
  have hheld : (fun x => x ∈ items ∧ x ≠ e) = (· ∈ items.erase e) := by
    funext x
    rw [hnd.mem_erase_iff, and_comm]
  rw [hheld] at hremove
  refine ⟨(u.detached e).setTable id (some T'), T', Function.update chain i ((chain i).erase e),
    ?_, ?_, ?_, rfl, (relinked_detached hprev).key⟩
  · have hbucket : T.bucket i = .ok (T.buckets i) := h.sized.bucket _
    rw [UtHash.hashDelInBkt, h.table hmany]
    simp only [bind, Except.bind]
    rw [show T.bucket (hashToBkt (u.hh e).hashv T.numBuckets) = _ from hbucket]
    rfl
  · exact h.relinked (relinked_detached hprev) rfl
      ⟨h.sized.log2_lt, h.sized.numBuckets, h.sized.allocated⟩
  · exact ⟨hremove.bins, hremove.heads, hremove.counts⟩

/-- `HASH_DEL` of an element takes it out; the last one takes the table with it. -/
theorem UtHash.Elements.hashDelete (h : u.Elements E items) (he : e ∈ items) :
    ∃ u', u.hashDelete e = .ok u' ∧ u'.Elements E (items.erase e) ∧ u'.key = u.key := by
  rcases h with ⟨rfl, -⟩ | ⟨id, T, chain, hne, h⟩
  · exact absurd he List.not_mem_nil
  rcases List.append_of_mem he with ⟨xs, ys, hl⟩
  have hat := (hl ▸ h.links).links
  rw [Option.or_none, Option.or_none] at hat
  have herase : items.erase e = xs ++ ys := by
    have hnd := h.nodup
    rw [hl] at hnd
    have hxs : e ∉ xs := fun hm => (List.nodup_append.mp hnd).2.2 e hm e List.mem_cons_self rfl
    rw [hl, List.erase_append_right _ hxs, List.erase_cons_head]
  have hlast : (u.hh e).prev = none ∧ (u.hh e).next = none ↔ items.erase e = [] := by
    rw [hat.1, hat.2, herase, List.getLast?_eq_none_iff, List.head?_eq_none_iff,
      List.append_eq_nil_iff]
  -- the last element takes the table with it
  by_cases hmany : items.erase e = []
  · refine ⟨{ u with head := none }.setTable id none, ?_, Or.inl ⟨hmany, rfl, fun i => ?_⟩, rfl⟩
    · rw [UtHash.hashDelete, if_pos (hlast.mpr hmany), h.table hne]
      rfl
    · by_cases hi : i = id
      · rw [hi, setTable_tables]
      · exact setTable_only h.only i hi
  · rcases h.unlink he hmany with ⟨T₁, hlisted, hbinned, hnum⟩
    rcases hlisted.hashDelInBkt h.nodup he hmany hbinned with
      ⟨u₂, T₂, chain₂, hdel, hlisted₂, hbinned₂, hnum₂, hkey₂⟩
    let T' : UtTable Elt := { T₂ with numItems := T₂.numItems - 1 }
    have hrun : u.hashDelete e = .ok (u₂.setTable id (some T')) := by
      have hstep : u.hashDelete e = (do
          let x ← (u.unlink e id T).table
          let u₂ ← (u.unlink e id T).hashDelInBkt
            (hashToBkt ((u.unlink e id T).hh e).hashv x.2.numBuckets) e
          let y ← u₂.table
          .ok (u₂.setTable y.1 (some { y.2 with numItems := y.2.numItems - 1 }))) := by
        rw [UtHash.hashDelete, if_neg (mt hlast.mp hmany), h.table hne]
        rfl
      rw [hstep, hlisted.table hmany]
      simp only [bind, Except.bind, hdel, hlisted₂.table hmany]
      rfl
    have hinv : HashInv E (u₂.setTable id (some T')) id T' (items.erase e) chain₂ := by
      refine ⟨hlisted₂.relinked (Relinked.refl u₂) rfl
        ⟨hlisted₂.sized.log2_lt, hlisted₂.sized.numBuckets, hlisted₂.sized.allocated⟩,
        ⟨hbinned₂.bins, hbinned₂.heads, hbinned₂.counts⟩, ?_⟩
      show T₂.numItems - 1 = _
      rw [hnum₂, hnum, h.numItems, List.length_erase_of_mem he, UInt32.ofNat_sub]
      · rfl
      · exact List.length_pos_of_mem he
    exact ⟨_, hrun, Or.inr ⟨id, T', chain₂, hmany, hinv⟩, hkey₂.trans unlink_key⟩

/-! ## `HASH_FSCK` -/

/-- The loop finds every link as it should be, and counts the elements. -/
theorem fsckLoop_ok {back forth : Elt → Option Elt} {es : List Elt} {o : Option Elt}
    (h : Segment back forth o es none) (hfuel : es.length < fuel) (n : UInt32) :
    fsckLoop back forth fuel es.head? o n = .ok (n + UInt32.ofNat es.length) := by
  induction es generalizing o fuel n with
  | nil =>
    cases fuel with
    | zero => exact absurd hfuel (Nat.not_lt_zero _)
    | succ fuel => simp [fsckLoop]
  | cons e es ih =>
    cases fuel with
    | zero => exact absurd hfuel (Nat.not_lt_zero _)
    | succ fuel =>
      have hforth : forth e = es.head? := by simpa using h.2.1
      rw [List.head?_cons, fsckLoop, if_pos h.1, hforth, ih h.2.2 (Nat.lt_of_succ_lt_succ hfuel),
        List.length_cons, UInt32.ofNat_add, UInt32.add_assoc, UInt32.add_comm 1]
      rfl

/-- `HASH_FSCK` counts in the buckets as many elements as their chains have. -/
theorem Binned.fsckBuckets (h : Binned u T.buckets T.numBuckets (· ∈ items) chain)
    (hfuel : items.length < fuel) {left i : Nat} (hleft : i + left ≤ T.allocated) (n : UInt32) :
    u.fsckBuckets fuel T left i n =
      .ok (n + UInt32.ofNat ((List.range' i left).flatMap chain).length) := by
  induction left generalizing i n with
  | zero => simp [UtHash.fsckBuckets]
  | succ left ih =>
    have hbucket : T.bucket i = .ok (T.buckets i) := if_pos (by omega)
    have hchain := fsckLoop_ok (h.bins.links i) (Nat.lt_of_le_of_lt (h.length_le i) hfuel) 0
    rw [UInt32.zero_add] at hchain
    simp only [UtHash.fsckBuckets, hbucket, h.heads, h.counts, hchain, bind, Except.bind, if_true]
    rw [ih (by omega), List.range'_succ, List.flatMap_cons, List.length_append, UInt32.ofNat_add,
      UInt32.add_assoc]

/-- The checks of `HASH_FSCK` succeed. -/
theorem UtHash.Elements.hashFsck (h : u.Elements E items) (hfuel : items.length < fuel) :
    u.hashFsck fuel = .ok () := by
  rcases h with ⟨-, hhead, -⟩ | ⟨id, T, chain, hne, h⟩
  · rw [UtHash.hashFsck, hhead]
  · have hhead := h.head.trans (List.head?_eq_some_head hne)
    have hindex : ∀ e ∈ items, hashToBkt (u.hh e).hashv T.numBuckets < T.numBuckets.toNat :=
      fun _ _ => hashToBkt_lt h.sized.numBuckets
    have hleft : 0 + T.numBuckets.toNat ≤ T.allocated := by
      rw [h.sized.allocated, Nat.zero_add]
    have hbuckets := h.binned.fsckBuckets hfuel hleft 0
    rw [← List.range_eq_range', (h.binned.bins.perm h.nodup hindex).length_eq, UInt32.zero_add,
      ← h.numItems] at hbuckets
    have hitems := fsckLoop_ok h.links hfuel 0
    rw [List.head?_eq_some_head hne, UInt32.zero_add, ← h.numItems] at hitems
    simp only [UtHash.hashFsck, hhead, h.table hne, hbuckets, hitems, bind, Except.bind, if_true]

end Hemem
