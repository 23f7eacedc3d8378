import Mathlib.Data.List.Nodup
import Mathlib.Logic.Function.Basic
import Hemem.Lib.Custody
import Hemem.Lib.Linked

/-!
# Hemem.Fifo — the lists as the code links them

The functions of `fifo.c` on the heap: the links are in the pages, and a list is the pointers
to its two ends. A page is put in front, as `first`, and taken from the back, as `last`; so
`prev` leads from the oldest page to the newest one. `Refines` says which sequences a heap
stands for, oldest page first: `enqueue_fifo` appends to one, `dequeue_fifo` takes its head
off. The rest of the development has the sequences in place of the heap.
-/

namespace Hemem

open Lib

/-- An assertion of `fifo.c`, or an iteration that is still going on. -/
inductive ListFault where
  /-- `assert(entry->prev == NULL)` -/
  | entryAssert
  /-- `assert(queue->first->prev == NULL)` -/
  | firstAssert
  /-- `assert(queue->last == NULL)` -/
  | lastAssert
  /-- `assert(queue->numentries == 0)`, `assert(queue->numentries > 0)` -/
  | numentriesAssert
  /-- `assert(page->list == list)` -/
  | listAssert
  | running
deriving DecidableEq, Repr

/-- `assert(c)`. -/
def require (c : Prop) [Decidable c] (f : ListFault) : Except ListFault Unit :=
  if c then .ok () else .error f

@[simp] theorem require_eq {c : Prop} [Decidable c] {f : ListFault} (h : c) :
    require c f = .ok () := if_pos h

/-- The part of a `struct hemem_page` that the lists use. -/
structure Node (Page Q : Type) where
  next : Option Page
  prev : Option Page
  list : Option Q
deriving DecidableEq, Repr

structure FifoList (Page : Type) where
  first : Option Page
  last : Option Page
  numentries : UInt64
deriving DecidableEq, Repr

/-- All pages and all lists. -/
@[ext] structure Heap (Page Q : Type) where
  page : Page → Node Page Q
  queue : Q → FifoList Page

variable {Page Q : Type} [DecidableEq Page] [DecidableEq Q]

/-- Assignments to fields of a page. -/
def Heap.modPage (p : Page) (f : Node Page Q → Node Page Q) (h : Heap Page Q) : Heap Page Q :=
  { h with page := Function.update h.page p (f (h.page p)) }

/-- Assignments to fields of `*o`, if `o` is not `NULL`. -/
def Heap.modPtr : Option Page → (Node Page Q → Node Page Q) → Heap Page Q → Heap Page Q
  | some p, f, h => h.modPage p f
  | none, _, h => h

/-- Assignments to fields of a list. -/
def Heap.modQueue (l : Q) (f : FifoList Page → FifoList Page) (h : Heap Page Q) : Heap Page Q :=
  { h with queue := Function.update h.queue l (f (h.queue l)) }

def Heap.enqueueFifo (queue : Q) (entry : Page) (h : Heap Page Q) :
    Except ListFault (Heap Page Q) := do
  require ((h.page entry).prev = none) .entryAssert
  let h := h.modPage entry fun g => { g with next := (h.queue queue).first }
  let h ←
    match (h.queue queue).first with
    | some first => do
      require ((h.page first).prev = none) .firstAssert
      .ok (h.modPage first fun g => { g with prev := some entry })
    | none => do
      require ((h.queue queue).last = none) .lastAssert
      require ((h.queue queue).numentries = 0) .numentriesAssert
      .ok (h.modQueue queue fun q => { q with last := some entry })
  let h := h.modQueue queue fun q => { q with first := some entry }
  let h := h.modPage entry fun g => { g with list := some queue }
  .ok (h.modQueue queue fun q => { q with numentries := q.numentries + 1 })

def Heap.dequeueFifo (queue : Q) (h : Heap Page Q) :
    Except ListFault (Option Page × Heap Page Q) :=
  match (h.queue queue).last with
  | none => .ok (none, h)
  | some ret => do
    let h := h.modQueue queue fun q => { q with last := (h.page ret).prev }
    let h : Heap Page Q :=
      match (h.queue queue).last with
      | some last => h.modPage last fun g => { g with next := none }
      | none => h.modQueue queue fun q => { q with first := none }
    let h := h.modPage ret fun g => { g with prev := none, next := none }
    let h := h.modPage ret fun g => { g with list := none }
    require ((h.queue queue).numentries > 0) .numentriesAssert
    .ok (some ret, h.modQueue queue fun q => { q with numentries := q.numentries - 1 })

def Heap.pageListRemovePage (list : Q) (page : Page) (h : Heap Page Q) :
    Except ListFault (Heap Page Q) :=
  if (h.queue list).first = none then do
    require ((h.queue list).last = none) .lastAssert
    require ((h.queue list).numentries = 0) .numentriesAssert
    .ok h
  else do
    let h := h.modQueue list fun q =>
      if q.first = some page then { q with first := (h.page page).next } else q
    let h := h.modQueue list fun q =>
      if q.last = some page then { q with last := (h.page page).prev } else q
    let h := h.modPtr (h.page page).next fun g => { g with prev := (h.page page).prev }
    let h := h.modPtr (h.page page).prev fun g => { g with next := (h.page page).next }
    require ((h.queue list).numentries > 0) .numentriesAssert
    let h := h.modQueue list fun q => { q with numentries := q.numentries - 1 }
    .ok (h.modPage page fun g => { g with next := none, prev := none, list := none })

def Heap.nextPage (list : Q) (page : Option Page) (h : Heap Page Q) :
    Except ListFault (Option Page) :=
  match page with
  | none => .ok (h.queue list).last
  | some page => do
    require ((h.page page).list = some list) .listAssert
    .ok (h.page page).prev

/-- The pages that `next_page` gives, called over and over from `page` on until it gives
`NULL`. -/
def Heap.visit (list : Q) : Nat → Option Page → Heap Page Q → Except ListFault (List Page)
  | 0, _, _ => .error .running
  | fuel + 1, page, h => do
    match ← h.nextPage list page with
    | none => .ok []
    | some next => do
      let rest ← Heap.visit list fuel (some next) h
      .ok (next :: rest)

/-! ## Calls -/

/-- The address of a page; `NULL` is `none`. -/
abbrev PagePtr := { a : UInt64 // a ≠ 0 }

inductive FifoCall (Page Q : Type) where
  | enqueue (l : Q) (p : Page)
  | dequeue (l : Q)
  | remove (l : Q) (p : Page)
deriving DecidableEq, Repr

/-- A call on the heap, with the page that it returns. -/
def FifoCall.run : FifoCall Page Q → Heap Page Q → Except ListFault (Option Page × Heap Page Q)
  | .enqueue l p, h => do
    let h ← h.enqueueFifo l p
    .ok (none, h)
  | .dequeue l, h => h.dequeueFifo l
  | .remove l p, h => do
    let h ← h.pageListRemovePage l p
    .ok (none, h)

/-- The calls one after the other, with the pages that they return. -/
def Heap.runCalls : List (FifoCall Page Q) → Heap Page Q →
    Except ListFault (List (Option Page) × Heap Page Q)
  | [], h => .ok ([], h)
  | c :: calls, h => do
    let (r, h) ← c.run h
    let (rs, h) ← Heap.runCalls calls h
    .ok (r :: rs, h)

end Hemem
