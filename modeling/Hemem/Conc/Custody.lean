import Hemem.Lib.Books
import Hemem.Invariant
import Hemem.Conc.Steps

/-!
# Hemem.Conc.Custody — where every descriptor is at every step

Between two list operations a descriptor is in the hands of the thread that has
dequeued it. `items` gives every list and every thread its book: the descriptors
it holds, each with the `in_dram` and `present` that the holder relies on. A step
either changes no book, moves the head of a list into the hands of the thread,
moves a descriptor from its hands to the tail of a list, or changes the flags of a
descriptor in its hands (`Effect`); so the books stay exclusive and true.
-/

namespace Hemem

open Lib

/-- `in_dram` and `present` of a descriptor. -/
abbrev Flags := Bool × Bool

abbrev Item := PageId × Flags

def St.flags (s : St) (p : PageId) : Flags := ((s.page p).inDram, (s.page p).present)

/-- The flags of the pages of a list. -/
def ListId.flags (l : ListId) : Flags := (l.tier.inDram, l.present)

/-- A page that is in use, or a free descriptor, of tier `t`. -/
def inUse (t : Tier) (p : PageId) : Item := (p, t.inDram, true)
def unused (t : Tier) (p : PageId) : Item := (p, t.inDram, false)

/-! ## The books -/

/-- What a thread holds. -/
def Pc.items : Pc → List Item
  | .assertTier _ _ t p | .assertAbsent _ _ t p | .setPresent _ _ t p => [unused t p]
  | .publish _ _ t p => [inUse t p]
  | .rotated q _ _ _ e => e.toList.map (inUse q.d.src)
  | .assertInDram q _ _ p | .assertPresent q _ _ p | .put q _ _ p => [inUse q.d.src p]
  | _ => []

/-- The tier of the page of an entry in the loop `ph` with `code` left. -/
def Dir.pageTier (d : Dir) (ph : Phase) (code : List MigInstr) : Tier :=
  match ph with
  | .flag | .protect | .copy => d.src
  | .remap => if .setInDram ∈ code then d.src else d.dst
  | .unflag | .giveBack => d.dst

/-- The tier of the free descriptor of an entry. -/
def Dir.freeTier (d : Dir) (ph : Phase) (code : List MigInstr) : Tier :=
  match ph with
  | .giveBack => if .setFreeInDram ∈ code then d.dst else d.src
  | _ => d.dst

/-- The page of an entry, as long as the migration thread holds it. -/
def Entry.pageItems (d : Dir) (ph : Phase) (code : List MigInstr) (e : Entry) : List Item :=
  if ph ≠ .giveBack ∨ .enqueuePage ∈ code then e.page.toList.map (inUse (d.pageTier ph code))
  else []

/-- The free descriptor of an entry, as long as the migration thread holds it. -/
def Entry.freeItems (d : Dir) (ph : Phase) (code : List MigInstr) (e : Entry) : List Item :=
  if ph ≠ .giveBack ∨ .enqueueFree ∈ code then [unused (d.freeTier ph code) e.next] else []

def Entry.items (d : Dir) (ph : Phase) (code : List MigInstr) (e : Entry) : List Item :=
  e.pageItems d ph code ++ e.freeItems d ph code

/-- What the migration thread holds: in a loop, the entries behind have no `code`
left, and those ahead all of it. -/
def Mpc.items : Mpc → List Item
  | .dequeuePage d _ es => es.flatMap (Entry.items d .flag [])
  | .dequeueFree d _ es page =>
    page.toList.map (inUse d.src) ++ es.flatMap (Entry.items d .flag [])
  | .readFree d _ es page next =>
    next.toList.map (unused d.dst) ++
      (page.toList.map (inUse d.src) ++ es.flatMap (Entry.items d .flag []))
  | .loop d ph done [] _ _ => done.flatMap (Entry.items d ph [])
  | .loop d ph done (e :: todo) code _ =>
    e.items d ph code ++
      (done.flatMap (Entry.items d ph []) ++ todo.flatMap (Entry.items d ph (d.code ph)))
  | _ => []

/-- What the migration thread has dequeued from a queue in the iteration. -/
def Mpc.batch : Mpc → List (Option PageId)
  | .dequeuePage _ _ es => es.map Entry.page
  | .dequeueFree _ _ es page | .readFree _ _ es page _ => es.map Entry.page ++ [page]
  | .loop _ _ done todo _ _ => (done ++ todo).map Entry.page
  | _ => []

/-- Those who can hold a descriptor. -/
inductive Holder (Tid : Type) where
  | list (l : ListId)
  | thread (t : Tid)
  | migrator
deriving DecidableEq

variable {Tid : Type}

/-- The book of each holder. -/
def Sys.items (x : Sys Tid) : Holder Tid → List Item
  | .list l => (x.st.list l).map fun p => (p, l.flags)
  | .thread t => (x.thr t).items
  | .migrator => x.mig.items

/-- What the book of a list records are the entries of the list. -/
theorem Sys.entries_list (x : Sys Tid) (l : ListId) :
    entries x.items (.list l) = x.st.list l := by
  simp [entries, Sys.items, Function.comp_def]

/-! ## What a step does to the books -/

/-- The effect of a step on the lists, the flags and the book of the thread that
takes it. -/
inductive Effect (s s' : St) (own own' : List Item) : Prop where
  | frame (list : s'.list = s.list) (flags : s'.flags = s.flags) (book : own'.Perm own)
  /-- the head of a list is taken into the hands -/
  | take (l : ListId) (p : PageId) (head : s.list l = p :: s'.list l)
      (rest : ∀ k, k ≠ l → s'.list k = s.list k) (flags : s'.flags = s.flags)
      (book : own'.Perm ((p, l.flags) :: own))
  /-- a page is put on the tail of a list -/
  | give (l : ListId) (p : PageId) (tail : s'.list l = s.list l ++ [p])
      (rest : ∀ k, k ≠ l → s'.list k = s.list k) (flags : s'.flags = s.flags)
      (book : own.Perm ((p, l.flags) :: own'))
  /-- the flags of a page in the hands change -/
  | retag (p : PageId) (v v' : Flags) (others : List Item) (list : s'.list = s.list)
      (before : own.Perm ((p, v) :: others)) (after : own'.Perm ((p, v') :: others))
      (here : s.flags p = v → s'.flags p = v') (other : ∀ q, q ≠ p → s'.flags q = s.flags q)

/-- The books after a step of the holder `o`. -/
theorem Effect.books {x x' : Sys Tid} {o : Holder Tid} (ho : ∀ l, o ≠ .list l)
    (hrest : ∀ k, k ≠ o → (∀ l, k ≠ .list l) → x'.items k = x.items k)
    (h : Effect x.st x'.st (x.items o) (x'.items o)) (hb : Books x.items x.st.flags) :
    Books x'.items x'.st.flags ∧
      ∀ p, Held (entries x'.items) p ↔ Held (entries x.items) p := by
  -- the books of the lists other than `l` follow the lists
  have hlists : ∀ {l}, (∀ k, k ≠ l → x'.st.list k = x.st.list k) →
      ∀ k, k ≠ .list l → k ≠ o → x'.items k = x.items k := by
    intro l hl k hkl hko
    cases k with
    | list m => simp only [Sys.items, hl m fun h => hkl (congrArg _ h)]
    | thread t => exact hrest _ hko (by simp)
    | migrator => exact hrest _ hko (by simp)
  have hsame : x'.st.list = x.st.list → ∀ k, k ≠ o → x'.items k = x.items k := by
    intro hlist k hko
    cases k with
    | list m => simp only [Sys.items, hlist]
    | thread t => exact hrest _ hko (by simp)
    | migrator => exact hrest _ hko (by simp)
  cases h with
  | frame list flags book =>
    exact ⟨hb.reorder book (hsame list) flags,
      fun p => held_entries_of_perm (book.map Prod.fst) (hsame list)⟩
  | take l p head rest flags book =>
    have hho : HandOver x.items x'.items (.list l) o := by
      refine ⟨(ho l).symm, ?_, fun k hk hk' => hlists rest k hk hk'⟩
      apply (List.Perm.append_left _ book).trans
      simp [Sys.items, head, List.perm_middle]
    exact ⟨hb.handOver hho flags, fun p => hho.entries.held_iff⟩
  | give l p tail rest flags book =>
    have hho : HandOver x.items x'.items (.list l) o := by
      refine ⟨(ho l).symm, ?_, fun k hk hk' => hlists rest k hk hk'⟩
      refine List.Perm.trans ?_ (List.Perm.append_left _ book).symm
      simp [Sys.items, tail]
    exact ⟨hb.handOver hho flags, fun p => hho.entries.held_iff⟩
  | retag p v v' others list before after here other =>
    have hp : x.st.flags p = v := hb.agree (before.mem_iff.mpr (by simp))
    have hperm : (entries x'.items o).Perm (entries x.items o) :=
      (after.map Prod.fst).trans (before.map Prod.fst).symm
    exact ⟨hb.retag before after (hsame list) (here hp) other,
      fun p => held_entries_of_perm hperm (hsame list)⟩

/-- A step that leaves the lists alone keeps the items in the hands of the thread. -/
theorem Effect.entries_perm {s s' : St} {own own' : List Item} (h : Effect s s' own own')
    (hlist : s'.list = s.list) : (own'.map Prod.fst).Perm (own.map Prod.fst) := by
  cases h with
  | frame list flags book => exact book.map Prod.fst
  | take l p head rest flags book =>
    rw [hlist] at head
    simpa using congrArg List.length head
  | give l p tail rest flags book =>
    rw [hlist] at tail
    simpa using congrArg List.length tail
  | retag p v v' others list before after here other =>
    exact (after.map Prod.fst).trans (before.map Prod.fst).symm

/-! ## The steps of a thread -/

variable {cfg : Config} {s s' : St} {own own' : List Item}

/-- A step that touches neither a list nor a descriptor. -/
theorem Effect.same (hlist : s'.list = s.list) (hpage : s'.page = s.page) (hown : own' = own) :
    Effect s s' own own' := by
  refine .frame hlist ?_ (hown ▸ List.Perm.refl _)
  funext p
  simp only [St.flags, hpage]

/-- A page goes from the head of a list into the hands of the thread. -/
theorem Effect.dequeue {l : ListId} {p : PageId} {rest : List PageId} (hl : s.list l = p :: rest)
    (hown : own'.Perm ((p, l.flags) :: own)) : Effect s (s.setList l rest) own own' := by
  refine .take l p (by simpa using hl) (fun k hk => by simp [hk]) ?_ hown
  funext q
  simp [St.flags]

/-- A page goes from the hands of the thread to the end of a list. -/
theorem Effect.enqueue (l : ListId) (p : PageId) (hown : own.Perm ((p, l.flags) :: own')) :
    Effect s (s.setList l (s.list l ++ [p])) own own' := by
  refine .give l p (by simp) (fun k hk => by simp [hk]) ?_ hown
  funext q
  simp [St.flags]

/-- A step that assigns to other fields of a descriptor than its flags. -/
theorem Effect.modPage (p : PageId) {f : HememPage → HememPage}
    (hf : ∀ g, (f g).inDram = g.inDram ∧ (f g).present = g.present) (hown : own' = own) :
    Effect s (s.modPage p f) own own' := by
  refine .frame rfl ?_ (hown ▸ List.Perm.refl _)
  funext q
  by_cases hq : q = p
  · subst hq
    simp [St.flags, hf]
  · simp [St.flags, hq]

/-- A step that assigns to the flags of a descriptor in the hands. -/
theorem Effect.retagPage (p : PageId) (v v' : Flags) (others : List Item)
    {f : HememPage → HememPage} (before : own.Perm ((p, v) :: others))
    (after : own'.Perm ((p, v') :: others))
    (hf : ∀ g : HememPage, (g.inDram, g.present) = v → ((f g).inDram, (f g).present) = v') :
    Effect s (s.modPage p f) own own' := by
  refine .retag p v v' others rfl before after (fun hv => ?_) fun q hq => ?_
  · simpa [St.flags] using hf _ hv
  · simp [St.flags, hq]

@[simp] theorem countPopulate_page (b : Bool) (s : St) : (countPopulate b s).page = s.page := by
  cases b <;> rfl

@[simp] theorem countPopulate_list (b : Bool) (s : St) : (countPopulate b s).list = s.list := by
  cases b <;> rfl

/-- The statements after `pagefault()` hold nothing and change no flag. -/
theorem AllocInstr.effect {i : AllocInstr} {p : PageId} {r r' : AllocRegs}
    (h : i.run cfg p r s = .ok (r', s')) : Effect s s' [] [] := by
  cases i <;>
    simp only [AllocInstr.run, clearSlot, uffdioRegister, Hemem.addPage, bind_eq_ok, check_eq_ok,
      Except.ok.injEq, Prod.mk.injEq] at h
  case readOffset | readInDram | readLen | map =>
    rcases h with ⟨-, rfl⟩
    exact .same rfl rfl rfl
  case count =>
    rcases h with ⟨-, rfl⟩
    exact .same (countPopulate_list _ _) (countPopulate_page _ _) rfl
  case clear | register | addPage =>
    rcases h with ⟨_, ⟨_, -, rfl⟩, -, rfl⟩
    exact .same rfl rfl rfl
  case assertVa | assertAligned =>
    rcases h with ⟨_, -, -, rfl⟩
    exact .same rfl rfl rfl
  case setVa | setMigrating | setMigrationsDown | setMigrationsUp =>
    rcases h with ⟨-, rfl⟩
    exact .modPage _ (fun g => ⟨rfl, rfl⟩) rfl

@[simp] theorem libcMunmap_page (addr length : Nat) (accept : Bool) (s : St) :
    (libcMunmap addr length accept s).2.page = s.page := by
  unfold libcMunmap
  split <;> rfl

@[simp] theorem libcMunmap_list (addr length : Nat) (accept : Bool) (s : St) :
    (libcMunmap addr length accept s).2.list = s.list := by
  unfold libcMunmap
  split <;> rfl

@[simp] theorem libcMunmap_num (addr length : Nat) (accept : Bool) (s : St) :
    (libcMunmap addr length accept s).2.num = s.num := by
  unfold libcMunmap
  split <;> rfl

@[simp] theorem countMunmap_page (b : Bool) (s : St) : (countMunmap b s).page = s.page := by
  cases b <;> rfl

@[simp] theorem countMunmap_list (b : Bool) (s : St) : (countMunmap b s).list = s.list := by
  cases b <;> rfl

/-- One step of a thread. -/
theorem ThreadStep.effect {pc pc' : Pc} {ev : List Event} (h : ThreadStep cfg pc s pc' s' ev) :
    Effect s s' pc.items pc'.items := by
  cases h
  case takeDram | takeNvm | rotate | take =>
    rename_i hl
    exact .dequeue hl (.refl _)
  case publish t p => exact .enqueue (.mmap t) p (.refl _)
  case rotated q _ _ _ p => exact .enqueue (.mmap q.d.src) p (.refl _)
  case put q _ _ p => exact .enqueue (.queue q.d) p (.refl _)
  case setPresent t p =>
    refine .retagPage p (t.inDram, false) (t.inDram, true) [] (.refl _) (.refl _) fun g hg => ?_
    rw [(Prod.mk.inj hg).1]
  case place hrun => exact AllocInstr.effect hrun
  case placed k _ _ => exact .same rfl rfl (by cases k <;> rfl)
  case countRemoved => exact .same (countMunmap_list _ _) (countMunmap_page _ _) rfl
  case unmap | unmapFailed => exact .same (libcMunmap_list ..) (libcMunmap_page ..) rfl
  case rotateEmpty => exact .same rfl rfl rfl
  all_goals exact .same rfl rfl (by simp only [Pc.items])

/-! ## The steps of the migration thread -/

theorem Dir.code_nodup (d : Dir) (ph : Phase) : (d.code ph).Nodup := by
  cases d <;> cases ph <;> decide

/-- A loop has no statement twice. -/
theorem notMem_of_suffix {d : Dir} {ph : Phase} {i : MigInstr} {code : List MigInstr}
    (h : i :: code <:+ d.code ph) : i ∉ code :=
  (List.nodup_cons.mp ((d.code_nodup ph).sublist h.sublist)).1

/-- Only the loop of the remaps writes `in_dram`. -/
theorem Dir.setInDram_mem {d : Dir} {ph : Phase} (h : .setInDram ∈ d.code ph) : ph = .remap := by
  cases d <;> cases ph <;> simp_all [Dir.code, Dir.src]

/-- Which statements are left in the last loop. -/
theorem Dir.giveBack_suffix {d : Dir} {i : MigInstr} {code : List MigInstr}
    (h : i :: code <:+ d.code .giveBack) :
    (i = .setFreeOffset ∧ code = [.setFreePresent, .setFreeInDram, .enqueuePage, .enqueueFree]) ∨
    (i = .setFreePresent ∧ code = [.setFreeInDram, .enqueuePage, .enqueueFree]) ∨
    (i = .setFreeInDram ∧ code = [.enqueuePage, .enqueueFree]) ∨
    (i = .enqueuePage ∧ code = [.enqueueFree]) ∨ (i = .enqueueFree ∧ code = []) := by
  simpa [Dir.code, List.suffix_cons_iff] using h

/-- The statements of the last loop are in no other one. -/
theorem Dir.giveBack_of_mem {d : Dir} {ph : Phase} {i : MigInstr}
    (hi : i ∈ d.code .giveBack) (h : i ∈ d.code ph) : ph = .giveBack := by
  simp only [Dir.code, List.mem_cons, List.not_mem_nil, or_false] at hi
  rcases hi with rfl | rfl | rfl | rfl | rfl <;> cases d <;> cases ph <;>
    simp_all [Dir.code, Dir.src]

/-- The statements after which the book of an entry is another. -/
def MigInstr.flips : MigInstr → Bool
  | .setInDram | .setFreePresent | .setFreeInDram | .enqueuePage | .enqueueFree => true
  | _ => false

/-- A statement that changes no flag leaves the book alone. -/
theorem Entry.items_cons {d : Dir} {ph : Phase} {i : MigInstr} (h : i.flips = false)
    (code : List MigInstr) (e : Entry) : e.items d ph (i :: code) = e.items d ph code := by
  have hmem : ∀ j, MigInstr.flips j = true → (j ∈ i :: code ↔ j ∈ code) := by
    intro j hj
    have hji : j ≠ i := by
      rintro rfl
      rw [h] at hj
      cases hj
    simp [hji]
  simp only [Entry.items, Entry.pageItems, Entry.freeItems, Dir.pageTier, Dir.freeTier,
    hmem .setInDram rfl, hmem .setFreeInDram rfl, hmem .enqueuePage rfl, hmem .enqueueFree rfl]

/-- One loop ends with the books with which the next one begins. -/
theorem Entry.items_next {d : Dir} {ph ph' : Phase} (h : ph.next = some ph') (e : Entry) :
    e.items d ph' (d.code ph') = e.items d ph [] := by
  cases ph <;> simp only [Phase.next, Option.some.injEq, reduceCtorEq] at h <;> subst h <;>
    cases d <;>
    simp [Entry.items, Entry.pageItems, Entry.freeItems, Dir.pageTier, Dir.freeTier, Dir.code]

/-- After the last loop nothing of the entry is left in the book. -/
theorem Entry.items_last (d : Dir) (e : Entry) : e.items d .giveBack [] = [] := by
  simp [Entry.items, Entry.pageItems, Entry.freeItems]

/-- What else a thread holds is not affected. -/
theorem Effect.append (h : Effect s s' own own') (more : List Item) :
    Effect s s' (own ++ more) (own' ++ more) := by
  cases h with
  | frame list flags book => exact .frame list flags (book.append_right more)
  | take l p head rest flags book => exact .take l p head rest flags (book.append_right more)
  | give l p tail rest flags book => exact .give l p tail rest flags (book.append_right more)
  | retag p v v' others list before after here other =>
    exact .retag p v v' (others ++ more) list (before.append_right more)
      (after.append_right more) here other

/-- One statement of a loop. -/
theorem MigInstr.effect {d : Dir} {ph : Phase} {e : Entry} {i : MigInstr} {code : List MigInstr}
    {r r' : MigRegs} {ev : List Event} (hcode : i :: code <:+ d.code ph)
    (h : i.run cfg d e r s = .ok (r', s', ev)) :
    Effect s s' (e.items d ph (i :: code)) (e.items d ph code) := by
  have hmem : i ∈ d.code ph := hcode.sublist.mem (List.mem_cons_self ..)
  cases MigInstr.run_ok h
  case setMigrating p hp | bumpUp p hp | bumpDown p hp | setOffset p hp =>
    exact .modPage p (fun g => ⟨rfl, rfl⟩) (Entry.items_cons rfl code e).symm
  case setFreeOffset =>
    exact .modPage _ (fun g => ⟨rfl, rfl⟩) (Entry.items_cons rfl code e).symm
  case setInDram p hp =>
    -- From here the page and the free slot stand for each other's tier.
    obtain rfl := Dir.setInDram_mem hmem
    have hnot := notMem_of_suffix hcode
    refine .retagPage p (d.src.inDram, true) (d.dst.inDram, true)
      [unused d.dst e.next] ?_ ?_ fun g hg => ?_
    · simp [Entry.items, Entry.pageItems, Entry.freeItems, Dir.pageTier, Dir.freeTier, hp, inUse]
    · simp [Entry.items, Entry.pageItems, Entry.freeItems, Dir.pageTier, Dir.freeTier, hp, inUse,
        hnot]
    · rw [(Prod.mk.inj hg).2]
  case setFreePresent =>
    obtain rfl := Dir.giveBack_of_mem (i := .setFreePresent) (by simp [Dir.code]) hmem
    obtain rfl : code = [.setFreeInDram, .enqueuePage, .enqueueFree] := by
      simpa using Dir.giveBack_suffix hcode
    refine .retagPage e.next (d.dst.inDram, false) (d.dst.inDram, false)
      (e.page.toList.map (inUse d.dst)) ?_ ?_ fun g hg => ?_
    · simp [Entry.items, Entry.pageItems, Entry.freeItems, Dir.pageTier, Dir.freeTier, unused,
        List.perm_append_singleton]
    · simp [Entry.items, Entry.pageItems, Entry.freeItems, Dir.pageTier, Dir.freeTier, unused,
        List.perm_append_singleton]
    · rw [(Prod.mk.inj hg).1]
  case setFreeInDram =>
    obtain rfl := Dir.giveBack_of_mem (i := .setFreeInDram) (by simp [Dir.code]) hmem
    obtain rfl : code = [.enqueuePage, .enqueueFree] := by
      simpa using Dir.giveBack_suffix hcode
    refine .retagPage e.next (d.dst.inDram, false) (d.src.inDram, false)
      (e.page.toList.map (inUse d.dst)) ?_ ?_ fun g hg => ?_
    · simp [Entry.items, Entry.pageItems, Entry.freeItems, Dir.pageTier, Dir.freeTier, unused,
        List.perm_append_singleton]
    · simp [Entry.items, Entry.pageItems, Entry.freeItems, Dir.pageTier, Dir.freeTier, unused,
        List.perm_append_singleton]
    · rw [(Prod.mk.inj hg).2]
  case enqueuePage p hp =>
    obtain rfl := Dir.giveBack_of_mem (i := .enqueuePage) (by simp [Dir.code]) hmem
    obtain rfl : code = [.enqueueFree] := by
      simpa using Dir.giveBack_suffix hcode
    -- The page leaves the hands of the thread for the list of its new tier.
    refine .enqueue (.mmap d.dst) p ?_
    simp [Entry.items, Entry.pageItems, Entry.freeItems, Dir.pageTier, Dir.freeTier, hp, inUse,
      ListId.flags, ListId.tier, ListId.present]
  case enqueueFree =>
    obtain rfl := Dir.giveBack_of_mem (i := .enqueueFree) (by simp [Dir.code]) hmem
    obtain rfl : code = [] := by
      simpa using Dir.giveBack_suffix hcode
    refine .enqueue (.free d.src) e.next ?_
    simp [Entry.items, Entry.pageItems, Entry.freeItems, Dir.freeTier, unused,
      ListId.flags, ListId.tier, ListId.present]
  all_goals exact .same rfl rfl (Entry.items_cons rfl code e).symm

/-- One step of the migration thread. -/
theorem MigStep.effect {numBatchs : Nat} {m m' : Mpc} {ev : List Event} (hm : m.Wf)
    (h : MigStep cfg numBatchs m s m' s' ev) : Effect s s' m.items m'.items := by
  cases h
  case begin d es =>
    -- the entries have the books with which the first loop begins
    have hbook : Entry.items d .flag (d.code .flag) = Entry.items d .flag [] :=
      funext fun e => Entry.items_cons rfl [] e
    cases es with
    | nil => exact .same rfl rfl rfl
    | cons e es => exact .same rfl rfl (by simp [Mpc.items, hbook])
  case dequeuePage hl | dequeueFree hl => exact .dequeue hl (.refl _)
  case readFree =>
    refine .frame rfl rfl ?_
    simp only [Mpc.items, List.flatMap_append, List.flatMap_singleton, Option.toList_some,
      List.map_cons, List.map_nil, List.singleton_append]
    apply List.perm_append_comm.trans
    simp only [Entry.items, Entry.pageItems, Entry.freeItems, Dir.pageTier, Dir.freeTier,
      ne_eq, reduceCtorEq, not_false_eq_true, true_or, if_true, List.append_assoc,
      List.singleton_append]
    exact List.perm_middle
  case instr hrun => exact (MigInstr.effect hm hrun).append _
  case nextEntry todo _ =>
    refine .frame rfl rfl ?_
    cases todo with
    | nil =>
      simp only [Mpc.items, List.flatMap_append, List.flatMap_singleton, List.flatMap_nil,
        List.append_nil]
      exact List.perm_append_comm
    | cons e' todo =>
      simp only [Mpc.items, List.flatMap_append, List.flatMap_cons]
      grind
  case nextLoop d ph ph' done _ _ hnext =>
    have hbook : Entry.items d ph' (d.code ph') = Entry.items d ph [] :=
      funext fun e => Entry.items_next hnext e
    cases done with
    | nil => exact .same rfl rfl rfl
    | cons e done => exact .same rfl rfl (by simp [Mpc.items, hbook])
  case lastLoop => exact .same rfl rfl (by simp [Mpc.items, Entry.items_last])
  case count => exact .same (countBatch_list _ _ _) (countBatch_page _ _ _) rfl
  all_goals exact .same rfl rfl rfl

/-! ## The invariant -/

/-- The books are exclusive and true, and they hold the descriptors that `pebs_init`
has allocated. -/
structure Custody (cfg : Config) (x : Sys Tid) : Prop where
  books : Books x.items x.st.flags
  held : ∀ p, Held (entries x.items) p ↔ p < cfg.total
  mig : x.mig.Wf

/-- Before any call the lists hold everything. -/
theorem Wf.custody_quiet (h : Wf cfg s) : Custody cfg (Sys.quiet s : Sys Tid) := by
  have hlist : ∀ l, entries (Sys.quiet s : Sys Tid).items (.list l) = s.list l :=
    Sys.entries_list _
  -- only the lists hold anything
  have hmem : ∀ {k p}, p ∈ entries (Sys.quiet s : Sys Tid).items k →
      ∃ l, k = .list l ∧ p ∈ s.list l := by
    intro k p hp
    cases k with
    | list l => exact ⟨l, rfl, hlist l ▸ hp⟩
    | thread t => simp [entries, Sys.items, Sys.quiet, Pc.items] at hp
    | migrator => simp [entries, Sys.items, Sys.quiet, Mpc.items] at hp
  refine ⟨⟨⟨fun k => ?_, fun {i j p} hi hj => ?_⟩, fun {k p v} he => ?_⟩, fun p => ?_, trivial⟩
  · cases k with
    | list l => exact hlist l ▸ h.excl.nodup l
    | thread t => simp [entries, Sys.items, Sys.quiet, Pc.items]
    | migrator => simp [entries, Sys.items, Sys.quiet, Mpc.items]
  · rcases hmem hi with ⟨l, rfl, hl⟩
    rcases hmem hj with ⟨m, rfl, hm⟩
    rw [h.excl.unique hl hm]
  · rcases hmem (mem_entries.mpr ⟨v, he⟩) with ⟨l, rfl, hl⟩
    simp only [Sys.items, Sys.quiet, List.mem_map, Prod.mk.injEq] at he
    rcases he with ⟨q, -, rfl, rfl⟩
    simp [St.flags, ListId.flags, Sys.quiet, h.inDram hl, h.present hl]
  · rw [← h.held p]
    constructor
    · rintro ⟨k, hk⟩
      rcases hmem hk with ⟨l, -, hl⟩
      exact ⟨l, hl⟩
    · rintro ⟨l, hl⟩
      exact ⟨.list l, (hlist l).symm ▸ hl⟩

variable [DecidableEq Tid] {numBatchs : Nat}

/-- A call begins with empty hands. -/
theorem Call.begin_items (c : Call) : c.begin.items = [] := by
  cases c <;> simp only [Call.begin, Pc.items]

/-- Every step of every thread keeps the books. -/
theorem Custody.step {x x' : Sys Tid} (h : Custody cfg x) (lbl : Label Tid)
    (hs : step cfg numBatchs lbl x = .ok x') : Custody cfg x' := by
  cases lbl with
  | start t c =>
    rcases step_start hs with rfl | ⟨hidle, rfl⟩
    · exact h
    · -- neither the idle thread nor the call it begins holds anything
      have hsame : ∀ k, Sys.items { x with thr := Function.update x.thr t c.begin } k = x.items k := by
        intro k
        cases k with
        | list l => rfl
        | migrator => rfl
        | thread u =>
          by_cases hu : u = t
          · subst hu
            have hnone : Pc.idle.items = [] := rfl
            simp only [Sys.items, hidle, hnone, Function.update_self, Call.begin_items]
          · simp [Sys.items, hu]
      exact ⟨(funext hsame).symm ▸ h.books, (funext hsame).symm ▸ h.held, h.mig⟩
  | run t =>
    rcases step_run hs with ⟨pc, ev, hstep, hthr, hmig, -⟩
    have heff := (threadStep_ok hstep).effect
    have hself : x'.items (.thread t) = pc.items := by simp [Sys.items, hthr]
    -- nobody else's book changes
    have hrest : ∀ k : Holder Tid, k ≠ .thread t → (∀ l, k ≠ .list l) → x'.items k = x.items k := by
      intro k hk hl
      cases k with
      | list l => exact absurd rfl (hl l)
      | migrator => simp only [Sys.items, hmig]
      | thread u =>
        have hu : u ≠ t := fun hut => hk (congrArg _ hut)
        simp [Sys.items, hthr, hu]
    have hbooks := Effect.books (by simp) hrest (hself.symm ▸ heff) h.books
    exact ⟨hbooks.1, fun p => (hbooks.2 p).trans (h.held p), hmig.symm ▸ h.mig⟩
  | migrate =>
    rcases step_migrate hs with ⟨ev, hstep, hthr, -⟩
    have heff : Effect x.st x'.st (x.items .migrator) (x'.items .migrator) :=
      (migStep_ok hstep).effect h.mig
    have hrest : ∀ k : Holder Tid, k ≠ .migrator → (∀ l, k ≠ .list l) → x'.items k = x.items k := by
      intro k hk hl
      cases k with
      | list l => exact absurd rfl (hl l)
      | migrator => exact absurd rfl hk
      | thread u => simp only [Sys.items, hthr]
    have hbooks := Effect.books (by simp) hrest heff h.books
    exact ⟨hbooks.1, fun p => (hbooks.2 p).trans (h.held p), Mpc.wf_step h.mig (migStep_ok hstep)⟩

/-- In every interleaving. -/
theorem custody_throughout (cfg : Config) (numBatchs : Nat) (labels : List (Label Tid)) {s : St}
    (h : Wf cfg s) : Throughout (Hemem.step cfg numBatchs) (Custody cfg) labels (Sys.quiet s) :=
  throughout_of_step (fun _ lbl _ hx hs => hx.step lbl hs) labels h.custody_quiet

end Hemem
