import Mathlib.Logic.Relation
import Hemem.Lib.Run
import Hemem.Links

/-!
# Hemem.FifoSteps — `enqueue_fifo` and `dequeue_fifo`, statement by statement

What a thread executes while it holds the `list_lock` of a list. A statement reads and writes
the list and the pages that it touches, nothing else: on two heaps that agree there it does
the same. So a thread inside a function may be followed on a heap of its own, and `Ends` says
where it comes out there: it runs on heaps that have only its list and its pages in common
with the one that all threads share.
-/

namespace Hemem

open Lib

/-- The ways in which a statement stops the process. -/
inductive StatementFault where
  | assertion (f : ListFault)
  | nullDeref
deriving DecidableEq, Repr

/-- Where a thread is between `pthread_mutex_lock` and `pthread_mutex_unlock`; the constructor
names the next statement. -/
inductive FifoPc (Page : Type) where
  -- `enqueue_fifo`
  | assertEntry (entry : Page)
  | setNext (entry : Page)
  | testFirst (entry : Page)
  | assertFirst (entry : Page)
  | setFirstPrev (entry : Page)
  | assertLast (entry : Page)
  | assertEmpty (entry : Page)
  | setLast (entry : Page)
  | setFirst (entry : Page)
  | setList (entry : Page)
  | countUp
  -- `dequeue_fifo`
  | readLast
  | testRet (ret : Option Page)
  | popLast (ret : Page)
  | testLast (ret : Page)
  | clearLastNext (ret : Page)
  | clearFirst (ret : Page)
  | clearNext (ret : Page)
  | clearPrev (ret : Page)
  | clearList (ret : Page)
  | assertCount (ret : Page)
  | countDown (ret : Page)
  /-- the unlock, and the value that is returned -/
  | done (r : Option Page)
deriving DecidableEq, Repr

variable {Page Q : Type}

/-- The pages that the next statement dereferences. -/
def FifoPc.touched (l : Q) (h : Heap Page Q) : FifoPc Page → List Page
  | .assertEntry p | .setNext p | .setList p => [p]
  | .assertFirst _ | .setFirstPrev _ => (h.queue l).first.toList
  | .popLast ret | .clearNext ret | .clearPrev ret | .clearList ret => [ret]
  | .clearLastNext _ => (h.queue l).last.toList
  | _ => []

/-- The statements that are left before the unlock. -/
def FifoPc.left : FifoPc Page → Nat
  | .assertEntry _ => 9
  | .setNext _ => 8
  | .testFirst _ => 7
  | .assertLast _ => 6
  | .assertFirst _ | .assertEmpty _ => 5
  | .setFirstPrev _ | .setLast _ => 4
  | .setFirst _ => 3
  | .setList _ => 2
  | .countUp => 1
  | .readLast => 10
  | .testRet _ => 9
  | .popLast _ => 8
  | .testLast _ => 7
  | .clearLastNext _ | .clearFirst _ => 6
  | .clearNext _ => 5
  | .clearPrev _ => 4
  | .clearList _ => 3
  | .assertCount _ => 2
  | .countDown _ => 1
  | .done _ => 0

/-- The list whose lock a call takes, and the first statement behind the lock. No thread calls
`page_list_remove_page`. -/
def FifoCall.start : FifoCall Page Q → Option (Q × FifoPc Page)
  | .enqueue l p => some (l, .assertEntry p)
  | .dequeue l => some (l, .readLast)
  | .remove _ _ => none

/-- `assert(c)`. -/
def assertThat (c : Prop) [Decidable c] (f : ListFault) : Except StatementFault Unit :=
  if c then .ok () else .error (.assertion f)

@[simp] theorem assertThat_eq_ok {c : Prop} [Decidable c] {f : ListFault} {u : Unit} :
    assertThat c f = .ok u ↔ c := by
  by_cases hc : c <;> simp [assertThat, hc]

/-- `*o`. -/
def derefPage : Option Page → Except StatementFault Page
  | some p => .ok p
  | none => .error .nullDeref

@[simp] theorem derefPage_eq_ok {o : Option Page} {p : Page} :
    derefPage o = .ok p ↔ o = some p := by
  cases o <;> simp [derefPage]

theorem require_eq_ok {c : Prop} [Decidable c] {f : ListFault} {u : Unit} :
    require c f = .ok u ↔ c := by
  by_cases hc : c <;> simp [require, hc]

theorem assertThat_of {c : Prop} [Decidable c] {f : ListFault} (hc : c) :
    assertThat c f = .ok () := if_pos hc

/-- Two assignments to the fields of a page. -/
theorem modPage_modPage [DecidableEq Page] (p : Page) (f f' : Node Page Q → Node Page Q)
    (g : Heap Page Q) : (g.modPage p f).modPage p f' = g.modPage p fun x => f' (f x) := by
  simp [Heap.modPage]

/-! ## Two heaps that agree on a list and its pages -/

/-- `h` is `g` as far as the list `l` and the pages `F` go. -/
structure Agree (l : Q) (F : List Page) (g h : Heap Page Q) : Prop where
  queue : h.queue l = g.queue l
  page : ∀ p ∈ F, h.page p = g.page p

/-- What a statement leaves alone. -/
structure Outside (l : Q) (F : List Page) (h h' : Heap Page Q) : Prop where
  queue : ∀ l', l' ≠ l → h'.queue l' = h.queue l'
  page : ∀ p, p ∉ F → h'.page p = h.page p

variable {l : Q} {F : List Page} {g g' gf h h' : Heap Page Q} {pc pc' : FifoPc Page} {p : Page}
  {r : Option Page}

/-- Nothing has changed. -/
theorem Outside.refl (l : Q) (F : List Page) (h : Heap Page Q) : Outside l F h h :=
  ⟨fun _ _ => rfl, fun _ _ => rfl⟩

/-- An assignment to a page that may be touched changes nothing else. -/
theorem Outside.modPage [DecidableEq Page] (hp : p ∈ F) (f : Node Page Q → Node Page Q)
    (h : Heap Page Q) : Outside l F h (h.modPage p f) :=
  ⟨fun _ _ => rfl, fun q hq => Function.update_of_ne (fun he : q = p => hq (he ▸ hp)) ..⟩

/-- Nor does one to the header of the list. -/
theorem Outside.modQueue [DecidableEq Q] (f : FifoList Page → FifoList Page) (h : Heap Page Q) :
    Outside l F h (h.modQueue l f) :=
  ⟨fun _ hl => Function.update_of_ne hl .., fun _ _ => rfl⟩

/-- The same assignment on both heaps keeps them in agreement. -/
theorem Agree.modPage [DecidableEq Page] (ha : Agree l F g h) (hp : p ∈ F)
    {f f' : Node Page Q → Node Page Q} (hf : f' (g.page p) = f (g.page p)) :
    Agree l F (g.modPage p f) (h.modPage p f') := by
  refine ⟨ha.queue, fun q hq => ?_⟩
  by_cases he : q = p
  · subst he
    simp only [Heap.modPage, Function.update_self, ha.page q hq, hf]
  · simp only [Heap.modPage, Function.update_of_ne he, ha.page q hq]

/-- So does one to the header. -/
theorem Agree.modQueue [DecidableEq Q] (ha : Agree l F g h) {f f' : FifoList Page → FifoList Page}
    (hf : f' (g.queue l) = f (g.queue l)) : Agree l F (g.modQueue l f) (h.modQueue l f') :=
  ⟨by simp only [Heap.modQueue, Function.update_self, ha.queue, hf], ha.page⟩

/-! ## One list by itself -/

/-- The list `l` has the pages `s`, and no other list has any. -/
def only [DecidableEq Q] (l : Q) (s : List Page) : Q → List Page :=
  Function.update (fun _ => []) l s

/-- The links of a page on no list. -/
def Node.unlinked : Node Page Q := ⟨none, none, none⟩

/-- The list `l` is linked as `s`, whatever the other lists are. -/
def LinkedAs [DecidableEq Q] (l : Q) (s : List Page) (h : Heap Page Q) : Prop :=
  ∃ g, Refines g (only l s) ∧ Agree l s g h

variable {seq : Q → List Page} {s : List Page}

/-- The pages of the one list that is looked at. -/
theorem held_only [DecidableEq Q] : Held (only l s) p ↔ p ∈ s := by
  constructor
  · rintro ⟨k, hk⟩
    by_cases he : k = l
    · simpa [only, he] using hk
    · simp [only, he] at hk
  · intro hp
    exact ⟨l, by simpa [only] using hp⟩

/-- A page that is on no list has no links. -/
theorem Refines.page_off (hr : Refines h seq) (hp : ¬ Held seq p) : h.page p = .unlinked := by
  have hlinks := hr.off p hp
  have hlist : (h.page p).list = none := by
    rw [Option.eq_none_iff_forall_ne_some]
    intro k hk
    exact hp ⟨k, (hr.list p k).mp hk⟩
  calc h.page p = ⟨(h.page p).next, (h.page p).prev, (h.page p).list⟩ := rfl
    _ = .unlinked := by
      rw [hlist, show (h.page p).next = none from hlinks.1,
        show (h.page p).prev = none from hlinks.2]
      rfl

/-- Every list of the heap by itself. -/
theorem Refines.linkedAs [DecidableEq Page] [DecidableEq Q] (hr : Refines h seq) (l : Q) :
    LinkedAs l (seq l) h := by
  -- the heap that has this one list and nothing else
  let g : Heap Page Q :=
    ⟨fun p => if p ∈ seq l then h.page p else .unlinked,
      fun k => if k = l then h.queue l else ⟨none, none, 0⟩⟩
  have hpage : ∀ p ∈ seq l, g.page p = h.page p := fun p hp => if_pos hp
  have hoff : ∀ p, p ∉ seq l → g.page p = .unlinked := fun p hp => if_neg hp
  have hself : g.queue l = h.queue l := if_pos rfl
  have hother : ∀ k, k ≠ l → g.queue k = ⟨none, none, 0⟩ := fun k hk => if_neg hk
  refine ⟨g, ⟨⟨fun k => ?_, fun {i j x} hi hj => ?_⟩, fun k => ?_, fun k => ?_, fun k => ?_,
    fun k => ?_, fun p k => ?_, fun p hp => ?_⟩, hself.symm, fun p hp => (hpage p hp).symm⟩
  case refine_1 =>
    by_cases hk : k = l
    · simpa [only, hk] using hr.excl.nodup l
    · simp [only, hk]
  case refine_2 =>
    have hmem : ∀ {k}, x ∈ only l (seq l) k → k = l := by
      intro k hk
      by_contra hne
      simp [only, hne] at hk
    rw [hmem hi, hmem hj]
  case refine_7 =>
    by_cases hp : p ∈ seq l
    · rw [hpage p hp, hr.list]
      by_cases hk : k = l
      · simp [only, hk]
      · have hne : p ∉ seq k := fun hpk => hk (hr.excl.unique hpk hp)
        simp [only, hk, hne]
    · rw [hoff p hp]
      by_cases hk : k = l <;> simp [only, hk, hp, Node.unlinked]
  case refine_8 =>
    rw [held_only] at hp
    simp [Heap.next, Heap.prev, hoff p hp, Node.unlinked]
  -- the header and the links of the list are those of the heap, all others are empty
  all_goals
    by_cases hk : k = l
    · subst hk
      simp only [hself, only, Function.update_self]
      first
        | exact hr.first k
        | exact hr.last k
        | exact hr.numentries k
        | exact (hr.links k).congr fun x hx => by simp [Heap.next, Heap.prev, hpage x hx]
    · simp [hother k hk, only, hk, Segment]

/-- The lists one by one make the heap. -/
theorem refines_of_linkedAs [DecidableEq Q] (hexcl : Exclusive seq)
    (hl : ∀ l, LinkedAs l (seq l) h) (hoff : ∀ p, ¬ Held seq p → h.page p = .unlinked) :
    Refines h seq := by
  refine ⟨hexcl, fun l => ?_, fun l => ?_, fun l => ?_, fun l => ?_, fun p l => ?_, fun p hp => ?_⟩
  -- a page in a list has its list written, any other has its links clear
  case refine_5 =>
    by_cases hp : Held seq p
    · rcases hp with ⟨k, hk⟩
      rcases hl k with ⟨g, hr, ha⟩
      have hat : ∀ l', (g.page p).list = some l' ↔ p ∈ only k (seq k) l' := hr.list p
      rw [ha.page p hk, hat]
      by_cases hlk : l = k
      · simp [only, hlk]
      · have hne : p ∉ seq l := fun hpl => hlk (hexcl.unique hpl hk)
        simp [only, hlk, hne]
    · rw [hoff p hp]
      have hne : p ∉ seq l := fun hpl => hp ⟨l, hpl⟩
      simp [Node.unlinked, hne]
  case refine_6 => simp [Heap.next, Heap.prev, hoff p hp, Node.unlinked]
  -- the rest is about one list at a time
  all_goals rcases hl l with ⟨g, hr, ha⟩
  case refine_1 => simpa [ha.queue, only] using hr.first l
  case refine_2 => simpa [ha.queue, only] using hr.last l
  case refine_3 =>
    have hlinks := hr.links l
    rw [only, Function.update_self] at hlinks
    exact hlinks.congr fun x hx => by simp [Heap.next, Heap.prev, ha.page x hx]
  case refine_4 => simpa [ha.queue, only] using hr.numentries l

/-! ## The statements -/

variable [DecidableEq Page] [DecidableEq Q] {c : FifoCall Page Q}

/-- One statement on the list `l`. -/
def fifoStep (l : Q) :
    FifoPc Page → Heap Page Q → Except StatementFault (FifoPc Page × Heap Page Q)
  | .assertEntry p, h => do
    assertThat ((h.page p).prev = none) .entryAssert
    .ok (.setNext p, h)
  | .setNext p, h => .ok (.testFirst p, h.modPage p fun g => { g with next := (h.queue l).first })
  | .testFirst p, h =>
    .ok (if (h.queue l).first = none then .assertLast p else .assertFirst p, h)
  | .assertFirst p, h => do
    let first ← derefPage (h.queue l).first
    assertThat ((h.page first).prev = none) .firstAssert
    .ok (.setFirstPrev p, h)
  | .setFirstPrev p, h => do
    let first ← derefPage (h.queue l).first
    .ok (.setFirst p, h.modPage first fun g => { g with prev := some p })
  | .assertLast p, h => do
    assertThat ((h.queue l).last = none) .lastAssert
    .ok (.assertEmpty p, h)
  | .assertEmpty p, h => do
    assertThat ((h.queue l).numentries = 0) .numentriesAssert
    .ok (.setLast p, h)
  | .setLast p, h => .ok (.setFirst p, h.modQueue l fun q => { q with last := some p })
  | .setFirst p, h => .ok (.setList p, h.modQueue l fun q => { q with first := some p })
  | .setList p, h => .ok (.countUp, h.modPage p fun g => { g with list := some l })
  | .countUp, h =>
    .ok (.done none, h.modQueue l fun q => { q with numentries := q.numentries + 1 })
  | .readLast, h => .ok (.testRet (h.queue l).last, h)
  | .testRet none, h => .ok (.done none, h)
  | .testRet (some ret), h => .ok (.popLast ret, h)
  | .popLast ret, h =>
    .ok (.testLast ret, h.modQueue l fun q => { q with last := (h.page ret).prev })
  | .testLast ret, h =>
    .ok (if (h.queue l).last = none then .clearFirst ret else .clearLastNext ret, h)
  | .clearLastNext ret, h => do
    let last ← derefPage (h.queue l).last
    .ok (.clearNext ret, h.modPage last fun g => { g with next := none })
  | .clearFirst ret, h => .ok (.clearNext ret, h.modQueue l fun q => { q with first := none })
  | .clearNext ret, h => .ok (.clearPrev ret, h.modPage ret fun g => { g with next := none })
  | .clearPrev ret, h => .ok (.clearList ret, h.modPage ret fun g => { g with prev := none })
  | .clearList ret, h => .ok (.assertCount ret, h.modPage ret fun g => { g with list := none })
  | .assertCount ret, h => do
    assertThat ((h.queue l).numentries > 0) .numentriesAssert
    .ok (.countDown ret, h)
  | .countDown ret, h =>
    .ok (.done (some ret), h.modQueue l fun q => { q with numentries := q.numentries - 1 })
  | .done r, h => .ok (.done r, h)

/-- Every statement brings the unlock nearer. -/
theorem fifoStep_left (hpc : ∀ r, pc ≠ .done r) (hs : fifoStep l pc h = .ok (pc', h')) :
    pc'.left < pc.left := by
  cases pc with
  | done r => exact absurd rfl (hpc r)
  | assertEntry p | assertLast p | assertEmpty p | assertCount p =>
    simp only [fifoStep, bind_eq_ok, assertThat_eq_ok, exists_const, Except.ok.injEq,
      Prod.mk.injEq] at hs
    rcases hs with ⟨-, rfl, -⟩
    simp [FifoPc.left]
  | assertFirst p =>
    simp only [fifoStep, bind_eq_ok, assertThat_eq_ok, exists_const, Except.ok.injEq,
      Prod.mk.injEq] at hs
    rcases hs with ⟨_, -, -, rfl, -⟩
    simp [FifoPc.left]
  | setFirstPrev p | clearLastNext p =>
    simp only [fifoStep, bind_eq_ok, Except.ok.injEq, Prod.mk.injEq] at hs
    rcases hs with ⟨_, -, rfl, -⟩
    simp [FifoPc.left]
  | testFirst p | testLast p =>
    obtain ⟨rfl, -⟩ := Prod.mk.inj (Except.ok.inj hs)
    split <;> simp [FifoPc.left]
  | testRet ret =>
    cases ret <;> obtain ⟨rfl, -⟩ := Prod.mk.inj (Except.ok.inj hs) <;> simp [FifoPc.left]
  | _ =>
    obtain ⟨rfl, -⟩ := Prod.mk.inj (Except.ok.inj hs)
    simp [FifoPc.left]

/-- The thread comes to the unlock with the value `r` and leaves the heap `gf`; it touches the
pages `F` only. -/
inductive Ends (l : Q) (F : List Page) :
    FifoPc Page → Heap Page Q → Option Page → Heap Page Q → Prop where
  | done {r : Option Page} {g : Heap Page Q} : Ends l F (.done r) g r g
  | next {pc pc' : FifoPc Page} {g g' gf : Heap Page Q} {r : Option Page}
    (hpc : ∀ r, pc ≠ .done r) (ht : pc.touched l g ⊆ F)
    (hs : fifoStep l pc g = .ok (pc', g')) (hrest : Ends l F pc' g' r gf) : Ends l F pc g r gf

/-- A call that has returned has returned what it returns at once. -/
theorem Ends.done_eq {r' : Option Page} (h : Ends l F (.done r) g r' gf) : r' = r ∧ gf = g := by
  cases h with
  | done => exact ⟨rfl, rfl⟩
  | next hpc => exact absurd rfl (hpc r)

/-- A statement touches only what it may, does not fail, and leads to the same end. -/
theorem Ends.step (h : Ends l F pc g r gf) (hpc : ∀ r, pc ≠ .done r) :
    ∃ pc' g', pc.touched l g ⊆ F ∧ fifoStep l pc g = .ok (pc', g') ∧ Ends l F pc' g' r gf := by
  cases h with
  | done => exact absurd rfl (hpc _)
  | next _ ht hs hrest => exact ⟨_, _, ht, hs, hrest⟩

/-! ## A statement is local -/

/-- A statement does the same on two heaps that agree, and changes nothing else. -/
theorem fifoStep_local (ht : pc.touched l g ⊆ F) (ha : Agree l F g h)
    (hs : fifoStep l pc g = .ok (pc', g')) :
    ∃ h', fifoStep l pc h = .ok (pc', h') ∧ Agree l F g' h' ∧ Outside l F h h' := by
  have hq := ha.queue
  -- the statements that change nothing, one page, or the list
  have hsame : fifoStep l pc h = .ok (pc', h) → g' = g →
      ∃ h', fifoStep l pc h = .ok (pc', h') ∧ Agree l F g' h' ∧ Outside l F h h' := by
    rintro hs' rfl
    exact ⟨h, hs', ha, .refl l F h⟩
  have hpage : ∀ q f f', fifoStep l pc h = .ok (pc', h.modPage q f') → g' = g.modPage q f →
      q ∈ F → f' (g.page q) = f (g.page q) →
      ∃ h', fifoStep l pc h = .ok (pc', h') ∧ Agree l F g' h' ∧ Outside l F h h' := by
    rintro q f f' hs' rfl hF hf
    exact ⟨_, hs', ha.modPage hF hf, .modPage hF f' h⟩
  have hqueue : ∀ f f', fifoStep l pc h = .ok (pc', h.modQueue l f') → g' = g.modQueue l f →
      f' (g.queue l) = f (g.queue l) →
      ∃ h', fifoStep l pc h = .ok (pc', h') ∧ Agree l F g' h' ∧ Outside l F h h' := by
    rintro f f' hs' rfl hf
    exact ⟨_, hs', ha.modQueue hf, .modQueue f' h⟩
  cases pc with
  | assertEntry p =>
    have hp := ha.page p (ht List.mem_cons_self)
    simp only [fifoStep, bind_eq_ok, assertThat_eq_ok, exists_const, Except.ok.injEq,
      Prod.mk.injEq] at hs
    rcases hs with ⟨hc, rfl, rfl⟩
    refine hsame ?_ rfl
    simp only [fifoStep, hp, assertThat_of hc, bind, Except.bind]
  | setNext p =>
    obtain ⟨rfl, rfl⟩ := Prod.mk.inj (Except.ok.inj hs)
    exact hpage p _ _ rfl rfl (ht List.mem_cons_self) (by rw [hq])
  | testFirst p =>
    obtain ⟨rfl, rfl⟩ := Prod.mk.inj (Except.ok.inj hs)
    exact hsame (by simp only [fifoStep, hq]) rfl
  | assertFirst p =>
    simp only [fifoStep, bind_eq_ok, assertThat_eq_ok, derefPage_eq_ok, exists_const,
      Except.ok.injEq, Prod.mk.injEq] at hs
    rcases hs with ⟨first, hfirst, hc, rfl, rfl⟩
    have hp := ha.page first (ht (by simp [FifoPc.touched, hfirst]))
    refine hsame ?_ rfl
    simp only [fifoStep, hq, hfirst, derefPage, hp, assertThat_of hc, bind, Except.bind]
  | setFirstPrev p =>
    simp only [fifoStep, bind_eq_ok, derefPage_eq_ok, Except.ok.injEq, Prod.mk.injEq] at hs
    rcases hs with ⟨first, hfirst, rfl, rfl⟩
    refine hpage first _ (fun x => { x with prev := some p }) ?_ rfl
      (ht (by simp [FifoPc.touched, hfirst])) rfl
    simp only [fifoStep, hq, hfirst, derefPage, bind, Except.bind]
  | assertLast p =>
    simp only [fifoStep, bind_eq_ok, assertThat_eq_ok, exists_const, Except.ok.injEq,
      Prod.mk.injEq] at hs
    rcases hs with ⟨hc, rfl, rfl⟩
    refine hsame ?_ rfl
    simp only [fifoStep, hq, assertThat_of hc, bind, Except.bind]
  | assertEmpty p =>
    simp only [fifoStep, bind_eq_ok, assertThat_eq_ok, exists_const, Except.ok.injEq,
      Prod.mk.injEq] at hs
    rcases hs with ⟨hc, rfl, rfl⟩
    refine hsame ?_ rfl
    simp only [fifoStep, hq, assertThat_of hc, bind, Except.bind]
  | setLast p | setFirst p | countUp | clearFirst ret | countDown ret =>
    obtain ⟨rfl, rfl⟩ := Prod.mk.inj (Except.ok.inj hs)
    exact hqueue _ _ rfl rfl rfl
  | setList p | clearNext p | clearPrev p | clearList p =>
    obtain ⟨rfl, rfl⟩ := Prod.mk.inj (Except.ok.inj hs)
    exact hpage p _ _ rfl rfl (ht List.mem_cons_self) rfl
  | readLast =>
    obtain ⟨rfl, rfl⟩ := Prod.mk.inj (Except.ok.inj hs)
    exact hsame (by simp only [fifoStep, hq]) rfl
  | testRet ret =>
    cases ret with
    | none | some ret =>
      obtain ⟨rfl, rfl⟩ := Prod.mk.inj (Except.ok.inj hs)
      exact hsame rfl rfl
  | popLast ret =>
    have hp := ha.page ret (ht List.mem_cons_self)
    obtain ⟨rfl, rfl⟩ := Prod.mk.inj (Except.ok.inj hs)
    exact hqueue _ _ rfl rfl (by rw [hp])
  | testLast ret =>
    obtain ⟨rfl, rfl⟩ := Prod.mk.inj (Except.ok.inj hs)
    exact hsame (by simp only [fifoStep, hq]) rfl
  | clearLastNext ret =>
    simp only [fifoStep, bind_eq_ok, derefPage_eq_ok, Except.ok.injEq, Prod.mk.injEq] at hs
    rcases hs with ⟨last, hlast, rfl, rfl⟩
    refine hpage last _ (fun x => { x with next := none }) ?_ rfl
      (ht (by simp [FifoPc.touched, hlast])) rfl
    simp only [fifoStep, hq, hlast, derefPage, bind, Except.bind]
  | assertCount ret =>
    simp only [fifoStep, bind_eq_ok, assertThat_eq_ok, exists_const, Except.ok.injEq,
      Prod.mk.injEq] at hs
    rcases hs with ⟨hc, rfl, rfl⟩
    refine hsame ?_ rfl
    simp only [fifoStep, hq, assertThat_of hc, bind, Except.bind]
  | done r =>
    obtain ⟨rfl, rfl⟩ := Prod.mk.inj (Except.ok.inj hs)
    exact hsame rfl rfl

/-! ## The functions of `Hemem.Fifo` -/

/-- What the last statements of `enqueue_fifo` do. -/
theorem ends_setFirst (hp : p ∈ F) (g : Heap Page Q) :
    Ends l F (.setFirst p) g none
      (((g.modQueue l fun q => { q with first := some p }).modPage p fun g =>
        { g with list := some l }).modQueue l fun q => { q with numentries := q.numentries + 1 }) :=
  have hF : [p] ⊆ F := List.cons_subset.mpr ⟨hp, List.nil_subset F⟩
  .next (by simp) (List.nil_subset F) rfl (.next (by simp) hF rfl
    (.next (by simp) (List.nil_subset F) rfl .done))

/-- The statements of `enqueue_fifo` do what the function does at once. -/
theorem enqueueFifo_ends (hrun : g.enqueueFifo l p = .ok gf) (hp : p ∈ F)
    (hF : (g.queue l).first.toList ⊆ F) : Ends l F (.assertEntry p) g none gf := by
  have hnil := List.nil_subset F
  have hsingle : [p] ⊆ F := List.cons_subset.mpr ⟨hp, List.nil_subset F⟩
  let g₀ := g.modPage p fun x => { x with next := (g.queue l).first }
  simp only [Heap.enqueueFifo, bind_eq_ok, require_eq_ok, exists_const] at hrun
  rcases hrun with ⟨hentry, hrun⟩
  have hassert : fifoStep l (.assertEntry p) g = .ok (.setNext p, g) := by
    simp only [fifoStep, assertThat_of hentry, bind, Except.bind]
  have hnext : fifoStep l (.setNext p) g = .ok (.testFirst p, g₀) := rfl
  refine .next (by simp) hsingle hassert (.next (by simp) hsingle hnext ?_)
  -- the page is linked before the first one, or it is the only one
  cases hfirst : (g₀.queue l).first with
  | some first =>
    rw [show (Heap.modPage p (fun x => { x with next := (g.queue l).first }) g) = g₀ from rfl,
      hfirst] at hrun
    simp only [bind_eq_ok, require_eq_ok, exists_const, Except.ok.injEq, exists_eq_left'] at hrun
    rcases hrun with ⟨hprev, rfl⟩
    have htest : fifoStep l (.testFirst p) g₀ = .ok (.assertFirst p, g₀) := by
      simp only [fifoStep, hfirst, reduceCtorEq, if_false]
    have hfst : fifoStep l (.assertFirst p) g₀ = .ok (.setFirstPrev p, g₀) := by
      simp only [fifoStep, hfirst, derefPage, assertThat_of hprev, bind, Except.bind]
    have hset : fifoStep l (.setFirstPrev p) g₀ =
        .ok (.setFirst p, g₀.modPage first fun x => { x with prev := some p }) := by
      simp only [fifoStep, hfirst, derefPage, bind, Except.bind]
    exact .next (by simp) hnil htest (.next (by simp) hF hfst (.next (by simp) hF hset
      (ends_setFirst hp _)))
  | none =>
    rw [show (Heap.modPage p (fun x => { x with next := (g.queue l).first }) g) = g₀ from rfl,
      hfirst] at hrun
    simp only [bind_eq_ok, require_eq_ok, exists_const, Except.ok.injEq, exists_eq_left'] at hrun
    rcases hrun with ⟨hlast, hempty, rfl⟩
    have htest : fifoStep l (.testFirst p) g₀ = .ok (.assertLast p, g₀) := by
      simp only [fifoStep, hfirst, if_true]
    have hfst : fifoStep l (.assertLast p) g₀ = .ok (.assertEmpty p, g₀) := by
      simp only [fifoStep, assertThat_of hlast, bind, Except.bind]
    have hnum : fifoStep l (.assertEmpty p) g₀ = .ok (.setLast p, g₀) := by
      simp only [fifoStep, assertThat_of hempty, bind, Except.bind]
    have hset : fifoStep l (.setLast p) g₀ =
        .ok (.setFirst p, g₀.modQueue l fun q => { q with last := some p }) := rfl
    exact .next (by simp) hnil htest (.next (by simp) hnil hfst (.next (by simp) hnil hnum
      (.next (by simp) hnil hset (ends_setFirst hp _))))

/-- What the last statements of `dequeue_fifo` do. -/
theorem ends_clearNext {ret : Page} (hret : ret ∈ F) (hrun : (do
      require ((((g.modPage ret fun x => { x with prev := none, next := none }).modPage ret
        fun x => { x with list := none }).queue l).numentries > 0) .numentriesAssert
      .ok (some ret, ((g.modPage ret fun x => { x with prev := none, next := none }).modPage ret
        fun x => { x with list := none }).modQueue l
          fun q => { q with numentries := q.numentries - 1 })) = .ok (r, gf)) :
    Ends l F (.clearNext ret) g r gf := by
  simp only [bind_eq_ok, require_eq_ok, exists_const, Except.ok.injEq, Prod.mk.injEq] at hrun
  rcases hrun with ⟨hcount, rfl, rfl⟩
  have hsingle : [ret] ⊆ F := List.cons_subset.mpr ⟨hret, List.nil_subset F⟩
  have hnil := List.nil_subset F
  let g₁ := g.modPage ret fun x => { x with next := none }
  let g₂ := g₁.modPage ret fun x => { x with prev := none }
  let g₃ := g₂.modPage ret fun x => { x with list := none }
  have hassert : fifoStep l (.assertCount ret) g₃ = .ok (.countDown ret, g₃) := by
    have hpos : (g₃.queue l).numentries > 0 := hcount
    simp only [fifoStep, assertThat_of hpos, bind, Except.bind]
  have hlast : Ends l F (.assertCount ret) g₃ (some ret)
      (g₃.modQueue l fun q => { q with numentries := q.numentries - 1 }) :=
    .next (by simp) hnil hassert (.next (by simp) hnil rfl .done)
  have hboth : (g.modPage ret fun x => { x with prev := none, next := none }) = g₂ := by
    simp only [g₁, g₂, modPage_modPage]
  rw [hboth]
  exact .next (by simp) hsingle rfl (.next (by simp) hsingle rfl
    (.next (by simp) hsingle rfl hlast))

/-- So do those of `dequeue_fifo`. -/
theorem dequeueFifo_ends (hrun : g.dequeueFifo l = .ok (r, gf)) (hF : (g.queue l).last.toList ⊆ F)
    (hprev : ∀ ret, (g.queue l).last = some ret → (g.page ret).prev.toList ⊆ F) :
    Ends l F .readLast g r gf := by
  have hnil := List.nil_subset F
  have hread : fifoStep l .readLast g = .ok (.testRet (g.queue l).last, g) := rfl
  refine .next (by simp) hnil hread ?_
  -- an empty list gives `NULL` at once
  cases hlast : (g.queue l).last with
  | none =>
    simp only [Heap.dequeueFifo, hlast, Except.ok.injEq, Prod.mk.injEq] at hrun
    rcases hrun with ⟨rfl, rfl⟩
    exact .next (by simp) hnil rfl .done
  | some ret =>
    have hret : ret ∈ F := hF (by simp [hlast])
    have hsingle : [ret] ⊆ F := List.cons_subset.mpr ⟨hret, hnil⟩
    have htest : fifoStep l (.testRet (some ret)) g = .ok (.popLast ret, g) := rfl
    let g₀ := g.modQueue l fun q => { q with last := (g.page ret).prev }
    have hpop : fifoStep l (.popLast ret) g = .ok (.testLast ret, g₀) := rfl
    refine .next (by simp) hnil htest (.next (by simp) hsingle hpop ?_)
    simp only [Heap.dequeueFifo, hlast] at hrun
    rw [show (g.modQueue l fun q => { q with last := (g.page ret).prev }) = g₀ from rfl] at hrun
    have hnew' : (g₀.queue l).last = (g.page ret).prev := by
      simp only [g₀, Heap.modQueue, Function.update_self]
    -- the page was the only one, or its predecessor becomes the last
    cases hnew : (g₀.queue l).last with
    | none =>
      rw [hnew] at hrun
      have hfst : fifoStep l (.testLast ret) g₀ = .ok (.clearFirst ret, g₀) := by
        simp only [fifoStep, hnew, if_true]
      have hclear : fifoStep l (.clearFirst ret) g₀ =
          .ok (.clearNext ret, g₀.modQueue l fun q => { q with first := none }) := rfl
      exact .next (by simp) hnil hfst (.next (by simp) hnil hclear (ends_clearNext hret hrun))
    | some last =>
      rw [hnew] at hrun
      have hfst : fifoStep l (.testLast ret) g₀ = .ok (.clearLastNext ret, g₀) := by
        simp only [fifoStep, hnew, reduceCtorEq, if_false]
      have hclear : fifoStep l (.clearLastNext ret) g₀ =
          .ok (.clearNext ret, g₀.modPage last fun x => { x with next := none }) := by
        simp only [fifoStep, hnew, derefPage, bind, Except.bind]
      have ht : (FifoPc.clearLastNext ret).touched l g₀ ⊆ F := by
        simp only [FifoPc.touched, hnew']
        exact hprev ret hlast
      exact .next (by simp) hnil hfst (.next (by simp) ht hclear (ends_clearNext hret hrun))


/-! ## Calls -/

/-- The page that a call has as an argument. -/
def FifoCall.pages : FifoCall Page Q → List Page
  | .enqueue _ p | .remove _ p => [p]
  | .dequeue _ => []

/-- A call looks at its own list only. -/
theorem FifoCall.seqRun_only (seq : Q → List Page) {pc : FifoPc Page}
    (hc : c.start = some (l, pc)) :
    (c.seqRun (only l (seq l))).1 = (c.seqRun seq).1 ∧
      (c.seqRun (only l (seq l))).2 = only l ((c.seqRun seq).2 l) := by
  cases c <;> simp only [FifoCall.start, Option.some.injEq, Prod.mk.injEq, reduceCtorEq] at hc <;>
    obtain ⟨rfl, -⟩ := hc <;> simp [FifoCall.seqRun, only]

/-- Frame: the other lists. -/
theorem FifoCall.seqRun_other {pc : FifoPc Page} (hc : c.start = some (l, pc)) {k : Q}
    (hk : k ≠ l) : (c.seqRun seq).2 k = seq k := by
  cases c <;> simp only [FifoCall.start, Option.some.injEq, Prod.mk.injEq, reduceCtorEq] at hc <;>
    obtain ⟨rfl, -⟩ := hc <;> simp [FifoCall.seqRun, hk]

/-- The statements of a call on a heap that has its list only. -/
theorem FifoCall.ends {pc : FifoPc Page} (hc : c.start = some (l, pc)) (hr : Refines g (only l s))
    (hok : c.Ok (only l s)) (hlen : s.length + 1 < 2 ^ 64) :
    ∃ gf, Ends l (c.pages ++ s) pc g (c.seqRun (only l s)).1 gf ∧
      Refines gf (c.seqRun (only l s)).2 := by
  have hshort : ∀ k p, c = .enqueue k p → (only l s k).length + 1 < 2 ^ 64 := by
    intro k p _
    by_cases hk : k = l
    · simpa [only, hk] using hlen
    · simp [only, hk]
  have hself : only l s l = s := by simp [only]
  rcases hr.run hok hshort with ⟨gf, hrun, hr'⟩
  refine ⟨gf, ?_, hr'⟩
  -- `page_list_remove_page` has no statements here
  cases c with
  | remove k p => cases hc
  | enqueue k p =>
    obtain ⟨rfl, rfl⟩ := Prod.mk.inj (Option.some.inj hc)
    simp only [FifoCall.run, bind_eq_ok, Except.ok.injEq, Prod.mk.injEq] at hrun
    rcases hrun with ⟨h', hrun, hnone, rfl⟩
    rw [← hnone]
    refine enqueueFifo_ends hrun List.mem_cons_self fun x hx => ?_
    rw [Option.mem_toList, hr.first, hself] at hx
    exact List.mem_cons_of_mem p (List.mem_of_getLast? hx)
  | dequeue k =>
    obtain ⟨rfl, rfl⟩ := Prod.mk.inj (Option.some.inj hc)
    refine dequeueFifo_ends hrun (fun x hx => ?_) fun ret hret x hx => ?_
    · rw [Option.mem_toList, hr.last, hself] at hx
      exact List.mem_of_mem_head? hx
    · -- the page behind the oldest one
      rw [hr.last, hself] at hret
      obtain ⟨rest, rfl⟩ := List.head?_eq_some_iff.mp hret
      have hlinks : (g.page ret).next = ([] : List Page).getLast? ∧
          (g.page ret).prev = rest.head? := hr.links_at (by simpa using hself)
      rw [Option.mem_toList, show (g.page ret).prev = rest.head? from hlinks.2] at hx
      exact List.mem_cons_of_mem ret (List.mem_of_mem_head? hx)

end Hemem
