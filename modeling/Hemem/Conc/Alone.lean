import Hemem.Lib.BigStep
import Hemem.System
import Hemem.Table
import Hemem.Conc.Interleave

/-!
# Hemem.Conc.Alone — a thread that nobody interrupts

The functions of `Hemem.Pebs` and `Hemem.Mapping` do at once what the threads of
`Hemem.Conc.Thread` and `Hemem.Conc.Migrator` do step by step. Here the two are compared: a
call whose steps are not interleaved with those of others carries out the function, faults
included, whatever the rest of the system is in the middle of; so does an iteration of the
migration thread. The complete operations of `Hemem.System`, one after another, are therefore
among the interleavings.
-/

namespace Hemem

open Lib

variable {cfg : Config} {s s' : St}

/-! ## The machine of a thread -/

/-- A thread by itself. -/
def threadMachine (cfg : Config) (c : Pc × St) : Except Fault (Pc × St) :=
  (threadStep cfg c.1 c.2).map fun x => (x.1, x.2.1)

/-- A thread does what the computation does, unless that is still running when its step bound
is used up. -/
abbrev ThreadDoes {ρ : Type} (cfg : Config) (pc : Pc) (s : St) (m : Except Fault ρ)
    (Q : ρ → Pc × St → Prop) : Prop :=
  CarriesOut (threadMachine cfg) (· = .running) (pc, s) m Q

theorem map_bind_ok {ε α β δ : Type} (x : Except ε α) (f : α → β) (g : β → δ) :
    (x >>= fun a => (.ok (f a) : Except ε β)).map g = x.map (g ∘ f) := by
  cases x <;> rfl

/-- An assertion that a step makes. -/
theorem carriesOut_check {γ ρ : Type} {step : γ → Except Fault γ} {E : Fault → Prop} {c : γ}
    {b : Bool} {f : Fault} {m : Unit → Except Fault ρ} {Q : ρ → γ → Prop}
    (hno : b = false → step c = .error f) (hyes : b = true → CarriesOut step E c (m ()) Q) :
    CarriesOut step E c (check b f >>= m) Q := by
  cases b with
  | false => exact .stop (hno rfl)
  | true => exact hyes rfl

/-! ## Allocation -/

/-- `pebs_allocate_page` after the dequeue. -/
theorem takeFree_alone (k : Site) (va : Nat) (t : Tier) (p : PageId) (s : St) :
    ThreadDoes cfg (.assertTier k va t p) s (takeFree t p s)
      fun x c => c = (.place k x.1 ⟨va, 0, false, 0⟩ k.code, x.2) := by
  refine carriesOut_check (fun hno => ?_) fun hyes => .head (b := (.assertAbsent k va t p, s)) ?_ ?_
  · simp only [threadMachine, threadStep, hno, check]
    rfl
  · simp only [threadMachine, threadStep, hyes, check]
    rfl
  · refine carriesOut_check (fun hno => ?_) fun hyes => .head (b := (.setPresent k va t p, s)) ?_ ?_
    · simp only [threadMachine, threadStep, hno, check]
      rfl
    · simp only [threadMachine, threadStep, hyes, check]
      rfl
    · exact .head rfl (.head rfl (.ret rfl))

/-- The two dequeues, and what follows them. -/
theorem pebsPagefault_alone (k : Site) (va : Nat) (s : St) :
    ThreadDoes cfg (.takeDram k va) s (pebsPagefault s)
      fun x c => c = (.place k x.1 ⟨va, 0, false, 0⟩ k.code, x.2) := by
  -- DRAM first, and NVM when DRAM has none free
  cases hd : s.list dramFreeList with
  | cons p rest =>
    simp only [pebsPagefault, pebsAllocatePage, dequeueFifo_cons hd]
    refine .head (b := (.assertTier k va .dram p, s.setList dramFreeList rest)) ?_
      (takeFree_alone ..)
    simp only [threadMachine, threadStep, dequeueFifo_cons hd]
    rfl
  | nil =>
    simp only [pebsPagefault, pebsAllocatePage, dequeueFifo_nil hd]
    refine .head (b := (.takeNvm k va, s)) ?_ ?_
    · simp only [threadMachine, threadStep, dequeueFifo_nil hd]
      rfl
    · cases hn : s.list nvmFreeList with
      | cons p rest =>
        simp only [dequeueFifo_cons hn]
        refine .head (b := (.assertTier k va .nvm p, s.setList nvmFreeList rest)) ?_
          (takeFree_alone ..)
        simp only [threadMachine, threadStep, dequeueFifo_cons hn]
        rfl
      | nil =>
        simp only [dequeueFifo_nil hn]
        refine .stop ?_
        simp only [threadMachine, threadStep, dequeueFifo_nil hn]
        rfl

/-- The statements after `pagefault()`, one after another. -/
def runAlloc (cfg : Config) (p : PageId) (code : List AllocInstr) (r : AllocRegs) (s : St) :
    Except Fault (AllocRegs × St) :=
  code.foldlM (fun x i => i.run cfg p x.1 x.2) (r, s)

/-- The statements after `pagefault()` are taken in order. -/
theorem runAlloc_alone (k : Site) (p : PageId) (code : List AllocInstr) (r : AllocRegs) (s : St) :
    ThreadDoes cfg (.place k p r code) s (runAlloc cfg p code r s)
      fun x c => c = (.place k p x.1 [], x.2) := by
  let Q : List AllocInstr → AllocRegs × St → Pc × St → Prop :=
    fun code x c => c = (.place k p x.1 code, x.2)
  refine CarriesOut.foldlM Q ?_ code rfl
  rintro i code ⟨r, s⟩ _ rfl
  refine .one (g := fun x => (.place k p x.1 code, x.2)) ?_ fun _ => rfl
  exact map_bind_ok ..

/-- Two assignments to the fields of a descriptor. -/
theorem modPage_then (s : St) (p : PageId) (f g : HememPage → HememPage) :
    (s.modPage p f).modPage p g = s.modPage p fun x => g (f x) := by
  simp [St.modPage]

theorem ok_bind {ε α β : Type} (a : α) (f : α → Except ε β) : ((.ok a : Except ε α) >>= f) = f a :=
  rfl

/-- An iteration of `hemem_mmap_populate` is the allocation and its statements. -/
theorem populatePage_eq_run (stop va : Nat) (s : St) :
    populatePage cfg va s = (do
      let x ← pebsPagefault s
      let y ← runAlloc cfg x.1 (Site.populate stop).code ⟨va, 0, false, 0⟩ x.2
      .ok (y.1.len, y.2)) := by
  unfold populatePage
  congr 1
  funext x
  simp only [runAlloc, Site.code, List.foldlM, AllocInstr.run, bind_assoc, ok_bind, pure_bind,
    modPage_then]

/-- So is `handle_missing_fault`, with its assertion in front. -/
theorem handleMissingFault_eq_run (va : Nat) (s : St) :
    handleMissingFault cfg va s = (do
      check (va != 0) .vaAssert
      let x ← pebsPagefault s
      let y ← runAlloc cfg x.1 Site.fault.code ⟨va, 0, false, 0⟩ x.2
      .ok y.2) := by
  unfold handleMissingFault
  congr 1
  funext
  congr 1
  funext x
  simp only [runAlloc, Site.code, List.foldlM, AllocInstr.run, bind_assoc, ok_bind, pure_bind,
    modPage_then, addPage]

/-- The page's address stays in its register. -/
theorem runAlloc_va {p : PageId} {code : List AllocInstr} {r r' : AllocRegs}
    (h : runAlloc cfg p code r s = .ok (r', s')) : r'.va = r.va := by
  induction code generalizing r s with
  | nil =>
    obtain ⟨rfl, rfl⟩ := Prod.mk.inj (Except.ok.inj h)
    rfl
  | cons i code ih =>
    rw [runAlloc, List.foldlM_cons, bind_eq_ok] at h
    rcases h with ⟨⟨r₁, s₁⟩, hi, hrest⟩
    rw [ih hrest]
    cases i <;>
      simp only [AllocInstr.run, bind_eq_ok, Except.ok.injEq, Prod.mk.injEq] at hi <;>
      grind

/-- An iteration ends at the test of the next one. -/
theorem populatePage_alone (stop va : Nat) (s : St) :
    ThreadDoes cfg (.takeDram (.populate stop) va) s (populatePage cfg va s)
      fun x c => c = (.populateTest ((va + x.1) % 2 ^ 64) stop, x.2) := by
  rw [populatePage_eq_run stop]
  refine (pebsPagefault_alone (.populate stop) va s).bind ?_
  rintro ⟨p, s₁⟩ _ - rfl
  refine (runAlloc_alone ..).bind ?_
  rintro ⟨r, s₂⟩ _ hr rfl
  refine .head (b := (.populateTest ((r.va + r.len) % 2 ^ 64) stop, s₂)) rfl (.ret ?_)
  rw [show r.va = va from runAlloc_va hr]

/-- The loop of `hemem_mmap_populate`, by induction on its bound. -/
theorem populateLoop_alone (fuel va stop : Nat) (s : St) :
    ThreadDoes cfg (.populateTest va stop) s (populateLoop cfg fuel va stop s)
      fun s' c => c = (.idle, s') := by
  induction fuel generalizing va s with
  | zero => exact .skip rfl
  | succ fuel ih =>
    unfold populateLoop
    split
    · rename_i hlt
      refine .head (b := (.takeDram (.populate stop) va, s)) ?_ ?_
      · simp only [threadMachine, threadStep, if_pos hlt]
        rfl
      · refine (populatePage_alone stop va s).bind ?_
        rintro ⟨n, s₁⟩ _ - rfl
        exact ih _ _
    · rename_i hlt
      refine .head (b := (.idle, s)) ?_ (.ret rfl)
      simp only [threadMachine, threadStep, if_neg hlt]
      rfl

/-- `hemem_mmap` after the reservation. -/
theorem registerAll_alone (p length : Nat) (populate : Bool) (s : St) :
    ThreadDoes cfg (.registerAll p length populate) s
      (do
        let s ← uffdioRegister p length s
        if populate then hememMmapPopulate cfg p length s else .ok s)
      fun s' c => c = (.idle, s') := by
  simp only [uffdioRegister, bind_assoc, ok_bind]
  refine carriesOut_check (fun hno => ?_) fun hvm => ?_
  · simp only [threadMachine, threadStep, uffdioRegister, hno, check]
    rfl
  · -- without `MAP_POPULATE` the call is over
    cases populate with
    | false =>
      refine .head (b := (.idle, registerRange p length s)) ?_ (.ret rfl)
      simp only [threadMachine, threadStep, uffdioRegister, hvm, check]
      rfl
    | true =>
      simp only [if_true, hememMmapPopulate]
      refine carriesOut_check (fun hno => ?_) fun hp =>
        carriesOut_check (fun hno => ?_) fun hlength => ?_
      · simp only [threadMachine, threadStep, uffdioRegister, hvm, hno, check]
        rfl
      · simp only [threadMachine, threadStep, uffdioRegister, hvm, hp, hno, check]
        rfl
      · refine .head (b := (.populateTest p ((p + length) % 2 ^ 64), registerRange p length s)) ?_
          (populateLoop_alone ..)
        simp only [threadMachine, threadStep, uffdioRegister, hvm, hp, hlength, check]
        rfl

/-- `hemem_mmap`. -/
theorem hememMmap_alone (p length : Nat) (populate : Bool) (s : St) :
    ThreadDoes cfg (.reserve p length populate) s (hememMmap cfg p length populate s)
      fun s' c => c = (.idle, s') := by
  unfold hememMmap
  refine carriesOut_check (fun hno => ?_) fun hlength =>
    carriesOut_check (fun hno => ?_) fun hp => ?_
  · simp only [threadMachine, threadStep, hno, check]
    rfl
  · simp only [threadMachine, threadStep, hlength, hno, check]
    rfl
  · refine .head (b := (.registerAll p (pageRoundUp length) populate,
      mmapReserve p (pageRoundUp length) s)) ?_ ?_
    · simp only [threadMachine, threadStep, hlength, hp, check]
      rfl
    · exact registerAll_alone ..

/-- `handle_missing_fault`. -/
theorem handleMissingFault_alone (va : Nat) (s : St) :
    ThreadDoes cfg (.missing va) s (handleMissingFault cfg va s) fun s' c => c = (.idle, s') := by
  rw [handleMissingFault_eq_run]
  refine carriesOut_check (fun hno => ?_) fun hva => .head (b := (.takeDram .fault va, s)) ?_ ?_
  · simp only [threadMachine, threadStep, hno, check]
    rfl
  · simp only [threadMachine, threadStep, hva, check]
    rfl
  · refine (pebsPagefault_alone .fault va s).bind ?_
    rintro ⟨p, s₁⟩ _ - rfl
    refine (runAlloc_alone ..).bind ?_
    rintro ⟨r, s₂⟩ _ - rfl
    exact .head rfl (.ret rfl)

/-! ## Requests -/

/-- The rotations of a request with drawn numbers. -/
theorem rotate_alone (q : Req) (i left n : Nat) (s : St) :
    ThreadDoes cfg (.rotate q i left n) s (rotate (.mmap q.d.src) n s)
      fun s' c => c = (.take q i left, s') := by
  induction n generalizing s with
  | zero => exact .head rfl (.ret rfl)
  | succ n ih =>
    refine .head (b := (.rotated q i left n (dequeueFifo (.mmap q.d.src) s).1,
      (dequeueFifo (.mmap q.d.src) s).2)) rfl ?_
    refine CarriesOut.bind (.one (g := fun s' => (.rotate q i left n, s')) ?_ fun _ => rfl) ?_
    · exact map_bind_ok ..
    · rintro s₁ _ - rfl
      exact ih s₁

/-- An iteration before it dequeues the page. -/
theorem beforeTake_alone (q : Req) (i left : Nat) (s : St) :
    ThreadDoes cfg (.requestTest q i (left + 1)) s (beforeTake q.d q.random (q.rand i) s)
      fun s' c => c = (.take q i left, s') := by
  unfold beforeTake
  cases hq : q.random with
  | false =>
    refine .head (b := (.take q i left, s)) ?_ (.ret rfl)
    simp only [threadMachine, threadStep, hq]
    rfl
  | true =>
    refine .head (b := (.choose q i left, s)) ?_ ?_
    · simp only [threadMachine, threadStep, hq]
      rfl
    · refine carriesOut_check (fun hno => ?_) fun hnum => .head
        (b := (.rotate q i left (q.rand i % (s.num (.mmap q.d.src)).toNat), s)) ?_
        (rotate_alone ..)
      · simp only [threadMachine, threadStep, hno, check]
        rfl
      · simp only [threadMachine, threadStep, hnum, check]
        rfl

/-- An iteration of a request ends at the test of the next one. -/
theorem putPage_alone (q : Req) (i left : Nat) (s : St) :
    ThreadDoes cfg (.take q i left) s (putPage q.d s)
      fun x c => c = (.requestTest q (i + 1) left, x.2) := by
  unfold putPage
  -- on an empty list the iteration ends with nothing put
  cases hl : s.list (.mmap q.d.src) with
  | nil =>
    simp only [dequeueFifo_nil hl]
    refine .head (b := (.requestTest q (i + 1) left, s)) ?_ (.ret rfl)
    simp only [threadMachine, threadStep, dequeueFifo_nil hl]
    rfl
  | cons p rest =>
    simp only [dequeueFifo_cons hl]
    refine .head (b := (.assertInDram q i left p, s.setList (.mmap q.d.src) rest)) ?_ ?_
    · simp only [threadMachine, threadStep, dequeueFifo_cons hl]
      rfl
    · refine carriesOut_check (fun hno => ?_) fun hdram => .head
        (b := (.assertPresent q i left p, s.setList (.mmap q.d.src) rest)) ?_ ?_
      · simp only [threadMachine, threadStep, hno, check]
        rfl
      · simp only [threadMachine, threadStep, hdram, check]
        rfl
      · refine carriesOut_check (fun hno => ?_) fun hpresent => .head
          (b := (.put q i left p, s.setList (.mmap q.d.src) rest)) ?_ ?_
        · simp only [threadMachine, threadStep, hno, check]
          rfl
        · simp only [threadMachine, threadStep, hpresent, check]
          rfl
        · exact .head rfl (.head rfl (.ret rfl))

/-- The request functions. -/
theorem requestLoop_alone (q : Req) (n i pagePut : Nat) (s : St) :
    ThreadDoes cfg (.requestTest q i n) s (requestLoop q.d q.random q.rand n i pagePut s)
      fun x c => c = (.idle, x.2) := by
  induction n generalizing i pagePut s with
  | zero => exact .head rfl (.ret rfl)
  | succ n ih =>
    unfold requestLoop
    refine (beforeTake_alone q i n s).bind ?_
    rintro s₁ _ - rfl
    refine (putPage_alone q i n s₁).bind ?_
    rintro ⟨k, s₂⟩ _ - rfl
    exact ih _ _ _

/-! ## `hemem_munmap` -/

/-- The scan of `hemem_munmap`, by induction on its bound. -/
theorem munmapScan_alone (u : Unmap) (fuel pos : Nat) (s : St) :
    ThreadDoes cfg (.scan u pos) s (munmapScan fuel pos ((u.addr + u.length) % 2 ^ 64) s)
      fun s' c => c = (.unmap u, s') := by
  -- the loop takes one round a unit of fuel; the page found costs four steps of the thread
  induction fuel generalizing pos s with
  | zero => exact .skip rfl
  | succ fuel ih =>
    unfold munmapScan
    split
    · rename_i hlt
      split
      · rename_i p hp
        refine .head (b := (.remove u pos p, s)) ?_ (.head rfl (.head rfl (.head rfl ?_)))
        · simp only [threadMachine, threadStep, if_pos hlt, hp]
          rfl
        · -- the length is read from the descriptor after the page has left the table
          show ThreadDoes cfg
            (.scan u ((pos + ptToPagesize ((untrackPage p s).page p).pt) % 2 ^ 64))
            (untrackPage p s) _ _
          rw [untrackPage_page]
          exact ih _ _
      · rename_i hp
        refine .head (b := (.scan u ((pos + basepageSize) % 2 ^ 64), s)) ?_ (ih _ _)
        simp only [threadMachine, threadStep, if_pos hlt, hp]
        rfl
    · rename_i hlt
      refine .head (b := (.unmap u, s)) ?_ (.ret rfl)
      simp only [threadMachine, threadStep, if_neg hlt]
      rfl

/-- After the scan comes the system call. -/
theorem hememMunmap_alone (u : Unmap) (fuel : Nat) (s : St) :
    ThreadDoes cfg (.scan u (u.addr % 2 ^ 64)) s (hememMunmap fuel u.addr u.length u.accept s)
      fun x c => c = (.idle, x.2) := by
  refine (munmapScan_alone u fuel _ s).bind ?_
  rintro s₁ _ - rfl
  refine .head (b := (.idle, (libcMunmap u.addr u.length u.accept s₁).2)) ?_ (.ret rfl)
  simp only [threadMachine, threadStep]
  split <;> rename_i hr <;> rw [hr] <;> rfl

/-! ## Calls -/

/-- The complete operation; `fuel` bounds the scan of `hemem_munmap`. -/
def Call.op (fuel : Nat) : Call → Op
  | .mmap p length populate => .mmap p length populate
  | .missingFault pageBoundry => .missingFault pageBoundry
  | .request d pagesNum random rand => .request d pagesNum random rand
  | .munmap addr length accept => .munmap fuel addr length accept

/-- A call that is not interrupted does what the complete operation does. -/
theorem Call.alone (cfg : Config) (c : Call) (fuel : Nat) (s : St) :
    ThreadDoes cfg c.begin s (exec cfg (c.op fuel) s) fun s' k => k = (.idle, s') := by
  cases c with
  | mmap p length populate => exact hememMmap_alone p length populate s
  | missingFault pageBoundry => exact handleMissingFault_alone pageBoundry s
  | request d pagesNum random rand =>
    refine (requestLoop_alone ⟨d, random, rand⟩ pagesNum.toNat 0 0 s).bind ?_
    rintro ⟨k, s₁⟩ _ - rfl
    exact .ret rfl
  | munmap addr length accept =>
    refine (hememMunmap_alone ⟨addr, length, accept⟩ fuel s).bind ?_
    rintro ⟨r, s₁⟩ _ - rfl
    exact .ret rfl

end Hemem
