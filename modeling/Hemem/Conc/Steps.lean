import Hemem.Spec
import Hemem.Conc.Interleave

/-!
# Hemem.Conc.Steps — what a step does when it does not stop the process

The steps of `Hemem.Conc.Thread` and `Hemem.Conc.Migrator` as relations, with one
constructor per branch: the condition under which the branch is taken and the state
after it. Invariants are proved by cases on these relations.
-/

namespace Hemem

open Lib

/-- The steps of a thread. -/
inductive ThreadStep (cfg : Config) : Pc → St → Pc → St → List Event → Prop where
  | idle {s} : ThreadStep cfg .idle s .idle s []
  -- `hemem_mmap`
  | reserve {p length populate s} (hlength : length ≠ 0) (hp : p ≠ 0) :
    ThreadStep cfg (.reserve p length populate) s
      (.registerAll p (pageRoundUp length) populate) (mmapReserve p (pageRoundUp length) s) []
  | register {p length s} (hvm : (s.vm p).isSome) :
    ThreadStep cfg (.registerAll p length false) s .idle (registerRange p length s) []
  | registerPopulate {p length s} (hvm : (s.vm p).isSome) (hp : p ≠ 0) (hlength : length ≠ 0) :
    ThreadStep cfg (.registerAll p length true) s
      (.populateTest p ((p + length) % 2 ^ 64)) (registerRange p length s) []
  | populateNext {va stop s} (h : va < stop) :
    ThreadStep cfg (.populateTest va stop) s (.takeDram (.populate stop) va) s []
  | populateDone {va stop s} (h : ¬ va < stop) : ThreadStep cfg (.populateTest va stop) s .idle s []
  | missing {va s} (hva : va ≠ 0) : ThreadStep cfg (.missing va) s (.takeDram .fault va) s []
  -- `pebs_allocate_page`
  | takeDram {k va s p rest} (hl : s.list dramFreeList = p :: rest) :
    ThreadStep cfg (.takeDram k va) s (.assertTier k va .dram p) (s.setList dramFreeList rest) []
  | dramFull {k va s} (hl : s.list dramFreeList = []) :
    ThreadStep cfg (.takeDram k va) s (.takeNvm k va) s []
  | takeNvm {k va s p rest} (hl : s.list nvmFreeList = p :: rest) :
    ThreadStep cfg (.takeNvm k va) s (.assertTier k va .nvm p) (s.setList nvmFreeList rest) []
  | assertTier {k va t p s} (hp : (s.page p).inDram = t.inDram) :
    ThreadStep cfg (.assertTier k va t p) s (.assertAbsent k va t p) s []
  | assertAbsent {k va t p s} (hp : (s.page p).present = false) :
    ThreadStep cfg (.assertAbsent k va t p) s (.setPresent k va t p) s []
  | setPresent {k va t p s} :
    ThreadStep cfg (.setPresent k va t p) s (.publish k va t p)
      (s.modPage p fun g => { g with present := true }) []
  | publish {k va t p s} :
    ThreadStep cfg (.publish k va t p) s (.place k p ⟨va, 0, false, 0⟩ k.code)
      (s.setList (.mmap t) (s.list (.mmap t) ++ [p])) []
  | place {k p r r' i code s s'} (hrun : AllocInstr.run cfg p r i s = .ok (r', s')) :
    ThreadStep cfg (.place k p r (i :: code)) s (.place k p r' code) s' []
  | placed {k p r s} : ThreadStep cfg (.place k p r []) s (k.after r) s []
  -- requests
  | requestDone {q i s} : ThreadStep cfg (.requestTest q i 0) s .idle s []
  | requestRandom {q i left s} (hq : q.random = true) :
    ThreadStep cfg (.requestTest q i (left + 1)) s (.choose q i left) s []
  | requestNext {q i left s} (hq : q.random = false) :
    ThreadStep cfg (.requestTest q i (left + 1)) s (.take q i left) s []
  | choose {q i left s} (hnum : s.num (.mmap q.d.src) ≠ 0) :
    ThreadStep cfg (.choose q i left) s
      (.rotate q i left (q.rand i % (s.num (.mmap q.d.src)).toNat)) s []
  | rotateDone {q i left s} : ThreadStep cfg (.rotate q i left 0) s (.take q i left) s []
  | rotate {q i left choose s p rest} (hl : s.list (.mmap q.d.src) = p :: rest) :
    ThreadStep cfg (.rotate q i left (choose + 1)) s (.rotated q i left choose (some p))
      (s.setList (.mmap q.d.src) rest) []
  | rotateEmpty {q i left choose s} (hl : s.list (.mmap q.d.src) = []) :
    ThreadStep cfg (.rotate q i left (choose + 1)) s (.rotated q i left choose none) s []
  | rotated {q i left choose p s} :
    ThreadStep cfg (.rotated q i left choose (some p)) s (.rotate q i left choose)
      (s.setList (.mmap q.d.src) (s.list (.mmap q.d.src) ++ [p])) []
  | take {q i left s p rest} (hl : s.list (.mmap q.d.src) = p :: rest) :
    ThreadStep cfg (.take q i left) s (.assertInDram q i left p)
      (s.setList (.mmap q.d.src) rest) []
  | takeEmpty {q i left s} (hl : s.list (.mmap q.d.src) = []) :
    ThreadStep cfg (.take q i left) s (.requestTest q (i + 1) left) s []
  | assertInDram {q i left p s} (hp : (s.page p).inDram = q.d.src.inDram) :
    ThreadStep cfg (.assertInDram q i left p) s (.assertPresent q i left p) s []
  | assertPresent {q i left p s} (hp : (s.page p).present = true) :
    ThreadStep cfg (.assertPresent q i left p) s (.put q i left p) s []
  | put {q i left p s} :
    ThreadStep cfg (.put q i left p) s (.countPut q i left)
      (s.setList (.queue q.d) (s.list (.queue q.d) ++ [p])) [.put q.d p]
  | countPut {q i left s} :
    ThreadStep cfg (.countPut q i left) s (.requestTest q (i + 1) left)
      ((s.addNum (.queue q.d) 1).subNum (.mmap q.d.src) 1) []
  -- `hemem_munmap`
  | scanHit {u pos s p} (h : pos < (u.addr + u.length) % 2 ^ 64) (hp : s.pages pos = some p) :
    ThreadStep cfg (.scan u pos) s (.remove u pos p) s []
  | scanMiss {u pos s} (h : pos < (u.addr + u.length) % 2 ^ 64) (hp : s.pages pos = none) :
    ThreadStep cfg (.scan u pos) s (.scan u ((pos + basepageSize) % 2 ^ 64)) s []
  | scanDone {u pos s} (h : ¬ pos < (u.addr + u.length) % 2 ^ 64) :
    ThreadStep cfg (.scan u pos) s (.unmap u) s []
  | remove {u pos p s} :
    ThreadStep cfg (.remove u pos p) s (.countRemoved u pos p) (removePage p s) []
  | countRemoved {u pos p s} :
    ThreadStep cfg (.countRemoved u pos p) s (.advance u pos p)
      (countMunmap (s.page p).inDram s) []
  | advance {u pos p s} :
    ThreadStep cfg (.advance u pos p) s
      (.scan u ((pos + ptToPagesize (s.page p).pt) % 2 ^ 64)) s []
  | unmap {u s} (h : (libcMunmap u.addr u.length u.accept s).1 = 0) :
    ThreadStep cfg (.unmap u) s .idle (libcMunmap u.addr u.length u.accept s).2
      [.unmapped u.addr u.length]
  | unmapFailed {u s} (h : (libcMunmap u.addr u.length u.accept s).1 ≠ 0) :
    ThreadStep cfg (.unmap u) s .idle (libcMunmap u.addr u.length u.accept s).2 []

variable {cfg : Config} {s s' : St}

/-- What a step of a thread can be, with all that it has tested. -/
theorem threadStep_ok {pc pc' : Pc} {ev : List Event}
    (h : threadStep cfg pc s = .ok (pc', s', ev)) : ThreadStep cfg pc s pc' s' ev := by
  cases pc <;>
    simp only [threadStep, uffdioRegister, enqueueFifo, bind_eq_ok, check_eq_ok, deref_eq_ok,
      Except.ok.injEq, Prod.mk.injEq, bne_iff_ne, beq_iff_eq, Bool.not_eq_eq_eq_not, Bool.not_true,
      Option.some.injEq, exists_eq_left', exists_and_left, exists_const] at h
  case idle =>
    rcases h with ⟨rfl, rfl, rfl⟩
    exact .idle
  -- `hemem_mmap`
  case reserve =>
    rcases h with ⟨hlength, hp, rfl, rfl, rfl⟩
    exact .reserve hlength hp
  case registerAll p length populate =>
    rcases h with ⟨s₁, ⟨hvm, rfl⟩, h⟩
    cases populate
    · simp only [Bool.false_eq_true, if_false, Except.ok.injEq, Prod.mk.injEq] at h
      rcases h with ⟨rfl, rfl, rfl⟩
      exact .register hvm
    · simp only [if_true, bind_eq_ok, check_eq_ok, bne_iff_ne, Except.ok.injEq, Prod.mk.injEq,
        exists_and_left, exists_const] at h
      rcases h with ⟨hp, hlength, rfl, rfl, rfl⟩
      exact .registerPopulate hvm hp hlength
  case populateTest va stop =>
    rcases h with ⟨rfl, rfl, rfl⟩
    split
    · rename_i hlt
      exact .populateNext hlt
    · rename_i hlt
      exact .populateDone hlt
  case missing =>
    rcases h with ⟨hva, rfl, rfl, rfl⟩
    exact .missing hva
  -- `pebs_allocate_page` and what its callers do with the page
  case takeDram k va =>
    cases hl : s.list dramFreeList with
    | nil =>
      simp only [dequeueFifo_nil hl, Except.ok.injEq, Prod.mk.injEq] at h
      rcases h with ⟨rfl, rfl, rfl⟩
      exact .dramFull hl
    | cons p rest =>
      simp only [dequeueFifo_cons hl, Except.ok.injEq, Prod.mk.injEq] at h
      rcases h with ⟨rfl, rfl, rfl⟩
      exact .takeDram hl
  case takeNvm k va =>
    cases hl : s.list nvmFreeList with
    -- with both lists empty `NULL` is dereferenced
    | nil => simp [dequeueFifo_nil hl] at h
    | cons p rest =>
      simp only [dequeueFifo_cons hl, Except.ok.injEq, Prod.mk.injEq] at h
      rcases h with ⟨rfl, rfl, rfl⟩
      exact .takeNvm hl
  case assertTier =>
    rcases h with ⟨hp, rfl, rfl, rfl⟩
    exact .assertTier hp
  case assertAbsent =>
    rcases h with ⟨hp, rfl, rfl, rfl⟩
    exact .assertAbsent hp
  case setPresent =>
    rcases h with ⟨rfl, rfl, rfl⟩
    exact .setPresent
  case publish =>
    rcases h with ⟨rfl, rfl, rfl⟩
    exact .publish
  case place k p r code =>
    cases code with
    | nil =>
      simp only [Except.ok.injEq, Prod.mk.injEq] at h
      rcases h with ⟨rfl, rfl, rfl⟩
      exact .placed
    | cons i code =>
      simp only [bind_eq_ok, Prod.exists, Except.ok.injEq, Prod.mk.injEq] at h
      rcases h with ⟨r', s₁, hrun, rfl, rfl, rfl⟩
      exact .place hrun
  -- requests
  case requestTest q i left =>
    cases left with
    | zero =>
      simp only [Except.ok.injEq, Prod.mk.injEq] at h
      rcases h with ⟨rfl, rfl, rfl⟩
      exact .requestDone
    | succ left =>
      simp only [Except.ok.injEq, Prod.mk.injEq] at h
      rcases h with ⟨rfl, rfl, rfl⟩
      split
      · rename_i hq
        exact .requestRandom hq
      · rename_i hq
        exact .requestNext (by simpa using hq)
  case choose =>
    rcases h with ⟨hnum, rfl, rfl, rfl⟩
    exact .choose hnum
  case rotate q i left choose =>
    cases choose with
    | zero =>
      simp only [Except.ok.injEq, Prod.mk.injEq] at h
      rcases h with ⟨rfl, rfl, rfl⟩
      exact .rotateDone
    | succ choose =>
      simp only [Except.ok.injEq, Prod.mk.injEq] at h
      rcases h with ⟨rfl, rfl, rfl⟩
      cases hl : s.list (.mmap q.d.src) with
      | nil =>
        rw [dequeueFifo_nil hl]
        exact .rotateEmpty hl
      | cons p rest =>
        rw [dequeueFifo_cons hl]
        exact .rotate hl
  case rotated q i left choose e =>
    rcases h with ⟨s₁, ⟨p, rfl, rfl⟩, rfl, rfl, rfl⟩
    exact .rotated
  case take q i left =>
    cases hl : s.list (.mmap q.d.src) with
    | nil =>
      simp only [dequeueFifo_nil hl, Except.ok.injEq, Prod.mk.injEq] at h
      rcases h with ⟨rfl, rfl, rfl⟩
      exact .takeEmpty hl
    | cons p rest =>
      simp only [dequeueFifo_cons hl, Except.ok.injEq, Prod.mk.injEq] at h
      rcases h with ⟨rfl, rfl, rfl⟩
      exact .take hl
  case assertInDram =>
    rcases h with ⟨hp, rfl, rfl, rfl⟩
    exact .assertInDram hp
  case assertPresent =>
    rcases h with ⟨hp, rfl, rfl, rfl⟩
    exact .assertPresent hp
  case put =>
    rcases h with ⟨rfl, rfl, rfl⟩
    exact .put
  case countPut =>
    rcases h with ⟨rfl, rfl, rfl⟩
    exact .countPut
  -- `hemem_munmap`
  case scan u pos =>
    split at h
    · rename_i hlt
      cases hp : findPage pos s with
      | none =>
        simp only [hp, Except.ok.injEq, Prod.mk.injEq] at h
        rcases h with ⟨rfl, rfl, rfl⟩
        exact .scanMiss hlt hp
      | some p =>
        simp only [hp, Except.ok.injEq, Prod.mk.injEq] at h
        rcases h with ⟨rfl, rfl, rfl⟩
        exact .scanHit hlt hp
    · rename_i hlt
      simp only [Except.ok.injEq, Prod.mk.injEq] at h
      rcases h with ⟨rfl, rfl, rfl⟩
      exact .scanDone hlt
  case remove =>
    rcases h with ⟨rfl, rfl, rfl⟩
    exact .remove
  case countRemoved =>
    rcases h with ⟨rfl, rfl, rfl⟩
    exact .countRemoved
  case advance =>
    rcases h with ⟨rfl, rfl, rfl⟩
    exact .advance
  case unmap u =>
    -- what the kernel says decides the event, and what it has done is left folded up
    cases hunmap : libcMunmap u.addr u.length u.accept s with
    | mk ret s₁ =>
      rw [hunmap] at h
      by_cases hret : ret = 0
      · subst hret
        simp only [Except.ok.injEq, Prod.mk.injEq] at h
        rcases h with ⟨rfl, rfl, rfl⟩
        have hstep := @ThreadStep.unmap cfg u s (by rw [hunmap])
        simpa only [hunmap] using hstep
      · simp only [Except.ok.injEq, Prod.mk.injEq] at h
        rcases h with ⟨rfl, rfl, rfl⟩
        have hstep := @ThreadStep.unmapFailed cfg u s (by rw [hunmap]; exact hret)
        simpa only [hunmap] using hstep

/-- The statements of the loops of the migration thread. -/
inductive MigInstrStep (cfg : Config) (d : Dir) (e : Entry) (r : MigRegs) :
    MigInstr → St → MigRegs → St → List Event → Prop where
  | setMigrating {b p s} (hp : e.page = some p) :
    MigInstrStep cfg d e r (.setMigrating b) s r (s.modPage p fun g => { g with migrating := b }) []
  | readAddr {p s} (hp : e.page = some p) :
    MigInstrStep cfg d e r .readAddr s { r with addr := (s.page p).va } s []
  | readLen {p s} (hp : e.page = some p) :
    MigInstrStep cfg d e r .readLen s { r with len := ptToPagesize (s.page p).pt } s []
  | assertAddr {s : St} (h : r.addr ≠ 0) : MigInstrStep cfg d e r .assertAddr s r s []
  | assertAligned {s : St} (h : r.addr % pageSize = 0) :
    MigInstrStep cfg d e r .assertAligned s r s []
  | writeprotect {s : St} (h : s.registered r.addr = true) :
    MigInstrStep cfg d e r .writeprotect s r (protectRange r.addr r.len s) []
  | assertInDram {p s} (hp : e.page = some p) (h : (s.page p).inDram = d.src.inDram) :
    MigInstrStep cfg d e r .assertInDram s r s []
  | readOffset {p s} (hp : e.page = some p) :
    MigInstrStep cfg d e r .readOffset s { r with old := (s.page p).devdaxOffset } s []
  | assertOldOffset {s : St} (h : r.old < cfg.size d.src) (hlen : r.old + r.len ≤ cfg.size d.src) :
    MigInstrStep cfg d e r .assertOldOffset s r s []
  | assertNewOffset {s : St} (h : e.offset < cfg.size d.dst)
    (hlen : e.offset + r.len ≤ cfg.size d.dst) :
    MigInstrStep cfg d e r .assertNewOffset s r s []
  | copy {s : St} :
    MigInstrStep cfg d e r .copy s r (copySlot d.src r.old d.dst e.offset r.len s) []
  | map {s : St} : MigInstrStep cfg d e r .map s r (mmapFixed r.addr r.len d.dst e.offset s) []
  | assertVa {p s} (hp : e.page = some p) (h : (s.page p).va % pageSize = 0) :
    MigInstrStep cfg d e r .assertVa s r s []
  | register {s : St} (h : (s.vm r.addr).isSome = true) :
    MigInstrStep cfg d e r .register s r (registerRange r.addr r.len s) []
  | bumpUp {p s} (hp : e.page = some p) :
    MigInstrStep cfg d e r .bumpUp s r
      (s.modPage p fun g => { g with migrationsUp := g.migrationsUp + 1 }) []
  | bumpDown {p s} (hp : e.page = some p) :
    MigInstrStep cfg d e r .bumpDown s r
      (s.modPage p fun g => { g with migrationsDown := g.migrationsDown + 1 }) []
  | setInDram {p s} (hp : e.page = some p) :
    MigInstrStep cfg d e r .setInDram s r
      (s.modPage p fun g => { g with inDram := d.dst.inDram }) []
  | setOffset {p s} (hp : e.page = some p) :
    MigInstrStep cfg d e r .setOffset s r
      (s.modPage p fun g => { g with devdaxOffset := e.offset }) []
  | setFreeOffset {s : St} :
    MigInstrStep cfg d e r .setFreeOffset s r
      (s.modPage e.next fun g => { g with devdaxOffset := e.offset }) []
  | setFreePresent {s : St} :
    MigInstrStep cfg d e r .setFreePresent s r
      (s.modPage e.next fun g => { g with present := false }) []
  | setFreeInDram {s : St} :
    MigInstrStep cfg d e r .setFreeInDram s r
      (s.modPage e.next fun g => { g with inDram := d.src.inDram }) []
  | enqueuePage {p s} (hp : e.page = some p) :
    MigInstrStep cfg d e r .enqueuePage s r
      (s.setList (.mmap d.dst) (s.list (.mmap d.dst) ++ [p])) [.moved d p (s.page p).inDram]
  | enqueueFree {s : St} :
    MigInstrStep cfg d e r .enqueueFree s r
      (s.setList (.free d.src) (s.list (.free d.src) ++ [e.next])) []

theorem MigInstr.run_ok {d : Dir} {e : Entry} {i : MigInstr} {r r' : MigRegs} {ev : List Event}
    (h : i.run cfg d e r s = .ok (r', s', ev)) : MigInstrStep cfg d e r i s r' s' ev := by
  -- One statement, one constructor: what is left of `run` is its checks and its one write.
  cases i <;>
    simp only [MigInstr.run, uffdioRegister, uffdioWriteprotect, bind_eq_ok, check_eq_ok,
      deref_eq_ok, enqueueFifo_some, Except.ok.injEq, Prod.mk.injEq, bne_iff_ne, beq_iff_eq,
      decide_eq_true_eq, exists_and_left, exists_const] at h
  case setMigrating =>
    rcases h with ⟨p, hp, rfl, rfl, rfl⟩
    exact .setMigrating hp
  case readAddr =>
    rcases h with ⟨p, hp, rfl, rfl, rfl⟩
    exact .readAddr hp
  case readLen =>
    rcases h with ⟨p, hp, rfl, rfl, rfl⟩
    exact .readLen hp
  case assertAddr =>
    rcases h with ⟨haddr, rfl, rfl, rfl⟩
    exact .assertAddr haddr
  case assertAligned =>
    rcases h with ⟨haddr, rfl, rfl, rfl⟩
    exact .assertAligned haddr
  case writeprotect =>
    rcases h with ⟨_, ⟨hreg, rfl⟩, rfl, rfl, rfl⟩
    exact .writeprotect hreg
  case assertInDram =>
    rcases h with ⟨p, hp, hinDram, rfl, rfl, rfl⟩
    exact .assertInDram hp hinDram
  case readOffset =>
    rcases h with ⟨p, hp, rfl, rfl, rfl⟩
    exact .readOffset hp
  case assertOldOffset =>
    rcases h with ⟨hold, hlen, rfl, rfl, rfl⟩
    exact .assertOldOffset hold hlen
  case assertNewOffset =>
    rcases h with ⟨hnew, hlen, rfl, rfl, rfl⟩
    exact .assertNewOffset hnew hlen
  case copy =>
    rcases h with ⟨rfl, rfl, rfl⟩
    exact .copy
  case map =>
    rcases h with ⟨rfl, rfl, rfl⟩
    exact .map
  case assertVa =>
    rcases h with ⟨p, hp, hva, rfl, rfl, rfl⟩
    exact .assertVa hp hva
  case register =>
    rcases h with ⟨_, ⟨hvm, rfl⟩, rfl, rfl, rfl⟩
    exact .register hvm
  case bumpUp =>
    rcases h with ⟨p, hp, rfl, rfl, rfl⟩
    exact .bumpUp hp
  case bumpDown =>
    rcases h with ⟨p, hp, rfl, rfl, rfl⟩
    exact .bumpDown hp
  case setInDram =>
    rcases h with ⟨p, hp, rfl, rfl, rfl⟩
    exact .setInDram hp
  case setOffset =>
    rcases h with ⟨p, hp, rfl, rfl, rfl⟩
    exact .setOffset hp
  case setFreeOffset =>
    rcases h with ⟨rfl, rfl, rfl⟩
    exact .setFreeOffset
  case setFreePresent =>
    rcases h with ⟨rfl, rfl, rfl⟩
    exact .setFreePresent
  case setFreeInDram =>
    rcases h with ⟨rfl, rfl, rfl⟩
    exact .setFreeInDram
  case enqueuePage =>
    rcases h with ⟨p, hp, _, rfl, rfl, rfl, rfl⟩
    exact .enqueuePage hp
  case enqueueFree =>
    rcases h with ⟨_, rfl, rfl, rfl, rfl⟩
    exact .enqueueFree

/-- The steps of the migration thread. -/
inductive MigStep (cfg : Config) (numBatchs : Nat) : Mpc → St → Mpc → St → List Event → Prop where
  | testZero {d s} (h : s.num (.queue d) = 0) :
    MigStep cfg numBatchs (.test d) s (.test d.next) s []
  | test {d s} (h : s.num (.queue d) ≠ 0) : MigStep cfg numBatchs (.test d) s (.compare d) s []
  | compareMore {d s} (h : numBatchs < (s.num (.queue d)).toNat) :
    MigStep cfg numBatchs (.compare d) s (.dequeuePage d numBatchs []) s []
  | compare {d s} (h : ¬ numBatchs < (s.num (.queue d)).toNat) :
    MigStep cfg numBatchs (.compare d) s (.read d) s []
  | read {d s} :
    MigStep cfg numBatchs (.read d) s (.dequeuePage d (s.num (.queue d)).toNat []) s []
  | begin {d es s} :
    MigStep cfg numBatchs (.dequeuePage d 0 es) s
      (.loop d .flag [] es (d.code .flag) ⟨0, 0, 0⟩) s []
  | dequeuePage {d left es s p rest} (hl : s.list (.queue d) = p :: rest) :
    MigStep cfg numBatchs (.dequeuePage d (left + 1) es) s (.dequeueFree d left es (some p))
      (s.setList (.queue d) rest) []
  | dequeueNull {d left es s} (hl : s.list (.queue d) = []) :
    MigStep cfg numBatchs (.dequeuePage d (left + 1) es) s (.dequeueFree d left es none) s []
  | dequeueFree {d left es page s q rest} (hl : s.list (.free d.dst) = q :: rest) :
    MigStep cfg numBatchs (.dequeueFree d left es page) s (.readFree d left es page (some q))
      (s.setList (.free d.dst) rest) []
  | dequeueFreeNull {d left es page s} (hl : s.list (.free d.dst) = []) :
    MigStep cfg numBatchs (.dequeueFree d left es page) s (.readFree d left es page none) s []
  | readFree {d left es page q s} :
    MigStep cfg numBatchs (.readFree d left es page (some q)) s
      (.dequeuePage d left (es ++ [⟨page, q, (s.page q).devdaxOffset⟩])) s []
  | instr {d ph done e todo i code r r' s s' ev}
      (hrun : MigInstr.run cfg d e r i s = .ok (r', s', ev)) :
    MigStep cfg numBatchs (.loop d ph done (e :: todo) (i :: code) r) s
      (.loop d ph done (e :: todo) code r') s' ev
  | nextEntry {d ph done e todo r s} :
    MigStep cfg numBatchs (.loop d ph done (e :: todo) [] r) s
      (.loop d ph (done ++ [e]) todo (d.code ph) r) s []
  | nextLoop {d ph ph' done code r s} (h : ph.next = some ph') :
    MigStep cfg numBatchs (.loop d ph done [] code r) s (.loop d ph' [] done (d.code ph') r) s []
  | lastLoop {d done code r s} :
    MigStep cfg numBatchs (.loop d .giveBack done [] code r) s (.count d done.length) s []
  | count {d num s} :
    MigStep cfg numBatchs (.count d num) s (.test d) (countBatch d (UInt64.ofNat num) s) []

/-- What a step of the migration thread can be. -/
theorem migStep_ok {numBatchs : Nat} {m m' : Mpc} {ev : List Event}
    (h : migStep cfg numBatchs m s = .ok (m', s', ev)) : MigStep cfg numBatchs m s m' s' ev := by
  cases m with
  | test d =>
    simp only [migStep, Except.ok.injEq, Prod.mk.injEq] at h
    rcases h with ⟨rfl, rfl, rfl⟩
    split
    · rename_i hnum
      exact .testZero hnum
    · rename_i hnum
      exact .test hnum
  | compare d =>
    simp only [migStep, Except.ok.injEq, Prod.mk.injEq] at h
    rcases h with ⟨rfl, rfl, rfl⟩
    split
    · rename_i hnum
      exact .compareMore hnum
    · rename_i hnum
      exact .compare hnum
  | read d =>
    simp only [migStep, Except.ok.injEq, Prod.mk.injEq] at h
    rcases h with ⟨rfl, rfl, rfl⟩
    exact .read
  | dequeuePage d left es =>
    cases left with
    | zero =>
      simp only [migStep, Except.ok.injEq, Prod.mk.injEq] at h
      rcases h with ⟨rfl, rfl, rfl⟩
      exact .begin
    | succ left =>
      simp only [migStep, Except.ok.injEq, Prod.mk.injEq] at h
      rcases h with ⟨rfl, rfl, rfl⟩
      cases hl : s.list (.queue d) with
      | nil =>
        rw [dequeueFifo_nil hl]
        exact .dequeueNull hl
      | cons p rest =>
        rw [dequeueFifo_cons hl]
        exact .dequeuePage hl
  | dequeueFree d left es page =>
    simp only [migStep, Except.ok.injEq, Prod.mk.injEq] at h
    rcases h with ⟨rfl, rfl, rfl⟩
    cases hl : s.list (.free d.dst) with
    | nil =>
      rw [dequeueFifo_nil hl]
      exact .dequeueFreeNull hl
    | cons q rest =>
      rw [dequeueFifo_cons hl]
      exact .dequeueFree hl
  | readFree d left es page next =>
    simp only [migStep, bind_eq_ok, deref_eq_ok, Except.ok.injEq, Prod.mk.injEq] at h
    rcases h with ⟨q, rfl, rfl, rfl, rfl⟩
    exact .readFree
  | loop d ph done todo code r =>
    cases todo with
    | nil =>
      -- the array is through: the next loop begins, or the batch is counted
      cases ph <;>
        simp only [migStep, Phase.next, Except.ok.injEq, Prod.mk.injEq] at h <;>
        rcases h with ⟨rfl, rfl, rfl⟩
      case giveBack => exact .lastLoop
      all_goals exact .nextLoop rfl
    | cons e todo =>
      cases code with
      | nil =>
        simp only [migStep, Except.ok.injEq, Prod.mk.injEq] at h
        rcases h with ⟨rfl, rfl, rfl⟩
        exact .nextEntry
      | cons i code =>
        simp only [migStep, bind_eq_ok, Prod.exists, Except.ok.injEq, Prod.mk.injEq] at h
        rcases h with ⟨r', s₁, ev', hrun, rfl, rfl, rfl⟩
        exact .instr hrun
  | count d num =>
    simp only [migStep, Except.ok.injEq, Prod.mk.injEq] at h
    rcases h with ⟨rfl, rfl, rfl⟩
    exact .count

/-- In a loop the statements left are the last ones of the loop. -/
def Mpc.Wf : Mpc → Prop
  | .loop d ph _ _ code _ => code <:+ d.code ph
  | _ => True

theorem Mpc.wf_step {numBatchs : Nat} {m m' : Mpc} {ev : List Event} (hm : m.Wf)
    (h : MigStep cfg numBatchs m s m' s' ev) : m'.Wf := by
  cases h
  case instr i code _ _ _ => exact (List.suffix_cons i code).trans hm
  case begin | nextEntry | nextLoop => exact List.suffix_refl _
  all_goals trivial

end Hemem
