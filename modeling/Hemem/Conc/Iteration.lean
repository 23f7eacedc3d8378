import Hemem.Batch
import Hemem.Conc.Alone

/-!
# Hemem.Conc.Iteration — an iteration of the migration thread that nobody interrupts

The six loops of an iteration run the same statements for every entry of the batch. Seen at
once they are the loops of `pebs_migrate_*`, `hemem_wp_page` and `hemem_migrate_*` in
`Hemem.Migrate`, with the local variables beside the state: the value of `pagesize` that the
first loop of `hemem_migrate_down` and `hemem_migrate_dram` leaves to the second is one of
them.
-/

namespace Hemem

open Lib

variable {cfg : Config} {numBatchs : Nat} {s s' : St} {d : Dir}

/-! ## The machine of the migration thread -/

/-- The migration thread by itself. -/
def migMachine (cfg : Config) (numBatchs : Nat) (c : Mpc × St) : Except Fault (Mpc × St) :=
  (migStep cfg numBatchs c.1 c.2).map fun x => (x.1, x.2.1)

abbrev MigDoes {ρ : Type} (cfg : Config) (numBatchs : Nat) (m : Mpc) (s : St) (r : Except Fault ρ)
    (Q : ρ → Mpc × St → Prop) : Prop :=
  CarriesOut (migMachine cfg numBatchs) (· = .running) (m, s) r Q

/-- The first loop of an iteration. -/
theorem dequeueBatch_alone (d : Dir) (n : Nat) (es : List Entry) (s : St) :
    MigDoes cfg numBatchs (.dequeuePage d n es) s (dequeueBatch d n s)
      fun x c => c = (.dequeuePage d 0 (es ++ x.1), x.2) := by
  induction n generalizing es s with
  | zero => exact .ret (by rw [List.append_nil])
  | succ n ih =>
    rcases hq : dequeueFifo (.queue d) s with ⟨page, s₁⟩
    rcases hf : dequeueFifo (.free d.dst) s₁ with ⟨next, s₂⟩
    simp only [dequeueBatch, hq, hf]
    refine .head (b := (.dequeueFree d n es page, s₁)) ?_ ?_
    · simp only [migMachine, migStep, hq]
      rfl
    · refine .head (b := (.readFree d n es page next, s₂)) ?_ ?_
      · simp only [migMachine, migStep, hf]
        rfl
      · refine CarriesOut.bind (.one (g := fun p => (.dequeuePage d n
          (es ++ [⟨page, p, (s₂.page p).devdaxOffset⟩]), s₂)) ?_ fun _ => rfl) ?_
        · exact map_bind_ok ..
        · rintro p _ - rfl
          refine (ih _ s₂).bind ?_
          rintro ⟨es', s₃⟩ _ - rfl
          exact .ret (by rw [List.append_assoc]; rfl)

/-- The statements of a loop for one entry. -/
def runEntry (cfg : Config) (d : Dir) (code : List MigInstr) (e : Entry) (x : MigRegs × St) :
    Except Fault (MigRegs × St) :=
  code.foldlM (fun x i => (i.run cfg d e x.1 x.2).map fun y => (y.1, y.2.1)) x

/-- A loop. -/
def runPhase (cfg : Config) (d : Dir) (ph : Phase) (es : List Entry) (x : MigRegs × St) :
    Except Fault (MigRegs × St) :=
  es.foldlM (fun x e => runEntry cfg d (d.code ph) e x) x

/-- The statements of a loop for one entry. -/
theorem runEntry_alone (d : Dir) (ph : Phase) (done todo : List Entry) (e : Entry)
    (code : List MigInstr) (x : MigRegs × St) :
    MigDoes cfg numBatchs (.loop d ph done (e :: todo) code x.1) x.2 (runEntry cfg d code e x)
      fun y c => c = (.loop d ph done (e :: todo) [] y.1, y.2) := by
  let Q : List MigInstr → MigRegs × St → Mpc × St → Prop :=
    fun code y c => c = (.loop d ph done (e :: todo) code y.1, y.2)
  refine CarriesOut.foldlM Q ?_ code rfl
  rintro i code ⟨r, s⟩ _ rfl
  refine .one (g := fun y => (.loop d ph done (e :: todo) code y.1, y.2)) ?_ fun _ => rfl
  simp only [migMachine, migStep]
  cases i.run cfg d e r s <;> rfl

/-- A loop over the batch is its statements for every entry. -/
theorem runPhase_alone (d : Dir) (ph : Phase) (es : List Entry) (x : MigRegs × St) :
    MigDoes cfg numBatchs (.loop d ph [] es (d.code ph) x.1) x.2 (runPhase cfg d ph es x)
      fun y c => c = (.loop d ph es [] (d.code ph) y.1, y.2) := by
  let Q : List Entry → MigRegs × St → Mpc × St → Prop := fun todo y c =>
    ∃ done, done ++ todo = es ∧ c = (.loop d ph done todo (d.code ph) y.1, y.2)
  refine (CarriesOut.foldlM Q ?_ es ⟨[], rfl, rfl⟩).mono ?_
  · rintro e todo x _ ⟨done, hes, rfl⟩
    refine (runEntry_alone d ph done todo e (d.code ph) x).andThen ?_
    rintro y _ rfl
    exact .head rfl (.ret ⟨done ++ [e], by rw [← hes, List.append_assoc]; rfl, rfl⟩)
  · rintro y _ - ⟨done, hes, rfl⟩
    rw [← hes, List.append_nil]

/-! ## What a loop does for one entry -/

theorem map_ok {ε α β : Type} (a : α) (f : α → β) : (.ok a : Except ε α).map f = .ok (f a) := rfl

/-- The two functions that move pages out of DRAM check the new offset before the old one. -/
theorem check_swap {ρ : Type} (a b a' b' : Bool) (f : Fault) (m : Except Fault ρ) :
    (check a f >>= fun _ => check b f >>= fun _ => check a' f >>= fun _ => check b' f >>= fun _ =>
        m) =
      check a' f >>= fun _ => check b' f >>= fun _ => check a f >>= fun _ => check b f >>= fun _ =>
        m := by
  cases a <;> cases b <;> cases a' <;> cases b' <;> rfl

variable {e : Entry} {x : MigRegs × St}

/-- The first loop and the last but one write `migrating`. -/
theorem runEntry_flag (ph : Phase) (b : Bool) (hcode : d.code ph = [.setMigrating b]) :
    runEntry cfg d (d.code ph) e x = (do
      let p ← deref e.page
      .ok (x.1, x.2.modPage p fun g => { g with migrating := b })) := by
  simp only [runEntry, hcode, List.foldlM, MigInstr.run, Lib.map_bind, map_ok, bind_assoc, ok_bind]
  rfl

/-- The statements of `hemem_wp_page` for one page. -/
theorem runEntry_protect :
    runEntry cfg d (d.code .protect) e x = (do
      let p ← deref e.page
      let s ← wpPage p x.2
      .ok (⟨(x.2.page p).va, ptToPagesize (x.2.page p).pt, x.1.old⟩, s)) := by
  cases hp : e.page with
  | none =>
    simp only [runEntry, Dir.code, List.foldlM, MigInstr.run, hp, deref]
    rfl
  | some p =>
    simp only [runEntry, Dir.code, List.foldlM, MigInstr.run, hp, deref, ok_bind, wpPage, map_ok,
      bind_assoc, Lib.map_bind]
    rfl

/-- Those of the first loop of `hemem_migrate_*`. -/
theorem runEntry_copy :
    runEntry cfg d (d.code .copy) e x = (do
      let p ← deref e.page
      let s ← copyPage cfg d.src d.dst (p, e.offset) x.2
      .ok (⟨x.1.addr, ptToPagesize (x.2.page p).pt, (x.2.page p).devdaxOffset⟩, s)) := by
  cases hp : e.page with
  | none =>
    cases d <;> simp only [runEntry, Dir.code, Dir.src, List.foldlM, MigInstr.run, hp, deref] <;>
      rfl
  | some p =>
    cases d <;> simp only [runEntry, Dir.code, Dir.src, Dir.dst, List.foldlM, MigInstr.run, hp,
      deref, ok_bind, copyPage, checkMove, map_ok, bind_assoc, Lib.map_bind]
    case dramToDram | dramToNvm =>
      rw [check_swap]
      rfl
    all_goals rfl

/-- Those of the second loop. -/
theorem runEntry_remap :
    runEntry cfg d (d.code .remap) e x = (do
      let p ← deref e.page
      let s ← remapPage d.dst (d.staleSize x.1.len) (bump d) (p, e.offset) x.2
      .ok (⟨(x.2.page p).va, remapLength (d.staleSize x.1.len) p x.2, x.1.old⟩, s)) := by
  cases hp : e.page with
  | none =>
    cases d <;> simp only [runEntry, Dir.code, List.foldlM, MigInstr.run, hp, deref] <;> rfl
  | some p =>
    cases d <;> simp only [runEntry, Dir.code, Dir.dst, Dir.staleSize, bump, List.foldlM,
      MigInstr.run, hp, deref, ok_bind, remapPage, remapLength, map_ok, bind_assoc, Lib.map_bind,
      modPage_then, Option.getD] <;> rfl

/-- Those of the loop that puts page and descriptor on their lists. -/
theorem runEntry_giveBack :
    runEntry cfg d (d.code .giveBack) e x = (do
      let s := x.2.modPage e.next fun g =>
        { g with devdaxOffset := e.offset, present := false, inDram := d.src.inDram }
      let s ← enqueueFifo (.mmap d.dst) e.page s
      let s ← enqueueFifo (.free d.src) (some e.next) s
      .ok (x.1, s)) := by
  cases hp : e.page with
  | none =>
    simp only [runEntry, Dir.code, List.foldlM, MigInstr.run, hp, deref]
    rfl
  | some p =>
    simp only [runEntry, Dir.code, List.foldlM, MigInstr.run, hp, deref, enqueueFifo, ok_bind,
      map_ok, modPage_then]
    rfl

/-! ## The loops -/

variable {es : List Entry} {ps : List PageId}

theorem runPhase_cons (ph : Phase) (e : Entry) (es : List Entry) (x : MigRegs × St) :
    runPhase cfg d ph (e :: es) x =
      runEntry cfg d (d.code ph) e x >>= fun y => runPhase cfg d ph es y :=
  List.foldlM_cons ..

/-- The first assignment to a page of the batch finds the entries that are `NULL`. -/
theorem runPhase_flag (ph : Phase) (b : Bool) (hcode : d.code ph = [.setMigrating b])
    (es : List Entry) (x : MigRegs × St) :
    runPhase cfg d ph es x = (do
      let ps ← (es.map Entry.page).mapM deref
      .ok (x.1, setMigrating b ps x.2)) := by
  induction es generalizing x with
  | nil => rfl
  | cons e es ih =>
    rw [runPhase_cons, runEntry_flag ph b hcode, List.map_cons, List.mapM_cons]
    simp only [bind_assoc, ok_bind, pure_bind, ih]
    rfl

/-- The pages of the entries. -/
abbrev PagesOf (es : List Entry) (ps : List PageId) : Prop :=
  List.Forall₂ (fun e p => e.page = some p) es ps

theorem pagesOf_mapM (h : (es.map Entry.page).mapM deref = .ok ps) : PagesOf es ps := by
  induction es generalizing ps with
  | nil =>
    obtain rfl := Except.ok.inj h
    exact .nil
  | cons e es ih =>
    rw [List.map_cons, List.mapM_cons] at h
    simp only [bind_eq_ok, deref_eq_ok] at h
    rcases h with ⟨p, hp, ps', hps, heq⟩
    obtain rfl := Except.ok.inj heq
    exact .cons hp (ih hps)

/-- The loop of `hemem_wp_page` over the batch. -/
theorem runPhase_protect (cfg : Config) (h : PagesOf es ps) (x : MigRegs × St) :
    (runPhase cfg d .protect es x).map Prod.snd = hememWpPage ps x.2 := by
  induction h generalizing x with
  | nil => rfl
  | @cons e p es ps hp _ ih =>
    rw [runPhase_cons, runEntry_protect, hp]
    simp only [deref, ok_bind, bind_assoc, Lib.map_bind, ih, hememWpPage]

/-- The first loop of `hemem_migrate_*`; the registers carry `pagesize` on. -/
theorem runPhase_copy (h : PagesOf es ps) (x : MigRegs × St) :
    (runPhase cfg d .copy es x).map (fun y => (y.1.len, y.2)) =
      copyLoop cfg d.src d.dst (ps.zip (es.map Entry.offset)) x.1.len x.2 := by
  induction h generalizing x with
  | nil => rfl
  | @cons e p es ps hp _ ih =>
    rw [runPhase_cons, runEntry_copy, hp]
    simp only [deref, ok_bind, bind_assoc, Lib.map_bind, ih, copyLoop, List.map_cons,
      List.zip_cons_cons]

/-- The second loop, with the `pagesize` that the first has left. -/
theorem runPhase_remap (cfg : Config) (h : PagesOf es ps) (x : MigRegs × St) :
    (runPhase cfg d .remap es x).map Prod.snd =
      remapLoop d.dst (d.staleSize x.1.len) (bump d) (ps.zip (es.map Entry.offset)) x.2 := by
  induction h generalizing x with
  | nil => rfl
  | @cons e p es ps hp _ ih =>
    have hstale : d.staleSize (remapLength (d.staleSize x.1.len) p x.2) = d.staleSize x.1.len := by
      cases d <;> rfl
    rw [runPhase_cons, runEntry_remap, hp]
    simp only [deref, ok_bind, bind_assoc, Lib.map_bind, ih, hstale, remapLoop, List.map_cons,
      List.zip_cons_cons]

/-- The last loop is that over the batch. -/
theorem runPhase_giveBack (es : List Entry) (x : MigRegs × St) :
    (runPhase cfg d .giveBack es x).map Prod.snd = enqueueBatch d es x.2 := by
  induction es generalizing x with
  | nil => rfl
  | cons e es ih =>
    rw [runPhase_cons, runEntry_giveBack]
    simp only [ok_bind, bind_assoc, Lib.map_bind, ih, enqueueBatch]

/-! ## An iteration -/

/-- The six loops. -/
def runBatch (cfg : Config) (d : Dir) (es : List Entry) (x : MigRegs × St) :
    Except Fault (MigRegs × St) := do
  let x ← runPhase cfg d .flag es x
  let x ← runPhase cfg d .protect es x
  let x ← runPhase cfg d .copy es x
  let x ← runPhase cfg d .remap es x
  let x ← runPhase cfg d .unflag es x
  runPhase cfg d .giveBack es x

/-- The five loops over a batch, one after another. -/
theorem runBatch_alone (d : Dir) (es : List Entry) (x : MigRegs × St) :
    MigDoes cfg numBatchs (.loop d .flag [] es (d.code .flag) x.1) x.2 (runBatch cfg d es x)
      fun y c => c = (.count d es.length, y.2) := by
  refine (runPhase_alone d .flag es x).bind ?_
  rintro x₁ _ - rfl
  refine .head rfl ((runPhase_alone d .protect es x₁).bind ?_)
  rintro x₂ _ - rfl
  refine .head rfl ((runPhase_alone d .copy es x₂).bind ?_)
  rintro x₃ _ - rfl
  refine .head rfl ((runPhase_alone d .remap es x₃).bind ?_)
  rintro x₄ _ - rfl
  refine .head rfl ((runPhase_alone d .unflag es x₄).bind ?_)
  rintro x₅ _ - rfl
  refine .head rfl ((runPhase_alone d .giveBack es x₅).andThen ?_)
  rintro x₆ _ rfl
  exact .head rfl (.ret rfl)

theorem map_then {ε α β δ : Type} (m : Except ε α) (g : α → β) (f : β → Except ε δ) :
    m.map g >>= f = m >>= fun a => f (g a) := by
  cases m <;> rfl

/-- The value that `pagesize` has before the first loop does not matter. -/
theorem hememMigrate_from (ms : List Move) (n : Nat) (s : St) :
    hememMigrate cfg d ms s = copyLoop cfg d.src d.dst ms n s >>= fun r =>
      remapLoop d.dst (d.staleSize r.1) (bump d) ms r.2 := by
  rw [hememMigrate_def]
  cases ms <;> rfl

/-- The six loops are those of `pebs_migrate_*` and `migration_request`. -/
theorem runBatch_eq (es : List Entry) (x : MigRegs × St) :
    (runBatch cfg d es x).map Prod.snd = (do
      let s ← pebsMigrate cfg d (es.map Entry.page) (es.map Entry.offset) x.2
      enqueueBatch d es s) := by
  simp only [runBatch, pebsMigrate_eq, pebsMigrateWith, runPhase_flag .flag true rfl,
    runPhase_flag .unflag false rfl, bind_assoc]
  cases hps : (es.map Entry.page).mapM deref with
  | error f => rfl
  | ok ps =>
    have h := pagesOf_mapM hps
    simp only [ok_bind, Lib.map_bind, runPhase_giveBack]
    rw [← runPhase_protect (d := d) cfg h (x.1, setMigrating true ps x.2), map_then]
    congr 1
    funext y
    rw [hememMigrate_from _ y.1.len, ← runPhase_copy h, map_then, bind_assoc]
    congr 1
    funext z
    rw [← runPhase_remap cfg h, map_then]

/-- A batch has as many entries as are asked for. -/
theorem length_dequeueBatch {n : Nat} (h : dequeueBatch d n s = .ok (es, s')) : es.length = n := by
  induction n generalizing s es with
  | zero =>
    obtain ⟨rfl, -⟩ := Prod.mk.inj (Except.ok.inj h)
    rfl
  | succ n ih =>
    simp only [dequeueBatch, bind_eq_ok, Prod.exists, Except.ok.injEq, Prod.mk.injEq] at h
    rcases h with ⟨p, -, es', s₁, hes, rfl, rfl⟩
    rw [List.length_cons, ih hes]

/-- One test of a loop of `migration_request`, with the batch it admits. -/
theorem migrationRequest_alone (cfg : Config) (numBatchs : Nat) (d : Dir) (s : St) :
    MigDoes cfg numBatchs (.test d) s (migrationRequest cfg numBatchs d s)
      fun s' c => c = (.test (if s.num (.queue d) = 0 then d.next else d), s') := by
  unfold migrationRequest
  by_cases hnum : s.num (.queue d) = 0
  · simp only [if_pos hnum]
    refine .head (b := (.test d.next, s)) ?_ (.ret rfl)
    simp only [migMachine, migStep, if_pos hnum]
    rfl
  · simp only [if_neg hnum]
    -- the test, the comparison and the read of the counter
    have hread : Reaches (migMachine cfg numBatchs) (.test d, s)
        (.dequeuePage d (batchSize numBatchs d s) [], s) := by
      refine .head (b := (.compare d, s)) ?_ ?_
      · simp only [migMachine, migStep, if_neg hnum]
        rfl
      · by_cases hmany : numBatchs < (s.num (.queue d)).toNat
        · rw [batchSize, if_pos hmany]
          refine .single ?_
          simp only [migMachine, migStep, if_pos hmany]
          rfl
        · rw [batchSize, if_neg hmany]
          refine .head (b := (.read d, s)) ?_ (.single rfl)
          simp only [migMachine, migStep, if_neg hmany]
          rfl
    refine CarriesOut.reaches hread ?_
    have hbatch : migrateBatch cfg numBatchs d s = (do
        let x ← dequeueBatch d (batchSize numBatchs d s) s
        let y ← runBatch cfg d x.1 (⟨0, 0, 0⟩, x.2)
        .ok (countBatch d (UInt64.ofNat (batchSize numBatchs d s)) y.2)) := by
      simp only [migrateBatch]
      congr 1
      funext x
      have hloops := map_then (runBatch cfg d x.1 (⟨0, 0, 0⟩, x.2)) Prod.snd fun s' =>
        (.ok (countBatch d (UInt64.ofNat (batchSize numBatchs d s)) s') : Except Fault St)
      rw [runBatch_eq, bind_assoc] at hloops
      exact hloops
    rw [hbatch]
    refine (dequeueBatch_alone d _ [] s).bind ?_
    rintro ⟨es, s₁⟩ _ hes rfl
    refine .head rfl ((runBatch_alone d es (⟨0, 0, 0⟩, s₁)).bind ?_)
    rintro y _ - rfl
    rw [length_dequeueBatch hes]
    exact .head rfl (.ret rfl)

end Hemem
