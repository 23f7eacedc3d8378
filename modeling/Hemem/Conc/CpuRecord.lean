import Mathlib.Data.UInt
import Hemem.Lib.Run
import Hemem.Lib.Telescope

/-!
# Hemem.Conc.CpuRecord — the utilisation records and the requests that start and stop them

`record_util` samples the cores one by one, computes what has changed since the sample before,
and writes a record for each core. The first samples after `record_run_request` are to serve as
a base only: the request sets `first`, and the recorder clears it when it has gone through the
cores once. But the flag is all there is, and it is cleared without a look at when it was set:
a request that comes while the cores are being scanned is taken for done although some cores
have their base from before it.

The recorder and the requester take their steps one by one in any order. The history has the
samples of each core and its records, with the number of run requests at the time of the
sample.
-/

namespace Hemem

open Lib

/-! ## The records -/

/-- `struct cpu_stat`; `interval` is not part of a sample. -/
structure CpuStat where
  usr : UInt64
  sys : UInt64
  nice : UInt64
  idle : UInt64
  wait : UInt64
  irq : UInt64
  softirq : UInt64
  steal : UInt64
  guest : UInt64
  interval : UInt64
deriving DecidableEq, Repr

/-- The nine fields of a sample together. -/
def CpuStat.total (s : CpuStat) : UInt64 :=
  s.usr + s.sys + s.nice + s.idle + s.wait + s.irq + s.softirq + s.steal + s.guest

/-- `cal_stat`, from `before[core]` and `after[core]`. -/
def calStat (before after : CpuStat) : CpuStat :=
  let usr := after.usr - before.usr
  let sys := after.sys - before.sys
  let nice := after.nice - before.nice
  let idle := after.idle - before.idle
  let wait := after.wait - before.wait
  let irq := after.irq - before.irq
  let softirq := after.softirq - before.softirq
  let steal := after.steal - before.steal
  let guest := after.guest - before.guest
  ⟨usr, sys, nice, idle, wait, irq, softirq, steal, guest,
    usr + sys + nice + idle + wait + irq + softirq + steal + guest⟩

/-- `cal_stat` writes the sum to both fields. -/
theorem calStat_interval_eq_total (a b : CpuStat) :
    (calStat a b).interval = (calStat a b).total := rfl

/-- The interval of a record is the difference of two totals. -/
theorem calStat_interval (a b : CpuStat) : (calStat a b).interval = b.total - a.total := by
  simp only [calStat, CpuStat.total]
  grind

/-! ## The steps -/

/-- Where `record_util` is. -/
inductive RecPc where
  /-- `if (running)` -/
  | test
  /-- the line of core `i` is read, and `before[i]` and `after[i]` move on -/
  | sample (i : Nat)
  /-- `if (first) continue;` and `cal_stat(i)` -/
  | check (i : Nat)
  /-- `if (first)` -/
  | testFirst
  /-- `first = 0` -/
  | clearFirst
  /-- `write_record()` -/
  | write
deriving DecidableEq, Repr

/-- The calls of the other thread. -/
inductive RecRequest where
  | run
  | stop
deriving DecidableEq, Repr

/-- An assignment to a flag. -/
inductive FlagAssign where
  | first
  | running (b : Bool)
deriving DecidableEq, Repr

/-- `record_run_request` and `record_stop_request`. -/
def RecRequest.code : RecRequest → List FlagAssign
  | .run => [.first, .running true]
  | .stop => [.running false]

/-- The two threads. `session` counts the assignments `first = 1`, and the samples and records
of a core are kept with its value at the time of the (last) sample. -/
structure Recording where
  first : Bool
  running : Bool
  pc : RecPc
  before : Nat → CpuStat
  after : Nat → CpuStat
  record : Nat → CpuStat
  todo : List FlagAssign
  session : Nat
  samples : Nat → List (Nat × CpuStat)
  written : Nat → List (Nat × CpuStat)

/-- The initial values of the variables; the arrays are zero. -/
def Recording.init : Recording where
  first := true
  running := false
  pc := .test
  before := fun _ => ⟨0, 0, 0, 0, 0, 0, 0, 0, 0, 0⟩
  after := fun _ => ⟨0, 0, 0, 0, 0, 0, 0, 0, 0, 0⟩
  record := fun _ => ⟨0, 0, 0, 0, 0, 0, 0, 0, 0, 0⟩
  todo := []
  session := 0
  samples := fun _ => []
  written := fun _ => []

/-- The head of the loop over the `n` cores. -/
def nextCore (n i : Nat) : RecPc := if i < n then .sample i else .testFirst

/-- The session of the last sample of a core. -/
def Recording.lastSession (x : Recording) (c : Nat) : Nat :=
  ((x.samples c).getLast?.map Prod.fst).getD 0

/-- One step of `record_util` with `n` cores; `s` is what `/proc/stat` says of the core that is
sampled. -/
def recorderStep (n : Nat) (s : CpuStat) (x : Recording) : Recording :=
  match x.pc with
  | .test => if x.running then { x with pc := nextCore n 0 } else x
  | .sample i =>
    { x with
      before := Function.update x.before i (x.after i)
      after := Function.update x.after i s
      samples := Function.update x.samples i (x.samples i ++ [(x.session, s)])
      pc := .check i }
  | .check i =>
    { x with
      record := if x.first then x.record
        else Function.update x.record i (calStat (x.before i) (x.after i))
      pc := nextCore n (i + 1) }
  | .testFirst => { x with pc := if x.first then .clearFirst else .write }
  | .clearFirst => { x with first := false, pc := .test }
  | .write =>
    { x with
      written := fun c =>
        if c < n then x.written c ++ [(x.lastSession c, x.record c)] else x.written c
      pc := .test }

/-- One assignment of the requester. -/
def requesterStep (x : Recording) : Recording :=
  match x.todo with
  | [] => x
  | .first :: todo => { x with first := true, session := x.session + 1, todo := todo }
  | .running b :: todo => { x with running := b, todo := todo }

inductive RecLabel where
  /-- the recorder takes its next step -/
  | record (s : CpuStat)
  /-- the requester, if it is not in a call, calls -/
  | call (r : RecRequest)
  /-- the requester takes its next step -/
  | request
deriving DecidableEq, Repr

/-- One step of the two threads; none stops them. -/
def recordingStep (n : Nat) (lbl : RecLabel) (x : Recording) : Except Empty Recording :=
  match lbl with
  | .record s => .ok (recorderStep n s x)
  | .call r => .ok (if x.todo = [] then { x with todo := r.code } else x)
  | .request => .ok (requesterStep x)

/-! ## What is recorded -/

/-- Each record of a core is the difference of two consecutive samples of it, with no run
request in between, and its interval is the sum of the nine differences; between two iterations,
the intervals of a session add up to what has passed from its first to its last sample. -/
structure Recorded (n : Nat) (x : Recording) : Prop where
  differences : ∀ c, ∀ w ∈ x.written c, ∃ pre a b post,
    x.samples c = pre ++ (w.1, a) :: (w.1, b) :: post ∧ w.2 = calStat a b
  intervals : ∀ c, ∀ w ∈ x.written c, w.2.interval = w.2.total
  sessions : x.pc = .test → ∀ c < n, ∀ t a b,
    ((x.samples c).filter fun s => s.1 = t).head? = some a →
    ((x.samples c).filter fun s => s.1 = t).getLast? = some b →
    (((x.written c).filter fun w => w.1 = t).map fun w => w.2.interval).sum =
      b.2.total - a.2.total

/-- From the first sample of an iteration until `first` has been tested and, if set, cleared. -/
def RecPc.scanning : RecPc → Bool
  | .test | .write => false
  | .sample i => decide (0 < i)
  | .check _ | .testFirst | .clearFirst => true

/-- `first = 1` does not come while the recorder is scanning. -/
def Undisturbed (x : Recording) (lbl : RecLabel) : Prop :=
  lbl = .request → x.todo.head? = some .first → x.pc.scanning = false

instance (x : Recording) (lbl : RecLabel) : Decidable (Undisturbed x lbl) :=
  inferInstanceAs (Decidable (_ → _ → _))

/-! ## The invariant -/

/-- Core `c` has been sampled in this iteration. -/
def RecPc.sampled (c : Nat) : RecPc → Prop
  | .test => False
  | .sample i => c < i
  | .check i => c ≤ i
  | .testFirst | .clearFirst | .write => True

/-- `cal_stat` has had its turn on core `c` in this iteration. -/
def RecPc.checked (c : Nat) : RecPc → Prop
  | .test => False
  | .sample i | .check i => c < i
  | .testFirst | .clearFirst | .write => True

/-- How far the samples and the records of core `c` have come. -/
inductive CoreAt (x : Recording) (c : Nat) : Prop where
  /-- not sampled since the request -/
  | fresh (pc : ¬ x.pc.sampled c) (first : x.first = true)
      (old : ∀ s ∈ x.samples c, s.1 < x.session)
      (written : x.written c = diffsWithin calStat (x.samples c))
  /-- its last sample is of the session -/
  | current (past : List (Nat × CpuStat)) (a : CpuStat) (pc : ¬ x.pc.sampled c)
      (first : x.first = false) (samples : x.samples c = past ++ [(x.session, a)])
      (after : x.after c = a) (written : x.written c = diffsWithin calStat (x.samples c))
  /-- the base of the session has just been sampled -/
  | base (past : List (Nat × CpuStat)) (a : CpuStat) (pc : x.pc.sampled c)
      (scanning : x.pc ≠ .write) (first : x.first = true)
      (samples : x.samples c = past ++ [(x.session, a)])
      (old : ∀ s ∈ past, s.1 < x.session) (after : x.after c = a)
      (written : x.written c = diffsWithin calStat past)
  /-- there is a new sample that has no record yet -/
  | sampled (past : List (Nat × CpuStat)) (a b : CpuStat) (pc : x.pc.sampled c)
      (scanning : x.pc ≠ .write) (first : x.first = false)
      (samples : x.samples c = past ++ [(x.session, a)] ++ [(x.session, b)])
      (before : x.before c = a) (after : x.after c = b)
      (record : x.pc.checked c → x.record c = calStat a b)
      (written : x.written c = diffsWithin calStat (past ++ [(x.session, a)]))
  /-- the record of the new sample is about to be written, while the next session may begin -/
  | computed (past : List (Nat × CpuStat)) (t : Nat) (a b : CpuStat) (pc : x.pc = .write)
      (samples : x.samples c = past ++ [(t, a)] ++ [(t, b)]) (after : x.after c = b)
      (record : x.record c = calStat a b)
      (written : x.written c = diffsWithin calStat (past ++ [(t, a)]))
      (session : x.first = false ∧ t = x.session ∨
        x.first = true ∧ ∀ s ∈ x.samples c, s.1 < x.session)

structure RecInv (n : Nat) (x : Recording) : Prop where
  core : ∀ c < n, CoreAt x c
  outside : ∀ c, n ≤ c → x.written c = []
  clearing : x.pc = .clearFirst → x.first = true
  sorted : ∀ c, ((x.samples c).map Prod.fst).Pairwise (· ≤ ·)
  le_session : ∀ c, ∀ s ∈ x.samples c, s.1 ≤ x.session

variable {n : Nat} {x y : Recording}

/-- What has been written of a core is about its samples but, possibly, the last one. -/
theorem CoreAt.written_eq {c : Nat} (h : CoreAt x c) :
    ∃ past rest, x.samples c = past ++ rest ∧ x.written c = diffsWithin calStat past ∧
      (x.pc = .test → rest = []) := by
  cases h with
  | fresh _ _ _ written => exact ⟨_, [], (List.append_nil _).symm, written, fun _ => rfl⟩
  | current _ _ _ _ _ _ written =>
    exact ⟨_, [], (List.append_nil _).symm, written, fun _ => rfl⟩
  | base _ _ pc _ _ samples _ _ written =>
    refine ⟨_, _, samples, written, fun htest => ?_⟩
    rw [htest] at pc
    cases pc
  | sampled _ _ _ pc _ _ samples _ _ _ written =>
    refine ⟨_, _, samples, written, fun htest => ?_⟩
    rw [htest] at pc
    cases pc
  | computed _ _ _ _ pc samples _ _ written =>
    refine ⟨_, _, samples, written, fun htest => ?_⟩
    rw [htest] at pc
    cases pc

/-- The invariant says of every record that it lies within its session. -/
theorem RecInv.recorded (h : RecInv n x) : Recorded n x := by
  have hdiff : ∀ c, ∀ w ∈ x.written c, ∃ pre a b post,
      x.samples c = pre ++ (w.1, a) :: (w.1, b) :: post ∧ w.2 = calStat a b := by
    intro c w hw
    by_cases hc : c < n
    · rcases (h.core c hc).written_eq with ⟨past, rest, hsamples, hwritten, -⟩
      rw [hwritten] at hw
      rcases mem_diffsWithin hw with ⟨pre, a, b, post, rfl, hstat⟩
      refine ⟨pre, a, b, post ++ rest, ?_, hstat⟩
      rw [hsamples]
      simp
    · rw [h.outside c (Nat.le_of_not_lt hc)] at hw
      cases hw
  constructor
  · exact hdiff
  · intro c w hw
    rcases hdiff c w hw with ⟨-, a, b, -, -, hstat⟩
    rw [hstat, calStat_interval_eq_total]
  · intro htest c hc t a b ha hb
    rcases (h.core c hc).written_eq with ⟨past, rest, hsamples, hwritten, hrest⟩
    -- between two iterations the records are about all samples
    rw [hrest htest, List.append_nil] at hsamples
    rw [hwritten, ← hsamples]
    exact sum_diffsWithin CpuStat.total CpuStat.interval calStat_interval (h.sorted c) ha hb

/-! ## The steps of the recorder -/

/-- A step that leaves the core alone. -/
theorem CoreAt.congr {c : Nat} (h : CoreAt x c) (hsampled : y.pc.sampled c ↔ x.pc.sampled c)
    (hwrite : y.pc = .write ↔ x.pc = .write) (hchecked : y.pc.checked c → x.pc.checked c)
    (hfirst : y.first = x.first) (hsession : y.session = x.session)
    (hsamples : y.samples c = x.samples c) (hwritten : y.written c = x.written c)
    (hbefore : y.before c = x.before c) (hafter : y.after c = x.after c)
    (hrecord : y.record c = x.record c) : CoreAt y c := by
  cases h with
  | fresh pc first old written =>
    refine .fresh (mt hsampled.mp pc) (hfirst.trans first) ?_ ?_
    · rw [hsamples, hsession]
      exact old
    · rw [hwritten, hsamples, written]
  | current past a pc first samples after written =>
    refine .current past a (mt hsampled.mp pc) (hfirst.trans first) ?_ (hafter.trans after) ?_
    · rw [hsamples, hsession, samples]
    · rw [hwritten, hsamples, written]
  | base past a pc scanning first samples old after written =>
    refine .base past a (hsampled.mpr pc) (mt hwrite.mp scanning) (hfirst.trans first) ?_ ?_
      (hafter.trans after) (hwritten.trans written)
    · rw [hsamples, hsession, samples]
    · rw [hsession]
      exact old
  | sampled past a b pc scanning first samples before after record written =>
    refine .sampled past a b (hsampled.mpr pc) (mt hwrite.mp scanning) (hfirst.trans first) ?_
      (hbefore.trans before) (hafter.trans after) ?_ ?_
    · rw [hsamples, hsession, samples]
    · intro hc
      rw [hrecord, record (hchecked hc)]
    · rw [hwritten, hsession, written]
  | computed past t a b pc samples after record written session =>
    refine .computed past t a b (hwrite.mpr pc) (hsamples.trans samples) (hafter.trans after)
      (hrecord.trans record) (hwritten.trans written) ?_
    rw [hfirst, hsession, hsamples]
    exact session

/-- A scan does not go on with the writing. -/
theorem nextCore_ne_write (n i : Nat) : nextCore n i ≠ .write := by
  unfold nextCore
  split <;> exact fun h => by cases h

theorem nextCore_ne_clearFirst (n i : Nat) : nextCore n i ≠ .clearFirst := by
  unfold nextCore
  split <;> exact fun h => by cases h

/-- The cores before the next one have been sampled. -/
theorem nextCore_sampled {c : Nat} (hc : c < n) (i : Nat) : (nextCore n i).sampled c ↔ c < i := by
  unfold nextCore
  split
  · exact Iff.rfl
  · exact iff_of_true trivial (by omega)

/-- The same in the check for the first record. -/
theorem nextCore_checked {c : Nat} (hc : c < n) (i : Nat) : (nextCore n i).checked c ↔ c < i := by
  unfold nextCore
  split
  · exact Iff.rfl
  · exact iff_of_true trivial (by omega)

/-- Core `i` gets a new sample. -/
theorem CoreAt.sample {i : Nat} (h : CoreAt x i) (hpc : x.pc = .sample i) (s : CpuStat) :
    CoreAt (recorderStep n s x) i := by
  have hstep : recorderStep n s x =
      { x with
        before := Function.update x.before i (x.after i)
        after := Function.update x.after i s
        samples := Function.update x.samples i (x.samples i ++ [(x.session, s)])
        pc := .check i } := by
    simp only [recorderStep, hpc]
  have hnot : ¬ x.pc.sampled i := by
    rw [hpc]
    exact Nat.lt_irrefl i
  rw [hstep]
  -- the core has not been reached in this scan: its record is of none or of an earlier one
  cases h with
  | fresh _ first old written =>
    refine .base (x.samples i) s (Nat.le_refl i) (fun h => by cases h) first
      (Function.update_self ..) old (Function.update_self ..) written
  | current past a _ first samples after written =>
    refine .sampled past a s (Nat.le_refl i) (fun h => by cases h) first ?_ ?_
      (Function.update_self ..) (fun hlt => absurd hlt (Nat.lt_irrefl i)) ?_
    · exact (Function.update_self ..).trans (congrArg (· ++ [(x.session, s)]) samples)
    · exact (Function.update_self ..).trans after
    · exact written.trans (congrArg (diffsWithin calStat) samples)
  | base _ _ pc => exact absurd pc hnot
  | sampled _ _ _ pc => exact absurd pc hnot
  | computed _ _ _ _ pc =>
    rw [hpc] at pc
    cases pc

/-- The record of core `i` is computed, unless the sample is a base. -/
theorem CoreAt.check {i : Nat} (h : CoreAt x i) (hpc : x.pc = .check i) (hi : i < n) (s : CpuStat) :
    CoreAt (recorderStep n s x) i := by
  have hstep : recorderStep n s x =
      { x with
        record := if x.first then x.record
          else Function.update x.record i (calStat (x.before i) (x.after i))
        pc := nextCore n (i + 1) } := by
    simp only [recorderStep, hpc]
  have hsampled : x.pc.sampled i := by
    rw [hpc]
    exact Nat.le_refl i
  have hnext : (nextCore n (i + 1)).sampled i := (nextCore_sampled hi _).mpr (Nat.lt_succ_self i)
  rw [hstep]
  cases h with
  | fresh pc => exact absurd hsampled pc
  | current _ _ pc => exact absurd hsampled pc
  | base past a _ _ first samples old after written =>
    exact .base past a hnext (nextCore_ne_write _ _) first samples old after written
  | sampled past a b _ _ first samples before after _ written =>
    refine .sampled past a b hnext (nextCore_ne_write _ _) first samples before after
      (fun _ => ?_) written
    rw [first]
    exact (Function.update_self ..).trans (by rw [before, after])
  | computed _ _ _ _ pc =>
    rw [hpc] at pc
    cases pc

/-- An older sample before the base makes no difference. -/
theorem diffsWithin_base {past : List (Nat × CpuStat)} {t : Nat} (a : CpuStat)
    (old : ∀ s ∈ past, s.1 < t) :
    diffsWithin calStat (past ++ [(t, a)]) = diffsWithin calStat past := by
  rcases List.eq_nil_or_concat past with rfl | ⟨past, b, rfl⟩
  · rfl
  · have hb : b.1 ≠ t := Nat.ne_of_lt (old b (by simp))
    rw [List.concat_eq_append, diffsWithin_concat, if_neg hb, List.append_nil]

/-- The flag is cleared: the base has been taken. -/
theorem CoreAt.clear {c : Nat} (h : CoreAt x c) (hpc : x.pc = .clearFirst)
    (hfirst : x.first = true) : CoreAt { x with first := false, pc := .test } c := by
  have hsampled : x.pc.sampled c := by
    rw [hpc]
    trivial
  cases h with
  | fresh pc => exact absurd hsampled pc
  | current _ _ pc => exact absurd hsampled pc
  | base past a _ _ _ samples old after written =>
    refine .current past a id rfl samples after ?_
    exact (written.trans (diffsWithin_base a old).symm).trans
      (congrArg (diffsWithin calStat) samples.symm)
  | sampled _ _ _ _ _ first =>
    rw [hfirst] at first
    cases first
  | computed _ _ _ _ pc =>
    rw [hpc] at pc
    cases pc

/-- The record is written. -/
theorem CoreAt.write {c : Nat} (h : CoreAt x c) (hpc : x.pc = .write) (hc : c < n) (s : CpuStat) :
    CoreAt (recorderStep n s x) c := by
  have hstep : recorderStep n s x =
      { x with
        written := fun c =>
          if c < n then x.written c ++ [(x.lastSession c, x.record c)] else x.written c
        pc := .test } := by
    simp only [recorderStep, hpc]
  have hsampled : x.pc.sampled c := by
    rw [hpc]
    trivial
  rw [hstep]
  -- every core has been read and its record computed
  cases h with
  | fresh pc => exact absurd hsampled pc
  | current _ _ pc => exact absurd hsampled pc
  | base _ _ _ scanning => exact absurd hpc scanning
  | sampled _ _ _ _ scanning => exact absurd hpc scanning
  | computed past t a b _ samples after record written session =>
    have hlast : x.lastSession c = t := by
      simp [Recording.lastSession, samples]
    have hwritten : x.written c ++ [(x.lastSession c, x.record c)] =
        diffsWithin calStat (x.samples c) := by
      rw [samples, diffsWithin_concat, if_pos rfl, hlast, record, written]
    rcases session with ⟨first, rfl⟩ | ⟨first, old⟩
    · exact .current (past ++ [(x.session, a)]) b id first samples after
        ((if_pos hc).trans hwritten)
    · exact .fresh id first old ((if_pos hc).trans hwritten)

/-- The scan has found the flag clear. -/
theorem CoreAt.testFirst {c : Nat} (h : CoreAt x c) (hpc : x.pc = .testFirst)
    (hfirst : x.first = false) : CoreAt { x with pc := .write } c := by
  have hsampled : x.pc.sampled c := by
    rw [hpc]
    trivial
  cases h with
  | fresh pc => exact absurd hsampled pc
  | current _ _ pc => exact absurd hsampled pc
  | base _ _ _ _ first =>
    rw [hfirst] at first
    cases first
  | sampled past a b _ _ _ samples _ after record written =>
    have hchecked : x.pc.checked c := by
      rw [hpc]
      trivial
    exact .computed past x.session a b rfl samples after (record hchecked) written
      (Or.inl ⟨hfirst, rfl⟩)
  | computed _ _ _ _ pc =>
    rw [hpc] at pc
    cases pc

/-- The test of `record_run` keeps the invariant. -/
theorem RecInv.testStep (h : RecInv n x) (hpc : x.pc = .test) (s : CpuStat) :
    RecInv n (recorderStep n s x) := by
  have hstep : recorderStep n s x = if x.running then { x with pc := nextCore n 0 } else x := by
    simp only [recorderStep, hpc]
  rw [hstep]
  split
  · refine ⟨fun c hc => ?_, h.outside, fun hclear => ?_, h.sorted, h.le_session⟩
    · refine (h.core c hc).congr ?_ ?_ ?_ rfl rfl rfl rfl rfl rfl rfl
      · rw [hpc]
        exact (nextCore_sampled hc 0).trans (iff_of_false (Nat.not_lt_zero c) id)
      · rw [hpc]
        exact iff_of_false (nextCore_ne_write n 0) fun h => by cases h
      · intro hchecked
        exact absurd ((nextCore_checked hc 0).mp hchecked) (Nat.not_lt_zero c)
    · exact absurd hclear (nextCore_ne_clearFirst n 0)
  · exact h

/-- So does the sampling of a core. -/
theorem RecInv.sampleStep (h : RecInv n x) {i : Nat} (hpc : x.pc = .sample i) (s : CpuStat) :
    RecInv n (recorderStep n s x) := by
  have hstep : recorderStep n s x =
      { x with
        before := Function.update x.before i (x.after i)
        after := Function.update x.after i s
        samples := Function.update x.samples i (x.samples i ++ [(x.session, s)])
        pc := .check i } := by
    simp only [recorderStep, hpc]
  constructor
  case core =>
    intro c hc
    by_cases hci : c = i
    · rw [hci] at hc ⊢
      exact (h.core i hc).sample hpc s
    · rw [hstep]
      refine (h.core c hc).congr ?_ ?_ ?_ rfl rfl (Function.update_of_ne hci ..) rfl
        (Function.update_of_ne hci ..) (Function.update_of_ne hci ..) rfl
      · rw [hpc]
        exact Nat.le_iff_lt_or_eq.trans (or_iff_left hci)
      · rw [hpc]
        exact iff_of_false (fun h => by cases h) fun h => by cases h
      · rw [hpc]
        exact id
  case outside =>
    rw [hstep]
    exact h.outside
  case clearing =>
    rw [hstep]
    exact fun hclear => by cases hclear
  case sorted =>
    intro c
    rw [hstep]
    dsimp only
    by_cases hci : c = i
    · subst hci
      -- The sample goes to the end of its core's list, and no session is later than the current
      -- one.
      rw [Function.update_self, List.map_append, List.pairwise_append]
      refine ⟨h.sorted c, List.pairwise_singleton _ _, fun t ht u hu => ?_⟩
      rcases List.mem_map.mp ht with ⟨a, ha, rfl⟩
      obtain rfl := List.mem_singleton.mp hu
      exact h.le_session c a ha
    · rw [Function.update_of_ne hci]
      exact h.sorted c
  case le_session =>
    intro c
    rw [hstep]
    dsimp only
    by_cases hci : c = i
    · subst hci
      rw [Function.update_self]
      intro a ha
      rcases List.mem_append.mp ha with ha | ha
      · exact h.le_session c a ha
      · obtain rfl := List.mem_singleton.mp ha
        exact Nat.le_refl _
    · rw [Function.update_of_ne hci]
      exact h.le_session c

/-- The check whether a core has its first record. -/
theorem RecInv.checkStep (h : RecInv n x) {i : Nat} (hpc : x.pc = .check i) (s : CpuStat) :
    RecInv n (recorderStep n s x) := by
  have hstep : recorderStep n s x =
      { x with
        record := if x.first then x.record
          else Function.update x.record i (calStat (x.before i) (x.after i))
        pc := nextCore n (i + 1) } := by
    simp only [recorderStep, hpc]
  constructor
  case core =>
    intro c hc
    -- core `i` gets its record, the others keep theirs
    by_cases hci : c = i
    · rw [hci] at hc ⊢
      exact (h.core i hc).check hpc hc s
    · rw [hstep]
      refine (h.core c hc).congr ?_ ?_ ?_ rfl rfl rfl rfl rfl rfl ?_
      · rw [hpc]
        exact (nextCore_sampled hc (i + 1)).trans Nat.lt_succ_iff
      · rw [hpc]
        exact iff_of_false (nextCore_ne_write n (i + 1)) fun h => by cases h
      · rw [hpc]
        intro hchecked
        exact Nat.lt_of_le_of_ne (Nat.lt_succ_iff.mp ((nextCore_checked hc _).mp hchecked)) hci
      · dsimp only
        split
        · rfl
        · exact Function.update_of_ne hci ..
  case outside =>
    rw [hstep]
    exact h.outside
  case clearing =>
    rw [hstep]
    exact fun hclear => absurd hclear (nextCore_ne_clearFirst n (i + 1))
  case sorted =>
    rw [hstep]
    exact h.sorted
  case le_session =>
    rw [hstep]
    exact h.le_session

/-- The test whether this is the first scan of the session. -/
theorem RecInv.testFirstStep (h : RecInv n x) (hpc : x.pc = .testFirst) (s : CpuStat) :
    RecInv n (recorderStep n s x) := by
  have hstep : recorderStep n s x = { x with pc := if x.first then .clearFirst else .write } := by
    simp only [recorderStep, hpc]
  rw [hstep]
  by_cases hfirst : x.first = true
  · rw [if_pos hfirst]
    refine ⟨fun c hc => ?_, h.outside, fun _ => hfirst, h.sorted, h.le_session⟩
    refine (h.core c hc).congr ?_ ?_ ?_ rfl rfl rfl rfl rfl rfl rfl
    · rw [hpc]
      exact Iff.rfl
    · rw [hpc]
      exact iff_of_false (fun h => by cases h) fun h => by cases h
    · rw [hpc]
      exact id
  · rw [if_neg hfirst]
    refine ⟨fun c hc => ?_, h.outside, (fun hclear => by cases hclear), h.sorted, h.le_session⟩
    exact (h.core c hc).testFirst hpc (Bool.eq_false_iff.mpr hfirst)

/-- Every statement of the recorder keeps the invariant. -/
theorem RecInv.recorderStep (h : RecInv n x) (s : CpuStat) : RecInv n (recorderStep n s x) := by
  cases hpc : x.pc with
  | test => exact h.testStep hpc s
  | sample i => exact h.sampleStep hpc s
  | check i => exact h.checkStep hpc s
  | testFirst => exact h.testFirstStep hpc s
  | clearFirst =>
    have hstep : Hemem.recorderStep n s x = { x with first := false, pc := .test } := by
      simp only [Hemem.recorderStep, hpc]
    rw [hstep]
    refine ⟨fun c hc => ?_, h.outside, (fun hclear => by cases hclear), h.sorted, h.le_session⟩
    exact (h.core c hc).clear hpc (h.clearing hpc)
  | write =>
    refine ⟨fun c hc => (h.core c hc).write hpc hc s, ?_, ?_, ?_, ?_⟩
    all_goals simp only [Hemem.recorderStep, hpc]
    · intro c hc
      rw [if_neg (Nat.not_lt_of_le hc)]
      exact h.outside c hc
    · exact fun hclear => by cases hclear
    · exact h.sorted
    · exact h.le_session

/-! ## The steps of the requester -/

/-- A run request begins while the recorder is not scanning. -/
theorem CoreAt.request {c : Nat} (h : CoreAt x c) (hpc : x.pc.scanning = false)
    (hle : ∀ s ∈ x.samples c, s.1 ≤ x.session) (todo : List FlagAssign) :
    CoreAt { x with first := true, session := x.session + 1, todo := todo } c := by
  have hold : ∀ s ∈ x.samples c, s.1 < x.session + 1 := fun s hs => Nat.lt_succ_of_le (hle s hs)
  -- the recorder is not scanning: no core has been sampled, unless the records are about to be
  -- written
  have hnot : x.pc ≠ .write → ¬ x.pc.sampled c := by
    intro hne hsampled
    cases hx : x.pc <;> rw [hx] at hpc hne hsampled
    case test => exact hsampled
    case sample i =>
      have hzero : ¬ 0 < i := of_decide_eq_false hpc
      exact hzero (Nat.lt_of_le_of_lt (Nat.zero_le c) hsampled)
    case write => exact hne rfl
    all_goals cases hpc
  cases h with
  | fresh pc _ _ written => exact .fresh pc rfl hold written
  | current _ _ pc _ _ _ written => exact .fresh pc rfl hold written
  | base _ _ pc scanning => exact absurd pc (hnot scanning)
  | sampled _ _ _ pc scanning => exact absurd pc (hnot scanning)
  | computed past t a b pc samples after record written =>
    -- the records of the old session are still written, and the next iteration takes the new base
    exact .computed past t a b pc samples after record written (Or.inr ⟨rfl, hold⟩)

/-- So does every step of the system in which no session begins while a scan is under way. -/
theorem RecInv.step (h : RecInv n x) {lbl : RecLabel} (hlbl : Undisturbed x lbl)
    (hstep : recordingStep n lbl x = .ok y) : RecInv n y := by
  cases lbl with
  | record s =>
    cases hstep
    exact h.recorderStep s
  | call r =>
    cases hstep
    split
    · exact ⟨fun c hc => (h.core c hc).congr Iff.rfl Iff.rfl id rfl rfl rfl rfl rfl rfl rfl,
        h.outside, h.clearing, h.sorted, h.le_session⟩
    · exact h
  | request =>
    cases hstep
    unfold requesterStep
    split
    · exact h
    · rename_i todo htodo
      have hquiet := hlbl rfl (by rw [htodo]; rfl)
      refine ⟨fun c hc => (h.core c hc).request hquiet (h.le_session c) todo, h.outside, ?_,
        h.sorted, fun c s hs => Nat.le_succ_of_le (h.le_session c s hs)⟩
      exact fun _ => rfl
    · exact ⟨fun c hc => (h.core c hc).congr Iff.rfl Iff.rfl id rfl rfl rfl rfl rfl rfl rfl,
        h.outside, h.clearing, h.sorted, h.le_session⟩

/-- Before the first session nothing is recorded. -/
theorem recInv_init (n : Nat) : RecInv n .init where
  core := fun c _ => .fresh id rfl (fun s hs => by cases hs) rfl
  outside := fun _ _ => rfl
  clearing := fun _ => rfl
  sorted := fun _ => List.Pairwise.nil
  le_session := fun _ s hs => by cases hs

/-! ## Runs -/

/-- As long as no session begins while a scan of the one before is under way, every record that is
written, of any core and in any interleaving of recorder and requester, is the difference of two
samples of its own session. -/
theorem records_within_session (n : Nat) (labels : List RecLabel)
    (h : Along (recordingStep n) Undisturbed labels .init) :
    Throughout (recordingStep n) (Recorded n) labels .init := by
  have hinv : Throughout (recordingStep n) (RecInv n) labels .init :=
    throughout_of_along (fun _ _ _ hx hlbl hstep => hx.step hlbl hstep) (recInv_init n) h
  exact hinv.imp fun _ hx => hx.recorded

/-- `SCAN_CORE_MAX` -/
def scanCoreMax : Nat := 7

/-- What `/proc/stat` says of a core that has been idle for `t`. -/
def CpuStat.idleFor (t : UInt64) : CpuStat := ⟨0, 0, 0, t, 0, 0, 0, 0, 0, 0⟩

/-- The recorder takes `k` steps, while the cores are idle. -/
def idleSteps (k : Nat) (t : UInt64) : List RecLabel := .replicate k (.record (.idleFor t))

/-- A whole call of the requester. -/
def RecRequest.labels (r : RecRequest) : List RecLabel := .call r :: r.code.map fun _ => .request

/-- Two sessions of two iterations each. -/
def twoSessions : List RecLabel :=
  RecRequest.run.labels ++ idleSteps 17 10 ++ idleSteps 17 13 ++ RecRequest.stop.labels ++
    idleSteps 2 15 ++ RecRequest.run.labels ++ idleSteps 17 20 ++ idleSteps 17 25

/-- Two sessions, the second after the recorder has seen the end of the first: no record reaches
over the gap. -/
theorem records_within_session_two :
    Throughout (recordingStep scanCoreMax) (Recorded scanCoreMax) twoSessions .init ∧
      (runs (recordingStep scanCoreMax) twoSessions .init).map
        (fun x => (x.written 6).map fun w => (w.1, w.2.interval)) = .ok [(1, 3), (2, 5)] :=
  ⟨records_within_session scanCoreMax twoSessions (by decide +kernel), rfl⟩

/-- Recording is stopped and started again after the first core of an iteration. -/
def lostRestart : List RecLabel :=
  RecRequest.run.labels ++ idleSteps 17 10 ++ idleSteps 3 13 ++ RecRequest.stop.labels ++
    RecRequest.run.labels ++ idleSteps 14 20 ++ idleSteps 17 25

/-- The first core has one sample of the second session, and a record. -/
theorem records_within_session_fails_restart :
    ¬ Throughout (recordingStep scanCoreMax) (Recorded scanCoreMax) lostRestart .init := by
  refine not_throughout_of_map
    (f := fun x => ((x.samples 0).map Prod.fst, (x.written 0).map Prod.fst))
    (b := ([1, 1, 2], [2])) rfl fun x hx hrecorded => ?_
  have hsample : (x.samples 0).map Prod.fst = [1, 1, 2] := (Prod.ext_iff.mp hx).1
  have hwritten : (x.written 0).map Prod.fst = [2] := (Prod.ext_iff.mp hx).2
  have hmem : 2 ∈ (x.written 0).map Prod.fst := by
    rw [hwritten]
    decide
  rcases List.mem_map.mp hmem with ⟨w, hw, htag⟩
  rcases hrecorded.differences 0 w hw with ⟨pre, a, b, post, hsamples, -⟩
  have htags := congrArg (List.count 2) hsample
  simp only [hsamples, List.map_append, List.map_cons, htag, List.count_append,
    List.count_cons_self] at htags
  have hone : List.count 2 [1, 1, 2] = 1 := by decide
  omega

end Hemem
