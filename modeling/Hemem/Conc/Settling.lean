import Hemem.Conc.Locked
import Hemem.Conc.Queues
import Hemem.Conc.Returns

/-!
# Hemem.Conc.Settling — when no more calls begin, the queues run empty

After the last call has begun, every thread returns from the call that it is in, and from then
on only the migration thread changes anything. It goes round its four loops, and in each of
them it takes pages from the queue as long as there are any: either there are fewer pages on
the queues after a step, or the thread is closer to the next page that it takes.
-/

namespace Hemem

open Lib

variable {cfg : Config} {s s' : St}

/-! ## The migration thread -/

/-- The pages on the four queues. -/
def St.waiting (s : St) : Nat :=
  (s.list dramToDramList).length + (s.list dramToNvmList).length +
    (s.list nvmToDramList).length + (s.list nvmToNvmList).length

/-- The loops that come before the next one with a page on its queue. -/
def St.loopsAhead (s : St) (d : Dir) : Nat :=
  if s.list (.queue d) ≠ [] then 0
  else if s.list (.queue d.next) ≠ [] then 1
  else if s.list (.queue d.next.next) ≠ [] then 2
  else 3

/-- The loops of an iteration that come after this one. -/
def Phase.left : Phase → Nat
  | .flag => 5
  | .protect => 4
  | .copy => 3
  | .remap => 2
  | .unflag => 1
  | .giveBack => 0

/-- How far the migration thread is from the next page that it takes from a queue. An iteration
without pages, which a counter of 0 leads to, comes before all others. -/
def Mpc.stage (s : St) : Mpc → Nat
  | .compare d => if s.num (.queue d) = 0 then 19 else 3
  | .read d => if s.num (.queue d) = 0 then 18 else 2
  | .dequeueFree .. => 17
  | .readFree .. => 16
  | .dequeuePage _ left _ => if left = 0 then 15 else 0
  | .loop _ ph _ _ _ _ => 9 + ph.left
  | .count _ _ => 8
  | .test d => 4 + s.loopsAhead d

/-- In a loop, the entries and statements that are left. -/
def Mpc.entriesLeft : Mpc → Nat
  | .loop _ _ _ todo _ _ => todo.length
  | _ => 0

def Mpc.codeLeft : Mpc → Nat
  | .loop _ _ _ _ code _ => code.length
  | _ => 0

def migRank (s : St) (m : Mpc) : Rank := rankOf s.waiting (m.stage s) m.entriesLeft m.codeLeft

/-- Only the queues matter. -/
theorem waiting_congr (h : ∀ d, s'.list (.queue d) = s.list (.queue d)) :
    s'.waiting = s.waiting := by
  simp only [St.waiting, dramToDramList, dramToNvmList, nvmToDramList, nvmToNvmList, h]

/-- A page that is dequeued waits no more. -/
theorem waiting_setList {d : Dir} {p : PageId} {rest : List PageId}
    (h : s.list (.queue d) = p :: rest) :
    (s.setList (.queue d) rest).waiting + 1 = s.waiting := by
  cases d <;>
    · simp [St.waiting, h]
      omega

/-- There are four loops. -/
theorem loopsAhead_le (s : St) (d : Dir) : s.loopsAhead d ≤ 3 := by
  unfold St.loopsAhead
  split_ifs <;> omega

/-- Past a loop without pages there is one loop less ahead, if there are pages at all. -/
theorem loopsAhead_next {d e : Dir} (hd : s.list (.queue d) = []) (he : s.list (.queue e) ≠ []) :
    s.loopsAhead d.next < s.loopsAhead d := by
  have hall : s.list (.queue d.next) ≠ [] ∨ s.list (.queue d.next.next) ≠ [] ∨
      s.list (.queue d.next.next.next) ≠ [] := by
    cases d <;> cases e <;> simp_all [Dir.next]
  unfold St.loopsAhead
  rw [if_neg (not_not.mpr hd)]
  split_ifs <;> simp_all

/-- The next loop over the batch is closer to its end. -/
theorem Phase.left_next {ph ph' : Phase} (h : ph.next = some ph') : ph'.left < ph.left := by
  cases ph <;> simp only [Phase.next, Option.some.injEq, reduceCtorEq] at h <;> subst h <;> decide

/-- Every step of the migration thread brings it closer to the next page or takes it. -/
theorem MigStep.rank_lt {numBatchs : Nat} {m m' : Mpc} {ev : List Event}
    (h : MigStep cfg numBatchs m s m' s' ev) (hB : 0 < numBatchs)
    (hwanted : ∀ d, m.wanted d ≤ (s.list (.queue d)).length)
    (htest : ∀ d, m = .test d → (∃ e, s.list (.queue e) ≠ []) ∧
      (s.num (.queue d) = 0 → s.list (.queue d) = [])) :
    migRank s' m' < migRank s m := by
  cases h
  case testZero d hnum =>
    rcases htest d rfl with ⟨⟨e, he⟩, hempty⟩
    have hnext := loopsAhead_next (hempty hnum) he
    simp only [migRank, Mpc.stage, rankOf_lt, true_and]
    omega
  case test d hnum =>
    simp only [migRank, Mpc.stage, rankOf_lt, true_and, if_neg hnum]
    omega
  case compareMore d hlt =>
    have hnum : s.num (.queue d) ≠ 0 := by
      intro hzero
      rw [hzero] at hlt
      exact absurd hlt (Nat.not_lt_zero _)
    simp only [migRank, Mpc.stage, rankOf_lt, true_and, if_neg hnum, if_neg (Nat.ne_of_gt hB)]
    omega
  case compare d hlt =>
    simp only [migRank, Mpc.stage, rankOf_lt, true_and]
    split <;> omega
  case read d =>
    simp only [migRank, Mpc.stage, rankOf_lt, true_and]
    by_cases hnum : s.num (.queue d) = 0
    · simp [hnum]
    · have hne : (s.num (.queue d)).toNat ≠ 0 := fun h0 => hnum (UInt64.toNat_inj.mp h0)
      simp [hnum, hne]
  case begin d es =>
    simp only [migRank, Mpc.stage, Phase.left, rankOf_lt, true_and, if_true]
    omega
  case dequeuePage d left es p rest hl =>
    have hless := waiting_setList hl
    simp only [migRank, rankOf_lt]
    omega
  case dequeueNull d left es hl =>
    -- a page that is wanted is there
    have hd := hwanted d
    simp [Mpc.wanted, hl] at hd
  case dequeueFree d left es page q rest hl =>
    have hsame : (s.setList (.free d.dst) rest).waiting = s.waiting :=
      waiting_congr fun e => by simp
    simp only [migRank, Mpc.stage, rankOf_lt, true_and, hsame]
    omega
  case dequeueFreeNull =>
    simp only [migRank, Mpc.stage, rankOf_lt, true_and]
    omega
  case readFree =>
    simp only [migRank, Mpc.stage, rankOf_lt, true_and]
    split <;> omega
  case instr d ph done e todo i code r r' hrun =>
    have hsame := waiting_congr fun d' => (MigInstr.run_queue hrun d').1
    simp only [migRank, Mpc.stage, Mpc.entriesLeft, Mpc.codeLeft, rankOf_lt, true_and, hsame,
      List.length_cons]
    omega
  case nextEntry =>
    simp only [migRank, Mpc.stage, Mpc.entriesLeft, rankOf_lt, true_and, List.length_cons]
    omega
  case nextLoop hnext =>
    have hless := Phase.left_next hnext
    simp only [migRank, Mpc.stage, rankOf_lt, true_and]
    omega
  case lastLoop =>
    simp only [migRank, Mpc.stage, rankOf_lt, true_and, Phase.left]
    omega
  case count d num =>
    have hsame : (countBatch d (UInt64.ofNat num) s).waiting = s.waiting :=
      waiting_congr fun e => by rw [countBatch_list]
    have hle := loopsAhead_le (countBatch d (UInt64.ofNat num) s) d
    simp only [migRank, Mpc.stage, rankOf_lt, true_and, hsame]
    omega

/-! ## The end -/

section

variable {Tid : Type} [Fintype Tid] {x : Sys Tid}

/-- All threads have returned. -/
structure Draining (cfg : Config) (x : Sys Tid) : Prop where
  ledger : Ledger cfg x
  idle : ∀ t, x.thr t = .idle

/-- Nothing is under way, and every page that a request has put on a queue has been moved, in
the order in which they have been put. -/
structure Sys.Settled (x : Sys Tid) : Prop where
  idle : ∀ t, x.thr t = .idle
  test : ∃ d, x.mig = .test d
  queue : ∀ d, x.st.list (.queue d) = []
  num : ∀ d, x.st.num (.queue d) = 0
  moved : ∀ d, puts d x.hist = (moves d x.hist).map Prod.fst

/-- At a test, the counters of idle threads are the lengths of the queues. -/
theorem Draining.num_eq (h : Draining cfg x) {d : Dir} (hmig : x.mig = .test d) (e : Dir) :
    (x.st.num (.queue e)).toNat = (x.st.list (.queue e)).length := by
  have hbalance := h.ledger.balance e
  have huncounted : x.uncounted e = 0 := by
    refine Finset.sum_eq_zero fun t _ => ?_
    rw [h.idle t]
    rfl
  rw [huncounted, hmig] at hbalance
  exact hbalance

/-- With the queues empty and the batch moved the system has settled. -/
theorem Draining.settled (h : Draining cfg x) (htest : ∃ d, x.mig = .test d)
    (hqueue : ∀ d, x.st.list (.queue d) = []) : x.Settled := by
  rcases htest with ⟨d₀, hmig⟩
  refine ⟨h.idle, ⟨d₀, hmig⟩, hqueue, fun d => ?_, fun d => ?_⟩
  · have hnum := h.num_eq hmig d
    rw [hqueue d] at hnum
    exact UInt64.toNat_inj.mp hnum
  · have hfifo := h.ledger.fifo d
    rw [hmig, hqueue d] at hfifo
    simpa [Mpc.inFlight] using hfifo

end

/-! ## Runs without new calls -/

theorem Actor.label_inside {Tid : Type} (a : Actor Tid) : a.label.Inside := by
  cases a <;> trivial

/-- An idle thread does nothing. -/
theorem threadStep_idle {pc : Pc} {ev : List Event}
    (h : threadStep cfg .idle s = .ok (pc, s', ev)) : pc = .idle ∧ s' = s := by
  cases threadStep_ok h
  exact ⟨rfl, rfl⟩

variable {Tid : Type} [DecidableEq Tid] {numBatchs : Nat} {x x' : Sys Tid}

/-- A step of a system in which no more calls begin. -/
def actorStep (cfg : Config) (numBatchs : Nat) (a : Actor Tid) : Sys Tid → Except Fault (Sys Tid) :=
  Hemem.step cfg numBatchs a.label

/-- An idle thread stays idle. -/
theorem actorStep_idle {a : Actor Tid} (hs : actorStep cfg numBatchs a x = .ok x') {t : Tid}
    (h : x.thr t = .idle) : x'.thr t = .idle := by
  cases a with
  | thread u =>
    rcases step_run hs with ⟨pc, ev, hstep, hthr, -⟩
    rw [hthr]
    by_cases hu : t = u
    · subst hu
      rw [h] at hstep
      rw [Function.update_self]
      exact (threadStep_idle hstep).1
    · rw [Function.update_of_ne hu]
      exact h
  | migrator =>
    rcases step_migrate hs with ⟨ev, -, hthr, -⟩
    rw [hthr]
    exact h

/-- One after the other the threads return. -/
theorem eventually_idle {sched : Nat → Actor Tid} (hfair : Fair sched) (ts : List Tid)
    (h : x.Inside) :
    Eventually (actorStep cfg numBatchs) sched
      (fun x' => x'.Inside ∧ ∀ t ∈ ts, x'.thr t = .idle) x := by
  induction ts generalizing x with
  | nil => exact .here ⟨h, fun t ht => absurd ht List.not_mem_nil⟩
  | cons t ts ih =>
    refine (ih h).andThen fun n x₁ hx₁ => ?_
    have hranked : Ranked (actorStep cfg numBatchs) (fun x => (x.thr t).Inside)
        (fun x => x.thr t = .idle) (fun x => (x.thr t).rank) (fun _ => .thread t) :=
      (ranked_returns cfg numBatchs t).comp (fun _ _ => Actor.label_inj) fun _ => rfl
    have hidle := hranked.eventually (fun _ => (hfair (.thread t)).shift n) (hx₁.1 t)
    -- those that have returned before are still idle
    have hkept := hidle.and_inv
      (I := fun x' => x'.Inside ∧ ∀ u ∈ ts, x'.thr u = .idle)
      (fun _ a _ hi hs => ⟨hi.1.step a.label_inside hs,
        fun u hu => actorStep_idle hs (hi.2 u hu)⟩) hx₁
    refine hkept.imp fun x' hx' => ⟨hx'.1.1, fun u hu => ?_⟩
    rcases List.mem_cons.mp hu with rfl | hu
    · exact hx'.2
    · exact hx'.1.2 u hu

variable [Fintype Tid]

/-- Steps without new calls keep the invariant. -/
theorem Draining.step (h : Draining cfg x) {a : Actor Tid}
    (hs : actorStep cfg numBatchs a x = .ok x') : Draining cfg x' where
  ledger := h.ledger.step a.label hs
  idle t := actorStep_idle hs (h.idle t)

/-- The pages wait for the migration thread alone. -/
theorem Draining.rank_lt (h : Draining cfg x) (hB : 0 < numBatchs)
    (hnot : ¬ ((∃ d, x.mig = .test d) ∧ ∀ d, x.st.list (.queue d) = []))
    (hs : actorStep cfg numBatchs .migrator x = .ok x') :
    migRank x'.st x'.mig < migRank x.st x.mig := by
  rcases step_migrate hs with ⟨ev, hstep, -⟩
  refine (migStep_ok hstep).rank_lt hB h.ledger.wanted_le fun d hmig => ⟨?_, fun hzero => ?_⟩
  · by_contra hnone
    push Not at hnone
    exact hnot ⟨⟨d, hmig⟩, hnone⟩
  · have hnum := h.num_eq hmig d
    rw [hzero] at hnum
    exact List.eq_nil_of_length_eq_zero hnum.symm

/-- With all threads idle, only the migration thread changes anything, until nothing is left. -/
theorem ranked_settles (cfg : Config) (hB : 0 < numBatchs) :
    Ranked (actorStep cfg numBatchs) (fun x : Sys Tid => Draining cfg x)
      (fun x => (∃ d, x.mig = .test d) ∧ ∀ d, x.st.list (.queue d) = [])
      (fun x => migRank x.st x.mig) (fun _ => .migrator) := by
  constructor
  case helps =>
    intro x x' h hnot hs
    exact Or.inr (h.rank_lt hB hnot hs)
  case keeps =>
    intro a x x' h hnot hs
    refine Or.inr ⟨h.step hs, ?_⟩
    cases a with
    | migrator => exact Or.inl (h.rank_lt hB hnot hs)
    | thread t =>
      -- an idle thread does nothing
      rcases step_run hs with ⟨pc, ev, hstep, -, hmig, -⟩
      rw [h.idle t] at hstep
      rw [(threadStep_idle hstep).2, hmig]
      exact Or.inr ⟨rfl, rfl⟩

/-- When no more calls begin, every fair schedule takes the system to a state in which nothing is
under way, unless the run stops. -/
theorem settles (cfg : Config) (hB : 0 < numBatchs) {labels : List (Label Tid)}
    (hl : ∀ lbl ∈ labels, lbl.Inside) {x : Sys Tid}
    (hruns : runs (Hemem.step cfg numBatchs) labels (Sys.init cfg) = .ok x)
    {sched : Nat → Actor Tid} (hfair : Fair sched) :
    ∃ n, ∀ x', runs (actorStep cfg numBatchs) (turns sched n) x = .ok x' → x'.Settled := by
  have hledger : Ledger cfg x :=
    of_runs (fun _ lbl _ h hs => h.step lbl hs) (ledger_init cfg) hruns
  have hreturn : Eventually (actorStep cfg numBatchs) sched
      (fun x' => x'.Inside ∧ ∀ t ∈ Finset.univ.toList, x'.thr t = .idle) x :=
    eventually_idle hfair Finset.univ.toList (inside_of_runs hl hruns)
  have hidle := hreturn.and_inv (I := Ledger cfg) (fun _ a _ h hs => h.step a.label hs) hledger
  -- from where the last thread has returned
  refine hidle.andThen fun n x₁ hx₁ => ?_
  have hdraining : Draining cfg x₁ :=
    ⟨hx₁.1, fun t => hx₁.2.2 t (Finset.mem_toList.mpr (Finset.mem_univ t))⟩
  have hqueue := (ranked_settles cfg hB).eventually (fun _ => (hfair .migrator).shift n) hdraining
  have hkept := hqueue.and_inv (I := Draining cfg) (fun _ _ _ h hs => h.step hs) hdraining
  exact hkept.imp fun x' hx' => hx'.1.settled hx'.2.1 hx'.2.2

/-- The two threads and the migration thread take turns. -/
def inTurn (n : Nat) : Actor Bool :=
  if n % 3 = 0 then .thread false else if n % 3 = 1 then .thread true else .migrator

/-- Everyone has a turn in three. -/
theorem fair_inTurn : Fair inTurn := by
  intro a n
  unfold inTurn
  cases a with
  | thread t =>
    cases t with
    | false =>
      refine ⟨3 * n, by omega, ?_⟩
      rw [if_pos (Nat.mul_mod_right 3 n)]
    | true =>
      refine ⟨3 * n + 1, by omega, ?_⟩
      rw [if_neg (by omega), if_pos (by omega)]
  | migrator =>
    refine ⟨3 * n + 2, by omega, ?_⟩
    rw [if_neg (by omega), if_neg (by omega)]

/-- Two calls are made, and then the threads take turns. -/
theorem settles_inTurn :
    ∃ x, runs (Hemem.step smallConfig 1) twoCalls (Sys.init smallConfig) = .ok x ∧
      ∃ n, ∀ x', runs (actorStep smallConfig 1) (turns inTurn n) x = .ok x' → x'.Settled :=
  ⟨_, rfl, settles smallConfig (by decide) twoCalls_inside rfl fair_inTurn⟩

end Hemem
