import Mathlib.Algebra.Order.BigOperators.Group.Finset
import Hemem.Requests
import Hemem.Conc.Flags
import Hemem.Conc.Queues

/-!
# Hemem.Conc.Requesters — requests that run at the same time

Any number of threads that call the four request functions. The list from which a request
takes a page may be shorter than its counter, since other requesters hold pages that they
rotate or have not counted yet. But a requester that holds a page in rotation is still going
to take one. So as long as there are as many pages as are going to be taken, the pages that
the others hold leave at least one for each requester.
-/

namespace Hemem

open Lib

/-! ## What a requester is going to do -/

/-- The directions that take pages from tier `t`. -/
def Tier.out (t : Tier) (d : Dir) : Bool := d.src == t

/-- The pages that a requester is going to dequeue, in the directions of `P`. -/
def Pc.toTake (P : Dir → Bool) : Pc → Nat
  | .requestTest q _ left | .assertInDram q _ left _ | .assertPresent q _ left _ | .put q _ left _
  | .countPut q _ left => if P q.d then left else 0
  | .choose q _ left | .rotate q _ left _ | .rotated q _ left _ _ | .take q _ left =>
    if P q.d then left + 1 else 0
  | _ => 0

/-- The pages that a requester is going to put on a queue. -/
def Pc.toPut (P : Dir → Bool) : Pc → Nat
  | .requestTest q _ left | .countPut q _ left => if P q.d then left else 0
  | .choose q _ left | .rotate q _ left _ | .rotated q _ left _ _ | .take q _ left
  | .assertInDram q _ left _ | .assertPresent q _ left _ | .put q _ left _ =>
    if P q.d then left + 1 else 0
  | _ => 0

/-- The page that a requester holds in rotation. -/
def Pc.rotating (P : Dir → Bool) : Pc → Nat
  | .rotated q _ _ _ (some _) => if P q.d then 1 else 0
  | _ => 0

/-- The page that a requester has taken and not counted yet. -/
def Pc.untold (P : Dir → Bool) : Pc → Nat
  | .assertInDram q _ _ _ | .assertPresent q _ _ _ | .put q _ _ _ | .countPut q _ _ =>
    if P q.d then 1 else 0
  | _ => 0

/-- A thread that is idle or in a request, and has not found a list empty. -/
def Pc.requests : Pc → Bool
  | .idle | .requestTest _ _ _ | .choose _ _ _ | .rotate _ _ _ _ | .rotated _ _ _ _ (some _)
  | .take _ _ _ | .assertInDram _ _ _ _ | .assertPresent _ _ _ _ | .put _ _ _ _
  | .countPut _ _ _ => true
  | _ => false

variable {Tid : Type}

/-- A label that starts a request, or a step of a thread. -/
def Label.requests : Label Tid → Bool
  | .start _ (.request _ _ _ _) | .run _ => true
  | _ => false

/-- A call begins when its thread is idle. -/
def Label.StartsIdle (x : Sys Tid) : Label Tid → Prop
  | .start t _ => x.thr t = .idle
  | _ => True

/-- How many pages a label asks for; a `pages_num` below 0 asks for none. -/
def Label.asks (P : Dir → Bool) : Label Tid → Nat
  | .start _ (.request d pagesNum _ _) => if P d then pagesNum.toNat else 0
  | _ => 0

def asked (P : Dir → Bool) (labels : List (Label Tid)) : Nat := (labels.map (Label.asks P)).sum

variable {cfg : Config} {s s' : St}

/-! ## Steps -/

/-- The requester finds a page where it is going to take one. -/
def Pc.Finds (pc : Pc) (s : St) : Prop :=
  ∀ t : Tier, 0 < pc.toTake t.out → pc.rotating t.out = 0 → s.list (.mmap t) ≠ []

theorem ThreadStep.requests {pc pc' : Pc} {ev : List Event} (h : ThreadStep cfg pc s pc' s' ev)
    (hpc : pc.requests = true) (hfinds : pc.Finds s) : pc'.requests = true := by
  cases h <;> try cases hpc
  case rotateEmpty q i left choose hl =>
    exact absurd hl (hfinds q.d.src (by simp [Pc.toTake, Tier.out]) rfl)
  all_goals rfl

/-- What a step of a requester does to the mmap list of `t`, and to what it holds of it. -/
theorem ThreadStep.mmapList {pc pc' : Pc} {ev : List Event} (h : ThreadStep cfg pc s pc' s' ev)
    (hpc : pc.requests = true) (hfinds : pc.Finds s) (t : Tier) :
    (s'.list (.mmap t)).length + pc'.rotating t.out + pc.toTake t.out =
      (s.list (.mmap t)).length + pc.rotating t.out + pc'.toTake t.out := by
  cases h <;> try cases hpc
  -- the list has as many pages as are still asked for, so it is not found empty
  case rotateEmpty q i left choose hl | takeEmpty q i left hl =>
    exact absurd hl (hfinds q.d.src (by simp [Pc.toTake, Tier.out]) rfl)
  -- a page out for a rotation stays counted for the list it came from
  case rotate q i left choose p rest hl =>
    by_cases hq : q.d.src = t
    · subst hq
      simp [Pc.rotating, Pc.toTake, Tier.out, hl]
    · have hne : ListId.mmap t ≠ .mmap q.d.src := fun h => hq (ListId.mmap.inj h).symm
      simp [Pc.rotating, Pc.toTake, Tier.out, hq, hne]
  case rotated q i left choose p =>
    by_cases hq : q.d.src = t
    · subst hq
      simp [Pc.rotating, Pc.toTake, Tier.out]
    · have hne : ListId.mmap t ≠ .mmap q.d.src := fun h => hq (ListId.mmap.inj h).symm
      simp [Pc.rotating, Pc.toTake, Tier.out, hq, hne]
  -- one page less in the list, and one less to take
  case take q i left p rest hl =>
    by_cases hq : q.d.src = t
    · subst hq
      simp [Pc.rotating, Pc.toTake, Tier.out, hl]
      omega
    · have hne : ListId.mmap t ≠ .mmap q.d.src := fun h => hq (ListId.mmap.inj h).symm
      simp [Pc.rotating, Pc.toTake, Tier.out, hq, hne]
  all_goals simp [Pc.rotating, Pc.toTake]

/-- What a step of a requester does to the counter of the mmap list of `t`. -/
theorem ThreadStep.mmapNum {pc pc' : Pc} {ev : List Event} (h : ThreadStep cfg pc s pc' s' ev)
    (hpc : pc.requests = true) (t : Tier) :
    (s'.num (.mmap t) = s.num (.mmap t) ∧
        (s'.list (.mmap t)).length + pc'.rotating t.out + pc'.untold t.out =
          (s.list (.mmap t)).length + pc.rotating t.out + pc.untold t.out) ∨
      (s'.num (.mmap t) = s.num (.mmap t) - 1 ∧ s'.list = s.list ∧ pc.rotating t.out = 0 ∧
        pc'.rotating t.out = 0 ∧ pc.untold t.out = 1 ∧ pc'.untold t.out = 0) := by
  cases h <;> try cases hpc
  -- a page that is taken out for a rotation is not on the list for a while
  case rotate q i left choose p rest hl | take q i left p rest hl =>
    left
    by_cases hq : q.d.src = t
    · subst hq
      simp [Pc.rotating, Pc.untold, Tier.out, hl]
    · have hne : ListId.mmap t ≠ .mmap q.d.src := fun h => hq (ListId.mmap.inj h).symm
      simp [Pc.rotating, Pc.untold, Tier.out, hq, hne]
  case rotated q i left choose p =>
    left
    by_cases hq : q.d.src = t
    · subst hq
      simp [Pc.rotating, Pc.untold, Tier.out]
    · have hne : ListId.mmap t ≠ .mmap q.d.src := fun h => hq (ListId.mmap.inj h).symm
      simp [Pc.rotating, Pc.untold, Tier.out, hq, hne]
  -- here the counter catches up with the list
  case countPut q i left =>
    by_cases hq : q.d.src = t
    · subst hq
      right
      simp [Pc.rotating, Pc.untold, Tier.out]
    · left
      have hne : ListId.mmap t ≠ .mmap q.d.src := fun h => hq (ListId.mmap.inj h).symm
      simp [Pc.rotating, Pc.untold, Tier.out, hq, hne]
  all_goals exact Or.inl ⟨by simp, by simp [Pc.rotating, Pc.untold]⟩

/-- What a step of a requester puts on the queue of `d`. -/
theorem ThreadStep.toPut {pc pc' : Pc} {ev : List Event} (h : ThreadStep cfg pc s pc' s' ev)
    (hpc : pc.requests = true) (hfinds : pc.Finds s) (d : Dir) :
    (puts d ev).length + pc'.toPut (· == d) = pc.toPut (· == d) := by
  cases h <;> try cases hpc
  case takeEmpty q i left hl =>
    exact absurd hl (hfinds q.d.src (by simp [Pc.toTake, Tier.out]) rfl)
  case put q i left p =>
    by_cases hq : q.d = d <;> simp [puts, Pc.toPut, hq, Nat.add_comm]
  all_goals simp [puts, Pc.toPut]

/-- The errors of a requester: it neither passes `NULL` to `enqueue_fifo` nor divides by
zero. -/
def SafeError (e : Fault) : Prop := e ≠ .nullDeref ∧ e ≠ .divByZero

/-- A requester does not divide by zero while the counter of the list that it draws from is not
zero. -/
theorem threadStep_safe {pc : Pc} (hpc : pc.requests = true)
    (hnum : ∀ t : Tier, 0 < pc.toTake t.out → s.num (.mmap t) ≠ 0) :
    StopsIn SafeError (threadStep cfg pc s) := by
  cases pc <;> try cases hpc
  case choose q i left =>
    have hpos := hnum q.d.src (by simp [Pc.toTake, Tier.out])
    exact StopsIn.bind (check_of_true (by simpa using hpos)) fun _ _ => StopsIn.ok
  case rotate q i left choose => cases choose <;> exact StopsIn.ok
  case rotated q i left choose e =>
    cases e with
    | none => cases hpc
    | some p => exact StopsIn.ok
  case requestTest q i left => cases left <;> exact StopsIn.ok
  case take q i left =>
    simp only [threadStep]
    split <;> exact StopsIn.ok
  case assertInDram | assertPresent =>
    exact StopsIn.bind (check_stopsIn (by simp [SafeError])) fun _ _ => StopsIn.ok
  all_goals exact StopsIn.ok

/-! ## All requesters together -/

variable [Fintype Tid]

def Sys.sum (x : Sys Tid) (f : Pc → Nat) : Nat := ∑ u, f (x.thr u)

/-- After calls that ask for `asks P` pages in the directions of `P`, from the state `s`. -/
structure Requesting (s : St) (asks : (Dir → Bool) → Nat) (x : Sys Tid) : Prop where
  requests : ∀ u, (x.thr u).requests = true
  list : ∀ t : Tier, (x.st.list (.mmap t)).length + x.sum (Pc.rotating t.out) + asks t.out =
    (s.list (.mmap t)).length + x.sum (Pc.toTake t.out)
  num : ∀ t : Tier, (x.st.num (.mmap t)).toNat = (x.st.list (.mmap t)).length +
    x.sum (Pc.rotating t.out) + x.sum (Pc.untold t.out)
  queue : ∀ d, x.st.list (.queue d) = s.list (.queue d) ++ puts d x.hist
  puts : ∀ d, (puts d x.hist).length + x.sum (Pc.toPut (· == d)) = asks (· == d)

theorem Pc.rotating_le (P : Dir → Bool) (pc : Pc) : pc.rotating P ≤ pc.toTake P := by
  unfold Pc.rotating
  split
  · simp only [Pc.toTake]
    split <;> omega
  · exact Nat.zero_le _

/-- As long as there are enough pages, there is one for every requester. -/
theorem Requesting.finds {s : St} {asks : (Dir → Bool) → Nat} {x : Sys Tid}
    (hx : Requesting s asks x) (henough : ∀ t : Tier, asks t.out ≤ (s.list (.mmap t)).length)
    (u : Tid) : (x.thr u).Finds x.st := by
  intro t htake hrot hnil
  have hlt : x.sum (Pc.rotating t.out) < x.sum (Pc.toTake t.out) :=
    Finset.sum_lt_sum (fun v _ => Pc.rotating_le t.out (x.thr v))
      ⟨u, Finset.mem_univ u, by rw [hrot]; exact htake⟩
  have hlist := hx.list t
  have hle := henough t
  rw [hnil, List.length_nil] at hlist
  omega

theorem Requesting.num_ne {s : St} {asks : (Dir → Bool) → Nat} {x : Sys Tid}
    (hx : Requesting s asks x) (henough : ∀ t : Tier, asks t.out ≤ (s.list (.mmap t)).length)
    (u : Tid) (t : Tier) (htake : 0 < (x.thr u).toTake t.out) : x.st.num (.mmap t) ≠ 0 := by
  intro hzero
  have hpos : 0 < x.sum (Pc.toTake t.out) :=
    Finset.sum_pos' (fun _ _ => Nat.zero_le _) ⟨u, Finset.mem_univ u, htake⟩
  have hlist := hx.list t
  have hnum := hx.num t
  have hle := henough t
  rw [hzero, UInt64.toNat_zero] at hnum
  omega

/-- All threads are idle, the counters are exact, and nothing has been asked for. -/
theorem requesting_quiet {s : St}
    (hnum : ∀ t : Tier, (s.num (.mmap t)).toNat = (s.list (.mmap t)).length) :
    Requesting s (fun _ => 0) (Sys.quiet s : Sys Tid) := by
  have hsum : ∀ f : Pc → Nat, f .idle = 0 → (Sys.quiet s : Sys Tid).sum f = 0 := by
    intro f hf
    simp [Sys.sum, Sys.quiet, hf]
  constructor
  · exact fun _ => rfl
  · intro t
    rw [hsum _ rfl, hsum _ rfl]
    rfl
  · intro t
    rw [hsum _ rfl, hsum _ rfl]
    exact hnum t
  · exact fun d => (List.append_nil _).symm
  · intro d
    rw [hsum _ rfl]
    rfl

variable [DecidableEq Tid] {numBatchs : Nat}

theorem sum_start {x : Sys Tid} {f : Pc → Nat} {u : Tid} {pc : Pc} (hidle : x.thr u = .idle)
    (hf : f .idle = 0) :
    Sys.sum { x with thr := Function.update x.thr u pc } f = x.sum f + f pc := by
  have hupdate := sum_update f x.thr u pc
  rw [hidle, hf] at hupdate
  exact hupdate

/-- A call asks for its pages when it begins. -/
theorem Requesting.start {s : St} {asks : (Dir → Bool) → Nat} {x : Sys Tid}
    (hx : Requesting s asks x) {u : Tid} (hidle : x.thr u = .idle) (d : Dir) (pagesNum : Int)
    (random : Bool) (rand : Nat → Nat) :
    Requesting s (fun P => (if P d then pagesNum.toNat else 0) + asks P)
      { x with thr := Function.update x.thr u (Call.request d pagesNum random rand).begin } := by
  have hnone : (Call.request d pagesNum random rand).begin.requests = true := rfl
  constructor
  case requests =>
    intro v
    by_cases hv : v = u
    · subst hv
      simp [hnone]
    · simpa [hv] using hx.requests v
  -- the pages it is asked for are counted before any is put on the queue
  case list =>
    intro t
    have hlist := hx.list t
    rw [sum_start hidle rfl, sum_start hidle rfl]
    simp only [Call.begin, Pc.rotating, Pc.toTake]
    omega
  case num =>
    intro t
    rw [sum_start hidle rfl, sum_start hidle rfl]
    exact hx.num t
  case queue => exact hx.queue
  case puts =>
    intro e
    have hputs := hx.puts e
    rw [sum_start hidle rfl]
    simp only [Call.begin, Pc.toPut]
    omega

theorem Requesting.run {s : St} {asks : (Dir → Bool) → Nat} {x x' : Sys Tid}
    (hx : Requesting s asks x) (henough : ∀ t : Tier, asks t.out ≤ (s.list (.mmap t)).length)
    {u : Tid} (hs : step cfg numBatchs (.run u) x = .ok x') : Requesting s asks x' := by
  rcases step_run hs with ⟨pc, ev, hstep, hthr, -, hhist⟩
  have hok := threadStep_ok hstep
  have hpc := hx.requests u
  have hfinds := hx.finds henough u
  have hsum : ∀ f, x'.sum f + f (x.thr u) = x.sum f + f pc := by
    intro f
    have hupdate := sum_update f x.thr u pc
    rwa [← hthr] at hupdate
  constructor
  case requests =>
    intro v
    rw [hthr]
    by_cases hv : v = u
    · subst hv
      simpa using hok.requests hpc hfinds
    · simpa [hv] using hx.requests v
  case list =>
    intro t
    have hlist := hx.list t
    have hmmap := hok.mmapList hpc hfinds t
    have hrot := hsum (Pc.rotating t.out)
    have htake := hsum (Pc.toTake t.out)
    omega
  case num =>
    intro t
    have hnum := hx.num t
    have hrot := hsum (Pc.rotating t.out)
    have huntold := hsum (Pc.untold t.out)
    rcases hok.mmapNum hpc t with ⟨hsame, hlen⟩ | ⟨hless, hlist, hr, hr', hu, hu'⟩
    · rw [hsame]
      omega
    · -- the page that is counted is among those that have not been counted
      rw [hless, hlist, toNat_sub_one (by omega)]
      omega
  case queue =>
    intro d
    rw [(hok.queue d).1, hx.queue d, hhist, puts_append, List.append_assoc]
  case puts =>
    intro d
    have hputs := hx.puts d
    have hto := hok.toPut hpc hfinds d
    have hput := hsum (Pc.toPut (· == d))
    rw [hhist, puts_append, List.length_append]
    omega

/-- A run of requests from a state of which `asks` says what has been asked for. -/
theorem Requesting.runs (cfg : Config) (numBatchs : Nat) {s : St} {labels : List (Label Tid)}
    {asks : (Dir → Bool) → Nat} {x : Sys Tid} (hx : Requesting s asks x)
    (honly : ∀ lbl ∈ labels, lbl.requests = true)
    (hidle : Along (step cfg numBatchs) Label.StartsIdle labels x)
    (henough : ∀ t : Tier, asks t.out + asked t.out labels ≤ (s.list (.mmap t)).length) :
    StopsIn SafeError (runs (step cfg numBatchs) labels x) ∧
      ∀ x', runs (step cfg numBatchs) labels x = .ok x' →
        Requesting s (fun P => asks P + asked P labels) x' := by
  induction labels generalizing asks x with
  | nil =>
    refine ⟨StopsIn.ok, fun x' hx' => ?_⟩
    obtain rfl := Except.ok.inj hx'
    exact hx
  | cons lbl labels ih =>
    have hcons : ∀ P, asked P (lbl :: labels) = lbl.asks P + asked P labels := fun P => by
      simp [asked]
    have honly' := fun l hl => honly l (List.mem_cons_of_mem lbl hl)
    cases lbl with
    | start u c =>
      cases c with
      | request d pagesNum random rand =>
        -- the thread is idle, so the call begins
        have hu : x.thr u = .idle := by
          unfold Along at hidle
          split at hidle
          · exact hidle.1
          · rename_i e he
            simp only [step] at he
            split at he <;> cases he
        have hstep : step cfg numBatchs (.start u (.request d pagesNum random rand)) x =
            .ok { x with
              thr := Function.update x.thr u (Call.request d pagesNum random rand).begin } := by
          simp only [step, hu]
        have hasks : (fun P => (if P d then pagesNum.toNat else 0) + asks P + asked P labels) =
            fun P => asks P + asked P (.start u (.request d pagesNum random rand) :: labels) := by
          funext P
          rw [hcons]
          simp only [Label.asks]
          omega
        simp only [Along, hstep] at hidle
        have hrest := ih (hx.start hu d pagesNum random rand) honly' hidle.2 fun t => by
          have hle := henough t
          rw [← congrFun hasks t.out] at hle
          exact hle
        rw [hasks] at hrest
        simpa only [Lib.runs, hstep] using hrest
      | mmap | missingFault | munmap => cases honly _ List.mem_cons_self
    | run u =>
      have hasks : ∀ P, asked P (.run u :: labels) = asked P labels := fun P =>
        (hcons P).trans (Nat.zero_add _)
      simp only [hasks] at henough ⊢
      have hnow : ∀ t : Tier, asks t.out ≤ (s.list (.mmap t)).length := fun t =>
        (Nat.le_add_right _ _).trans (henough t)
      cases hstep : step cfg numBatchs (.run u) x with
      | error e =>
        -- there is a page for every requester, so the step stops with nothing worse than an
        -- assertion
        have hsafe : StopsIn SafeError (step cfg numBatchs (.run u) x) :=
          StopsIn.bind (threadStep_safe (hx.requests u) (hx.num_ne hnow u)) fun _ _ => StopsIn.ok
        simp only [Lib.runs, hstep]
        exact ⟨StopsIn.error (hsafe e hstep), by simp⟩
      | ok x₁ =>
        simp only [Along, hstep] at hidle
        simpa only [Lib.runs, hstep] using ih (hx.run hnow hstep) honly' hidle.2 henough
    | migrate => cases honly _ List.mem_cons_self

/-- Requests that run at the same time, from exact counters and with enough pages: none
passes `NULL` to `enqueue_fifo` or divides by zero, and when all have returned, each queue has
as many new pages as have been asked for. -/
theorem requests_concurrent (cfg : Config) (numBatchs : Nat) {s : St}
    (hnum : ∀ t : Tier, (s.num (.mmap t)).toNat = (s.list (.mmap t)).length)
    {labels : List (Label Tid)} (honly : ∀ lbl ∈ labels, lbl.requests = true)
    (hidle : Along (step cfg numBatchs) Label.StartsIdle labels (Sys.quiet s))
    (henough : ∀ t : Tier, asked t.out labels ≤ (s.list (.mmap t)).length) :
    StopsIn SafeError (runs (step cfg numBatchs) labels (Sys.quiet s)) ∧
      ∀ x, runs (step cfg numBatchs) labels (Sys.quiet s) = .ok x → (∀ u, x.thr u = .idle) →
        ∀ d, x.st.list (.queue d) = s.list (.queue d) ++ puts d x.hist ∧
          (puts d x.hist).length = asked (· == d) labels := by
  have hruns := (requesting_quiet hnum).runs cfg numBatchs honly hidle
    fun t => by simpa using henough t
  refine ⟨hruns.1, fun x hx hdone d => ⟨(hruns.2 x hx).queue d, ?_⟩⟩
  have hputs := (hruns.2 x hx).puts d
  have hnone : x.sum (Pc.toPut (· == d)) = 0 := by simp [Sys.sum, hdone, Pc.toPut]
  rw [hnone] at hputs
  simpa using hputs

/-- `pages_num` of a label that starts a request. -/
def Label.pagesNum : Label Tid → Int
  | .start _ (.request _ pagesNum _ _) => pagesNum
  | _ => 0

/-- A request for `-1` pages. -/
def negativeRequest : List (Label Unit) :=
  [.start () (.request .dramToNvm (-1) true fun _ => 0), .run ()]

/-- It moves 0 pages and not `-1`. -/
theorem requests_concurrent_fails_negative :
    (∀ t : Tier, ((pebsInit smallConfig).num (.mmap t)).toNat =
        ((pebsInit smallConfig).list (.mmap t)).length) ∧
      (negativeRequest.map Label.pagesNum).sum ≤ 0 ∧
      ∃ x, runs (step smallConfig 1) negativeRequest (Sys.quiet (pebsInit smallConfig)) = .ok x ∧
        (∀ u, x.thr u = .idle) ∧ (∀ d, puts d x.hist = []) ∧
        ((puts .dramToNvm x.hist).length : Int) ≠ (negativeRequest.map Label.pagesNum).sum := by
  refine ⟨fun t => ?_, by decide, _, rfl, fun _ => rfl, fun _ => rfl, by decide⟩
  cases t <;> rfl

/-- Two requesters that take the two pages of the list, one of them in the middle of the
rotation of the other. -/
def twoRequesters : List (Label Bool) :=
  [.start true (.request .dramToNvm 1 true fun _ => 1),
    .start false (.request .dramToDram 1 true fun _ => 0), .run true, .run true, .run false,
    .run true, .run false, .run false, .run false, .run true]

/-- Two requesters with drawn numbers ask for one page each. -/
theorem requests_concurrent_two :
    StopsIn SafeError (runs (step smallConfig 1) twoRequesters (Sys.quiet twoMapped)) := by
  have honly : ∀ lbl ∈ twoRequesters, lbl.requests = true := by decide
  refine (requests_concurrent smallConfig 1 ?_ honly ?_ ?_).1
  · intro t
    cases t <;> rfl
  · exact ⟨rfl, rfl, trivial, trivial, trivial, trivial, trivial, trivial, trivial, trivial, trivial⟩
  · intro t
    cases t <;> decide

end Hemem
