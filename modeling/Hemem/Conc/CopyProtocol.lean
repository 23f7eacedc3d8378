import Mathlib.Data.Fintype.Option
import Hemem.Conc.Copying

/-!
# Hemem.Conc.CopyProtocol — no job sees the arguments of another

The invariant of `Hemem.Conc.Copying`. Each call takes two generations of the barrier, the
even one that starts the job and the odd one that ends it, and where a thread can be follows
from the generation and from the number of jobs it has run. A thread that waits is at most one
generation behind, since the next release needs its arrival.
-/

namespace Hemem

open Lib

variable {T : Nat} {Client : Type}

/-! ## The invariant -/

def WorkerPc.waits : WorkerPc → Option Nat
  | .wait g | .waitEnd g => some g
  | _ => none

def ClientPc.waits : ClientPc → Option Nat
  | .wait _ g | .waitEnd _ g => some g
  | _ => none

/-- Who waits at the barrier: `none` stands for the client with the lock. -/
def Copying.waits (x : Copying T Client) : Option (Fin T) → Option Nat
  | some t => (x.worker t).waits
  | none => x.owner.bind fun c => (x.client c).waits

/-- 1 for the copy thread 0 between `memcps++` and the end of the job. -/
def WorkerPc.counted : WorkerPc → Nat
  | .readLength | .readDst _ | .readWriteZeros _ _ | .readSrc _ _ | .run _ => 1
  | _ => 0

/-- Where a copy thread that has run `k` jobs is in generation `G`. The generation is odd while
a job is done; what the thread has read of the arguments is what they are. -/
def WorkerPc.At (G k : Nat) (p : Pmemcpy) : WorkerPc → Prop
  | .arrive => G = 2 * k
  | .wait g => g = 2 * k ∧ g ≤ G ∧ G ≤ g + 1
  | .count | .readLength => G = 2 * k + 1
  | .readDst length => G = 2 * k + 1 ∧ length = p.length
  | .readWriteZeros length dst => G = 2 * k + 1 ∧ length = p.length ∧ dst = p.dst
  | .readSrc length dst =>
    G = 2 * k + 1 ∧ length = p.length ∧ dst = p.dst ∧ p.writeZeros = false
  | .run j => G = 2 * k + 1 ∧ j = p.job
  | .arriveEnd => G + 1 = 2 * k
  | .waitEnd g => g + 1 = 2 * k ∧ g ≤ G ∧ G ≤ g + 1

/-- Where the client with the lock is in generation `G` after `n` calls have returned. -/
def ClientPc.At (G n : Nat) (p : Pmemcpy) : ClientPc → Prop
  | .idle | .lock _ => False
  | .write k todo => G = 2 * n ∧ (todo.foldl Assign.run p).job = k.job
  | .wait k g => g = 2 * n ∧ g ≤ G ∧ G ≤ g + 1 ∧ p.job = k.job
  | .arriveEnd k => G = 2 * n + 1 ∧ p.job = k.job
  | .waitEnd k g => g = 2 * n + 1 ∧ g ≤ G ∧ G ≤ g + 1 ∧ p.job = k.job
  | .unlock _ => G = 2 * n + 2

def ClientPc.call : ClientPc → Option CopyCall
  | .idle => none
  | .lock k | .write k _ | .wait k _ | .arriveEnd k | .waitEnd k _ | .unlock k => some k

/-- What holds of the lock: nobody has it and all calls that began have returned, or a client
is in the course of the last one. -/
inductive LockAt (x : Copying T Client) : Prop where
  | free (owner : x.owner = none) (gen : x.barrier.generation = 2 * x.returned.length)
      (begun : x.begun = x.returned)
  | held (c : Client) (k : CopyCall) (owner : x.owner = some c)
      (pc : (x.client c).At x.barrier.generation x.returned.length x.params)
      (call : (x.client c).call = some k) (begun : x.begun = x.returned ++ [(c, k)])

structure CopyInv (x : Copying T Client) : Prop where
  barrier : x.barrier.Counts x.waits
  lock : LockAt x
  outside : ∀ c, x.owner ≠ some c → x.client c = .idle ∨ ∃ k, x.client c = .lock k
  worker : ∀ t, (x.worker t).At x.barrier.generation (x.done t).length x.params
  done : ∀ t, x.done t <+: jobsOf x.begun
  memcps : ∀ t, t.val = 0 →
    x.memcps = UInt64.ofNat ((x.done t).length + (x.worker t).counted)

/-! ## The barrier -/

/-- A copy thread that waits leaves the barrier with the next generation. -/
theorem WorkerPc.At.next {G k : Nat} {p : Pmemcpy} {pc : WorkerPc} (h : pc.At G k p)
    (hwait : pc.waits = some G) : pc.At (G + 1) k p := by
  cases pc <;> simp only [WorkerPc.waits, Option.some.injEq, reduceCtorEq] at hwait
  case wait => exact ⟨h.1, by omega, by omega⟩
  case waitEnd => exact ⟨h.1, by omega, by omega⟩

/-- So does the client. -/
theorem ClientPc.At.next {G n : Nat} {p : Pmemcpy} {pc : ClientPc} (h : pc.At G n p)
    (hwait : pc.waits = some G) : pc.At (G + 1) n p := by
  cases pc <;> simp only [ClientPc.waits, Option.some.injEq, reduceCtorEq] at hwait
  case wait => exact ⟨h.1, by omega, by omega, h.2.2.2⟩
  case waitEnd => exact ⟨h.1, by omega, by omega, h.2.2.2⟩

/-- In an even generation no copy thread has read an argument yet. -/
theorem WorkerPc.At.of_even {G k n : Nat} {p p' : Pmemcpy} {pc : WorkerPc} (h : pc.At G k p)
    (heven : G = 2 * n) : pc.At G k p' := by
  cases pc <;> simp only [WorkerPc.At] at h ⊢ <;> omega

/-- The generation of `b` is that of `x`, or all but the party `q` have waited for it. -/
def Copying.Advances (x : Copying T Client) (b : Barrier) (q : Option (Fin T)) : Prop :=
  b.generation = x.barrier.generation ∨
    b.generation = x.barrier.generation + 1 ∧
      ∀ r, r ≠ q → x.waits r = some x.barrier.generation

theorem Copying.advances_same (x : Copying T Client) (q : Option (Fin T)) :
    x.Advances x.barrier q := Or.inl rfl

variable {x : Copying T Client}

/-- An arrival counts the thread among those that wait. -/
theorem CopyInv.arrive (hx : CopyInv x) {q : Option (Fin T)} (hq : x.waits q = none) :
    (x.barrier.arrive (T + 1)).Counts
      (Function.update x.waits q (some x.barrier.generation)) := by
  have hcounts := hx.barrier.arrive hq
  rwa [Fintype.card_option, Fintype.card_fin] at hcounts

/-- It opens the barrier or leaves its generation alone. -/
theorem CopyInv.advances (hx : CopyInv x) {q : Option (Fin T)} (hq : x.waits q = none) :
    x.Advances (x.barrier.arrive (T + 1)) q := by
  have hadvance := hx.barrier.arrive_generation hq
  rwa [Fintype.card_option, Fintype.card_fin] at hadvance

/-- The other copy threads are where they have to be, also when the barrier has opened. -/
theorem CopyInv.worker_at (hx : CopyInv x) {b : Barrier} {q : Option (Fin T)}
    (hb : x.Advances b q) {u : Fin T} (hu : some u ≠ q) :
    (x.worker u).At b.generation (x.done u).length x.params := by
  rcases hb with hb | ⟨hb, hall⟩
  · rw [hb]
    exact hx.worker u
  · rw [hb]
    exact (hx.worker u).next (hall (some u) hu)

/-! ## The moves -/

/-- A copy thread that moves on changes only what it waits for itself. -/
theorem waits_worker (x : Copying T Client) (t : Fin T) (pc : WorkerPc) :
    (x.setWorker t pc).waits = Function.update x.waits (some t) pc.waits := by
  funext q
  cases q with
  | none => rfl
  | some u =>
    rcases eq_or_ne u t with rfl | hne
    · simp [Copying.waits, Copying.setWorker]
    · simp [Copying.waits, Copying.setWorker, hne]

/-- A copy thread moves on; the barrier, `memcps` and its jobs may change with it. -/
theorem CopyInv.moveWorker (hx : CopyInv x) {t : Fin T} {pc : WorkerPc} {b : Barrier} {m : UInt64}
    {mem : Nat → Byte} {done : Fin T → List PmemcpyJob}
    (hb : b.Counts (Function.update x.waits (some t) pc.waits)) (hgen : x.Advances b (some t))
    (hrest : ∀ u, u ≠ t → done u = x.done u) (hpc : pc.At b.generation (done t).length x.params)
    (hdone : done t <+: jobsOf x.begun)
    (hm : t.val = 0 → m = UInt64.ofNat ((done t).length + pc.counted))
    (hm' : t.val ≠ 0 → m = x.memcps) :
    CopyInv { x.setWorker t pc with barrier := b, memcps := m, mem := mem, done := done } where
  barrier := by
    have hwaits := waits_worker x t pc
    show b.Counts (x.setWorker t pc).waits
    rwa [hwaits]
  lock := by
    cases hx.lock with
    | free owner gen begun =>
      refine .free owner ?_ begun
      rcases hgen with hgen | ⟨-, hall⟩
      · exact hgen.trans gen
      · -- without a client at the barrier nobody is released
        have hwait := hall none (by simp)
        simp [Copying.waits, owner] at hwait
    | held c k owner pc call begun =>
      refine .held c k owner ?_ call begun
      rcases hgen with hgen | ⟨hgen, hall⟩
      · show ClientPc.At b.generation _ _ _
        rwa [hgen]
      · show ClientPc.At b.generation _ _ _
        rw [hgen]
        have hwait := hall none (by simp)
        exact pc.next (by simpa [Copying.waits, owner] using hwait)
  outside := hx.outside
  worker := by
    refine (Function.forall_update_iff x.worker fun u c =>
      c.At b.generation (done u).length x.params).mpr ⟨hpc, fun u hu => ?_⟩
    rw [hrest u hu]
    exact hx.worker_at hgen (by simpa using hu)
  done := by
    intro u
    rcases eq_or_ne u t with rfl | hne
    · exact hdone
    · show done u <+: jobsOf x.begun
      rw [hrest u hne]
      exact hx.done u
  memcps := by
    intro u hu
    show m = UInt64.ofNat ((done u).length + (Function.update x.worker t pc u).counted)
    rcases eq_or_ne u t with rfl | hne
    · rw [Function.update_self]
      exact hm hu
    · have ht : t.val ≠ 0 := fun ht => hne (Fin.ext (hu.trans ht.symm))
      rw [hm' ht, hrest u hne, Function.update_of_ne hne]
      exact hx.memcps u hu

variable [DecidableEq Client]

/-- The client with the lock moves on; the barrier or the arguments may change with it. -/
theorem CopyInv.moveClient (hx : CopyInv x) {c : Client} {pc : ClientPc} {b : Barrier} {p : Pmemcpy}
    (howner : x.owner = some c) (hb : b.Counts (Function.update x.waits none pc.waits))
    (hgen : x.Advances b none) (hp : p = x.params ∨ ∃ n, b.generation = 2 * n)
    (hpc : pc.At b.generation x.returned.length p) (hcall : pc.call = (x.client c).call) :
    CopyInv { x.setClient c pc with barrier := b, params := p } where
  barrier := by
    have hwaits : (x.setClient c pc).waits = Function.update x.waits none pc.waits := by
      funext q
      cases q <;> simp [Copying.waits, Copying.setClient, howner]
    show b.Counts (x.setClient c pc).waits
    rwa [hwaits]
  lock := by
    -- the client that moves is the one with the lock
    cases hx.lock with
    | free owner => simp [owner] at howner
    | held c' k owner _ call begun =>
      obtain rfl : c' = c := Option.some.inj (owner.symm.trans howner)
      refine .held c' k owner ?_ ?_ begun
      · simpa [Copying.setClient] using hpc
      · simpa [Copying.setClient, hcall] using call
  outside := by
    intro c' hc'
    have hne : c' ≠ c := by
      rintro rfl
      exact hc' howner
    simpa [Copying.setClient, hne] using hx.outside c' hc'
  worker := by
    intro u
    have hat := hx.worker_at hgen (u := u) (by simp)
    -- the workers see other parameters only while none of them is in a job
    rcases hp with rfl | ⟨n, hn⟩
    · exact hat
    · exact hat.of_even hn
  done := hx.done
  memcps := hx.memcps

/-! ## Steps -/

omit [DecidableEq Client] in
/-- In an odd generation the arguments are those of the last call that began. -/
theorem CopyInv.current (hx : CopyInv x) {n : Nat} (hodd : x.barrier.generation = 2 * n + 1) :
    x.returned.length = n ∧ jobsOf x.begun = jobsOf x.returned ++ [x.params.job] := by
  cases hx.lock with
  | free owner gen begun => omega
  | held c k owner pc call begun =>
    have hjob : x.returned.length = n ∧ x.params.job = k.job := by
      cases hpc : x.client c <;>
        simp only [hpc, ClientPc.At, ClientPc.call, Option.some.injEq] at pc call
      case wait => exact ⟨by omega, call ▸ pc.2.2.2⟩
      case arriveEnd => exact ⟨by omega, call ▸ pc.2⟩
      case waitEnd => exact ⟨by omega, call ▸ pc.2.2.2⟩
      case write | unlock => omega
    refine ⟨hjob.1, ?_⟩
    rw [begun, hjob.2]
    simp [jobsOf]

omit [DecidableEq Client] in
/-- The job that a copy thread is about to run is the next one. -/
theorem CopyInv.next_job (hx : CopyInv x) {t : Fin T}
    (hodd : x.barrier.generation = 2 * (x.done t).length + 1) :
    x.done t ++ [x.params.job] <+: jobsOf x.begun := by
  rcases hx.current hodd with ⟨hlength, hbegun⟩
  have hdone := hx.done t
  rw [hbegun] at hdone ⊢
  -- both are beginnings of the jobs of the calls that began, and of one length
  have heq : x.done t = jobsOf x.returned := by
    refine (List.prefix_of_prefix_length_le hdone (List.prefix_append _ _) ?_).eq_of_length ?_
    all_goals simp [jobsOf, hlength]
  rw [heq]

omit [DecidableEq Client] in
/-- A step at which the thread neither comes to the barrier nor leaves it. -/
theorem CopyInv.counts_same (hx : CopyInv x) {t : Fin T} {pc : WorkerPc}
    (hpc : pc.waits = (x.worker t).waits) :
    x.barrier.Counts (Function.update x.waits (some t) pc.waits) := by
  have hwaits : Function.update x.waits (some t) pc.waits = x.waits := by
    rw [hpc]
    exact Function.update_eq_self (some t) x.waits
  rw [hwaits]
  exact hx.barrier

omit [DecidableEq Client] in
/-- A statement of a copy thread keeps the invariant. -/
theorem CopyInv.workerStep (hx : CopyInv x) (t : Fin T) : CopyInv (workerStep t x) := by
  have hat := hx.worker t
  have hm := hx.memcps t
  have hrest : ∀ u, u ≠ t → x.done u = x.done u := fun _ _ => rfl
  cases hpc : x.worker t <;>
    simp only [hpc, WorkerPc.At, WorkerPc.counted] at hat hm <;>
    simp only [Hemem.workerStep, hpc]
  -- the two meetings
  case arrive | arriveEnd =>
    have hq : x.waits (some t) = none := by simp [Copying.waits, hpc, WorkerPc.waits]
    have hgen := hx.advances hq
    refine hx.moveWorker (hx.arrive hq) hgen hrest ?_ (hx.done t) hm fun _ => rfl
    refine ⟨hat, ?_⟩
    rcases hgen with hgen | ⟨hgen, -⟩ <;> omega
  case wait g | waitEnd g =>
    split
    · rename_i hg
      have hq : x.waits (some t) = some g := by simp [Copying.waits, hpc, WorkerPc.waits]
      refine hx.moveWorker (hx.barrier.leave hq hg) (x.advances_same _) hrest ?_ (hx.done t) hm
        fun _ => rfl
      simp only [WorkerPc.At]
      omega
    · exact hx
  case count =>
    split
    · rename_i ht
      refine hx.moveWorker (hx.counts_same (by rw [hpc]; rfl)) (x.advances_same _) hrest hat
        (hx.done t) (fun _ => ?_) fun ht' => absurd ht ht'
      rw [hm ht, Nat.add_zero]
      exact (UInt64.ofNat_add _ 1).symm
    · rename_i ht
      exact hx.moveWorker (hx.counts_same (by rw [hpc]; rfl)) (x.advances_same _) hrest hat
        (hx.done t) (fun ht' => absurd ht' ht) fun _ => rfl
  -- the arguments are read one by one, while no client writes them
  case readLength =>
    exact hx.moveWorker (hx.counts_same (by rw [hpc]; rfl)) (x.advances_same _) hrest ⟨hat, rfl⟩
      (hx.done t) hm fun _ => rfl
  case readDst length =>
    exact hx.moveWorker (hx.counts_same (by rw [hpc]; rfl)) (x.advances_same _) hrest
      ⟨hat.1, hat.2, rfl⟩ (hx.done t) hm fun _ => rfl
  case readWriteZeros length dst =>
    rcases hat with ⟨hodd, rfl, rfl⟩
    split
    · rename_i hzeros
      refine hx.moveWorker (hx.counts_same (by rw [hpc]; rfl)) (x.advances_same _) hrest
        ⟨hodd, ?_⟩ (hx.done t) hm fun _ => rfl
      simp [Pmemcpy.job, hzeros]
    · rename_i hzeros
      exact hx.moveWorker (hx.counts_same (by rw [hpc]; rfl)) (x.advances_same _) hrest
        ⟨hodd, rfl, rfl, by simpa using hzeros⟩ (hx.done t) hm fun _ => rfl
  case readSrc length dst =>
    rcases hat with ⟨hodd, rfl, rfl, hzeros⟩
    refine hx.moveWorker (hx.counts_same (by rw [hpc]; rfl)) (x.advances_same _) hrest
      ⟨hodd, ?_⟩ (hx.done t) hm fun _ => rfl
    simp [Pmemcpy.job, hzeros]
  case run j =>
    -- what has been read is the job of the last call that began
    rcases hat with ⟨hodd, rfl⟩
    refine hx.moveWorker (hx.counts_same (by rw [hpc]; rfl)) (x.advances_same _)
      (fun u hu => Function.update_of_ne hu _ _) ?_ ?_ (fun ht => ?_) fun _ => rfl
    · show x.barrier.generation + 1 =
        2 * (Function.update x.done t (x.done t ++ [x.params.job]) t).length
      rw [Function.update_self, List.length_append, List.length_singleton, hodd]
      omega
    · rw [Function.update_self]
      exact hx.next_job hodd
    · rw [Function.update_self, List.length_append]
      exact hm ht

/-- The client with the lock, from where it is. -/
theorem CopyInv.held (hx : CopyInv x) {c : Client} (hidle : x.client c ≠ .idle)
    (hlock : ∀ k, x.client c ≠ .lock k) :
    x.owner = some c ∧ (x.client c).At x.barrier.generation x.returned.length x.params ∧
      ∃ k, (x.client c).call = some k ∧ x.begun = x.returned ++ [(c, k)] := by
  have howner : x.owner = some c := by
    by_contra hne
    rcases hx.outside c hne with h | ⟨k, h⟩
    · exact hidle h
    · exact hlock k h
  cases hx.lock with
  | free owner => simp [owner] at howner
  | held c' k owner pc call begun =>
    obtain rfl : c' = c := Option.some.inj (owner.symm.trans howner)
    exact ⟨howner, pc, k, call, begun⟩

omit [DecidableEq Client] in
/-- The client with the lock neither comes to the barrier nor leaves it. -/
theorem CopyInv.counts_client (hx : CopyInv x) {c : Client} {pc : ClientPc}
    (howner : x.owner = some c) (hpc : pc.waits = (x.client c).waits) :
    x.barrier.Counts (Function.update x.waits none pc.waits) := by
  have hwaits : Function.update x.waits none pc.waits = x.waits := by
    rw [hpc]
    refine (congrArg (Function.update x.waits none) ?_).trans (Function.update_eq_self none x.waits)
    simp [Copying.waits, howner]
  rw [hwaits]
  exact hx.barrier

/-- So does a call, which first asks for the lock. -/
theorem CopyInv.start (hx : CopyInv x) {c : Client} (hidle : x.client c = .idle) (k : CopyCall) :
    CopyInv (x.setClient c (.lock k)) := by
  -- a client with no call does not hold the lock
  have howner : x.owner ≠ some c := by
    intro howner
    cases hx.lock with
    | free owner => simp [owner] at howner
    | held c' k owner pc =>
      obtain rfl : c' = c := Option.some.inj (owner.symm.trans howner)
      simp [hidle, ClientPc.At] at pc
  have hclient : ∀ c', x.owner = some c' → (x.setClient c (.lock k)).client c' = x.client c' := by
    intro c' hc'
    refine Function.update_of_ne ?_ _ _
    rintro rfl
    exact howner hc'
  have hwaits : (x.setClient c (.lock k)).waits = x.waits := by
    funext q
    cases q with
    | some t => rfl
    | none => exact Option.bind_congr fun c' hc' => by rw [hclient c' hc']
  refine ⟨?_, ?_, ?_, hx.worker, hx.done, hx.memcps⟩
  · rw [hwaits]
    exact hx.barrier
  · cases hx.lock with
    | free owner gen begun => exact .free owner gen begun
    | held c' k' owner pc call begun =>
      have hc' := hclient c' owner
      exact .held c' k' owner (by rwa [hc']) (by rwa [hc']) begun
  · refine (Function.forall_update_iff x.client fun c' pc =>
      x.owner ≠ some c' → pc = .idle ∨ ∃ k, pc = .lock k).mpr ⟨fun _ => Or.inr ⟨k, rfl⟩, ?_⟩
    exact fun c' _ => hx.outside c'

/-- A call gets the lock. -/
theorem CopyInv.lock_step (hx : CopyInv x) {c : Client} {k : CopyCall} (hfree : x.owner = none)
    (hpc : x.client c = .lock k) :
    CopyInv { x.setClient c (.write k k.code) with
      owner := some c, begun := x.begun ++ [(c, k)] } := by
  -- with the lock free, every call that has begun has returned
  have hbegun : x.barrier.generation = 2 * x.returned.length ∧ x.begun = x.returned := by
    cases hx.lock with
    | free _ gen begun => exact ⟨gen, begun⟩
    | held c' k' owner => simp [owner] at hfree
  have hparams : (k.code.foldl Assign.run x.params).job = k.job := by cases k <;> rfl
  refine ⟨?_, .held c k rfl ?_ ?_ ?_, ?_, hx.worker, fun t => ?_, hx.memcps⟩
  · have hwaits : Copying.waits { x.setClient c (.write k k.code) with
        owner := some c, begun := x.begun ++ [(c, k)] } = x.waits := by
      funext q
      cases q with
      | some t => rfl
      | none => simp [Copying.waits, Copying.setClient, hfree, ClientPc.waits]
    rw [hwaits]
    exact hx.barrier
  · simpa [Copying.setClient, ClientPc.At] using ⟨hbegun.1, hparams⟩
  · simp [Copying.setClient, ClientPc.call]
  · rw [hbegun.2]
    rfl
  · intro c' hc'
    have hne : c' ≠ c := by
      rintro rfl
      exact hc' rfl
    simpa [Copying.setClient, hne] using hx.outside c' (by simp [hfree])
  · apply (hx.done t).trans
    show jobsOf x.begun <+: jobsOf (x.begun ++ [(c, k)])
    simp [jobsOf]

/-- A call gives the lock back and returns. -/
theorem CopyInv.unlock_step (hx : CopyInv x) {c : Client} {k : CopyCall} (howner : x.owner = some c)
    (hpc : x.client c = .unlock k) (hgen : x.barrier.generation = 2 * x.returned.length + 2)
    (hbegun : x.begun = x.returned ++ [(c, k)]) :
    CopyInv { x.setClient c .idle with owner := none, returned := x.returned ++ [(c, k)] } := by
  refine ⟨?_, .free rfl ?_ hbegun, ?_, hx.worker, hx.done, hx.memcps⟩
  · have hwaits : Copying.waits { x.setClient c .idle with
        owner := none, returned := x.returned ++ [(c, k)] } = x.waits := by
      funext q
      cases q with
      | some t => rfl
      | none => simp [Copying.waits, howner, hpc, ClientPc.waits]
    rw [hwaits]
    exact hx.barrier
  · show x.barrier.generation = 2 * (x.returned ++ [(c, k)]).length
    rw [hgen, List.length_append, List.length_singleton]
    omega
  · intro c' _
    rcases eq_or_ne c' c with rfl | hne
    · simp [Copying.setClient]
    · have hother : x.owner ≠ some c' := by
        rw [howner]
        simpa using hne.symm
      simpa [Copying.setClient, hne] using hx.outside c' hother

/-- A statement of a client keeps the invariant. -/
theorem CopyInv.clientStep (hx : CopyInv x) (c : Client) : CopyInv (clientStep c x) := by
  cases hpc : x.client c
  case idle =>
    simp only [Hemem.clientStep, hpc]
    exact hx
  case lock k =>
    simp only [Hemem.clientStep, hpc]
    split
    · rename_i hfree
      exact hx.lock_step hfree hpc
    · exact hx
  -- the client has the lock
  all_goals
    rcases hx.held (c := c) (by simp [hpc]) (by simp [hpc]) with ⟨howner, hat, k', hcall, hbegun⟩
    simp only [hpc, ClientPc.At, ClientPc.call, Option.some.injEq] at hat hcall
    subst hcall
    have hwait : x.waits none = (x.client c).waits := by simp [Copying.waits, howner]
    rw [hpc] at hwait
    simp only [Hemem.clientStep, hpc]
  case write todo =>
    cases todo with
    | nil =>
      -- the first meeting: from now on the copy threads may read
      have hgen := hx.advances hwait
      refine hx.moveClient howner (hx.arrive hwait) hgen (Or.inl rfl) ?_ (by rw [hpc]; rfl)
      refine ⟨hat.1, ?_, ?_, hat.2⟩ <;> rcases hgen with hgen | ⟨hgen, -⟩ <;> omega
    | cons a todo =>
      -- the copy threads have not met the client yet, so none reads the field that is written
      exact hx.moveClient howner (hx.counts_client howner (by rw [hpc]; rfl)) (x.advances_same _)
        (Or.inr ⟨_, hat.1⟩) hat (by rw [hpc]; rfl)
  case wait g =>
    split
    · rename_i hg
      refine hx.moveClient howner (hx.barrier.leave hwait hg) (x.advances_same _) (Or.inl rfl) ?_
        (by rw [hpc]; rfl)
      exact ⟨by omega, hat.2.2.2⟩
    · exact hx
  case arriveEnd =>
    have hgen := hx.advances hwait
    refine hx.moveClient howner (hx.arrive hwait) hgen (Or.inl rfl) ?_ (by rw [hpc]; rfl)
    refine ⟨hat.1, ?_, ?_, hat.2⟩ <;> rcases hgen with hgen | ⟨hgen, -⟩ <;> omega
  case waitEnd g =>
    split
    · rename_i hg
      refine hx.moveClient howner (hx.barrier.leave hwait hg) (x.advances_same _) (Or.inl rfl) ?_
        (by rw [hpc]; rfl)
      simp only [ClientPc.At]
      omega
    · exact hx
  case unlock => exact hx.unlock_step howner hpc hat hbegun

/-- Every step keeps it. -/
theorem CopyInv.step (hx : CopyInv x) {lbl : CopyLabel T Client} {y : Copying T Client}
    (h : copyStep lbl x = .ok y) : CopyInv y := by
  cases lbl with
  | start c k =>
    simp only [copyStep, Except.ok.injEq] at h
    subst h
    split
    · rename_i hidle
      exact hx.start hidle k
    · exact hx
  | client c =>
    cases h
    exact hx.clientStep c
  | worker t =>
    cases h
    exact hx.workerStep t

/-! ## Runs -/

/-- Before the first call the copy threads wait at the barrier. -/
theorem copyInv_init (T : Nat) (Client : Type) (params : Pmemcpy) (mem : Nat → Byte) :
    CopyInv (Copying.init T Client params mem) where
  barrier := by
    have hwaits : (Copying.init T Client params mem).waits = fun _ => none := by
      funext q
      cases q <;> rfl
    rw [hwaits]
    exact Barrier.counts_init
  lock := .free rfl rfl rfl
  outside := fun _ _ => Or.inl rfl
  worker := fun _ => rfl
  done := fun _ => List.nil_prefix
  memcps := fun _ _ => rfl

omit [DecidableEq Client] in
/-- A call that has returned has taken the barrier through two generations. -/
theorem CopyInv.generation (hx : CopyInv x) :
    2 * x.returned.length ≤ x.barrier.generation ∧
      (x.owner = none → x.barrier.generation = 2 * x.returned.length) := by
  cases hx.lock with
  | free owner gen begun => exact ⟨gen.ge, fun _ => gen⟩
  | held c k owner pc call begun =>
    refine ⟨?_, fun hfree => by simp [owner] at hfree⟩
    cases hpc : x.client c <;> simp only [hpc, ClientPc.At] at pc <;> omega

omit [DecidableEq Client] in
/-- A copy thread has run the jobs of the calls that have returned, and with the lock free no
other. -/
theorem CopyInv.done_length (hx : CopyInv x) (t : Fin T) :
    x.returned.length ≤ (x.done t).length ∧
      (x.owner = none → (x.done t).length = x.returned.length ∧ (x.worker t).counted = 0) := by
  rcases hx.generation with ⟨hle, heq⟩
  have hat := hx.worker t
  refine ⟨?_, fun hfree => ?_⟩
  · cases hpc : x.worker t <;> simp only [hpc, WorkerPc.At] at hat <;> omega
  · have hgen := heq hfree
    cases hpc : x.worker t <;> simp only [hpc, WorkerPc.At] at hat
    case arrive | wait | waitEnd => exact ⟨by omega, rfl⟩
    all_goals omega

omit [DecidableEq Client] in
/-- The invariant says that the calls are isolated. -/
theorem CopyInv.isolated (hx : CopyInv x) (hT : 0 < T) : x.Isolated where
  done := hx.done
  order := by
    cases hx.lock with
    | free owner gen begun => exact begun ▸ List.prefix_refl _
    | held c k owner pc call begun => exact begun ▸ List.prefix_append _ _
  returned := by
    intro t
    have hprefix : jobsOf x.returned <+: jobsOf x.begun := by
      cases hx.lock with
      | free owner gen begun => rw [begun]
      | held c k owner pc call begun => simp [begun, jobsOf]
    apply List.prefix_of_prefix_length_le hprefix (hx.done t)
    simpa [jobsOf] using (hx.done_length t).1
  idle := by
    intro hidle
    have hlock := hx.lock
    cases hlock with
    | held c k owner pc => simp [hidle, ClientPc.At] at pc
    | free owner gen begun =>
      have hlength := fun t => (hx.done_length t).2 owner
      refine ⟨begun, fun t => ?_, ?_⟩
      · have hdone := hx.done t
        rw [begun] at hdone
        exact hdone.eq_of_length (by simp [jobsOf, (hlength t).1])
      · rw [hx.memcps ⟨0, hT⟩ rfl, (hlength ⟨0, hT⟩).1, (hlength ⟨0, hT⟩).2, Nat.add_zero]

/-- The calls are isolated from each other in every state that the system reaches, with any
number of copy threads and of clients. -/
theorem copies_isolated (hT : 0 < T) (params : Pmemcpy) (mem : Nat → Byte)
    (labels : List (CopyLabel T Client)) :
    Throughout copyStep Copying.Isolated labels (Copying.init T Client params mem) := by
  refine Throughout.imp (fun x (hx : CopyInv x) => hx.isolated hT) ?_
  exact throughout_of_step (fun x _ y hx hs => hx.step hs) labels (copyInv_init T Client params mem)

/-- Two copy threads and two clients. Both threads are slow to leave the barrier of the first
call: by then the call has returned and the second client has written its arguments. -/
def slowWorkers : List (CopyLabel 2 Bool) :=
  List.flatten [[.start false (.memcpy 0 8 4), .start true (.memset 16 0 2)],
    .replicate 6 (.client false), .replicate 8 (.worker 0), .replicate 9 (.worker 1),
    .replicate 8 (.worker 0), .replicate 4 (.client false), .replicate 5 (.client true),
    .replicate 2 (.worker 0), .replicate 9 (.worker 1), .replicate 7 (.worker 0),
    .replicate 4 (.client true)]

/-- Two clients call at once, and the copy threads take their time. -/
theorem copies_isolated_slowWorkers :
    (∃ x, runs copyStep slowWorkers (Copying.init 2 Bool ⟨0, 0, 0, false⟩ fun _ => 0) = .ok x ∧
      ∀ c, x.client c = .idle) ∧
    Throughout copyStep Copying.Isolated slowWorkers
      (Copying.init 2 Bool ⟨0, 0, 0, false⟩ fun _ => 0) := by
  refine ⟨⟨_, rfl, fun c => ?_⟩, ?_⟩
  · cases c <;> rfl
  · exact copies_isolated (by decide) _ _ slowWorkers

end Hemem
