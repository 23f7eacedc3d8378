import Hemem.Conc.CopyProtocol
import Hemem.Conc.Chunks

/-!
# Hemem.Conc.Copied — the memory after the calls that have returned

The chunks of `Hemem.Conc.Chunks` as the copy threads of `Hemem.Conc.Copying` run them. The
barrier lets all of them through before a call returns, so the memory is what the calls have
made of it one after the other, each by its chunks in some order; and calls without a remainder
leave what a build with `USE_DMA` would have left.
-/

namespace Hemem

open Lib

variable {T : Nat} {Client : Type}

/-- The calls `ks` have made `mem` of the memory `mem₀`, each by all its chunks. -/
inductive Wrote (T : Nat) (mem₀ : Nat → Byte) : List CopyCall → (Nat → Byte) → Prop where
  | none : Wrote T mem₀ [] mem₀
  | call {ks : List CopyCall} {mem : Nat → Byte} (k : CopyCall) {order : List (Fin T)}
      (hks : Wrote T mem₀ ks mem) (horder : order.Perm (List.finRange T)) :
      Wrote T mem₀ (ks ++ [k]) (k.job.runChunks order mem)

/-- Calls without a remainder have done what the full copies do. -/
theorem Wrote.whole {mem₀ mem : Nat → Byte} {ks : List CopyCall} (h : Wrote T mem₀ ks mem)
    (hks : ∀ k ∈ ks, k.Apart ∧ k.length % T = 0) :
    mem = ks.foldl (fun mem k => k.whole mem) mem₀ := by
  induction h with
  | none => rfl
  | call k _ horder ih =>
    rcases hks k (by simp) with ⟨hk, hzero⟩
    have hcovers := (runChunks_covers_all_iff horder hk).mpr hzero
    rw [(hcovers _).whole, List.foldl_concat, ← ih fun k' hk' => hks k' (by simp [hk'])]

/-! ## The invariant -/

/-- The copy threads in `order` have run their chunks of the call in progress on `base`. -/
structure Progress (mem₀ : Nat → Byte) (x : Copying T Client) (order : List (Fin T))
    (base : Nat → Byte) : Prop where
  nodup : order.Nodup
  mem_order : ∀ t, t ∈ order ↔ x.returned.length < (x.done t).length
  wrote : Wrote T mem₀ (x.returned.map Prod.snd) base
  idle : x.begun = x.returned → x.mem = base
  running : ∀ c k, x.begun = x.returned ++ [(c, k)] → x.mem = k.job.runChunks order base

variable {mem₀ base : Nat → Byte} {x y : Copying T Client} {order : List (Fin T)}

/-- A step that runs no chunk, takes no lock and gives none back. -/
theorem Progress.congr (h : Progress mem₀ x order base) (hdone : y.done = x.done)
    (hbegun : y.begun = x.begun) (hreturned : y.returned = x.returned) (hmem : y.mem = x.mem) :
    Progress mem₀ y order base := by
  constructor
  · exact h.nodup
  · rw [hreturned, hdone]
    exact h.mem_order
  · rw [hreturned]
    exact h.wrote
  · rw [hbegun, hreturned, hmem]
    exact h.idle
  · rw [hbegun, hreturned, hmem]
    exact h.running

/-- The chunk of the next copy thread. -/
theorem runChunks_concat (j : PmemcpyJob) (order : List (Fin T)) (t : Fin T) (mem : Nat → Byte) :
    j.runChunks (order ++ [t]) mem = j.runChunk T t (j.runChunks order mem) :=
  List.foldl_concat ..

/-- A copy thread runs its chunk of the job. -/
theorem Progress.run (h : Progress mem₀ x order base) (hx : CopyInv x) {t : Fin T}
    {j : PmemcpyJob} (hpc : x.worker t = .run j) :
    Progress mem₀ (workerStep t x) (order ++ [t]) base := by
  have hat := hx.worker t
  simp only [hpc, WorkerPc.At] at hat
  rcases hx.current hat.1 with ⟨hlength, hbegun⟩
  -- a copy thread that is about to run the job has not run it yet
  have hnot : t ∉ order := by
    rw [h.mem_order, hlength]
    exact Nat.lt_irrefl _
  simp only [workerStep, hpc]
  constructor
  case nodup =>
    rw [← List.concat_eq_append]
    exact h.nodup.concat hnot
  case mem_order =>
    intro u
    rw [List.mem_append, List.mem_singleton, h.mem_order]
    dsimp only [Copying.setWorker]
    by_cases hu : u = t
    · subst hu
      rw [Function.update_self, List.length_append, List.length_singleton, hlength]
      exact iff_of_true (Or.inr rfl) (Nat.lt_succ_self _)
    · rw [Function.update_of_ne hu]
      exact or_iff_left hu
  case wrote => exact h.wrote
  case idle =>
    intro heq
    have hlen := congrArg List.length hbegun
    rw [show x.begun = x.returned from heq] at hlen
    simp [jobsOf] at hlen
  case running =>
    intro c k heq
    have hbegun' : x.begun = x.returned ++ [(c, k)] := heq
    have hjob : j = k.job := by
      rw [hbegun'] at hbegun
      simp only [jobsOf, List.map_append, List.map_cons, List.map_nil] at hbegun
      have hlast := List.append_cancel_left hbegun
      rw [hat.2]
      exact (List.cons.inj hlast).1.symm
    rw [runChunks_concat, ← h.running c k hbegun', hjob]

theorem Progress.workerStep (h : Progress mem₀ x order base) (hx : CopyInv x) (t : Fin T) :
    ∃ order, Progress mem₀ (workerStep t x) order base := by
  cases hpc : x.worker t with
  | run j => exact ⟨order ++ [t], h.run hx hpc⟩
  | arrive | readLength | readDst | readSrc | arriveEnd =>
    simp only [Hemem.workerStep, hpc]
    exact ⟨order, h.congr rfl rfl rfl rfl⟩
  | wait | count | readWriteZeros | waitEnd =>
    simp only [Hemem.workerStep, hpc]
    split <;> exact ⟨order, h.congr rfl rfl rfl rfl⟩

/-- No copy thread has run a job of a call that has not begun. -/
theorem Progress.order_eq_nil (h : Progress mem₀ x order base) (hx : CopyInv x)
    (hfree : x.owner = none) : order = [] := by
  rw [List.eq_nil_iff_forall_not_mem]
  intro t ht
  have hlt := (h.mem_order t).mp ht
  have heq := ((hx.done_length t).2 hfree).1
  omega

variable [DecidableEq Client]

/-- A call gets the lock. -/
theorem Progress.lock (h : Progress mem₀ x order base) (hx : CopyInv x) (hfree : x.owner = none)
    (c : Client) (k : CopyCall) :
    Progress mem₀ { x.setClient c (.write k k.code) with
      owner := some c, begun := x.begun ++ [(c, k)] } order base := by
  have hbegun : x.begun = x.returned := by
    cases hx.lock with
    | free _ _ begun => exact begun
    | held c' k' owner => simp [owner] at hfree
  refine ⟨h.nodup, h.mem_order, h.wrote, fun heq => ?_, fun c' k' _ => ?_⟩
  · have hlen := congrArg List.length heq
    simp [Copying.setClient, hbegun] at hlen
  · rw [h.order_eq_nil hx hfree]
    exact h.idle hbegun

/-- A call returns: all copy threads have run their chunks. -/
theorem Progress.unlock (h : Progress mem₀ x order base) (hx : CopyInv x) {c : Client}
    {k : CopyCall} (hgen : x.barrier.generation = 2 * x.returned.length + 2)
    (hbegun : x.begun = x.returned ++ [(c, k)]) :
    Progress mem₀ { x.setClient c .idle with
      owner := none, returned := x.returned ++ [(c, k)] } [] x.mem := by
  -- the client has left the second meeting, so all copy threads have come to it
  have hdone : ∀ t, (x.done t).length = x.returned.length + 1 := by
    intro t
    have hat := hx.worker t
    cases hpc : x.worker t <;> simp only [hpc, WorkerPc.At] at hat <;> omega
  have hall : order.Perm (List.finRange T) := by
    refine (List.perm_ext_iff_of_nodup h.nodup (List.nodup_finRange T)).mpr fun t => ?_
    rw [h.mem_order, hdone]
    exact iff_of_true (Nat.lt_succ_self _) (List.mem_finRange t)
  refine ⟨List.nodup_nil, fun t => ?_, ?_, fun _ => rfl, fun c' k' heq => ?_⟩
  · refine iff_of_false List.not_mem_nil ?_
    rw [List.length_append, List.length_singleton]
    exact (hdone t).not_gt
  · rw [List.map_append, h.running c k hbegun]
    exact h.wrote.call k hall
  · have hlen := congrArg List.length heq
    simp [Copying.setClient, hbegun] at hlen

theorem Progress.clientStep (h : Progress mem₀ x order base) (hx : CopyInv x) (c : Client) :
    ∃ order base, Progress mem₀ (clientStep c x) order base := by
  cases hpc : x.client c with
  | idle =>
    simp only [Hemem.clientStep, hpc]
    exact ⟨order, base, h⟩
  | lock k =>
    simp only [Hemem.clientStep, hpc]
    split
    · rename_i hfree
      exact ⟨order, base, h.lock hx hfree c k⟩
    · exact ⟨order, base, h⟩
  | write k todo =>
    simp only [Hemem.clientStep, hpc]
    cases todo <;> exact ⟨order, base, h.congr rfl rfl rfl rfl⟩
  | arriveEnd k =>
    simp only [Hemem.clientStep, hpc]
    exact ⟨order, base, h.congr rfl rfl rfl rfl⟩
  | wait | waitEnd =>
    simp only [Hemem.clientStep, hpc]
    split <;> exact ⟨order, base, h.congr rfl rfl rfl rfl⟩
  | unlock k =>
    rcases hx.held (c := c) (by simp [hpc]) (by simp [hpc]) with ⟨-, hat, k', hcall, hbegun⟩
    simp only [hpc, ClientPc.At, ClientPc.call, Option.some.injEq] at hat hcall
    subst hcall
    simp only [Hemem.clientStep, hpc]
    exact ⟨[], x.mem, h.unlock hx hat hbegun⟩

/-! ## Runs -/

/-- The invariant of the protocol and that of the memory. -/
def CopiedInv (mem₀ : Nat → Byte) (x : Copying T Client) : Prop :=
  CopyInv x ∧ ∃ order base, Progress mem₀ x order base

theorem CopiedInv.step (h : CopiedInv mem₀ x) {lbl : CopyLabel T Client}
    (hstep : copyStep lbl x = .ok y) : CopiedInv mem₀ y := by
  rcases h with ⟨hx, order, base, hmem⟩
  refine ⟨hx.step hstep, ?_⟩
  cases lbl with
  | start c k =>
    cases hstep
    split <;> exact ⟨order, base, hmem.congr rfl rfl rfl rfl⟩
  | client c =>
    cases hstep
    exact hmem.clientStep hx c
  | worker t =>
    cases hstep
    rcases hmem.workerStep hx t with ⟨order, hmem⟩
    exact ⟨order, base, hmem⟩

theorem copiedInv_init (T : Nat) (Client : Type) (params : Pmemcpy) (mem : Nat → Byte) :
    CopiedInv mem (Copying.init T Client params mem) := by
  refine ⟨copyInv_init T Client params mem, [], mem, ?_⟩
  refine ⟨List.nodup_nil, fun t => ?_, .none, fun _ => rfl, fun c k h => ?_⟩
  · exact iff_of_false List.not_mem_nil (Nat.lt_irrefl 0)
  · cases h

omit [DecidableEq Client] in
theorem CopiedInv.wrote (h : CopiedInv mem₀ x) (hfree : x.owner = none) :
    Wrote T mem₀ (x.returned.map Prod.snd) x.mem := by
  rcases h with ⟨hx, order, base, hmem⟩
  have hbegun : x.begun = x.returned := by
    cases hx.lock with
    | free _ _ begun => exact begun
    | held c k owner => simp [owner] at hfree
  rw [hmem.idle hbegun]
  exact hmem.wrote

/-- Whatever the steps of the clients and of the copy threads: when no call is in progress, the
memory is what the calls that have returned make of it, one after the other and each by its
chunks in some order. -/
theorem copies_wrote (params : Pmemcpy) (mem : Nat → Byte) (labels : List (CopyLabel T Client)) :
    Throughout copyStep (fun x => x.owner = none → Wrote T mem (x.returned.map Prod.snd) x.mem)
      labels (Copying.init T Client params mem) := by
  refine Throughout.imp (fun x (hx : CopiedInv mem x) => hx.wrote) ?_
  exact throughout_of_step (fun x _ y hx hs => hx.step hs) labels
    (copiedInv_init T Client params mem)

/-- Calls whose lengths `MAX_COPY_THREADS` divides leave the memory that full copies and
`memset`s leave. -/
theorem copies_whole (params : Pmemcpy) (mem : Nat → Byte) (labels : List (CopyLabel T Client)) :
    Throughout copyStep
      (fun x => x.owner = none → (∀ k ∈ x.returned, k.2.Apart ∧ k.2.length % T = 0) →
        x.mem = (x.returned.map Prod.snd).foldl (fun mem k => k.whole mem) mem)
      labels (Copying.init T Client params mem) := by
  refine Throughout.imp (fun x hx hfree hcalls => ?_) (copies_wrote params mem labels)
  refine (hx hfree).whole fun k hk => ?_
  rcases List.mem_map.mp hk with ⟨k', hk', rfl⟩
  exact hcalls k' hk'

end Hemem
