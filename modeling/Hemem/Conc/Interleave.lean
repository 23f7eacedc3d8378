import Hemem.Lib.Run
import Hemem.Conc.Migrator

/-!
# Hemem.Conc.Interleave — all threads together

Any number of application threads, each of which begins a call whenever it is idle,
and the migration thread. A run is a list of labels: every label starts a call of a
thread or lets one thread take its next step. A step that stops the process ends
the run. The history of the run is kept beside the state; no step reads it.
-/

namespace Hemem

structure Sys (Tid : Type) where
  st : St
  thr : Tid → Pc
  mig : Mpc
  hist : List Event

inductive Label (Tid : Type) where
  /-- an idle thread begins a call -/
  | start (t : Tid) (c : Call)
  /-- a thread takes its next step -/
  | run (t : Tid)
  /-- the migration thread takes its next step -/
  | migrate

variable {Tid : Type} [DecidableEq Tid]

def step (cfg : Config) (numBatchs : Nat) : Label Tid → Sys Tid → Except Fault (Sys Tid)
  | .start t c, x =>
    match x.thr t with
    | .idle => .ok { x with thr := Function.update x.thr t c.begin }
    | _ => .ok x
  | .run t, x => do
    let (pc, s, ev) ← threadStep cfg (x.thr t) x.st
    .ok ⟨s, Function.update x.thr t pc, x.mig, x.hist ++ ev⟩
  | .migrate, x => do
    let (m, s, ev) ← migStep cfg numBatchs x.mig x.st
    .ok ⟨s, x.thr, m, x.hist ++ ev⟩

/-- All threads are idle and the migration thread tests its first counter. -/
def Sys.quiet (s : St) : Sys Tid := ⟨s, fun _ => .idle, .test .dramToDram, []⟩

/-- The system after `pebs_init`. -/
def Sys.init (cfg : Config) : Sys Tid := .quiet (pebsInit cfg)

/-- What a thread step does to the system. -/
theorem step_run {cfg : Config} {n : Nat} {t : Tid} {x x' : Sys Tid}
    (h : step cfg n (.run t) x = .ok x') :
    ∃ pc ev, threadStep cfg (x.thr t) x.st = .ok (pc, x'.st, ev) ∧
      x'.thr = Function.update x.thr t pc ∧ x'.mig = x.mig ∧ x'.hist = x.hist ++ ev := by
  simp only [step, Lib.bind_eq_ok, Prod.exists, Except.ok.injEq] at h
  rcases h with ⟨pc, s, ev, h, rfl⟩
  exact ⟨pc, ev, h, rfl, rfl, rfl⟩

/-- What a step of the migration thread does to the system. -/
theorem step_migrate {cfg : Config} {n : Nat} {x x' : Sys Tid}
    (h : step cfg n .migrate x = .ok x') :
    ∃ ev, migStep cfg n x.mig x.st = .ok (x'.mig, x'.st, ev) ∧
      x'.thr = x.thr ∧ x'.hist = x.hist ++ ev := by
  simp only [step, Lib.bind_eq_ok, Prod.exists, Except.ok.injEq] at h
  rcases h with ⟨m, s, ev, h, rfl⟩
  exact ⟨ev, h, rfl, rfl⟩

/-- What the start of a call does to the system. -/
theorem step_start {cfg : Config} {n : Nat} {t : Tid} {c : Call} {x x' : Sys Tid}
    (h : step cfg n (.start t c) x = .ok x') :
    x' = x ∨ (x.thr t = .idle ∧ x' = { x with thr := Function.update x.thr t c.begin }) := by
  simp only [step] at h
  split at h
  · rename_i hidle
    exact Or.inr ⟨hidle, (Except.ok.inj h).symm⟩
  · exact Or.inl (Except.ok.inj h).symm

end Hemem
