import Hemem.Faults
import Hemem.Conc.Custody

/-!
# Hemem.Conc.Flags — the list of a page determines its flags

In every interleaving a page on a list has the `in_dram` and `present` of the list,
because the books of `Hemem.Conc.Custody` are true of the lists; and no assertion
on these two flags can fail, because they are true of the hands that reach one.
-/

namespace Hemem

open Lib

variable {Tid : Type} {cfg : Config} {s : St}

/-- Every page on a list has the flags of the list. -/
def FlagsByList (s : St) : Prop :=
  ∀ l p, p ∈ s.list l → (s.page p).inDram = l.tier.inDram ∧ (s.page p).present = l.present

theorem Custody.flagsByList {x : Sys Tid} (h : Custody cfg x) : FlagsByList x.st := by
  intro l p hp
  have he : (p, l.flags) ∈ x.items (.list l) := List.mem_map_of_mem hp
  exact Prod.mk.inj (h.books.agree he)

/-- The errors other than a failed assertion on `in_dram` or `present`. -/
def NotFlagAssert (e : Fault) : Prop := e ≠ .inDramAssert ∧ e ≠ .presentAssert

theorem AllocInstr.run_stopsIn (i : AllocInstr) (p : PageId) (r : AllocRegs) (s : St) :
    StopsIn NotFlagAssert (i.run cfg p r s) := by
  cases i
  case clear =>
    refine StopsIn.bind ?_ fun _ _ => StopsIn.ok
    exact StopsIn.bind (check_stopsIn (by simp [NotFlagAssert])) fun _ _ => StopsIn.ok
  case register =>
    refine StopsIn.bind ?_ fun _ _ => StopsIn.ok
    exact StopsIn.bind (check_stopsIn (by simp [NotFlagAssert])) fun _ _ => StopsIn.ok
  case addPage =>
    refine StopsIn.bind ?_ fun _ _ => StopsIn.ok
    exact StopsIn.bind (check_stopsIn (by simp [NotFlagAssert])) fun _ _ => StopsIn.ok
  case assertVa | assertAligned =>
    exact StopsIn.bind (check_stopsIn (by simp [NotFlagAssert])) fun _ _ => StopsIn.ok
  all_goals exact StopsIn.ok

/-- A check that holds does not stop. -/
theorem check_of_true {E : Fault → Prop} {b : Bool} {f : Fault} (h : b = true) :
    StopsIn E (check b f) := by
  subst h
  exact StopsIn.ok

/-- A thread whose book is true fails no assertion on the flags. -/
theorem threadStep_stopsIn (pc : Pc) (h : ∀ p v, (p, v) ∈ pc.items → s.flags p = v) :
    StopsIn NotFlagAssert (threadStep cfg pc s) := by
  -- the steps that can stop are those with an assertion, a system call or a list that may be
  -- empty
  cases pc with
  | reserve p length populate =>
    refine StopsIn.bind (check_stopsIn (by simp [NotFlagAssert])) fun _ _ => ?_
    exact StopsIn.bind (check_stopsIn (by simp [NotFlagAssert])) fun _ _ => StopsIn.ok
  | registerAll p length populate =>
    refine StopsIn.bind ?_ fun s₁ _ => ?_
    · exact StopsIn.bind (check_stopsIn (by simp [NotFlagAssert])) fun _ _ => StopsIn.ok
    · split
      · refine StopsIn.bind (check_stopsIn (by simp [NotFlagAssert])) fun _ _ => ?_
        exact StopsIn.bind (check_stopsIn (by simp [NotFlagAssert])) fun _ _ => StopsIn.ok
      · exact StopsIn.ok
  | missing va => exact StopsIn.bind (check_stopsIn (by simp [NotFlagAssert])) fun _ _ => StopsIn.ok
  | takeDram k va =>
    simp only [threadStep]
    split <;> exact StopsIn.ok
  | takeNvm k va =>
    simp only [threadStep]
    split
    · exact StopsIn.ok
    · exact StopsIn.error (by simp [NotFlagAssert])
  | assertTier k va t p =>
    have hp := h p (t.inDram, false) (by simp [Pc.items, unused])
    exact StopsIn.bind (check_of_true (by simp [(Prod.mk.inj hp).1])) fun _ _ => StopsIn.ok
  | assertAbsent k va t p =>
    have hp := h p (t.inDram, false) (by simp [Pc.items, unused])
    exact StopsIn.bind (check_of_true (by simp [(Prod.mk.inj hp).2])) fun _ _ => StopsIn.ok
  | publish k va t p => exact StopsIn.ok
  | place k p r code =>
    cases code with
    | nil => exact StopsIn.ok
    | cons i code => exact StopsIn.bind (AllocInstr.run_stopsIn i p r s) fun _ _ => StopsIn.ok
  | choose q i left =>
    exact StopsIn.bind (check_stopsIn (by simp [NotFlagAssert])) fun _ _ => StopsIn.ok
  | rotated q i left choose e =>
    exact StopsIn.bind (enqueueFifo_stopsIn (by simp [NotFlagAssert]) _ _ _) fun _ _ => StopsIn.ok
  | rotate q i left choose => cases choose <;> exact StopsIn.ok
  | requestTest q i left => cases left <;> exact StopsIn.ok
  | take q i left =>
    simp only [threadStep]
    split <;> exact StopsIn.ok
  | assertInDram q i left p =>
    have hp := h p (q.d.src.inDram, true) (by simp [Pc.items, inUse])
    exact StopsIn.bind (check_of_true (by simp [(Prod.mk.inj hp).1])) fun _ _ => StopsIn.ok
  | assertPresent q i left p =>
    have hp := h p (q.d.src.inDram, true) (by simp [Pc.items, inUse])
    exact StopsIn.bind (check_of_true (Prod.mk.inj hp).2) fun _ _ => StopsIn.ok
  | put q i left p => exact StopsIn.ok
  | scan u pos =>
    simp only [threadStep]
    split
    · split <;> exact StopsIn.ok
    · exact StopsIn.ok
  | unmap u =>
    simp only [threadStep]
    split <;> exact StopsIn.ok
  | _ => exact StopsIn.ok

/-- An access through a descriptor pointer. -/
theorem deref_bind_stopsIn {α : Type} {e : Option PageId} {f : PageId → Except Fault α}
    (h : ∀ p, e = some p → StopsIn NotFlagAssert (f p)) :
    StopsIn NotFlagAssert (deref e >>= f) := by
  cases e with
  | none => exact StopsIn.error (by simp [NotFlagAssert])
  | some p => exact h p rfl

theorem Dir.assertInDram_mem {d : Dir} {ph : Phase} (h : .assertInDram ∈ d.code ph) :
    ph = .copy := by
  cases d <;> cases ph <;> simp_all [Dir.code, Dir.src]

theorem MigInstr.run_stopsIn {d : Dir} {ph : Phase} {e : Entry} {i : MigInstr}
    {code : List MigInstr} {r : MigRegs} (hcode : i :: code <:+ d.code ph)
    (h : ∀ p v, (p, v) ∈ e.items d ph (i :: code) → s.flags p = v) :
    StopsIn NotFlagAssert (i.run cfg d e r s) := by
  cases i
  -- the page is in the book of the migration thread with the flag of this tier
  case assertInDram =>
    obtain rfl := Dir.assertInDram_mem (hcode.sublist.mem (List.mem_cons_self ..))
    refine deref_bind_stopsIn fun p hp => ?_
    have hflags := h p (d.src.inDram, true)
      (by simp [Entry.items, Entry.pageItems, Dir.pageTier, hp, inUse])
    exact StopsIn.bind (check_of_true (by simp [(Prod.mk.inj hflags).1])) fun _ _ => StopsIn.ok
  case assertAddr | assertAligned =>
    exact StopsIn.bind (check_stopsIn (by simp [NotFlagAssert])) fun _ _ => StopsIn.ok
  case assertOldOffset | assertNewOffset =>
    refine StopsIn.bind (check_stopsIn (by simp [NotFlagAssert])) fun _ _ => ?_
    exact StopsIn.bind (check_stopsIn (by simp [NotFlagAssert])) fun _ _ => StopsIn.ok
  -- the other assertions do not read the flags
  case assertVa =>
    refine deref_bind_stopsIn fun p _ => ?_
    exact StopsIn.bind (check_stopsIn (by simp [NotFlagAssert])) fun _ _ => StopsIn.ok
  case writeprotect | register =>
    refine StopsIn.bind ?_ fun _ _ => StopsIn.ok
    exact StopsIn.bind (check_stopsIn (by simp [NotFlagAssert])) fun _ _ => StopsIn.ok
  case enqueuePage =>
    refine deref_bind_stopsIn fun p _ => ?_
    exact StopsIn.bind (enqueueFifo_stopsIn (by simp [NotFlagAssert]) _ _ _) fun _ _ => StopsIn.ok
  case enqueueFree =>
    exact StopsIn.bind (enqueueFifo_stopsIn (by simp [NotFlagAssert]) _ _ _) fun _ _ => StopsIn.ok
  case copy | map | setFreeOffset | setFreePresent | setFreeInDram => exact StopsIn.ok
  all_goals exact deref_bind_stopsIn fun p _ => StopsIn.ok

theorem migStep_stopsIn {numBatchs : Nat} {m : Mpc} (hm : m.Wf)
    (h : ∀ p v, (p, v) ∈ m.items → s.flags p = v) :
    StopsIn NotFlagAssert (migStep cfg numBatchs m s) := by
  cases m with
  | dequeuePage d left es => cases left <;> exact StopsIn.ok
  | readFree d left es page next => exact deref_bind_stopsIn fun _ _ => StopsIn.ok
  | loop d ph done todo code r =>
    cases todo with
    | nil =>
      simp only [migStep]
      split <;> exact StopsIn.ok
    | cons e todo =>
      cases code with
      | nil => exact StopsIn.ok
      | cons i code =>
        refine StopsIn.bind (MigInstr.run_stopsIn hm fun p v he => h p v ?_) fun _ _ => StopsIn.ok
        exact List.mem_append_left _ he
  | _ => exact StopsIn.ok

variable [DecidableEq Tid] {numBatchs : Nat}

/-- No step fails an assertion on `in_dram` or `present`. -/
theorem Custody.step_stopsIn {x : Sys Tid} (h : Custody cfg x) (lbl : Label Tid) :
    StopsIn NotFlagAssert (Hemem.step cfg numBatchs lbl x) := by
  cases lbl with
  | start t c =>
    simp only [Hemem.step]
    split <;> exact StopsIn.ok
  | run t =>
    refine StopsIn.bind (threadStep_stopsIn _ fun p v he => ?_) fun _ _ => StopsIn.ok
    exact h.books.agree (i := .thread t) he
  | migrate =>
    refine StopsIn.bind (migStep_stopsIn h.mig fun p v he => ?_) fun _ _ => StopsIn.ok
    exact h.books.agree (i := .migrator) he

/-- In every state that an interleaving of the threads reaches, the list of a page
determines its `in_dram` and `present`, and no next step of any thread fails an
assertion on the two. -/
theorem flagsByList_throughout (cfg : Config) (numBatchs : Nat) (labels : List (Label Tid)) :
    Throughout (Hemem.step cfg numBatchs)
      (fun x => FlagsByList x.st ∧ ∀ lbl,
        Hemem.step cfg numBatchs lbl x ≠ .error .inDramAssert ∧
        Hemem.step cfg numBatchs lbl x ≠ .error .presentAssert)
      labels (Sys.init cfg) := by
  refine Throughout.imp ?_ (custody_throughout cfg numBatchs labels (wf_pebsInit cfg))
  intro x hx
  refine ⟨hx.flagsByList, fun lbl => ⟨fun h => ?_, fun h => ?_⟩⟩
  · exact (hx.step_stopsIn lbl _ h).1 rfl
  · exact (hx.step_stopsIn lbl _ h).2 rfl

end Hemem
