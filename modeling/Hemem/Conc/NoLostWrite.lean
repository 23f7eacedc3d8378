import Mathlib.Data.List.Pairwise
import Hemem.Lib.Moving
import Hemem.Conc.Writers

/-!
# Hemem.Conc.NoLostWrite — writes during migrations

The system of `Hemem.Conc.Writers` follows the protocol of `Hemem.Lib.Moving`: the
addresses of a batch move to the slots of its entries, they are fenced off by
`hemem_wp_page`, copied by the `ioctl`, and mapped to the new slots by `MAP_FIXED`, with
which the fence falls. The fault thread leaves the memory and the protection alone. So
every address reads what was last written to it, in every interleaving.
-/

namespace Hemem

open Lib

variable {cfg : Config} {s s' : St} {m m' : Mpc}

/-! ## A batch on its way -/

/-- The tier to which the batch moves. -/
def Mpc.dst : Mpc → Tier
  | .loop d _ _ _ _ _ => d.dst
  | _ => .dram

/-- All entries of the batch. -/
def Mpc.entries : Mpc → List Entry
  | .loop _ _ done todo _ _ => done ++ todo
  | _ => []

/-- The entries of which a copy has been asked for and which have not been remapped. -/
def Mpc.asked : Mpc → List Entry
  | .loop _ .copy done [] _ _ => done
  | .loop _ .copy done (e :: _) code _ => if .copy ∈ code then done else done ++ [e]
  | .loop d .remap done todo code r => (Mpc.loop d .remap done todo code r).unmoved
  | _ => []

/-- The copy is that of the page `p` of the entry. -/
structure CopyJob.Of (j : CopyJob) (s : St) (t : Tier) (e : Entry) (p : PageId) : Prop where
  entry : e.page = some p
  page : j.page = some p
  src : j.src = (s.page p).slot
  dst : j.dst = (t, e.offset)
  len : j.len = pageSize

/-- Byte `k` has been copied. -/
def CopyJob.Copied (j : CopyJob) (k : Nat) : Prop :=
  k < j.len ∧ ∀ pc ∈ j.left, ¬ inRange pc.1 pc.2 k = true

/-- The entry moves the address to the location. -/
def Entry.Moves (e : Entry) (s : St) (t : Tier) (a : Nat) (l : Tier × Nat) : Prop :=
  ∃ p k, e.page = some p ∧ k < pageSize ∧ a = (s.page p).va + k ∧ l = (t, e.offset + k)

/-- The pages of the entries are disjoint. -/
def Entry.Apart (s : St) (e e' : Entry) : Prop :=
  ∀ p q, e.page = some p → e'.page = some q → Hemem.Apart (s.page p).va (s.page q).va

/-- What the loops of `pebs_migrate_*` rely on. -/
structure Control (s : St) (m : Mpc) : Prop where
  wf : m.Wf
  loop : ∃ d ph done todo code r, m = .loop d ph done todo code r ∧ ph ≠ .giveBack
  regs : RegsOk s m
  /-- the assertion and the offset that has been read, in the first loop of
  `hemem_migrate_*` -/
  source : ∀ {d done e todo code r p}, m = .loop d .copy done (e :: todo) code r →
    e.page = some p → (.assertInDram ∉ code → (s.page p).inDram = d.src.inDram) ∧
      (.readOffset ∉ code → r.old = (s.page p).devdaxOffset)

/-- How far the batch has come. -/
structure OnItsWay (s : St) (m : Mpc) (jobs : List CopyJob) : Prop where
  /-- until it is remapped a page is where its descriptor says -/
  placed : ∀ e ∈ m.unmoved, ∃ p, e.page = some p ∧ MapsTo s (s.page p).va (s.page p).slot
  apart : m.entries.Pairwise (Entry.Apart s)
  /-- it is protected before it is copied -/
  fenced : ∀ e ∈ m.window, ∀ p, e.page = some p →
    ∀ k, k < pageSize → s.wp ((s.page p).va + k) = true
  /-- it is copied in the loop that asks for it, and before any page is remapped -/
  copying : ∀ j ∈ jobs, j.left ≠ [] → ∃ d done todo code r, m = .loop d .copy done todo code r ∧
    ∃ e ∈ done ++ todo, ∃ p, j.Of s m.dst e p
  asked : ∀ e ∈ m.asked, ∃ j ∈ jobs, ∃ p, j.Of s m.dst e p
  within : ∀ j ∈ jobs, ∀ pc ∈ j.left, pc.1 + pc.2 ≤ j.len

/-- The protocol that the system follows. -/
def transit (s : St) (mig : Option Mpc) (jobs : List CopyJob) (last : Nat → Byte) :
    Transit Nat (Tier × Nat) Byte where
  map := device s
  mem := s.bytes
  last := last
  fenced a := s.wp a = true
  target a l := ∃ m ∈ mig, ∃ e ∈ m.unmoved, e.Moves s m.dst a l
  copied a := ∃ m ∈ mig, ∃ e ∈ m.unmoved, ∃ j ∈ jobs, ∃ p k,
    e.page = some p ∧ j.page = some p ∧ j.Copied k ∧ k < pageSize ∧ a = (s.page p).va + k
  stale l := ∃ j ∈ jobs, ∃ k, j.Copied k ∧ l = (j.src.1, j.src.2 + k)

/-! ## Steps of the migration thread -/

/-- The statements that change the memory, the protection or the address space. -/
theorem MigInstr.run_memory {d : Dir} {e : Entry} {i : MigInstr} {r r' : MigRegs}
    {ev : List Event} (h : i.run cfg d e r s = .ok (r', s', ev)) (hcopy : i ≠ .copy) :
    s'.mem = s.mem ∧
      ((i = .writeprotect ∧ s' = protectRange r.addr r.len s) ∨
        (i = .map ∧ s' = mmapFixed r.addr r.len d.dst e.offset s) ∨
        (i ≠ .writeprotect ∧ i ≠ .map ∧ s'.vm = s.vm ∧ s'.wp = s.wp)) := by
  cases MigInstr.run_ok h
  case copy => exact absurd rfl hcopy
  all_goals simp

/-- A page whose write protection may be on has not been moved yet. -/
theorem Mpc.window_sub {e : Entry} (he : e ∈ m.window) : e ∈ m.unmoved := by
  cases m with
  | loop d ph done todo code r =>
    cases ph <;> cases todo <;> simp_all [Mpc.window, Mpc.unmoved]
    all_goals
      split at he <;> simp_all
      try rcases he with he | he <;> simp [he]
  | _ => simp [Mpc.window] at he

/-- Nor has one whose copy has been asked for. -/
theorem Mpc.asked_sub {e : Entry} (he : e ∈ m.asked) : e ∈ m.unmoved := by
  cases m with
  | loop d ph done todo code r =>
    cases ph <;> cases todo <;> simp_all [Mpc.asked, Mpc.unmoved]
    split at he <;> simp_all
    rcases he with he | he <;> simp [he]
  | _ => simp [Mpc.asked] at he

/-- Only the loop of the copies copies. -/
theorem Dir.copy_mem {d : Dir} {ph : Phase} (h : .copy ∈ d.code ph) : ph = .copy := by
  cases d <;> cases ph <;> simp_all [Dir.code, Dir.src]

/-- The loop of the copies copies in every direction. -/
theorem Dir.copy_mem_copy (d : Dir) : .copy ∈ d.code .copy := by
  cases d <;> simp [Dir.code, Dir.src]

theorem Dir.assertInDram_mem_copy (d : Dir) : .assertInDram ∈ d.code .copy := by
  cases d <;> simp [Dir.code, Dir.src]

theorem Dir.readOffset_mem_copy (d : Dir) : .readOffset ∈ d.code .copy := by
  cases d <;> simp [Dir.code, Dir.src]

/-- The copy is asked for when the source has been checked and its offset read. -/
theorem Dir.copy_passed {d : Dir} {ph : Phase} {code : List MigInstr}
    (h : .copy :: code <:+ d.code ph) :
    .assertInDram ∉ MigInstr.copy :: code ∧ .readOffset ∉ MigInstr.copy :: code := by
  cases d <;> cases ph <;> simp [Dir.code, Dir.src, List.suffix_cons_iff] at h <;> simp [h]

/-- The statements of the copying loop that fix the source. -/
theorem MigInstr.run_source {d : Dir} {e : Entry} {i : MigInstr} {r r' : MigRegs}
    {ev : List Event} (h : i.run cfg d e r s = .ok (r', s', ev)) {p : PageId}
    (hp : e.page = some p) :
    (i = .assertInDram → (s.page p).inDram = d.src.inDram) ∧
      r'.old = if i = .readOffset then (s.page p).devdaxOffset else r.old := by
  cases MigInstr.run_ok h
  case assertInDram q hq hinDram =>
    obtain rfl : q = p := Option.some.inj (hq.symm.trans hp)
    simp [hinDram]
  case readOffset q hq =>
    obtain rfl : q = p := Option.some.inj (hq.symm.trans hp)
    simp
  all_goals simp

instance Entry.apart_symm (s : St) : Std.Symm (Entry.Apart s) :=
  ⟨fun _ _ h p q hp hq => (h q p hq hp).symm⟩

/-- Entries that are apart are entries of different pages. -/
theorem Entry.Apart.ne {e e' : Entry} (h : e.Apart s e') {p : PageId} (hp : e.page = some p) :
    e'.page ≠ some p := by
  intro hp'
  have := h p p hp hp'
  simp only [Hemem.Apart, pageSize_eq] at this
  omega

/-- The loops before the last one leave the slot of a page that has not been remapped. -/
theorem MigInstr.run_slot_unmoved {d : Dir} {ph : Phase} {done todo : List Entry} {e e' : Entry}
    {i : MigInstr} {code : List MigInstr} {r r' : MigRegs} {ev : List Event}
    (hcode : i :: code <:+ d.code ph) (hph : ph ≠ .giveBack)
    (h : i.run cfg d e r s = .ok (r', s', ev))
    (hapart : (Mpc.loop d ph done (e :: todo) (i :: code) r).entries.Pairwise (Entry.Apart s))
    (he' : e' ∈ (Mpc.loop d ph done (e :: todo) (i :: code) r).unmoved) {p : PageId}
    (hp : e'.page = some p) : (s'.page p).slot = (s.page p).slot := by
  have hmem := hcode.sublist.mem (List.mem_cons_self ..)
  rcases (MigInstr.run_slot h p).2 with hsame | ⟨hi, hpage⟩ | ⟨hi, -⟩
  · exact hsame
  · -- the page at hand has been remapped
    obtain rfl : ph = .remap := by
      rcases hi with rfl | rfl
      · exact Dir.setInDram_mem hmem
      · exact Dir.setOffset_mem hmem
    have htodo : e' ∈ todo := by
      have hpassed := Dir.map_passed hcode hi
      simpa [Mpc.unmoved, hpassed] using he'
    have hpair := (List.pairwise_cons.mp (List.pairwise_append.mp hapart).2.1).1 e' htodo
    exact absurd hp (hpair.ne hpage)
  · exact absurd (Dir.giveBack_of_mem (by rcases hi with rfl | rfl <;> simp [Dir.code]) hmem) hph

/-! ## The loops -/

/-- What happens in a loop other than the last one. -/
theorem Control.step {numBatchs : Nat} {ev : List Event} (h : Control s m)
    (hpt : ∀ p, (s.page p).pt = .hugep) (hs : MigStep cfg numBatchs m s m' s' ev)
    (hnext : ∀ d done code r, m ≠ .loop d .unflag done [] code r) : Control s' m' := by
  rcases h.loop with ⟨d, ph, done, todo, code, r, rfl, hph⟩
  have hwf := Mpc.wf_step h.wf hs
  have hregs := h.regs.step hs hpt
  cases hs
  -- no statement of the copying loop changes the slot, so what was read of it stays right
  case instr e todo i code r' hrun =>
    refine ⟨hwf, ⟨_, _, _, _, _, _, rfl, hph⟩, hregs, ?_⟩
    rintro _ _ _ _ _ _ p ⟨rfl⟩ hp
    have hcode : i :: code <:+ d.code .copy := h.wf
    have hmem := hcode.sublist.mem (List.mem_cons_self ..)
    have hslot : (s'.page p).slot = (s.page p).slot := by
      rcases (MigInstr.run_slot hrun p).2 with hsame | ⟨rfl | rfl, -⟩ | ⟨hi, -⟩
      · exact hsame
      · exact nomatch Dir.setInDram_mem hmem
      · exact nomatch Dir.setOffset_mem hmem
      · exact nomatch Dir.giveBack_of_mem (by rcases hi with rfl | rfl <;> simp [Dir.code]) hmem
    rcases HememPage.slot_inj hslot with ⟨hinDram, hoffset⟩
    rcases h.source rfl hp with ⟨hsource, hold⟩
    rcases MigInstr.run_source hrun hp with ⟨hassert, hread⟩
    refine ⟨fun hn => ?_, fun hn => ?_⟩
    · rw [hinDram]
      by_cases hi : i = .assertInDram
      · exact hassert hi
      · exact hsource (by simp [Ne.symm hi, hn])
    · rw [hoffset, hread]
      split
      · rfl
      · rename_i hi
        exact hold (by simp [Ne.symm hi, hn])
  -- a new entry has not been read yet
  case nextEntry e todo =>
    refine ⟨hwf, ⟨_, _, _, _, _, _, rfl, hph⟩, hregs, ?_⟩
    rintro _ _ _ _ _ _ p ⟨rfl⟩ hp
    exact ⟨fun hn => absurd d.assertInDram_mem_copy hn, fun hn => absurd d.readOffset_mem_copy hn⟩
  case nextLoop ph' hph' =>
    have hgive : ph' ≠ .giveBack := by
      rintro rfl
      cases ph <;> simp [Phase.next] at hph'
      exact hnext _ _ _ _ rfl
    refine ⟨hwf, ⟨_, _, _, _, _, _, rfl, hgive⟩, hregs, ?_⟩
    rintro _ _ _ _ _ _ p ⟨rfl⟩ hp
    exact ⟨fun hn => absurd d.assertInDram_mem_copy hn, fun hn => absurd d.readOffset_mem_copy hn⟩
  case lastLoop => exact absurd rfl hph

/-- A job stays that of its page as long as the page keeps its slot. -/
theorem CopyJob.Of.congr {j : CopyJob} {t : Tier} {e : Entry} {p : PageId} (h : j.Of s t e p)
    (hslot : (s'.page p).slot = (s.page p).slot) : j.Of s' t e p :=
  ⟨h.entry, h.page, h.src.trans hslot.symm, h.dst, h.len⟩

/-- The state changes: protections come, and the pages that have not been remapped stay
as they are. -/
theorem OnItsWay.congr {jobs : List CopyJob} (h : OnItsWay s m jobs)
    (hdev : ∀ a, device s' a = device s a) (hwp : ∀ a, s.wp a = true → s'.wp a = true)
    (hva : ∀ p, (s'.page p).va = (s.page p).va)
    (hslot : ∀ e ∈ m.unmoved, ∀ p, e.page = some p → (s'.page p).slot = (s.page p).slot) :
    OnItsWay s' m jobs where
  placed e he := by
    rcases h.placed e he with ⟨p, hp, hmaps⟩
    refine ⟨p, hp, fun k hk => ?_⟩
    rw [hva, hslot e he p hp, hdev]
    exact hmaps k hk
  apart := h.apart.imp fun hab p q hp hq => by
    rw [hva, hva]
    exact hab p q hp hq
  fenced e he p hp k hk := by
    rw [hva]
    exact hwp _ (h.fenced e he p hp k hk)
  copying j hj hleft := by
    rcases h.copying j hj hleft with ⟨d, done, todo, code, r, rfl, e, he, p, hof⟩
    exact ⟨d, done, todo, code, r, rfl, e, he, p, hof.congr (hslot e he p hof.entry)⟩
  asked e he := by
    rcases h.asked e he with ⟨j, hj, p, hof⟩
    exact ⟨j, hj, p, hof.congr (hslot e (Mpc.asked_sub he) p hof.entry)⟩
  within := h.within

/-- The migration thread goes on, with the same pages to be remapped. -/
theorem OnItsWay.move {jobs : List CopyJob} (h : OnItsWay s m jobs)
    (hentries : m'.entries = m.entries) (hunmoved : m'.unmoved = m.unmoved) (hdst : m'.dst = m.dst)
    (hfenced : ∀ e ∈ m'.window, e ∈ m.window ∨ ∀ p, e.page = some p →
      ∀ k, k < pageSize → s.wp ((s.page p).va + k) = true)
    (hasked : ∀ e ∈ m'.asked, e ∈ m.asked)
    (hcopying : ∀ d done todo code r, m = .loop d .copy done todo code r →
      (∀ j ∈ jobs, j.left = []) ∨
        ∃ done' todo' code' r', m' = .loop d .copy done' todo' code' r') : OnItsWay s m' jobs where
  placed := hunmoved.symm ▸ h.placed
  apart := hentries.symm ▸ h.apart
  fenced e he p hp := by
    rcases hfenced e he with hold | hnew
    · exact h.fenced e hold p hp
    · exact hnew p hp
  copying j hj hleft := by
    -- a piece still to copy belongs to the entry of the same batch
    rcases h.copying j hj hleft with ⟨d, done, todo, code, r, hm, e, he, p, hof⟩
    rcases hcopying d done todo code r hm with hnone | ⟨done', todo', code', r', hm'⟩
    · exact absurd (hnone j hj) hleft
    · have hsame : done' ++ todo' = done ++ todo := by
        rw [hm, hm'] at hentries
        exact hentries
      exact ⟨d, done', todo', code', r', hm', e, hsame.symm ▸ he, p, hdst.symm ▸ hof⟩
  asked e he := by
    rw [hdst]
    exact h.asked e (hasked e he)
  within := h.within

/-- Nothing is fenced off less, and nothing more is to move, once the memory and the
address space are the same. -/
theorem transit_tame {mig mig' : Option Mpc} {jobs jobs' : List CopyJob} {last : Nat → Byte}
    (hvm : s'.vm = s.vm) (hmem : s'.mem = s.mem) (hwp : ∀ a, s.wp a = true → s'.wp a = true)
    (hva : ∀ p, (s'.page p).va = (s.page p).va)
    (hmig : ∀ m' ∈ mig', ∃ m ∈ mig, m'.unmoved = m.unmoved ∧ m'.dst = m.dst)
    (hjobs : ∀ j ∈ jobs', j ∈ jobs ∨ ∀ k, ¬ j.Copied k) :
    Transit.Step (transit s mig jobs last) (transit s' mig' jobs' last) := by
  refine .tame ?map ?mem rfl ⟨fun ha => hwp _ ha, ?target, ?copied, ?stale⟩
  -- neither the page table nor the bytes are touched
  case map =>
    funext a
    simp only [transit, device, hvm]
  case mem =>
    funext x
    simp only [transit, St.bytes, hmem]
  case target =>
    rintro a l ⟨m', hm', e, he, p, k, hp, hk, ha, hl⟩
    rcases hmig m' hm' with ⟨m, hm, hunmoved, hdst⟩
    exact ⟨m, hm, e, hunmoved ▸ he, p, k, hp, hk, hva p ▸ ha, hdst ▸ hl⟩
  case copied =>
    rintro a ⟨m', hm', e, he, j, hj, p, k, hp, hpage, hcopied, hk, ha⟩
    rcases hmig m' hm' with ⟨m, hm, hunmoved, hdst⟩
    -- a new job has copied nothing yet
    rcases hjobs j hj with hold | hnot
    · exact ⟨m, hm, e, hunmoved ▸ he, j, hold, p, k, hp, hpage, hcopied, hk, hva p ▸ ha⟩
    · exact absurd hcopied (hnot k)
  case stale =>
    rintro l ⟨j, hj, k, hcopied, hl⟩
    rcases hjobs j hj with hold | hnot
    · exact ⟨j, hold, k, hcopied, hl⟩
    · exact absurd hcopied (hnot k)

/-- The migration thread turns to the next entry or loop, and the state stays as it is. -/
theorem OnItsWay.turn {jobs : List CopyJob} (h : OnItsWay s m jobs)
    (hentries : m'.entries = m.entries) (hunmoved : m'.unmoved = m.unmoved) (hdst : m'.dst = m.dst)
    (hwindow : ∀ e ∈ m'.window, e ∈ m.window) (hasked : ∀ e ∈ m'.asked, e ∈ m.asked)
    (hcopying : ∀ d done todo code r, m = .loop d .copy done todo code r →
      (∀ j ∈ jobs, j.left = []) ∨
        ∃ done' todo' code' r', m' = .loop d .copy done' todo' code' r') (last : Nat → Byte) :
    OnItsWay s m' jobs ∧
      Transit.Step (transit s (some m) jobs last) (transit s (some m') jobs last) := by
  refine ⟨h.move hentries hunmoved hdst (fun e he => Or.inl (hwindow e he)) hasked hcopying, ?_⟩
  refine transit_tame rfl rfl (fun _ ha => ha) (fun _ => rfl) ?_ fun j hj => Or.inl hj
  rintro m₁ ⟨rfl⟩
  exact ⟨m, rfl, hunmoved, hdst⟩

/-- The next statement of the migration thread. -/
def Mpc.next : Mpc → Option MigInstr
  | .loop _ _ _ (_ :: _) (i :: _) _ => some i
  | _ => none

/-- A step other than a copy or a `MAP_FIXED`, and where the `ioctl` has nothing left to
copy when it returns. -/
theorem OnItsWay.step {numBatchs : Nat} {ev : List Event} {jobs : List CopyJob}
    (h : OnItsWay s m jobs) (hc : Control s m) (hs : MigStep cfg numBatchs m s m' s' ev)
    (hcopy : m.next ≠ some .copy) (hmap : m.next ≠ some .map)
    (hwait : m.waits = true → ∀ j ∈ jobs, j.left = []) (last : Nat → Byte) :
    OnItsWay s' m' jobs ∧
      Transit.Step (transit s (some m) jobs last) (transit s' (some m') jobs last) := by
  have hkeeps := hs.keeps
  have hwindow := hs.window hc.wf
  rcases hc.loop with ⟨d, ph, done, todo, code, r, rfl, hph⟩
  cases hs
  case instr e todo i code r' hrun =>
    have hcode : i :: code <:+ d.code ph := hc.wf
    have hi : i ≠ .copy := fun hi => hcopy (by simp [Mpc.next, hi])
    have hj : i ≠ .map := fun hj => hmap (by simp [Mpc.next, hj])
    -- a statement moves no page, so those not yet moved and those asked for are the same
    have hunmoved : (Mpc.loop d ph done (e :: todo) code r').unmoved =
        (Mpc.loop d ph done (e :: todo) (i :: code) r).unmoved := by
      cases ph <;> simp [Mpc.unmoved, Ne.symm hj]
    have hasked : (Mpc.loop d ph done (e :: todo) code r').asked =
        (Mpc.loop d ph done (e :: todo) (i :: code) r).asked := by
      cases ph <;> simp [Mpc.asked, Mpc.unmoved, Ne.symm hi, Ne.symm hj]
    have hslot : ∀ e' ∈ (Mpc.loop d ph done (e :: todo) (i :: code) r).unmoved, ∀ p,
        e'.page = some p → (s'.page p).slot = (s.page p).slot :=
      fun e' he' p hp => MigInstr.run_slot_unmoved hcode hph hrun h.apart he' hp
    have hmemory := MigInstr.run_memory hrun hi
    have hvm : s'.vm = s.vm := by
      rcases hmemory.2 with ⟨-, rfl⟩ | ⟨hmap', -⟩ | ⟨-, -, hvm, -⟩
      · rfl
      · exact absurd hmap' hj
      · exact hvm
    have hwp : ∀ a, s.wp a = true → s'.wp a = true := by
      intro a ha
      rcases hmemory.2 with ⟨-, rfl⟩ | ⟨hmap', -⟩ | ⟨-, -, -, hwp⟩
      · simp [ha]
      · exact absurd hmap' hj
      · rwa [hwp]
    refine ⟨(h.congr (fun a => by simp only [device, hvm]) hwp (fun p => (hkeeps p).va) hslot).move
      rfl hunmoved rfl (fun e' he' => ?_) (fun e' he' => hasked ▸ he') ?_,
      transit_tame hvm hmemory.1 hwp (fun p => (hkeeps p).va) ?_ fun j hj => Or.inl hj⟩
    · rcases hwindow e' he' with hold | ⟨d', done', todo', code', r₁, hm, hreg, hst⟩
      · exact Or.inl hold
      · -- the page has just been protected
        rcases hm with ⟨rfl⟩
        right
        intro p hp k hk
        have hpassed := Dir.readAddr_passed hcode (Or.inl rfl)
        rcases hc.regs.addr rfl (Or.inl rfl) hpassed with ⟨q, hq, haddr⟩
        obtain rfl : q = p := Option.some.inj (hq.symm.trans hp)
        obtain rfl : code = [] := by simpa [Dir.code, List.suffix_cons_iff] using hcode
        have hlen : r.len = pageSize := hc.regs.len rfl (by simp) (by simp) (by simp)
        have hin : inRange r.addr r.len ((s.page q).va + k) = true := by
          rw [haddr, hlen]
          exact inRange_add hk
        rw [hst]
        simp [hin]
    · rintro d' done' todo' code' r₁ ⟨rfl⟩
      exact Or.inr ⟨_, _, _, _, rfl⟩
    · rintro m' ⟨rfl⟩
      exact ⟨_, rfl, hunmoved, rfl⟩
  -- between two entries nothing happens to memory
  case nextEntry e todo =>
    have hunmoved : (Mpc.loop d ph (done ++ [e]) todo (d.code ph) r).unmoved =
        (Mpc.loop d ph done (e :: todo) [] r).unmoved := by
      cases ph <;> cases todo <;> simp [Mpc.unmoved, d.map_mem_remap]
    have hasked : ∀ e' ∈ (Mpc.loop d ph (done ++ [e]) todo (d.code ph) r).asked,
        e' ∈ (Mpc.loop d ph done (e :: todo) [] r).asked := by
      cases ph <;> cases todo <;>
        simp [Mpc.asked, Mpc.unmoved, d.copy_mem_copy, d.map_mem_remap]
    refine h.turn (by simp [Mpc.entries]) hunmoved rfl (fun e' he' => ?_) hasked ?_ last
    · rcases hwindow e' he' with hold | ⟨_, _, _, _, _, hm, -⟩
      · exact hold
      · cases hm
    · rintro d' done' todo' code' r₁ ⟨rfl⟩
      exact Or.inr ⟨_, _, _, _, rfl⟩
  case nextLoop ph' hph' =>
    have hunmoved : (Mpc.loop d ph' [] done (d.code ph') r).unmoved =
        (Mpc.loop d ph done [] code r).unmoved := by
      cases ph <;> simp only [Phase.next, Option.some.injEq, reduceCtorEq] at hph' <;>
        subst hph' <;> cases done <;> simp [Mpc.unmoved, d.map_mem_remap]
    have hasked : ∀ e' ∈ (Mpc.loop d ph' [] done (d.code ph') r).asked,
        e' ∈ (Mpc.loop d ph done [] code r).asked := by
      cases ph <;> simp only [Phase.next, Option.some.injEq, reduceCtorEq] at hph' <;>
        subst hph' <;> cases done <;>
        simp [Mpc.asked, Mpc.unmoved, d.copy_mem_copy, d.map_mem_remap]
    refine h.turn (by simp [Mpc.entries]) hunmoved rfl (fun e' he' => ?_) hasked ?_ last
    · rcases hwindow e' he' with hold | ⟨_, _, _, _, _, hm, -⟩
      · exact hold
      · cases hm
    · -- the loop that asks for copies is left when nothing is left to copy
      rintro d' done' todo' code' r₁ ⟨rfl⟩
      exact Or.inl (hwait rfl)
  case lastLoop => exact absurd rfl hph

/-- The `MAP_FIXED` of the page at hand. -/
theorem OnItsWay.remap {jobs : List CopyJob} {d : Dir} {done todo : List Entry} {e : Entry}
    {code : List MigInstr} {r : MigRegs}
    (h : OnItsWay s (.loop d .remap done (e :: todo) (.map :: code) r) jobs)
    (hc : Control s (.loop d .remap done (e :: todo) (.map :: code) r))
    (hst : s' = mmapFixed r.addr r.len d.dst e.offset s) (last : Nat → Byte) :
    OnItsWay s' (.loop d .remap done (e :: todo) code r) jobs ∧
      Transit.Step (transit s (some (.loop d .remap done (e :: todo) (.map :: code) r)) jobs last)
        (transit s' (some (.loop d .remap done (e :: todo) code r)) jobs last) := by
  have hcode : .map :: code <:+ d.code .remap := hc.wf
  have hnot := notMem_of_suffix hcode
  have hunmoved : (Mpc.loop d .remap done (e :: todo) (.map :: code) r).unmoved = e :: todo := by
    simp [Mpc.unmoved]
  have hunmoved' : (Mpc.loop d .remap done (e :: todo) code r).unmoved = todo := by
    simp [Mpc.unmoved, hnot]
  have hpassed := Dir.readAddr_passed hcode (Or.inr (Or.inl rfl))
  rcases hc.regs.addr rfl (Or.inr rfl) hpassed with ⟨p, hp, haddr⟩
  have hlen : r.len = pageSize := hc.regs.len rfl (by simp) (by simp) (by simp)
  rw [haddr, hlen] at hst
  -- the pages still to be remapped are apart from this one
  have hout : ∀ e' ∈ todo, ∀ q, e'.page = some q → ∀ k, k < pageSize →
      ¬ inRange (s.page p).va pageSize ((s.page q).va + k) = true := by
    intro e' he' q hq k hk
    have hpair := (List.pairwise_cons.mp (List.pairwise_append.mp h.apart).2.1).1 e' he'
    exact (hpair p q hp hq).notMem (inRange_add hk)
  have hdev : ∀ a, device s' a = if inRange (s.page p).va pageSize a then
      some (d.dst, e.offset + (a - (s.page p).va)) else device s a := by
    intro a
    simp only [hst, device, mmapFixed_vm]
    split <;> rfl
  have hwp : ∀ a, ¬ inRange (s.page p).va pageSize a = true → s'.wp a = s.wp a := by
    intro a ha
    simp only [hst, mmapFixed_wp, if_neg ha]
  have hpage : s'.page = s.page := by rw [hst]; rfl
  have hnone : ∀ j ∈ jobs, j.left = [] := by
    intro j hj
    by_contra hleft
    rcases h.copying j hj hleft with ⟨_, _, _, _, _, hm, -⟩
    cases hm
  refine ⟨⟨fun e' he' => ?placed, ?apart, fun e' he' q hq k hk => ?fenced,
    fun j hj hleft => ?copying, fun e' he' => ?asked, h.within⟩, ?step⟩
  case placed =>
    -- a page still to be remapped is where it was
    rw [hunmoved'] at he'
    rcases h.placed e' (hunmoved ▸ List.mem_cons_of_mem e he') with ⟨q, hq, hmaps⟩
    refine ⟨q, hq, fun k hk => ?_⟩
    rw [hpage, hdev, if_neg (hout e' he' q hq k hk)]
    exact hmaps k hk
  case apart => exact h.apart.imp fun hab q q' hq hq' => by rw [hpage]; exact hab q q' hq hq'
  case fenced =>
    have htodo : e' ∈ todo := hunmoved' ▸ Mpc.window_sub he'
    rw [hpage, hwp _ (hout e' htodo q hq k hk)]
    exact h.fenced e' (by simp [Mpc.window, htodo]) q hq k hk
  case copying => exact absurd (hnone j hj) hleft
  case asked =>
    have htodo : e' ∈ todo := hunmoved' ▸ Mpc.asked_sub he'
    rcases h.asked e' (by simp [Mpc.asked, Mpc.unmoved, htodo]) with ⟨j, hj, q, hof⟩
    exact ⟨j, hj, q, hof.congr (by rw [hpage])⟩
  case step =>
    refine .remap (fun a => inRange (s.page p).va pageSize a = true)
      (fun a => (d.dst, e.offset + (a - (s.page p).va))) (fun {a} ha => ?ready)
      (fun a ha => ?inside) (fun a ha => ?outside) ?mem rfl (fun {a} ha hf => ?fenced)
      (fun {a l} ha => ?target) (fun {a} ha => ?copied) ?stale
    case ready =>
      -- every byte of the page has been copied to where it is mapped now
      rw [inRange_iff] at ha
      rcases Nat.exists_eq_add_of_le ha.1 with ⟨k, rfl⟩
      have hk : k < pageSize := by omega
      have hhead : e ∈ (Mpc.loop d .remap done (e :: todo) (.map :: code) r).unmoved := by
        simp [hunmoved]
      rcases h.asked e (by simp [Mpc.asked, Mpc.unmoved]) with ⟨j, hj, q, hof⟩
      obtain rfl : q = p := Option.some.inj (hof.entry.symm.trans hp)
      have hcopied : j.Copied k := ⟨hof.len ▸ hk, by simp [hnone j hj]⟩
      rcases h.placed e hhead with ⟨q', hq', hmaps⟩
      obtain rfl : q' = q := Option.some.inj (hq'.symm.trans hp)
      refine ⟨⟨_, rfl, e, hhead, j, hj, q', k, hp, hof.page, hcopied, hk, rfl⟩,
        ⟨_, rfl, e, hhead, q', k, hp, hk, rfl, ?_⟩, ⟨_, hmaps k hk⟩⟩
      simp only [Nat.add_sub_cancel_left]
      rfl
    case inside => exact (hdev a).trans (if_pos ha)
    case outside => exact (hdev a).trans (if_neg ha)
    case mem =>
      rw [hst]
      rfl
    case fenced => simpa [transit, hwp a ha] using hf
    case target =>
      rcases ha with ⟨_, ⟨rfl⟩, e', he', q, k, hq, hk, rfl, hl⟩
      rw [hunmoved'] at he'
      rw [hpage]
      refine ⟨⟨_, rfl, e', hunmoved ▸ List.mem_cons_of_mem e he', q, k, hq, hk, rfl, hl⟩, ?_⟩
      exact hout e' he' q hq k hk
    case copied =>
      rcases ha with ⟨_, ⟨rfl⟩, e', he', j, hj, q, k, hq, hjq, hcopied, hk, rfl⟩
      rw [hunmoved'] at he'
      rw [hpage]
      refine ⟨⟨_, rfl, e', hunmoved ▸ List.mem_cons_of_mem e he', j, hj, q, k, hq, hjq, hcopied,
        hk, rfl⟩, ?_⟩
      exact hout e' he' q hq k hk
    case stale => exact fun hl => hl

/-! ## Copies -/

/-- The pieces are the whole. -/
theorem mem_pieces (cs : List Nat) : ∀ {k n i : Nat}, k ≤ i → i < k + n →
    ∃ pc ∈ pieces k n cs, inRange pc.1 pc.2 i = true := by
  induction cs with
  | nil =>
    intro k n i hk hi
    exact ⟨(k, n), List.mem_singleton_self _, inRange_iff.mpr ⟨hk, hi⟩⟩
  | cons c cs ih =>
    intro k n i hk hi
    by_cases hc : i < k + min c n
    · exact ⟨(k, min c n), List.mem_cons_self, inRange_iff.mpr ⟨hk, hc⟩⟩
    · rcases @ih _ (n - min c n) _ (Nat.not_lt.mp hc) (by omega) with ⟨pc, hpc, hin⟩
      exact ⟨pc, List.mem_cons_of_mem _ hpc, hin⟩

/-- A piece lies within what is cut. -/
theorem pieces_le (cs : List Nat) : ∀ {k n : Nat}, ∀ pc ∈ pieces k n cs, pc.1 + pc.2 ≤ k + n := by
  induction cs with
  | nil =>
    intro k n pc hpc
    rw [List.mem_singleton.mp hpc]
  | cons c cs ih =>
    intro k n pc hpc
    rcases List.mem_cons.mp hpc with rfl | hpc
    · exact Nat.add_le_add_left (Nat.min_le_right ..) _
    · have hle := ih pc hpc
      have hmin := Nat.min_le_right c n
      omega

/-- What the migration thread has read stays right as long as the descriptors do. -/
theorem Control.congr (h : Control s m) (hpage : s'.page = s.page) : Control s' m :=
  ⟨h.wf, h.loop, h.regs.congr fun p _ => by rw [hpage], fun hm hp => by
    rw [hpage]
    exact h.source hm hp⟩

/-- A copy is asked for. -/
theorem OnItsWay.ask (cfg : Config) {jobs : List CopyJob} {d : Dir} {ph : Phase}
    {done todo : List Entry} {e : Entry} {code : List MigInstr} {r : MigRegs}
    (h : OnItsWay s (.loop d ph done (e :: todo) (.copy :: code) r) jobs)
    (hc : Control s (.loop d ph done (e :: todo) (.copy :: code) r))
    (hpt : ∀ p, (s.page p).pt = .hugep) (cuts : List Nat) (last : Nat → Byte) :
    let j : CopyJob := ⟨e.page, (d.src, r.old), (d.dst, e.offset), r.len, pieces 0 r.len cuts⟩
    Control s (.loop d ph done (e :: todo) code r) ∧
      OnItsWay s (.loop d ph done (e :: todo) code r) (jobs ++ [j]) ∧
      Transit.Step (transit s (some (.loop d ph done (e :: todo) (.copy :: code) r)) jobs last)
        (transit s (some (.loop d ph done (e :: todo) code r)) (jobs ++ [j]) last) := by
  intro j
  have hcode : .copy :: code <:+ d.code ph := hc.wf
  obtain rfl := Dir.copy_mem (hcode.sublist.mem (List.mem_cons_self ..))
  have hnot := notMem_of_suffix hcode
  have hlen : r.len = pageSize := hc.regs.len rfl (by simp) (by simp) (by simp)
  rcases h.placed e (by simp [Mpc.unmoved]) with ⟨p, hp, -⟩
  rcases hc.source rfl hp with ⟨hinDram, hold⟩
  have hpassed := Dir.copy_passed hcode
  have hof : j.Of s d.dst e p := by
    refine ⟨hp, hp, ?_, rfl, hlen⟩
    rw [HememPage.slot, HememPage.tier, hinDram hpassed.1, Tier.ofInDram_inDram, ← hold hpassed.2]
  -- the statement itself only moves the migration thread on
  have hstep : MigStep cfg 0 (.loop d .copy done (e :: todo) (.copy :: code) r) s
      (.loop d .copy done (e :: todo) code r) (copySlot d.src r.old d.dst e.offset r.len s) [] :=
    .instr rfl
  have hcontrol : Control s (.loop d .copy done (e :: todo) code r) :=
    (hc.step hpt hstep (by simp)).congr rfl
  refine ⟨hcontrol, ⟨h.placed, h.apart, h.fenced, fun j' hj' hleft => ?_, fun e' he' => ?_,
    fun j' hj' pc hpc => ?_⟩, transit_tame rfl rfl (fun _ ha => ha) (fun _ => rfl) ?_ ?_⟩
  · rcases List.mem_append.mp hj' with hj' | hj'
    · rcases h.copying j' hj' hleft with ⟨_, _, _, _, _, hm, e', he', q, hof'⟩
      rcases hm with ⟨rfl⟩
      exact ⟨_, _, _, _, _, rfl, e', he', q, hof'⟩
    · obtain rfl : j' = j := List.mem_singleton.mp hj'
      exact ⟨_, _, _, _, _, rfl, e, by simp, p, hof⟩
  · have hasked : e' ∈ done ∨ e' = e := by simpa [Mpc.asked, hnot] using he'
    rcases hasked with hdone | rfl
    · rcases h.asked e' (by simp [Mpc.asked, hdone]) with ⟨j', hj', q, hof'⟩
      exact ⟨j', List.mem_append_left _ hj', q, hof'⟩
    · exact ⟨j, by simp, p, hof⟩
  · rcases List.mem_append.mp hj' with hj' | hj'
    · exact h.within j' hj' pc hpc
    · obtain rfl : j' = j := List.mem_singleton.mp hj'
      simpa using pieces_le cuts pc hpc
  · rintro m' ⟨rfl⟩
    exact ⟨_, rfl, rfl, rfl⟩
  · intro j' hj'
    rcases List.mem_append.mp hj' with hj' | hj'
    · exact Or.inl hj'
    · obtain rfl : j' = j := List.mem_singleton.mp hj'
      refine Or.inr fun k hk => ?_
      rcases mem_pieces cuts (Nat.zero_le k) (by simpa using hk.1) with ⟨pc, hpc, hin⟩
      exact hk.2 pc hpc hin

/-- What is left of a copy when one of its pieces has been copied. -/
def CopyJob.without (j : CopyJob) (i : Nat) : CopyJob := { j with left := j.left.eraseIdx i }

/-- What is copied after a piece was copied before it, or is in the piece. -/
theorem CopyJob.without_copied {j : CopyJob} {i : Nat} {pc : Nat × Nat} (hpc : j.left[i]? = some pc)
    {o : Nat} (h : (j.without i).Copied o) : j.Copied o ∨ inRange pc.1 pc.2 o = true := by
  by_cases hin : inRange pc.1 pc.2 o = true
  · exact Or.inr hin
  · refine Or.inl ⟨h.1, fun pc' hpc' hin' => ?_⟩
    rcases List.mem_iff_getElem?.mp hpc' with ⟨k, hk⟩
    by_cases hki : k = i
    · subst hki
      obtain rfl : pc' = pc := Option.some.inj (hk.symm.trans hpc)
      exact hin hin'
    · exact h.2 pc' (List.mem_eraseIdx_iff_getElem?.mpr ⟨k, hki, hk⟩) hin'

section piece

variable {jobs : List CopyJob} {i n : Nat} {j : CopyJob} {pc : Nat × Nat}

/-- A piece is copied, and the batch is as far as before. -/
theorem OnItsWay.copy (h : OnItsWay s m jobs) (hj : jobs[i]? = some j) (hpc : j.left[n]? = some pc)
    (hst : s' = copySlot j.src.1 (j.src.2 + pc.1) j.dst.1 (j.dst.2 + pc.1) pc.2 s) :
    OnItsWay s' m (jobs.set i (j.without n)) := by
  have hjobs : j ∈ jobs := List.mem_of_getElem? hj
  rcases h.copying j hjobs (List.ne_nil_of_mem (List.mem_of_getElem? hpc)) with
    ⟨d, done, todo, code, r, rfl, e, he, p, hof⟩
  have hset : ∀ j' ∈ jobs.set i (j.without n), j' ∈ jobs ∨ j' = j.without n :=
    fun j' hj' => List.mem_or_eq_of_mem_set hj'
  have hof' : (j.without n).Of s d.dst e p := ⟨hof.entry, hof.page, hof.src, hof.dst, hof.len⟩
  have hpage : s'.page = s.page := by rw [hst]; rfl
  have hvm : s'.vm = s.vm := by rw [hst]; rfl
  have hwp : s'.wp = s.wp := by rw [hst]; rfl
  have hway : OnItsWay s' (.loop d .copy done todo code r) jobs :=
    h.congr (fun a => by simp only [device, hvm]) (fun a ha => by rwa [hwp])
      (fun q => by rw [hpage]) (fun e' _ q _ => by rw [hpage])
  refine ⟨hway.placed, hway.apart, hway.fenced, fun j' hj' hleft => ?_, fun e' he' => ?_,
    fun j' hj' pc' hpc' => ?_⟩
  · rcases hset j' hj' with hold | rfl
    · exact hway.copying j' hold hleft
    · exact ⟨_, _, _, _, _, rfl, e, he, p, hof'.congr (by rw [hpage])⟩
  · -- what is left of a copy is still the copy of its page
    rcases hway.asked e' he' with ⟨j', hj', q, hofq⟩
    rcases List.mem_iff_getElem?.mp hj' with ⟨k, hk⟩
    by_cases hki : k = i
    · subst hki
      obtain rfl : j' = j := Option.some.inj (hk.symm.trans hj)
      have hlt : k < jobs.length := (List.getElem?_eq_some_iff.mp hj).1
      exact ⟨j'.without n, List.mem_set hlt _, q, hofq.entry, hofq.page, hofq.src, hofq.dst,
        hofq.len⟩
    · refine ⟨j', List.mem_of_getElem? (i := k) ?_, q, hofq⟩
      rw [List.getElem?_set_ne (Ne.symm hki), hk]
  · rcases hset j' hj' with hold | rfl
    · exact h.within j' hold pc' hpc'
    · exact h.within j hjobs pc' (List.mem_of_mem_eraseIdx hpc')

/-- A piece is copied, as the protocol allows: from a fenced page to where it moves. -/
theorem OnItsWay.copy_step (h : OnItsWay s m jobs) (hj : jobs[i]? = some j)
    (hpc : j.left[n]? = some pc)
    (hst : s' = copySlot j.src.1 (j.src.2 + pc.1) j.dst.1 (j.dst.2 + pc.1) pc.2 s)
    (last : Nat → Byte) :
    Transit.Step (transit s (some m) jobs last)
      (transit s' (some m) (jobs.set i (j.without n)) last) := by
  have hjobs : j ∈ jobs := List.mem_of_getElem? hj
  have hpiece : pc ∈ j.left := List.mem_of_getElem? hpc
  rcases h.copying j hjobs (List.ne_nil_of_mem hpiece) with
    ⟨d, done, todo, code, r, rfl, e, he, p, hof⟩
  have hset : ∀ j' ∈ jobs.set i (j.without n), j' ∈ jobs ∨ j' = j.without n :=
    fun j' hj' => List.mem_or_eq_of_mem_set hj'
  have hpage : s'.page = s.page := by rw [hst]; rfl
  have hvm : s'.vm = s.vm := by rw [hst]; rfl
  have hwp : s'.wp = s.wp := by rw [hst]; rfl
  have hbound := h.within j hjobs pc hpiece
  rw [hof.len] at hbound
  rcases h.placed e he with ⟨p', hp', hmaps⟩
  obtain rfl : p' = p := Option.some.inj (hp'.symm.trans hof.entry)
  refine .copy (fun a => ∃ o, inRange pc.1 pc.2 o = true ∧ a = (s.page p').va + o)
    (fun {a} ha => ?held) (fun {a l} ha hl => ?inside) (fun {l} hl => ?outside) ?map rfl
    (fun {a} ha => ?fenced) (fun {a l} ha => ?target) (fun {a} ha => ?copied)
    (fun {l} hl => ?stale)
  case held =>
    rcases ha with ⟨o, ho, rfl⟩
    rw [inRange_iff] at ho
    exact h.fenced e he p' hp' o (by omega)
  case inside =>
    -- an address is in one page of the batch only
    rcases ha with ⟨o, ho, rfl⟩
    rw [inRange_iff] at ho
    rcases hl with ⟨_, ⟨rfl⟩, e', he', q, k, hq, hk, ha, rfl⟩
    have hee : e = e' := by
      by_contra hne
      have hapart := h.apart.forall he he' hne p' q hp' hq
      simp only [Hemem.Apart] at hapart
      omega
    subst hee
    obtain rfl : q = p' := Option.some.inj (hq.symm.trans hp')
    obtain rfl : k = o := by omega
    refine ⟨_, hmaps k hk, ?_⟩
    have hin : inRange (e.offset + pc.1) pc.2 (e.offset + k) = true := by
      rw [inRange_iff]
      omega
    simp only [transit, St.bytes, Mpc.dst, hst, copySlot_mem, hof.src, hof.dst]
    rw [if_pos ⟨trivial, hin⟩]
    congr 1
    omega
  case outside =>
    -- a location outside the destination of the piece keeps its byte
    rcases l with ⟨u, o⟩
    simp only [transit, St.bytes, hst, copySlot_mem, hof.dst]
    rw [if_neg]
    rintro ⟨rfl, hin⟩
    rw [inRange_iff] at hin
    obtain ⟨k, rfl⟩ : ∃ k, o = e.offset + k := ⟨o - e.offset, by omega⟩
    have hk : inRange pc.1 pc.2 k = true := by
      rw [inRange_iff]
      omega
    exact hl _ ⟨k, hk, rfl⟩ ⟨_, rfl, e, he, p', k, hp', by omega, rfl, rfl⟩
  case map =>
    funext a
    simp only [transit, device, hvm]
  case fenced => simpa only [transit, hwp] using ha
  case target =>
    rcases ha with ⟨_, ⟨rfl⟩, e', he', q, k, hq, hk, ha, hl⟩
    exact ⟨_, rfl, e', he', q, k, hq, hk, hpage ▸ ha, hl⟩
  case copied =>
    -- what counts as copied was so before, or is in the piece
    rcases ha with ⟨_, ⟨rfl⟩, e', he', j', hj', q, k, hq, hjq, hcopied, hk, ha⟩
    rw [hpage] at ha
    rcases hset j' hj' with hold | rfl
    · exact Or.inl ⟨_, rfl, e', he', j', hold, q, k, hq, hjq, hcopied, hk, ha⟩
    · obtain rfl : q = p' := Option.some.inj (hjq.symm.trans hof.page)
      rcases CopyJob.without_copied hpc hcopied with hold | hin
      · exact Or.inl ⟨_, rfl, e', he', j, hjobs, q, k, hq, hof.page, hold, hk, ha⟩
      · exact Or.inr ⟨k, hin, ha⟩
  case stale =>
    rcases hl with ⟨j', hj', k, hcopied, rfl⟩
    rcases hset j' hj' with hold | rfl
    · exact Or.inl ⟨j', hold, k, hcopied, rfl⟩
    · rcases CopyJob.without_copied hpc hcopied with hold | hin
      · exact Or.inl ⟨j, hjobs, k, hold, rfl⟩
      · refine Or.inr ⟨(s.page p').va + k, ⟨k, hin, rfl⟩, ?_⟩
        rw [inRange_iff] at hin
        have hmapped := hmaps k (by omega)
        rw [← hof.src] at hmapped
        exact hmapped

end piece

/-! ## The system -/

/-- What is assumed of a batch with which `pebs_migrate_*` is called: its pages are
mapped where their descriptors say, they are different pages, and the destination slots
are distinct and not the slots of mapped pages. -/
structure BatchOk (s : St) (d : Dir) (es : List Entry) : Prop where
  placed : ∀ e ∈ es, ∃ p, e.page = some p ∧ MapsTo s (s.page p).va (s.page p).slot
  apart : es.Pairwise (Entry.Apart s)
  fresh : ∀ e ∈ es, ∀ k, k < pageSize → ¬ MappedTo (device s) (d.dst, e.offset + k)
  distinct : es.Pairwise fun e e' => Hemem.Apart e.offset e'.offset

variable {Wid : Type}

/-- Every batch that begins is one. -/
def BeginsOk (x : WriteSys Wid) : WriteLabel Wid → Prop
  | .begin d es => x.mig = none → BatchOk x.st d es
  | _ => True

structure WriteInv (x : WriteSys Wid) : Prop where
  safe : (transit x.st x.mig x.jobs x.last).Safe
  pt : ∀ p, (x.st.page p).pt = .hugep
  control : ∀ m ∈ x.mig, Control x.st m
  way : ∀ m ∈ x.mig, OnItsWay x.st m x.jobs
  /-- when no batch is on its way, nothing is left to copy -/
  rest : x.mig = none → ∀ j ∈ x.jobs, j.left = []

/-- A write that is not held off. -/
theorem WriteInv.write {x x' : WriteSys Wid} (h : WriteInv x) {a : Nat} {v : Byte} {t : Tier}
    {o : Nat} (hvm : x.st.vm a = some (.slot t o)) (hwp : x.st.wp a = false)
    (hst : x'.st = { x.st with mem := fun u o' => if u = t ∧ o' = o then v else x.st.mem u o' })
    (hmig : x'.mig = x.mig) (hjobs : x'.jobs = x.jobs)
    (hlast : x'.last = Function.update x.last a v) : WriteInv x' := by
  have hdev : ∀ b, device x'.st b = device x.st b := fun b => by rw [hst]; rfl
  have hpage : x'.st.page = x.st.page := by rw [hst]
  have hwp' : x'.st.wp = x.st.wp := by rw [hst]
  refine ⟨h.safe.step (.write a (t, o) v ?here ?free ?map ?mem hlast ⟨?fenced, ?target, ?copied,
    ?stale⟩), ?pt, ?control, ?way, ?rest⟩
  case here => simp [transit, device, locate, hvm]
  case free => simp [transit, hwp]
  case map => exact funext hdev
  case mem =>
    funext l
    rcases l with ⟨u, o'⟩
    simp only [transit, St.bytes, hst, Function.update_apply, Prod.mk.injEq]
  case fenced =>
    intro b hb
    simpa only [transit, hwp'] using hb
  case target =>
    rintro b l ⟨m, hm, e, he, q, k, hq, hk, hb, hl⟩
    exact ⟨m, hmig ▸ hm, e, he, q, k, hq, hk, hpage ▸ hb, hl⟩
  case copied =>
    rintro b ⟨m, hm, e, he, j, hj, q, k, hq, hjq, hcopied, hk, hb⟩
    exact ⟨m, hmig ▸ hm, e, he, j, hjobs ▸ hj, q, k, hq, hjq, hcopied, hk, hpage ▸ hb⟩
  case stale =>
    rintro l ⟨j, hj, k, hcopied, hl⟩
    exact ⟨j, hjobs ▸ hj, k, hcopied, hl⟩
  case pt => exact fun p => hpage ▸ h.pt p
  case control => exact fun m hm => (h.control m (hmig ▸ hm)).congr hpage
  case way =>
    intro m hm
    rw [hjobs]
    exact (h.way m (hmig ▸ hm)).congr hdev (fun b hb => by rwa [hwp'])
      (fun p => by rw [hpage]) fun e _ p _ => by rw [hpage]
  case rest => exact fun hnone j hj => h.rest (hmig ▸ hnone) j (hjobs ▸ hj)

/-- The writers, the messages and the fault thread are not part of the invariant. -/
theorem WriteInv.congr {x x' : WriteSys Wid} (h : WriteInv x) (hst : x'.st = x.st)
    (hmig : x'.mig = x.mig) (hjobs : x'.jobs = x.jobs) (hlast : x'.last = x.last) :
    WriteInv x' := by
  constructor
  · rw [hst, hmig, hjobs, hlast]
    exact h.safe
  · exact fun p => hst ▸ h.pt p
  · exact fun m hm => hst ▸ h.control m (hmig ▸ hm)
  · exact fun m hm => hst ▸ hjobs ▸ h.way m (hmig ▸ hm)
  · exact fun hnone j hj => h.rest (hmig ▸ hnone) j (hjobs ▸ hj)

/-- The invariant holds when a batch begins. -/
theorem WriteInv.begin {x : WriteSys Wid} (h : WriteInv x) {d : Dir} {es : List Entry}
    (hes : BatchOk x.st d es) :
    WriteInv { x with
      mig := some (.loop d .flag [] es (d.code .flag) ⟨0, 0, 0⟩)
      jobs := [] } := by
  have hunmoved : (Mpc.loop d .flag [] es (d.code .flag) ⟨0, 0, 0⟩).unmoved = es := by
    cases es <;> rfl
  refine ⟨h.safe.step (.plan rfl rfl rfl ?fresh ?inj ?copied ?stale), h.pt, ?control, ?way,
    fun hnone => nomatch hnone⟩
  case fresh =>
    rintro a l ⟨_, ⟨rfl⟩, e, he, p, k, hp, hk, ha, rfl⟩
    exact hes.fresh e (hunmoved ▸ he) k hk
  case inj =>
    rintro a b l ⟨_, ⟨rfl⟩, e, he, p, k, hp, hk, rfl, rfl⟩
      ⟨_, ⟨rfl⟩, e', he', q, k', hq, hk', rfl, hl⟩
    -- Two targets in one slot would need two entries of the batch to overlap.
    rw [hunmoved] at he he'
    have hoff := congrArg Prod.snd hl
    simp only at hoff
    by_cases hee : e = e'
    · subst hee
      obtain rfl : p = q := Option.some.inj (hp.symm.trans hq)
      omega
    · have : Std.Symm fun e e' : Entry => Hemem.Apart e.offset e'.offset :=
        ⟨fun _ _ hab => hab.symm⟩
      have hapart := hes.distinct.forall he he' hee
      simp only [Hemem.Apart] at hapart
      omega
  case copied =>
    rintro a ⟨_, ⟨rfl⟩, e, he, j, hj, -⟩
    cases hj
  case stale =>
    rintro l ⟨j, hj, -⟩
    cases hj
  case control =>
    rintro _ ⟨rfl⟩
    refine ⟨List.suffix_refl _, ⟨_, _, _, _, _, _, rfl, by simp⟩, ⟨?_, ?_⟩, ?_⟩
    · rintro _ _ _ _ _ _ _ ⟨rfl⟩ hph
      simp at hph
    · rintro _ _ _ _ _ _ ⟨rfl⟩ hph
      exact absurd rfl hph
    · rintro _ _ _ _ _ _ _ ⟨⟩
  case way =>
    rintro _ ⟨rfl⟩
    refine ⟨hunmoved.symm ▸ hes.placed, ?_, ?_, fun j hj => ?_, ?_, fun j hj => ?_⟩
    · simpa [Mpc.entries] using hes.apart
    · simp [Mpc.window]
    · cases hj
    · simp [Mpc.asked]
    · cases hj

/-- Any other step of the migration thread. -/
theorem WriteInv.migStep {x : WriteSys Wid} (h : WriteInv x) {m m' : Mpc} {s' : St}
    {ev : List Event} (hm : x.mig = some m) (hs : MigStep cfg 0 m x.st m' s' ev)
    (hcopy : m.next ≠ some .copy) (hwait : m.waits = true → ∀ j ∈ x.jobs, j.left = [])
    (hnext : ∀ d done code r, m ≠ .loop d .unflag done [] code r) :
    WriteInv { x with mig := some m', st := s' } := by
  have hpt' : ∀ p, (s'.page p).pt = .hugep := fun p => (hs.keeps p).pt.trans (h.pt p)
  have hcontrol := h.control m hm
  have hcontrol' := hcontrol.step h.pt hs hnext
  have hsafe := h.safe
  rw [hm] at hsafe
  by_cases hmap : m.next = some .map
  · -- the page at hand is remapped
    have hway := h.way m hm
    cases hs
    case instr d ph done e todo i code r r' hrun =>
      obtain rfl : i = .map := by simpa [Mpc.next] using hmap
      have hcode : .map :: code <:+ d.code ph := hcontrol.wf
      obtain rfl := Dir.map_mem (hcode.sublist.mem (List.mem_cons_self ..))
      rcases MigInstr.run_ok hrun
      rcases hway.remap hcontrol rfl x.last with ⟨hway', hstep⟩
      refine ⟨hsafe.step hstep, hpt', ?_, ?_, fun hnone => nomatch hnone⟩
      · rintro _ ⟨rfl⟩
        exact hcontrol'
      · rintro _ ⟨rfl⟩
        exact hway'
    all_goals simp [Mpc.next] at hmap
  -- every other statement leaves mappings and bytes alone
  · rcases (h.way m hm).step hcontrol hs hcopy hmap hwait x.last with ⟨hway', hstep⟩
    refine ⟨hsafe.step hstep, hpt', ?_, ?_, fun hnone => nomatch hnone⟩
    · rintro _ ⟨rfl⟩
      exact hcontrol'
    · rintro _ ⟨rfl⟩
      exact hway'

/-- A statement of the migration thread keeps the invariant. -/
theorem WriteInv.migrate {x x' : WriteSys Wid} (h : WriteInv x) {m : Mpc} (hm : x.mig = some m)
    {cuts : List Nat} (hs : x.migrate cfg cuts m = .ok x') : WriteInv x' := by
  unfold WriteSys.migrate at hs
  split at hs
  · rename_i d ph done e todo code r
    obtain rfl := Except.ok.inj hs
    have hsafe := h.safe
    rw [hm] at hsafe
    rcases (h.way _ hm).ask cfg (h.control _ hm) h.pt cuts x.last with ⟨hcontrol, hway, hstep⟩
    refine ⟨hsafe.step hstep, h.pt, ?_, ?_, fun hnone => nomatch hnone⟩
    · rintro _ ⟨rfl⟩
      exact hcontrol
    · rintro _ ⟨rfl⟩
      exact hway
  · -- the batch is over
    rename_i d done code r
    obtain rfl := Except.ok.inj hs
    have hnone : ∀ j ∈ x.jobs, j.left = [] := by
      intro j hj
      by_contra hleft
      rcases (h.way _ hm).copying j hj hleft with ⟨_, _, _, _, _, heq, -⟩
      cases heq
    refine ⟨h.safe.step (transit_tame rfl rfl (fun _ ha => ha) (fun _ => rfl) ?_ ?_), h.pt, ?_, ?_,
      fun _ => hnone⟩
    · rintro _ ⟨⟩
    · exact fun j hj => Or.inl hj
    · rintro _ ⟨⟩
    · rintro _ ⟨⟩
  · rename_i hcopy hnext
    split at hs
    · obtain rfl := Except.ok.inj hs
      exact h
    · rename_i hwait
      simp only [bind_eq_ok, Prod.exists, Except.ok.injEq] at hs
      rcases hs with ⟨m', s', ev, hok, rfl⟩
      refine h.migStep hm (migStep_ok hok) ?_ ?_ ?_
      · intro hcopy'
        unfold Mpc.next at hcopy'
        split at hcopy'
        · obtain rfl := Option.some.inj hcopy'
          exact hcopy _ _ _ _ _ _ _ rfl
        · cases hcopy'
      · intro hwaits j hj
        by_contra hleft
        refine hwait (Bool.and_eq_true_iff.mpr ⟨hwaits, List.any_eq_true.mpr ⟨j, hj, ?_⟩⟩)
        simpa using hleft
      · exact fun d done code r heq => hnext _ _ _ _ heq

/-- A piece of a copy keeps the invariant: no store goes to its page meanwhile. -/
theorem WriteInv.copy {x : WriteSys Wid} (h : WriteInv x) {i n : Nat} {j : CopyJob}
    (hj : x.jobs[i]? = some j) {pc : Nat × Nat} (hpc : j.left[n]? = some pc) :
    WriteInv { x with
      st := copySlot j.src.1 (j.src.2 + pc.1) j.dst.1 (j.dst.2 + pc.1) pc.2 x.st
      jobs := x.jobs.set i (j.without n) } := by
  have hsafe := h.safe
  cases hm : x.mig with
  | none =>
    have hnone := h.rest hm j (List.mem_of_getElem? hj)
    rw [hnone] at hpc
    cases hpc
  | some m =>
    rw [hm] at hsafe
    have hway := (h.way m hm).copy hj hpc rfl
    have hstep := (h.way m hm).copy_step hj hpc rfl x.last
    refine ⟨hsafe.step hstep, h.pt, ?_, ?_, fun hnone => nomatch hnone⟩
    · rintro _ ⟨rfl⟩
      exact (h.control _ hm).congr rfl
    · rintro _ ⟨rfl⟩
      exact hway

/-- No write has been lost: an address reads what was last written to it, and no write can
get at a slot where it has been copied. -/
structure NoLostWrite (x : WriteSys Wid) : Prop where
  reads : ∀ a b, x.st.read a = some b → b = x.last a
  shut : ∀ j ∈ x.jobs, ∀ k, j.Copied k → ∀ a, device x.st a = some (j.src.1, j.src.2 + k) →
    x.st.wp a = true

/-- Where the run starts: all pages are huge, and no two addresses share a byte. -/
structure Settled (s : St) : Prop where
  pt : ∀ p, (s.page p).pt = .hugep
  unaliased : Unaliased (device s)

/-- The invariant says that no store is lost. -/
theorem WriteInv.noLostWrite {x : WriteSys Wid} (h : WriteInv x) : NoLostWrite x := by
  refine ⟨fun a b hread => ?_, fun j hj k hcopied a ha => h.safe.shut ha ⟨j, hj, k, hcopied, rfl⟩⟩
  rw [read_eq_load] at hread
  exact h.safe.load_eq hread

/-- Between batches the invariant holds. -/
theorem writeInv_quiet {s : St} (h : Settled s) : WriteInv (WriteSys.quiet s : WriteSys Wid) := by
  refine ⟨⟨h.unaliased, fun {a l} ha => ?_, ?_, ?_, ?_, ?_, ?_, ?_⟩, h.pt, ?_, ?_, ?_⟩
  · have hread : s.read a = some (s.bytes l) := by
      rw [read_eq_load]
      exact load_of_eq_some ha
    simp [transit, WriteSys.quiet, hread]
  all_goals simp [transit, WriteSys.quiet]

variable [DecidableEq Wid]

/-- Every step of the system keeps the invariant. -/
theorem WriteInv.step {x x' : WriteSys Wid} {lbl : WriteLabel Wid} (h : WriteInv x)
    (hbegin : BeginsOk x lbl) (hs : writeStep cfg lbl x = .ok x') : WriteInv x' := by
  cases lbl with
  | write w a v =>
    simp only [writeStep] at hs
    split at hs <;> obtain rfl := Except.ok.inj hs
    · exact h.congr rfl rfl rfl rfl
    · exact h
  | store w =>
    simp only [writeStep] at hs
    split at hs <;> obtain rfl := Except.ok.inj hs
    · rename_i a v hw
      -- A store to an unmapped or protected address faults and writes nothing.
      unfold WriteSys.store
      split
      · rename_i t o hvm
        split
        · exact h.congr rfl rfl rfl rfl
        · rename_i hwp
          exact h.write hvm (Bool.not_eq_true _ ▸ hwp) rfl rfl rfl rfl
      · exact h
    · exact h
  | begin d es =>
    simp only [writeStep] at hs
    split at hs <;> obtain rfl := Except.ok.inj hs
    · rename_i hm
      exact h.begin (hbegin hm)
    · exact h
  | migrate cuts =>
    simp only [writeStep] at hs
    split at hs
    · obtain rfl := Except.ok.inj hs
      exact h
    · rename_i m hm
      exact h.migrate hm hs
  | copy i n =>
    simp only [writeStep] at hs
    split at hs
    · obtain rfl := Except.ok.inj hs
      exact h
    · rename_i j hj
      split at hs <;> obtain rfl := Except.ok.inj hs
      · exact h
      · rename_i k len hpc
        exact h.copy hj hpc
  | handle =>
    -- The fault thread writes no byte: it waits, clears or drops the message.
    simp only [writeStep, WriteSys.handle] at hs
    split at hs
    · obtain rfl := Except.ok.inj hs
      exact h
    · split at hs
      · obtain rfl := Except.ok.inj hs
        exact h.congr rfl rfl rfl rfl
      · cases hs
    · obtain rfl := Except.ok.inj hs
      split
      · exact h
      · exact h.congr rfl rfl rfl rfl
    · obtain rfl := Except.ok.inj hs
      exact h.congr rfl rfl rfl rfl

/-- Writers, the migration thread and the fault thread, from any state in which no batch is
on its way: no write is lost. -/
theorem noLostWrite_throughout (cfg : Config) {s : St} (hs : Settled s)
    (labels : List (WriteLabel Wid))
    (hbegin : Along (writeStep cfg) BeginsOk labels (WriteSys.quiet s)) :
    Throughout (writeStep cfg) NoLostWrite labels (WriteSys.quiet s) :=
  (throughout_of_along (fun _ _ _ hx hlbl hstep => hx.step hlbl hstep) (writeInv_quiet hs)
    hbegin).imp fun _ hx => hx.noLostWrite

/-- One page, at the first slot of DRAM. -/
def onePage : St := ((pebsInit smallConfig).alloc .dram 0 [1]).place .dram 0 0x40000000

/-- Where the one page is mapped. -/
theorem onePage_device (a : Nat) :
    device onePage a =
      if inRange 0x40000000 pageSize a then some (.dram, a - 0x40000000) else none := by
  have hvm : onePage.vm a = if inRange 0x40000000 pageSize a then
      some (.slot .dram (0 + (a - 0x40000000))) else none := rfl
  rw [device, hvm, Nat.zero_add]
  split <;> rfl

theorem settled_onePage : Settled onePage := by
  refine ⟨fun p => ?_, fun a b l ha hb => ?_⟩
  · match p with
    | 0 | 1 | 2 | 3 | _ + 4 => rfl
  · rw [onePage_device] at ha hb
    split at ha <;> split at hb <;> simp only [Option.some.injEq, reduceCtorEq] at ha hb
    rename_i hina hinb
    rw [inRange_iff] at hina hinb
    have hoff := congrArg Prod.snd (ha.trans hb.symm)
    simp only at hoff
    omega

/-- The batch that moves the page to the first slot of NVM. -/
def oneEntry : List Entry := [⟨some 0, 2, 0⟩]

/-- The batch of the one page may begin. -/
theorem batchOk_onePage {s : St} (hpage : s.page = onePage.page) (hvm : s.vm = onePage.vm) :
    BatchOk s .dramToNvm oneEntry := by
  have hdev : ∀ a, device s a = device onePage a := fun a => by rw [device, hvm, device]
  have hva : (onePage.page 0).va = 0x40000000 := rfl
  have hslot : (onePage.page 0).slot = (.dram, 0) := rfl
  refine ⟨?_, List.pairwise_singleton .., ?_, List.pairwise_singleton ..⟩
  · intro e he
    obtain rfl := List.mem_singleton.mp he
    refine ⟨0, rfl, fun k hk => ?_⟩
    rw [hpage, hdev, onePage_device, hva, hslot, if_pos (inRange_add hk), Nat.add_sub_cancel_left,
      Nat.zero_add]
  · rintro e he k - ⟨a, ha⟩
    obtain rfl := List.mem_singleton.mp he
    rw [hdev, onePage_device] at ha
    split at ha
    · cases congrArg Prod.fst (Option.some.inj ha)
    · cases ha

/-- A write before the batch. -/
def writesBefore : List (WriteLabel Unit) := [.write () 0x40000005 7, .store ()]

/-- A write that blocks until the page has been moved, and its retry. -/
def writesDuring : List (WriteLabel Unit) :=
  List.replicate 10 (.migrate []) ++ [.write () 0x40000005 9, .store (), .handle] ++
    List.replicate 7 (.migrate [4096]) ++ [.copy 0 1, .migrate [], .copy 0 0] ++
    List.replicate 13 (.migrate []) ++ [.handle, .handle, .store ()]

/-- So it may in the run. -/
theorem beginsOk_onePage :
    Along (writeStep smallConfig) BeginsOk
      (writesBefore ++ .begin .dramToNvm oneEntry :: writesDuring) (WriteSys.quiet onePage) := by
  refine Along.append ⟨trivial, trivial, trivial⟩ fun x hx => Along.cons (fun _ => ?_)
    fun _ _ => Along.of_forall ?_
  · have hview : (runs (writeStep smallConfig) writesBefore (WriteSys.quiet onePage)).map
        (fun x => (x.st.page, x.st.vm)) = .ok (onePage.page, onePage.vm) := rfl
    rw [hx] at hview
    rcases Prod.mk.inj (Except.ok.inj hview) with ⟨hpage, hvm⟩
    exact batchOk_onePage hpage hvm
  · simp [writesDuring, BeginsOk]

/-- A thread stores to a page before its migration to NVM and while it is under way. -/
theorem noLostWrite_throughout_onePage :
    Throughout (writeStep smallConfig) NoLostWrite
      (writesBefore ++ .begin .dramToNvm oneEntry :: writesDuring) (WriteSys.quiet onePage) :=
  noLostWrite_throughout smallConfig settled_onePage _ beginsOk_onePage

end Hemem
