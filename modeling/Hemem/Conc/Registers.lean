import Hemem.Conc.Custody

/-!
# Hemem.Conc.Registers — a batch and the local variables of the migration thread

What a statement of the loops leaves alone, which entries of the batch are protected
and which have been remapped, and what the local variables hold: the loops of
`hemem_wp_page` and `hemem_migrate_*` read the `va` of the entry at hand and the size
of its page before they use them. The two functions that move pages out of DRAM do not
read the size again before they remap, and use the value that the loop before has left.
-/

namespace Hemem

open Lib

variable {cfg : Config} {s s' : St}

/-- What the migration thread leaves of a descriptor: its `va` and its size stay, and
`present` is not set. -/
structure Keeps (g g' : HememPage) : Prop where
  va : g'.va = g.va
  pt : g'.pt = g.pt
  present : g'.present = true → g.present = true

theorem Keeps.refl (g : HememPage) : Keeps g g := ⟨rfl, rfl, id⟩

/-- A statement changes of a descriptor neither address nor size, and makes no page absent. -/
theorem MigInstr.run_keeps {d : Dir} {e : Entry} {i : MigInstr} {r r' : MigRegs} {ev : List Event}
    (h : i.run cfg d e r s = .ok (r', s', ev)) (p : PageId) : Keeps (s.page p) (s'.page p) := by
  have hmod : ∀ (q : PageId) (f : HememPage → HememPage), (∀ g, Keeps g (f g)) →
      Keeps (s.page p) ((s.modPage q f).page p) := by
    intro q f hf
    by_cases hpq : p = q
    · subst hpq
      simpa using hf _
    · simpa [hpq] using Keeps.refl _
  cases MigInstr.run_ok h
  case setFreePresent => exact hmod _ _ fun g => ⟨rfl, rfl, fun h => nomatch h⟩
  case setFreeOffset | setFreeInDram | setMigrating | bumpUp | bumpDown | setInDram | setOffset =>
    exact hmod _ _ fun g => ⟨rfl, rfl, id⟩
  all_goals exact .refl _

/-- So does every step of the migration thread. -/
theorem MigStep.keeps {numBatchs : Nat} {m m' : Mpc} {ev : List Event}
    (h : MigStep cfg numBatchs m s m' s' ev) (p : PageId) : Keeps (s.page p) (s'.page p) := by
  cases h
  case instr hrun => exact MigInstr.run_keeps hrun p
  case count => simpa using Keeps.refl _
  all_goals exact .refl _

/-- The statements that read `va` and the size; the others leave the two variables. -/
theorem MigInstr.run_regs {d : Dir} {e : Entry} {i : MigInstr} {r r' : MigRegs} {ev : List Event}
    (h : i.run cfg d e r s = .ok (r', s', ev)) :
    (r'.addr = r.addr ∨ (i = .readAddr ∧ ∃ p, e.page = some p ∧ r'.addr = (s.page p).va)) ∧
    (r'.len = r.len ∨ (i = .readLen ∧ ∃ p, e.page = some p ∧ r'.len = ptToPagesize (s.page p).pt)) ∧
    (i = .readAddr → ∃ p, e.page = some p ∧ r'.addr = (s.page p).va) ∧
    (i = .readLen → ∃ p, e.page = some p ∧ r'.len = ptToPagesize (s.page p).pt) := by
  cases MigInstr.run_ok h
  case readAddr p hp | readLen p hp => simp [hp]
  all_goals simp

/-- The statements that change the address space; the write protection is granted
only where the page is registered, the registration only where it is mapped. -/
theorem MigInstr.run_vm {d : Dir} {e : Entry} {i : MigInstr} {r r' : MigRegs} {ev : List Event}
    (h : i.run cfg d e r s = .ok (r', s', ev)) :
    (∀ addr length, .unmapped addr length ∉ ev) ∧
    (i = .writeprotect → s.registered r.addr = true) ∧
    ((i ≠ .map ∧ i ≠ .register ∧ s'.vm = s.vm ∧ s'.registered = s.registered) ∨
      (i = .map ∧ s' = mmapFixed r.addr r.len d.dst e.offset s) ∨
      (i = .register ∧ (s.vm r.addr).isSome = true ∧ s' = registerRange r.addr r.len s)) := by
  cases MigInstr.run_ok h
  case writeprotect hreg => simp [hreg]
  case register hvm => simp [hvm]
  all_goals simp

/-- The migration thread does not touch the table. -/
theorem MigInstr.run_pages {d : Dir} {e : Entry} {i : MigInstr} {r r' : MigRegs} {ev : List Event}
    (h : i.run cfg d e r s = .ok (r', s', ev)) : s'.pages = s.pages := by
  cases MigInstr.run_ok h <;> rfl

/-- The migration thread assigns to the slot of the page at hand, with the slot it moves
to, and to that of the free descriptor. -/
theorem MigInstr.run_slot {d : Dir} {e : Entry} {i : MigInstr} {r r' : MigRegs} {ev : List Event}
    (h : i.run cfg d e r s = .ok (r', s', ev)) (q : PageId) :
    (i = .setOffset → e.page = some q → (s'.page q).devdaxOffset = e.offset) ∧
    ((s'.page q).slot = (s.page q).slot ∨
      ((i = .setInDram ∨ i = .setOffset) ∧ e.page = some q) ∨
      ((i = .setFreeOffset ∨ i = .setFreeInDram) ∧ q = e.next)) := by
  have hmod : ∀ (p : PageId) (f : HememPage → HememPage), (∀ g, (f g).slot = g.slot) →
      ((s.modPage p f).page q).slot = (s.page q).slot := by
    intro p f hf
    by_cases hq : q = p
    · subst hq
      simpa using hf _
    · simp [hq]
  cases MigInstr.run_ok h
  case setFreeOffset | setFreeInDram => by_cases hq : q = e.next <;> simp [hq]
  case setInDram p hp | setOffset p hp =>
    by_cases hq : q = p
    · simp [hq, hp]
    · simp [hq, hp, Ne.symm hq]
  case setFreePresent | setMigrating | bumpUp | bumpDown =>
    exact ⟨by simp, Or.inl (hmod _ _ fun g => rfl)⟩
  all_goals exact ⟨by simp, Or.inl rfl⟩

/-! ## The statements of the loops -/

theorem Dir.readLen_mem (d : Dir) : .readLen ∈ d.code .protect := by
  simp [Dir.code]

/-- The address is read before it is protected or mapped. -/
theorem Dir.readAddr_mem (d : Dir) {ph : Phase} (h : ph = .protect ∨ ph = .remap) :
    .readAddr ∈ d.code ph := by
  rcases h with rfl | rfl <;> cases d <;> simp [Dir.code]

/-- The statements that use `addr` come after the one that reads it. -/
theorem Dir.readAddr_passed {d : Dir} {ph : Phase} {i : MigInstr} {code : List MigInstr}
    (h : i :: code <:+ d.code ph) (hi : i = .writeprotect ∨ i = .map ∨ i = .register) :
    .readAddr ∉ i :: code := by
  rcases hi with rfl | rfl | rfl <;> cases d <;> cases ph <;>
    simp [Dir.code, Dir.src, List.suffix_cons_iff] at h <;> simp [h]

/-- Only the loop of the remaps maps. -/
theorem Dir.map_mem {d : Dir} {ph : Phase} (h : .map ∈ d.code ph) : ph = .remap := by
  cases d <;> cases ph <;> simp_all [Dir.code, Dir.src]

theorem Dir.map_mem_remap (d : Dir) : .map ∈ d.code .remap := by
  cases d <;> simp [Dir.code]

/-- Only this loop registers. -/
theorem Dir.register_mem {d : Dir} {ph : Phase} (h : .register ∈ d.code ph) : ph = .remap := by
  cases d <;> cases ph <;> simp_all [Dir.code, Dir.src]

/-- Only the loop of `hemem_wp_page` protects. -/
theorem Dir.writeprotect_mem {d : Dir} {ph : Phase} (h : .writeprotect ∈ d.code ph) :
    ph = .protect := by
  cases d <;> cases ph <;> simp_all [Dir.code, Dir.src]

theorem Dir.writeprotect_mem_protect (d : Dir) : .writeprotect ∈ d.code .protect := by
  simp [Dir.code]

/-- Only the loop of the remaps writes offsets. -/
theorem Dir.setOffset_mem {d : Dir} {ph : Phase} (h : .setOffset ∈ d.code ph) : ph = .remap := by
  cases d <;> cases ph <;> simp_all [Dir.code, Dir.src]

/-- The assignments to the slot of the page come after `MAP_FIXED`. -/
theorem Dir.map_passed {d : Dir} {ph : Phase} {i : MigInstr} {code : List MigInstr}
    (h : i :: code <:+ d.code ph) (hi : i = .setInDram ∨ i = .setOffset) : .map ∉ i :: code := by
  rcases hi with rfl | rfl <;> cases d <;> cases ph <;>
    simp [Dir.code, Dir.src, List.suffix_cons_iff] at h <;> simp [h]

/-! ## The entries of a batch -/

/-- The entries of a batch whose page has not been remapped. -/
def Mpc.unmoved : Mpc → List Entry
  | .loop _ .flag done todo _ _ | .loop _ .protect done todo _ _
  | .loop _ .copy done todo _ _ => done ++ todo
  | .loop _ .remap _ (e :: todo) code _ => if .map ∈ code then e :: todo else todo
  | _ => []

/-- The entries of a batch between the write protection of the page and its
`MAP_FIXED`. -/
def Mpc.window : Mpc → List Entry
  | .loop _ .protect done [] _ _ => done
  | .loop _ .protect done (e :: _) code _ =>
    if .writeprotect ∈ code then done else done ++ [e]
  | .loop _ .copy done todo _ _ => done ++ todo
  | .loop _ .remap _ [] _ _ => []
  | .loop _ .remap _ (e :: todo) code _ => if .map ∈ code then e :: todo else todo
  | _ => []

/-- An entry comes into the window when its page, which is registered, is protected. -/
theorem MigStep.window {numBatchs : Nat} {m m' : Mpc} {ev : List Event} (hm : m.Wf)
    (h : MigStep cfg numBatchs m s m' s' ev) :
    ∀ e ∈ m'.window, e ∈ m.window ∨
      ∃ d done todo code r, m = .loop d .protect done (e :: todo) (.writeprotect :: code) r ∧
        s.registered r.addr = true ∧ s' = protectRange r.addr r.len s := by
  cases h
  case instr d ph done e todo i code r r' hrun =>
    intro e' he'
    -- only the protection opens the window of a page, and only the remap closes it
    by_cases hi : i = .writeprotect
    · subst hi
      obtain rfl := Dir.writeprotect_mem (hm.sublist.mem (List.mem_cons_self ..))
      have hnot := notMem_of_suffix hm
      simp only [Mpc.window, if_neg hnot, List.mem_append, List.mem_singleton] at he'
      rcases he' with he' | rfl
      · exact Or.inl (by simpa [Mpc.window] using he')
      · cases MigInstr.run_ok hrun with
        | writeprotect hreg => exact Or.inr ⟨d, done, todo, code, r, rfl, hreg, rfl⟩
    · left
      by_cases hmap : i = .map
      · subst hmap
        obtain rfl := Dir.map_mem (hm.sublist.mem (List.mem_cons_self ..))
        have hnot := notMem_of_suffix hm
        simp only [Mpc.window, if_neg hnot] at he'
        simp [Mpc.window, he']
      · cases ph <;> simp_all [Mpc.window, Ne.symm hi, Ne.symm hmap]
  case nextEntry d ph done e todo r =>
    intro e' he'
    left
    cases ph <;> cases todo <;>
      simp_all [Mpc.window, d.map_mem_remap, d.writeprotect_mem_protect]
  case nextLoop d ph ph' done code r hnext =>
    intro e' he'
    left
    cases ph <;> simp only [Phase.next, Option.some.injEq, reduceCtorEq] at hnext <;>
      subst hnext <;> cases done <;>
      simp_all [Mpc.window, d.map_mem_remap, d.writeprotect_mem_protect]
  case begin d es =>
    intro e' he'
    simp [Mpc.window] at he'
  case compareMore | compare | read | dequeuePage | dequeueNull | dequeueFree | dequeueFreeNull |
      readFree | lastLoop | count | testZero | test =>
    intro e' he'
    simp [Mpc.window] at he'

/-- What the migration thread holds of a batch that migrates. -/
def Mpc.held : Mpc → List PageId
  | .loop d ph done todo code r => (Mpc.loop d ph done todo code r).items.map Prod.fst
  | _ => []

/-- The pages of the batch are in the book of the migration thread. -/
theorem Mpc.held_sub {m : Mpc} {p : PageId} (h : p ∈ m.held) : p ∈ m.items.map Prod.fst := by
  cases m <;> first | exact h | cases h

/-- The migration thread holds the page of the entry at hand. -/
theorem Mpc.head_mem_items {d : Dir} {ph : Phase} {done todo : List Entry} {e : Entry}
    {code : List MigInstr} {r : MigRegs} {p : PageId} (hph : ph ≠ .giveBack)
    (hp : e.page = some p) :
    inUse (d.pageTier ph code) p ∈ (Mpc.loop d ph done (e :: todo) code r).items := by
  simp [Mpc.items, Entry.items, Entry.pageItems, hph, hp]

/-! ## The local variables -/

/-- The variables are those of the entry at hand once they have been read. -/
structure RegsOk (s : St) (m : Mpc) : Prop where
  addr : ∀ {d ph done e todo code r}, m = .loop d ph done (e :: todo) code r →
    ph = .protect ∨ ph = .remap → .readAddr ∉ code →
      ∃ p, e.page = some p ∧ r.addr = (s.page p).va
  len : ∀ {d ph done todo code r}, m = .loop d ph done todo code r → ph ≠ .flag →
    (ph = .protect → done ≠ [] ∨ .readLen ∉ code) → done ++ todo ≠ [] → r.len = pageSize

/-- Other threads may run as long as they leave the pages of the batch at their `va`. -/
theorem RegsOk.congr {m : Mpc} (h : RegsOk s m)
    (hva : ∀ p ∈ m.held, (s'.page p).va = (s.page p).va) : RegsOk s' m := by
  refine ⟨fun {d ph done e todo code r} hm hph hcode => ?_, h.len⟩
  rcases h.addr hm hph hcode with ⟨p, hp, hr⟩
  subst hm
  have hne : ph ≠ .giveBack := by rcases hph with rfl | rfl <;> simp
  exact ⟨p, hp, hr.trans (hva p (List.mem_map_of_mem (Mpc.head_mem_items hne hp))).symm⟩

/-- The registers keep the address and the size of the page that the loop is at. -/
theorem RegsOk.step {numBatchs : Nat} {m m' : Mpc} {ev : List Event} (h : RegsOk s m)
    (hs : MigStep cfg numBatchs m s m' s' ev) (hpt : ∀ p, (s.page p).pt = .hugep) :
    RegsOk s' m' := by
  cases hs
  case instr d ph done e todo i code r r' hrun =>
    rcases MigInstr.run_regs hrun with ⟨haddr, hlen, hreadAddr, hreadLen⟩
    constructor
    · rintro d' ph' done' e' todo' code' r'' ⟨rfl⟩ hph hcode
      -- Past the statement that reads the register it is the entry's; before it there is nothing
      -- to show.
      by_cases hi : i = .readAddr
      · rcases hreadAddr hi with ⟨p, hp, hr⟩
        exact ⟨p, hp, hr.trans (MigInstr.run_keeps hrun p).va.symm⟩
      · rcases haddr with hr | ⟨hi', -⟩
        · rcases h.addr rfl hph (by simp [Ne.symm hi, hcode]) with ⟨p, hp, hold⟩
          exact ⟨p, hp, (hr.trans hold).trans (MigInstr.run_keeps hrun p).va.symm⟩
        · exact absurd hi' hi
    · rintro d' ph' done' todo' code' r'' ⟨rfl⟩ hph hprotect hne
      by_cases hi : i = .readLen
      · rcases hreadLen hi with ⟨q, -, hr⟩
        rw [hr, hpt q]
        rfl
      · rcases hlen with hr | ⟨hi', -⟩
        · rw [hr]
          refine h.len rfl hph (fun hp => ?_) hne
          rcases hprotect hp with hd | hc
          · exact Or.inl hd
          · exact Or.inr (by simp [Ne.symm hi, hc])
        · exact absurd hi' hi
  case nextEntry d ph done e todo r =>
    constructor
    · rintro d' ph' done' e' todo' code' r'' ⟨rfl⟩ hph hcode
      exact absurd (d.readAddr_mem hph) hcode
    · rintro d' ph' done' todo' code' r'' ⟨rfl⟩ hph - -
      exact h.len rfl hph (fun _ => Or.inr (by simp)) (by simp)
  case nextLoop d ph ph' done code r hnext =>
    constructor
    · rintro d' ph'' done' e' todo' code' r'' ⟨rfl⟩ hph hcode
      exact absurd (d.readAddr_mem hph) hcode
    · rintro d' ph'' done' todo' code' r'' ⟨rfl⟩ hph hprotect hne
      by_cases hflag : ph = .flag
      · subst hflag
        obtain rfl : ph' = .protect := by simpa [Phase.next] using hnext.symm
        rcases hprotect rfl with hd | hc
        · exact absurd rfl hd
        · exact absurd d.readLen_mem hc
      · exact h.len rfl hflag (fun _ => Or.inl (by simpa using hne)) (by simpa using hne)
  case begin d es =>
    constructor
    · rintro d' ph done' e' todo' code' r'' ⟨rfl⟩ hph hcode
      simp at hph
    · rintro d' ph done' todo' code' r'' ⟨rfl⟩ hph - -
      exact absurd rfl hph
  all_goals constructor <;> intros <;> contradiction

end Hemem
