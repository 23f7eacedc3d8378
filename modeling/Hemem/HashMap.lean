import Hemem.HashTable

/-!
# Hemem.HashMap — what `find_page`, `add_page` and `remove_page` do to the table

A finite map from keys to elements is what the hash stands for. Any sequence of calls gives the
same results on the hash as on the map, for every hash function and every answer of `malloc`,
if an element is taken out only while it is in and its key is assigned to only while it is not.
`HASH_FSCK` finds nothing wrong then, and only memory can run out.
-/

namespace Hemem

/-- The element with a key, and the key of every element. -/
structure KeyMap (Elt Key : Type) where
  at? : Key → Option Elt
  key : Elt → Key

variable {Elt Key : Type}

section Elements

variable {E : HashEnv Key} {fuel : Nat} {u : UtHash Elt Key} {items : List Elt}

/-- Keys that are not those of elements do not matter. -/
theorem UtHash.Elements.rekey (h : u.Elements E items) {key : Elt → Key}
    (hkey : ∀ e ∈ items, key e = u.key e) : UtHash.Elements E { u with key := key } items := by
  rcases h with h | ⟨id, T, chain, hne, h⟩
  · exact Or.inl h
  · refine Or.inr ⟨id, T, chain, hne,
      { h with hashv := fun e he => ?_, keys := fun e he f hf heq => ?_, binned := ?_ }⟩
    · exact (h.hashv e he).trans (congrArg E.hash (hkey e he).symm)
    · refine h.keys e he f hf ?_
      rw [← hkey e he, ← hkey f hf]
      exact heq
    · exact ⟨h.binned.bins, h.binned.heads, h.binned.counts⟩

theorem UtHash.Elements.nodup (h : u.Elements E items) : items.Nodup := by
  rcases h with ⟨rfl, -⟩ | ⟨_, _, _, -, h⟩
  · exact List.nodup_nil
  · exact h.nodup

theorem UtHash.Elements.hashFind [DecidableEq Key] (h : u.Elements E items)
    (hfuel : items.length < fuel) (k : Key) :
    ∃ out, u.hashFind E fuel k = .ok out ∧ ∀ e, out = some e ↔ e ∈ items ∧ u.key e = k := by
  rcases h with ⟨rfl, hhead, -⟩ | ⟨_, _, _, -, h⟩
  · exact ⟨none, by rw [UtHash.hashFind, hhead], by simp⟩
  · exact h.hashFind hfuel k

end Elements

/-- The hash, with at most `n` elements, holds what the map does. -/
structure StandsFor (E : HashEnv Key) (n : Nat) (u : UtHash Elt Key) (m : KeyMap Elt Key) :
    Prop where
  elements : ∃ items, u.Elements E items ∧ items.length ≤ n ∧
    ∀ k e, m.at? k = some e ↔ e ∈ items ∧ m.key e = k
  key : u.key = m.key

section StandsFor

variable {E : HashEnv Key} {n fuel : Nat} {u : UtHash Elt Key} {m : KeyMap Elt Key}

theorem standsFor_empty (E : HashEnv Key) (hh : Elt → UtHandle Elt) (key : Elt → Key) :
    StandsFor E 0 (UtHash.empty hh key) ⟨fun _ => none, key⟩ :=
  ⟨⟨[], Or.inl ⟨rfl, rfl, fun _ => rfl⟩, Nat.le_refl 0, by simp⟩, rfl⟩

theorem StandsFor.hashFsck [DecidableEq Elt] (h : StandsFor E n u m) (hfuel : n < fuel) :
    u.hashFsck fuel = .ok () := by
  rcases h.elements with ⟨items, helts, hlen, -⟩
  exact helts.hashFsck (Nat.lt_of_le_of_lt hlen hfuel)

/-- The search gives what the map has. -/
theorem StandsFor.hashFind [DecidableEq Key] (h : StandsFor E n u m) (hfuel : n < fuel) (k : Key) :
    u.hashFind E fuel k = .ok (m.at? k) := by
  rcases h.elements with ⟨items, helts, hlen, hat⟩
  rcases helts.hashFind (Nat.lt_of_le_of_lt hlen hfuel) k with ⟨out, hok, hout⟩
  rw [hok]
  refine congrArg Except.ok (Option.ext fun e => ?_)
  rw [hout, h.key]
  exact (hat k e).symm

end StandsFor

variable [DecidableEq Elt] [DecidableEq Key]

/-- A call on the map. -/
def KeyMap.call (m : KeyMap Elt Key) :
    HashCall Elt Key → Except HashFault (Option Elt × KeyMap Elt Key)
  | .find k => .ok (m.at? k, m)
  | .add e =>
    match m.at? (m.key e) with
    | none => .ok (none, { m with at? := Function.update m.at? (m.key e) (some e) })
    | some _ => .error .present
  | .del e => .ok (none, { m with at? := fun k => if m.at? k = some e then none else m.at? k })
  | .setKey e k => .ok (none, { m with key := Function.update m.key e k })

def KeyMap.runCalls : List (HashCall Elt Key) → KeyMap Elt Key →
    Except HashFault (List (Option Elt) × KeyMap Elt Key)
  | [], m => .ok ([], m)
  | c :: calls, m => do
    let (r, m) ← m.call c
    let (rs, m) ← KeyMap.runCalls calls m
    .ok (r :: rs, m)

/-- An element that is taken out is in, one whose key is assigned to is not. -/
def HashCall.Legal (m : KeyMap Elt Key) : HashCall Elt Key → Prop
  | .del e => m.at? (m.key e) = some e
  | .setKey e _ => m.at? (m.key e) ≠ some e
  | .find _ | .add _ => True

instance (m : KeyMap Elt Key) : DecidablePred (HashCall.Legal m) := fun c =>
  match c with
  | .del e => inferInstanceAs (Decidable (m.at? (m.key e) = some e))
  | .setKey e _ => inferInstanceAs (Decidable (m.at? (m.key e) ≠ some e))
  | .find _ | .add _ => isTrue trivial

/-- Every call is legal when it is made. -/
def KeyMap.LegalRun : List (HashCall Elt Key) → KeyMap Elt Key → Prop
  | [], _ => True
  | c :: calls, m => c.Legal m ∧
    match m.call c with
    | .ok (_, m') => KeyMap.LegalRun calls m'
    | .error _ => True

instance KeyMap.LegalRun.decidable : ∀ (calls : List (HashCall Elt Key)) (m : KeyMap Elt Key),
    Decidable (KeyMap.LegalRun calls m)
  | [], _ => isTrue trivial
  | c :: calls, m =>
    match h : m.call c with
    | .ok (_, m') =>
      have := KeyMap.LegalRun.decidable calls m'
      decidable_of_iff (c.Legal m ∧ KeyMap.LegalRun calls m') (by simp only [KeyMap.LegalRun, h])
    | .error _ => decidable_of_iff (c.Legal m) (by simp only [KeyMap.LegalRun, h, and_true])

variable {E : HashEnv Key} {n fuel : Nat} {u : UtHash Elt Key} {m : KeyMap Elt Key}

/-- A call gives the same on the hash and on the map. -/
theorem StandsFor.run (h : StandsFor E n u m) {c : HashCall Elt Key} (hc : c.Legal m)
    (hfuel : n + 1 < fuel) :
    c.run E fuel u = .error .outOfMemory ∨
      (∃ f, m.call c = .error f ∧ c.run E fuel u = .error f) ∨
      ∃ r u' m', c.run E fuel u = .ok (r, u') ∧ m.call c = .ok (r, m') ∧
        StandsFor E (n + 1) u' m' := by
  rcases h.elements with ⟨items, helts, hlen, hat⟩
  cases c with
  | find k =>
    refine Or.inr (Or.inr ⟨m.at? k, u, m, ?_, rfl, ⟨items, helts, by omega, hat⟩, h.key⟩)
    rw [HashCall.run, h.hashFind (by omega)]
    rfl
  | add e =>
    have hfind : u.hashFind E fuel (u.key e) = .ok (m.at? (m.key e)) := by
      rw [h.hashFind (by omega), h.key]
    -- the assertion of `add_page` fails on the hash exactly when the map has the key
    cases hnone : m.at? (m.key e) with
    | some f =>
      refine Or.inr (Or.inl ⟨.present, by simp only [KeyMap.call, hnone], ?_⟩)
      simp only [HashCall.run, UtHash.addPage, hfind, hnone, bind, Except.bind]
    | none =>
      have hfresh : ∀ x ∈ items, m.key x ≠ m.key e := by
        intro x hx heq
        rw [(hat _ x).mpr ⟨hx, heq⟩] at hnone
        cases hnone
      have he : e ∉ items := fun he => hfresh e he rfl
      have hlong : items.length + 1 < fuel := by omega
      rcases helts.hashAdd he (h.key ▸ hfresh) hlong with hoom | ⟨u', hok, helts', hkey⟩
      · left
        simp only [HashCall.run, UtHash.addPage, hfind, hnone, hoom, bind, Except.bind]
      · refine Or.inr (Or.inr ⟨none, u',
          { m with at? := Function.update m.at? (m.key e) (some e) }, ?_,
          by simp only [KeyMap.call, hnone],
          ⟨items ++ [e], helts', by simpa using hlen, fun k x => ?_⟩, hkey.trans h.key⟩)
        · simp only [HashCall.run, UtHash.addPage, hfind, hnone, hok, bind, Except.bind]
        -- under its own key the new element is found, under every other key what was there
        by_cases hk : k = m.key e
        · subst hk
          simp only [Function.update_self, Option.some.injEq, List.mem_append, List.mem_singleton]
          constructor
          · rintro rfl
            exact ⟨Or.inr rfl, rfl⟩
          · rintro ⟨hx | hx, hkx⟩
            · exact absurd hkx (hfresh x hx)
            · exact hx.symm
        · simp only [Function.update_of_ne hk, hat, List.mem_append, List.mem_singleton]
          constructor
          · exact fun hx => ⟨Or.inl hx.1, hx.2⟩
          · rintro ⟨hx | rfl, hkx⟩
            · exact ⟨hx, hkx⟩
            · exact absurd hkx.symm hk
  | del e =>
    have he := ((hat _ e).mp hc).1
    rcases helts.hashDelete he with ⟨u', hok, helts', hkey⟩
    refine Or.inr (Or.inr ⟨none, u', _, ?_, rfl,
      ⟨items.erase e, helts', (List.length_erase_le.trans hlen).trans (Nat.le_succ n),
        fun k x => ?_⟩, hkey.trans h.key⟩)
    · rw [HashCall.run, hok]
      rfl
    · rw [helts.nodup.mem_erase_iff]
      constructor
      · intro hx
        dsimp only at hx
        split at hx
        · cases hx
        · rename_i hne
          exact ⟨⟨fun hxe => hne (hxe ▸ hx), ((hat k x).mp hx).1⟩, ((hat k x).mp hx).2⟩
      · rintro ⟨⟨hne, hx⟩, hkx⟩
        have hsome := (hat k x).mpr ⟨hx, hkx⟩
        have hother : m.at? k ≠ some e := by
          rw [hsome]
          exact fun heq => hne (Option.some.inj heq)
        exact (if_neg hother).trans hsome
  | setKey e k =>
    have he : e ∉ items := fun he => hc ((hat _ e).mpr ⟨he, rfl⟩)
    have hsame : ∀ x ∈ items, Function.update m.key e k x = m.key x := fun x hx =>
      Function.update_of_ne (fun hxe => he (by rwa [← hxe])) ..
    refine Or.inr (Or.inr ⟨none, _, _, rfl, rfl,
      ⟨items, helts.rekey (fun x hx => ?_), by omega, fun k' x => ?_⟩, ?_⟩)
    · rw [h.key]
      exact hsame x hx
    · rw [hat]
      refine and_congr_right fun hx => ?_
      show _ ↔ Function.update m.key e k x = k'
      rw [hsame x hx]
    · show Function.update u.key e k = _
      rw [h.key]

/-- By induction on the calls, each legal when it is made. -/
theorem StandsFor.runCalls {calls : List (HashCall Elt Key)} (h : StandsFor E n u m)
    (hlegal : KeyMap.LegalRun calls m) (hfuel : n + calls.length < fuel) :
    u.runCalls E fuel calls = .error .outOfMemory ∨
      (∃ f, m.runCalls calls = .error f ∧ u.runCalls E fuel calls = .error f) ∨
      ∃ rs u' m', u.runCalls E fuel calls = .ok (rs, u') ∧ m.runCalls calls = .ok (rs, m') ∧
        StandsFor E (n + calls.length) u' m' := by
  induction calls generalizing u m n with
  | nil => exact Or.inr (Or.inr ⟨[], u, m, rfl, rfl, h⟩)
  | cons c calls ih =>
    rw [List.length_cons] at hfuel
    have hone : n + 1 < fuel := by omega
    have hmany : n + 1 + calls.length < fuel := by omega
    simp only [UtHash.runCalls, KeyMap.runCalls]
    rcases hlegal with ⟨hc, hlegal⟩
    rcases h.run hc hone with hoom | ⟨f, hm, hu⟩ | ⟨r, u', m', hu, hm, h'⟩
    · left
      rw [hoom]
      rfl
    · right
      left
      rw [hm, hu]
      exact ⟨f, rfl, rfl⟩
    · rw [hm] at hlegal
      rw [hu, hm]
      rcases ih h' hlegal hmany with
        hoom | ⟨f, hms, hus⟩ | ⟨rs, u'', m'', hus, hms, h''⟩
      · left
        simp only [hoom, bind, Except.bind]
      · right
        left
        simp only [hms, hus, bind, Except.bind]
        exact ⟨f, rfl, rfl⟩
      · right
        right
        simp only [hms, hus, bind, Except.bind]
        refine ⟨r :: rs, u'', m'', rfl, rfl, ?_⟩
        rwa [List.length_cons, Nat.add_comm calls.length, ← Nat.add_assoc]

/-- From the empty hash, whatever the memory of the elements holds. -/
theorem runCalls_keyMap (E : HashEnv Key) (hh : Elt → UtHandle Elt) (key : Elt → Key)
    (calls : List (HashCall Elt Key)) (hlegal : KeyMap.LegalRun calls ⟨fun _ => none, key⟩)
    (hfuel : calls.length < fuel) :
    (UtHash.empty hh key).runCalls E fuel calls = .error .outOfMemory ∨
      match KeyMap.runCalls calls ⟨fun _ => none, key⟩ with
      | .error f => (UtHash.empty hh key).runCalls E fuel calls = .error f
      | .ok (rs, m) => ∃ u items, (UtHash.empty hh key).runCalls E fuel calls = .ok (rs, u) ∧
        u.Elements E items ∧ (∀ k e, m.at? k = some e ↔ e ∈ items ∧ u.key e = k) ∧
        u.key = m.key ∧ u.hashFsck fuel = .ok () := by
  have hsum : 0 + calls.length < fuel := by omega
  rcases (standsFor_empty E hh key).runCalls hlegal hsum with
    hoom | ⟨f, hm, hu⟩ | ⟨rs, u, m, hu, hm, h⟩
  · exact Or.inl hoom
  · right
    rw [hm]
    exact hu
  · right
    rw [hm]
    rcases h.elements with ⟨items, helts, -, hat⟩
    exact ⟨u, items, hu, helts, h.key ▸ hat, h.key, h.hashFsck hsum⟩

/-- The page at each address from 1 GiB on. -/
def vaOf (p : Nat) : Nat := 0x40000000 + p * 0x200000

/-- The addresses of the pages 2180 and 2502 are in the same of the 2097152 buckets; page 6 gets an
address that page 2180 has had. -/
def collidingCalls : List (HashCall Nat Nat) :=
  [.add 2180, .add 2502, .find (vaOf 2502), .del 2180, .setKey 2180 (vaOf 2502),
    .find (vaOf 2180), .setKey 6 (vaOf 2180), .add 6, .find (vaOf 2180), .del 2502,
    .find (vaOf 2502), .del 6, .find (vaOf 2180)]

/-- The calls on the hash that `pages` is: the chain of one bucket grows and shrinks, and every
search gives what the map has. -/
theorem runCalls_keyMap_colliding :
    hashToBkt (pagesEnv.hash (vaOf 2180)) 2097152 =
        hashToBkt (pagesEnv.hash (vaOf 2502)) 2097152 ∧
    ∃ u items, (UtHash.empty (fun _ => ⟨none, none, none, none, none, none, 0, 0⟩) vaOf).runCalls
        pagesEnv 20 collidingCalls =
          .ok ([none, none, some 2502, none, none, none, none, none, some 6, none, none, none,
            none], u) ∧
      u.Elements pagesEnv items ∧ u.hashFsck 20 = .ok () := by
  have hrun := runCalls_keyMap pagesEnv
    (fun _ => ⟨none, none, none, none, none, none, 0, 0⟩) vaOf collidingCalls (by decide)
    (show collidingCalls.length < 20 by decide)
  refine ⟨by decide +kernel, ?_⟩
  rcases hrun with hoom | hok
  · -- there is memory for the table and for its first array
    have hresults : ((UtHash.empty (fun _ => ⟨none, none, none, none, none, none, 0, 0⟩)
        vaOf).runCalls pagesEnv 20 collidingCalls).toOption.isSome := by decide +kernel
    rw [hoom] at hresults
    cases hresults
  · rcases hok with ⟨u, items, hu, helts, -, -, hfsck⟩
    exact ⟨u, items, hu, helts, hfsck⟩

end Hemem
