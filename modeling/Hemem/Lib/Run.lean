import Mathlib.Data.List.Infix

/-!
# Hemem.Lib.Run — runs of a system whose operations may stop it

A system is a function `exec` that performs one operation on a state and either
returns the next state or an error, after which nothing runs any more. `Along`
says that every operation a run completes meets a condition at the state it
starts from, `Throughout` that every state a run visits has a property.

`throughout_of_along` is the induction over a run, and `throughout_iff_along`
its exact form: when each step keeps the property precisely where it meets the
condition, a run has the property throughout iff all its steps meet it.
-/

universe u v w

namespace Hemem.Lib

/-- A computation that may fail returns when both of its halves do. -/
@[simp] theorem bind_eq_ok {ε : Type u} {α β : Type v} {x : Except ε α} {f : α → Except ε β}
    {b : β} : (x >>= f) = .ok b ↔ ∃ a, x = .ok a ∧ f a = .ok b := by
  cases x with
  | error e => simp [bind, Except.bind]
  | ok a => simp [bind, Except.bind]

/-- What is made of the result can be made of that of the second half. -/
theorem map_bind {ε : Type u} {α β γ : Type v} (x : Except ε α) (f : α → Except ε β) (g : β → γ) :
    (x >>= f).map g = x >>= fun a => (f a).map g := by
  cases x <;> rfl

/-- A computation fails when one of its halves does. -/
theorem bind_eq_error {ε : Type u} {α β : Type v} {x : Except ε α} {f : α → Except ε β} {e : ε} :
    (x >>= f) = .error e ↔ x = .error e ∨ ∃ a, x = .ok a ∧ f a = .error e := by
  cases x with
  | error e => simp [bind, Except.bind]
  | ok a => simp [bind, Except.bind]

/-- A computation that stops does so with an error that `E` admits. -/
def StopsIn {ε : Type u} {α : Type v} (E : ε → Prop) (x : Except ε α) : Prop :=
  ∀ e, x = .error e → E e

theorem StopsIn.ok {ε : Type u} {α : Type v} {E : ε → Prop} {a : α} :
    StopsIn E (.ok a : Except ε α) := fun _ h => nomatch h

theorem StopsIn.error {ε : Type u} {α : Type v} {E : ε → Prop} {e : ε} (h : E e) :
    StopsIn E (.error e : Except ε α) := by
  rintro _ ⟨⟩
  exact h

/-- More errors may be admitted. -/
theorem StopsIn.mono {ε : Type u} {α : Type v} {E F : ε → Prop} {x : Except ε α}
    (h : StopsIn E x) (hEF : ∀ e, E e → F e) : StopsIn F x := fun e he => hEF e (h e he)

/-- The rule for sequences: neither part stops with another error. -/
theorem StopsIn.bind {ε : Type u} {α β : Type v} {E : ε → Prop} {x : Except ε α}
    {f : α → Except ε β} (hx : StopsIn E x) (hf : ∀ a, x = .ok a → StopsIn E (f a)) :
    StopsIn E (x >>= f) := by
  cases x with
  | error e => exact StopsIn.error (hx e rfl)
  | ok a => exact hf a rfl

variable {σ : Type u} {ι : Type v} {ε : Type w}

/-- The state after the operations `ops`. -/
def runs (exec : ι → σ → Except ε σ) : List ι → σ → Except ε σ
  | [], s => .ok s
  | i :: is, s =>
    match exec i s with
    | .ok s' => runs exec is s'
    | .error e => .error e

/-- The last operation of a run. -/
theorem runs_concat {exec : ι → σ → Except ε σ} {ops : List ι} {i : ι} {s s' : σ} :
    runs exec (ops ++ [i]) s = .ok s' ↔ ∃ s₁, runs exec ops s = .ok s₁ ∧ exec i s₁ = .ok s' := by
  induction ops generalizing s with
  | nil =>
    simp only [List.nil_append, runs, Except.ok.injEq, exists_eq_left']
    cases exec i s <;> simp
  | cons j js ih =>
    simp only [List.cons_append, runs]
    cases exec j s with
    | error e => simp
    | ok s₁ => exact ih

/-- Every operation that the run completes meets `C` at the state before it. -/
def Along (exec : ι → σ → Except ε σ) (C : σ → ι → Prop) : List ι → σ → Prop
  | [], _ => True
  | i :: is, s =>
    match exec i s with
    | .ok s' => C s i ∧ Along exec C is s'
    | .error _ => True

instance Along.decidable {exec : ι → σ → Except ε σ} {C : σ → ι → Prop} [∀ s i, Decidable (C s i)] :
    ∀ (ops : List ι) (s : σ), Decidable (Along exec C ops s)
  | [], _ => isTrue trivial
  | i :: is, s =>
    match h : exec i s with
    | .ok s' =>
      have : Decidable (Along exec C is s') := Along.decidable is s'
      decidable_of_iff (C s i ∧ Along exec C is s') (by simp only [Along, h])
    | .error _ => isTrue (by simp only [Along, h])

/-- Every state that the run visits has `P`. -/
def Throughout (exec : ι → σ → Except ε σ) (P : σ → Prop) : List ι → σ → Prop
  | [], s => P s
  | i :: is, s =>
    P s ∧
      match exec i s with
      | .ok s' => Throughout exec P is s'
      | .error _ => True

variable {exec : ι → σ → Except ε σ} {C : σ → ι → Prop} {I P : σ → Prop}

/-- The first state of a run. -/
theorem Throughout.here {ops : List ι} {s : σ} (h : Throughout exec P ops s) : P s := by
  cases ops with
  | nil => exact h
  | cons i is => exact h.1

/-- A weaker property holds throughout, too. -/
theorem Throughout.imp {Q : σ → Prop} (hPQ : ∀ s, P s → Q s) :
    ∀ {ops : List ι} {s : σ}, Throughout exec P ops s → Throughout exec Q ops s
  | [], s, h => hPQ s h
  | i :: is, s, h => by
    refine ⟨hPQ s h.1, ?_⟩
    have h2 := h.2
    split at h2
    · exact Throughout.imp hPQ h2
    · trivial

/-- A weaker condition is met along, too. -/
theorem Along.imp {D : σ → ι → Prop} (hCD : ∀ s i, C s i → D s i) :
    ∀ {ops : List ι} {s : σ}, Along exec C ops s → Along exec D ops s
  | [], _, _ => trivial
  | i :: is, s, h => by
    unfold Along at h ⊢
    split
    · rename_i s' hs'
      rw [hs'] at h
      exact ⟨hCD s i h.1, Along.imp hCD h.2⟩
    · trivial

/-- The states of a run are those its prefixes lead to. -/
theorem throughout_iff_runs {ops : List ι} {s : σ} :
    Throughout exec P ops s ↔
      ∀ pre, pre <+: ops → ∀ s', runs exec pre s = .ok s' → P s' := by
  induction ops generalizing s with
  | nil =>
    constructor
    · intro h pre hpre s' hs'
      obtain rfl := List.prefix_nil.mp hpre
      simp only [runs, Except.ok.injEq] at hs'
      exact hs' ▸ h
    · intro h
      exact h [] (List.prefix_refl _) s rfl
  | cons i is ih =>
    constructor
    · intro h pre hpre s' hs'
      -- The empty prefix is the first state; any other prefix starts with the first operation.
      cases pre with
      | nil =>
        simp only [runs, Except.ok.injEq] at hs'
        exact hs' ▸ h.1
      | cons j js =>
        rcases List.cons_prefix_cons.mp hpre with ⟨rfl, hjs⟩
        have h2 := h.2
        simp only [runs] at hs'
        split at hs'
        · rename_i s₁ hs₁
          rw [hs₁] at h2
          exact ih.mp h2 js hjs s' hs'
        · cases hs'
    · intro h
      refine ⟨h [] List.nil_prefix s rfl, ?_⟩
      split
      · rename_i s₁ hs₁
        refine ih.mpr fun pre hpre s' hs' => ?_
        refine h (i :: pre) (List.cons_prefix_cons.mpr ⟨rfl, hpre⟩) s' ?_
        simp only [runs, hs₁, hs']
      · trivial

/-- What holds of the operations alone can be added to the condition. -/
theorem Along.and_forall {Q : ι → Prop} :
    ∀ {ops : List ι} {s : σ}, (∀ i ∈ ops, Q i) → Along exec C ops s →
      Along exec (fun s i => Q i ∧ C s i) ops s
  | [], _, _, _ => trivial
  | i :: is, s, hQ, h => by
    unfold Along at h ⊢
    split
    · rename_i s' hs'
      rw [hs'] at h
      exact ⟨⟨hQ i List.mem_cons_self, h.1⟩,
        Along.and_forall (fun j hj => hQ j (List.mem_cons_of_mem _ hj)) h.2⟩
    · trivial

/-- The first step and the rest. -/
theorem Along.cons {i : ι} {is : List ι} {s : σ} (hC : C s i)
    (h : ∀ s', exec i s = .ok s' → Along exec C is s') : Along exec C (i :: is) s := by
  unfold Along
  split
  · rename_i s' hs'
    exact ⟨hC, h s' hs'⟩
  · trivial

/-- A condition that the operations meet at every state. -/
theorem Along.of_forall :
    ∀ {ops : List ι} {s : σ}, (∀ i ∈ ops, ∀ s, C s i) → Along exec C ops s
  | [], _, _ => trivial
  | i :: _, s, h => Along.cons (h i List.mem_cons_self s) fun _ _ =>
      Along.of_forall fun j hj => h j (List.mem_cons_of_mem _ hj)

/-- A run in two parts. -/
theorem Along.append :
    ∀ {ops ops' : List ι} {s : σ}, Along exec C ops s →
      (∀ s', runs exec ops s = .ok s' → Along exec C ops' s') → Along exec C (ops ++ ops') s
  | [], _, s, _, h' => h' s rfl
  | i :: is, ops', s, h, h' => by
    unfold Along at h
    simp only [List.cons_append, Along]
    split
    · rename_i s₁ hs₁
      rw [hs₁] at h
      simp only [runs, hs₁] at h'
      exact ⟨h.1, Along.append h.2 h'⟩
    · trivial

/-- A run that ends in a state without `P`, seen through a view `f` of states. -/
theorem not_throughout_of_map {β : Type u} {f : σ → β} {b : β} {ops : List ι} {s : σ}
    (h : (runs exec ops s).map f = .ok b) (hP : ∀ s', f s' = b → ¬ P s') :
    ¬ Throughout exec P ops s := by
  intro ht
  cases hr : runs exec ops s with
  | error e =>
    rw [hr] at h
    cases h
  | ok s' =>
    rw [hr] at h
    exact hP s' (Except.ok.inj h)
      (throughout_iff_runs.mp ht ops (List.prefix_refl ops) s' hr)

/-- Induction over a run whose steps all meet `C`. -/
theorem throughout_of_along
    (hstep : ∀ s i s', I s → C s i → exec i s = .ok s' → I s') :
    ∀ {ops : List ι} {s : σ}, I s → Along exec C ops s → Throughout exec I ops s
  | [], _, hI, _ => hI
  | i :: is, s, hI, h => by
    refine ⟨hI, ?_⟩
    unfold Along at h
    split
    · rename_i s' hs'
      rw [hs'] at h
      exact throughout_of_along hstep (hstep s i s' hI h.1 hs') h.2
    · trivial

/-- A condition that follows from the invariant is met along the run. -/
theorem Along.of_inv {D : σ → ι → Prop}
    (hstep : ∀ s i s', I s → C s i → exec i s = .ok s' → I s') (hD : ∀ s i, I s → D s i) :
    ∀ {ops : List ι} {s : σ}, I s → Along exec C ops s → Along exec D ops s
  | [], _, _, _ => trivial
  | i :: is, s, hI, h => by
    unfold Along at h ⊢
    split
    · rename_i s' hs'
      rw [hs'] at h
      exact ⟨hD s i hI, Along.of_inv hstep hD (hstep s i s' hI h.1 hs') h.2⟩
    · trivial

/-- Induction over an arbitrary run. -/
theorem throughout_of_step (hstep : ∀ s i s', I s → exec i s = .ok s' → I s')
    (ops : List ι) {s : σ} (hI : I s) : Throughout exec I ops s := by
  induction ops generalizing s with
  | nil => exact hI
  | cons i is ih =>
    refine ⟨hI, ?_⟩
    split
    · rename_i s' hs'
      exact ih (hstep s i s' hI hs')
    · trivial

/-- The state at the end of a run, for an invariant of all steps. -/
theorem of_runs (hstep : ∀ s i s', I s → exec i s = .ok s' → I s')
    {ops : List ι} {s s' : σ} (hI : I s) (h : runs exec ops s = .ok s') : I s' :=
  throughout_iff_runs.mp (throughout_of_step hstep ops hI) ops (List.prefix_refl _) s' h

/-- A run stops with the errors only with which its steps can stop. -/
theorem stopsIn_runs {E : ε → Prop} (hstep : ∀ s i s', I s → exec i s = .ok s' → I s')
    (hstop : ∀ s i, I s → StopsIn E (exec i s)) (ops : List ι) {s : σ} (hI : I s) :
    StopsIn E (runs exec ops s) := by
  induction ops generalizing s with
  | nil => exact StopsIn.ok
  | cons i is ih =>
    unfold runs
    split
    · rename_i s' hs'
      exact ih (hstep s i s' hI hs')
    · rename_i e he
      exact StopsIn.error (hstop s i hI e he)

/-- Exactness over a run: `I` holds along every run, and from a state with `P` a
step keeps `P` precisely when it meets `C`. -/
theorem throughout_iff_along
    (hinv : ∀ s i s', I s → exec i s = .ok s' → I s')
    (hstep : ∀ s i s', I s → P s → exec i s = .ok s' → (P s' ↔ C s i)) :
    ∀ {ops : List ι} {s : σ}, I s →
      (Throughout exec P ops s ↔ P s ∧ Along exec C ops s)
  | [], s, _ => by simp [Throughout, Along]
  | i :: is, s, hI => by
    unfold Throughout Along
    split
    · rename_i s' hs'
      have ih : Throughout exec P is s' ↔ P s' ∧ Along exec C is s' :=
        throughout_iff_along hinv hstep (hinv s i s' hI hs')
      constructor
      · rintro ⟨hP, hrest⟩
        have hkeep := hstep s i s' hI hP hs'
        exact ⟨hP, hkeep.mp hrest.here, (ih.mp hrest).2⟩
      · rintro ⟨hP, hC, hrest⟩
        have hkeep := hstep s i s' hI hP hs'
        exact ⟨hP, ih.mpr ⟨hkeep.mpr hC, hrest⟩⟩
    · simp

/-- Exactness over a run whose steps all meet `D`, for an invariant that is kept by the
steps that meet `C`. -/
theorem throughout_iff_along_inv {D : σ → ι → Prop}
    (hstep : ∀ s i s', I s → D s i → C s i → exec i s = .ok s' → I s')
    (hP : ∀ s, I s → P s) (hC : ∀ s i s', I s → exec i s = .ok s' → P s' → C s i) :
    ∀ {ops : List ι} {s : σ}, I s → Along exec D ops s →
      (Throughout exec P ops s ↔ Along exec C ops s)
  | [], s, hI, _ => by simp [Throughout, Along, hP s hI]
  | i :: is, s, hI, hD => by
    unfold Throughout Along
    unfold Along at hD
    split
    · rename_i s' hs'
      rw [hs'] at hD
      have hrest : C s i → (Throughout exec P is s' ↔ Along exec C is s') := fun hCi =>
        throughout_iff_along_inv hstep hP hC (hstep s i s' hI hD.1 hCi hs') hD.2
      constructor
      · rintro ⟨-, ht⟩
        have hCi := hC s i s' hI hs' ht.here
        exact ⟨hCi, (hrest hCi).mp ht⟩
      · rintro ⟨hCi, ha⟩
        exact ⟨hP s hI, (hrest hCi).mpr ha⟩
    · simp [hP s hI]

/-- Simulation with stuttering: a step either leaves the abstract state as it is or is the
abstract step, and stops only where that stops. A run does what the abstract run of some of
its operations does. -/
theorem runs_simulates {τ : Type u} {δ : Type w} (abstract : ι → τ → Except δ τ) (abs : σ → τ)
    (fault : δ → ε)
    (hstep : ∀ s i, I s → (∃ s', exec i s = .ok s' ∧ I s' ∧
        (abs s' = abs s ∨ abstract i (abs s) = .ok (abs s'))) ∨
      ∃ d, exec i s = .error (fault d) ∧ abstract i (abs s) = .error d) :
    ∀ (ops : List ι) {s : σ}, I s → ∃ ops', ops'.Sublist ops ∧
      ((∃ s', runs exec ops s = .ok s' ∧ I s' ∧ runs abstract ops' (abs s) = .ok (abs s')) ∨
        ∃ d, runs exec ops s = .error (fault d) ∧ runs abstract ops' (abs s) = .error d)
  | [], s, hI => ⟨[], .refl _, .inl ⟨s, rfl, hI, rfl⟩⟩
  | i :: is, s, hI => by
    rcases hstep s i hI with ⟨s', hs, hI', hstutter | habs⟩ | ⟨d, hs, habs⟩
    · rcases runs_simulates abstract abs fault hstep is hI' with ⟨ops', hsub, hruns⟩
      rw [hstutter] at hruns
      refine ⟨ops', hsub.cons i, ?_⟩
      simpa only [runs, hs] using hruns
    · rcases runs_simulates abstract abs fault hstep is hI' with ⟨ops', hsub, hruns⟩
      refine ⟨i :: ops', hsub.cons_cons i, ?_⟩
      simpa only [runs, hs, habs] using hruns
    · refine ⟨[i], List.singleton_sublist.mpr List.mem_cons_self, .inr ⟨d, ?_, ?_⟩⟩
      · simp only [runs, hs]
      · simp only [runs, habs]

end Hemem.Lib
