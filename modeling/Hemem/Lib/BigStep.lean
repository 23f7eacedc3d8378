import Mathlib.Logic.Relation
import Hemem.Lib.Run

/-!
# Hemem.Lib.BigStep — a machine that carries out a computation

A machine takes one step at a time, each of which may stop it with an error; a computation
says at once what a stretch of these steps amounts to. `CarriesOut` relates the two: from the
configuration the machine comes to one that stands for the result of the computation, and
where the computation fails it stops with the same error. Its rules follow the way in which
computations are put together.

Errors in `E` are none of the machine: of a computation that ends so nothing is said.
-/

universe u v w

namespace Hemem.Lib

variable {γ : Type u} {ρ ρ' : Type v} {ε : Type w} {step : γ → Except ε γ} {E : ε → Prop}
  {c c' : γ}

/-- From `c` the machine comes to `c'`. -/
def Reaches (step : γ → Except ε γ) : γ → γ → Prop :=
  Relation.ReflTransGen fun c c' => step c = .ok c'

/-- From `c` the machine does what the computation `m` does; `Q` says which configurations
stand for a result. -/
def CarriesOut (step : γ → Except ε γ) (E : ε → Prop) (c : γ) (m : Except ε ρ)
    (Q : ρ → γ → Prop) : Prop :=
  match m with
  | .ok r => ∃ c', Reaches step c c' ∧ Q r c'
  | .error e => E e ∨ ∃ c', Reaches step c c' ∧ step c' = .error e

section Rules

variable {m : Except ε ρ} {Q : ρ → γ → Prop}

/-- Nothing is left to be done. -/
theorem CarriesOut.ret {r : ρ} (hQ : Q r c) : CarriesOut step E c (.ok r) Q :=
  ⟨c, .refl, hQ⟩

theorem CarriesOut.stop {e : ε} (h : step c = .error e) :
    CarriesOut step E c (.error e : Except ε ρ) Q :=
  .inr ⟨c, .refl, h⟩

theorem CarriesOut.skip {e : ε} (h : E e) : CarriesOut step E c (.error e : Except ε ρ) Q :=
  .inl h

theorem CarriesOut.reaches (hc : Reaches step c c') (h : CarriesOut step E c' m Q) :
    CarriesOut step E c m Q := by
  cases m with
  | ok r =>
    rcases h with ⟨c'', hreach, hQ⟩
    exact ⟨c'', hc.trans hreach, hQ⟩
  | error e => exact h.imp_right fun ⟨c'', hreach, hstop⟩ => ⟨c'', hc.trans hreach, hstop⟩

/-- One step, and the rest. -/
theorem CarriesOut.head {b : γ} (hc : step c = .ok b) (h : CarriesOut step E b m Q) :
    CarriesOut step E c m Q :=
  h.reaches (.single hc)

/-- A computation that one step does. -/
theorem CarriesOut.one {g : ρ → γ} (h : step c = m.map g) (hQ : ∀ r, Q r (g r)) :
    CarriesOut step E c m Q := by
  cases m with
  | ok r => exact .head h (.ret (hQ r))
  | error e => exact .stop h

theorem CarriesOut.mono {Q' : ρ → γ → Prop} (h : CarriesOut step E c m Q)
    (hQ : ∀ r c', m = .ok r → Q r c' → Q' r c') : CarriesOut step E c m Q' := by
  cases m with
  | ok r => exact h.imp fun c' ⟨hreach, hr⟩ => ⟨hreach, hQ r c' rfl hr⟩
  | error e => exact h

/-- The result has been found and the machine goes on to another place. -/
theorem CarriesOut.andThen {Q' : ρ → γ → Prop} (h : CarriesOut step E c m Q)
    (hnext : ∀ r c', Q r c' → CarriesOut step E c' (.ok r) Q') : CarriesOut step E c m Q' := by
  cases m with
  | ok r =>
    rcases h with ⟨c', hreach, hQ⟩
    exact (hnext r c' hQ).reaches hreach
  | error e => exact h

/-- The first half, and then the second. -/
theorem CarriesOut.bind {f : ρ → Except ε ρ'} {Q' : ρ' → γ → Prop} (h : CarriesOut step E c m Q)
    (hf : ∀ r c', m = .ok r → Q r c' → CarriesOut step E c' (f r) Q') :
    CarriesOut step E c (m >>= f) Q' := by
  cases m with
  | ok r =>
    rcases h with ⟨c', hreach, hQ⟩
    exact (hf r c' rfl hQ).reaches hreach
  | error e => exact h

/-- A loop over a list: `Q as` is what holds when the elements `as` are still to come. -/
theorem CarriesOut.foldlM {α : Type v} (Q : List α → ρ → γ → Prop) {f : ρ → α → Except ε ρ}
    (hbody : ∀ a as r c, Q (a :: as) r c → CarriesOut step E c (f r a) (Q as)) :
    ∀ (as : List α) {r : ρ} {c : γ}, Q as r c → CarriesOut step E c (as.foldlM f r) (Q [])
  | [], _, _, hQ => .ret hQ
  | a :: as, r, c, hQ => by
    rw [List.foldlM_cons]
    exact (hbody a as r c hQ).bind fun r' c' _ hQ' => CarriesOut.foldlM Q hbody as hQ'

end Rules

/-! ## Inside a larger system -/

section Inside

variable {σ : Type u} {ι : Type v} {exec : ι → σ → Except ε σ} {i : ι} {R : γ → σ → Prop}

theorem runs_append (exec : ι → σ → Except ε σ) (ops ops' : List ι) (s : σ) :
    runs exec (ops ++ ops') s = runs exec ops s >>= runs exec ops' := by
  induction ops generalizing s with
  | nil => rfl
  | cons j js ih =>
    simp only [List.cons_append, runs]
    cases exec j s with
    | ok s' => exact ih s'
    | error e => rfl

/-- The operation `i` of a system does to its states what the machine does to the configurations
that are in them. -/
structure Embeds (step : γ → Except ε γ) (exec : ι → σ → Except ε σ) (i : ι) (R : γ → σ → Prop) :
    Prop where
  goes : ∀ {c c' x}, R c x → step c = .ok c' → ∃ x', exec i x = .ok x' ∧ R c' x'
  stops : ∀ {c x e}, R c x → step c = .error e → exec i x = .error e

theorem Reaches.runs (hi : Embeds step exec i R) (h : Reaches step c c') {x : σ} (hR : R c x) :
    ∃ n x', runs exec (List.replicate n i) x = .ok x' ∧ R c' x' := by
  induction h with
  | refl => exact ⟨0, x, rfl, hR⟩
  | tail _ hlast ih =>
    rcases ih with ⟨n, y, hy, hRy⟩
    rcases hi.goes hRy hlast with ⟨x', hx', hR'⟩
    refine ⟨n + 1, x', ?_, hR'⟩
    rw [List.replicate_succ', runs_concat]
    exact ⟨y, hy, hx'⟩

/-- A computation that the machine carries out is carried out by repeating the operation. -/
theorem CarriesOut.runs_ok {r : ρ} {Q : ρ → γ → Prop} (h : CarriesOut step E c (.ok r) Q)
    (hi : Embeds step exec i R) {x : σ} (hR : R c x) :
    ∃ n x' c', Lib.runs exec (List.replicate n i) x = .ok x' ∧ R c' x' ∧ Q r c' := by
  rcases h with ⟨c', hreach, hQ⟩
  rcases hreach.runs hi hR with ⟨n, x', hruns, hR'⟩
  exact ⟨n, x', c', hruns, hR', hQ⟩

theorem CarriesOut.runs_error {e : ε} {Q : ρ → γ → Prop} (h : CarriesOut step E c (.error e) Q)
    (hi : Embeds step exec i R) {x : σ} (hR : R c x) :
    E e ∨ ∃ n, Lib.runs exec (List.replicate n i) x = .error e := by
  refine Or.imp_right ?_ h
  rintro ⟨c', hreach, he⟩
  rcases hreach.runs hi hR with ⟨n, x', hruns, hR'⟩
  refine ⟨n + 1, ?_⟩
  rw [List.replicate_succ', runs_append, hruns]
  show Lib.runs exec [i] x' = .error e
  simp only [Lib.runs, hi.stops hR' he]

end Inside

end Hemem.Lib
