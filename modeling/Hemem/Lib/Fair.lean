import Mathlib.Data.List.Range
import Mathlib.Data.Prod.Lex
import Hemem.Lib.BigStep

/-!
# Hemem.Lib.Fair — what a fair schedule comes to

The actors of a system take their steps in an order that nobody controls, except that none of
them is left out for ever. Such a schedule comes to its goal, or stops the run, if in every
state before it there is one actor whose step brings the goal nearer, and the steps of the
others at least take nothing away: the distance is a rank in a well-founded order, and as long
as it stays the same, the actor that can make it less stays the same, too.
-/

universe u v w x

namespace Hemem.Lib

variable {σ : Type u} {ι : Type v} {ε : Type w} {α : Type x} {exec : ι → σ → Except ε σ}
variable {I Goal P Q : σ → Prop} {sched : Nat → ι}

/-- The first `n` turns of a schedule. -/
def turns (sched : Nat → ι) (n : Nat) : List ι := (List.range n).map sched

/-- The actor has a turn again and again. -/
def Recurs (sched : Nat → ι) (i : ι) : Prop := ∀ n, ∃ m, n ≤ m ∧ sched m = i

/-- Every actor does. -/
def Fair (sched : Nat → ι) : Prop := ∀ i, Recurs sched i

theorem Recurs.shift {i : ι} (h : Recurs sched i) (k : Nat) :
    Recurs (fun n => sched (k + n)) i := by
  intro n
  rcases h (k + n) with ⟨m, hm, hi⟩
  refine ⟨m - k, by omega, ?_⟩
  show sched (k + (m - k)) = i
  rw [Nat.add_sub_cancel' (by omega), hi]

theorem turns_add (sched : Nat → ι) (n m : Nat) :
    turns sched (n + m) = turns sched n ++ turns (fun i => sched (n + i)) m := by
  rw [turns, List.range_add, List.map_append, List.map_map]
  rfl

/-- What every turn keeps holds in every state that is reached, and no turn fails. -/
theorem runs_returns (h : ∀ i s, I s → ∃ s', exec i s = .ok s' ∧ I s')
    (ops : List ι) {s : σ} (hs : I s) : ∃ s', runs exec ops s = .ok s' ∧ I s' := by
  induction ops generalizing s with
  | nil => exact ⟨s, rfl, hs⟩
  | cons i ops ih =>
    rcases h i s hs with ⟨s₁, hs₁, hI⟩
    rcases ih hI with ⟨s', hruns, hI'⟩
    refine ⟨s', ?_, hI'⟩
    simp only [runs, hs₁, hruns]

/-- After some first turns of the schedule `Q` holds, unless one of them has stopped the run. -/
def Eventually (exec : ι → σ → Except ε σ) (sched : Nat → ι) (Q : σ → Prop) (s : σ) : Prop :=
  ∃ n, ∀ s', runs exec (turns sched n) s = .ok s' → Q s'

theorem Eventually.here {s : σ} (h : Q s) : Eventually exec sched Q s := by
  refine ⟨0, fun s' hs' => ?_⟩
  obtain rfl := Except.ok.inj hs'
  exact h

/-- First one thing, and from there the other. -/
theorem Eventually.andThen {s : σ} (h : Eventually exec sched P s)
    (hPQ : ∀ n s', P s' → Eventually exec (fun i => sched (n + i)) Q s') :
    Eventually exec sched Q s := by
  rcases h with ⟨n, hn⟩
  cases hruns : runs exec (turns sched n) s with
  | error e =>
    refine ⟨n, fun s' hs' => ?_⟩
    rw [hruns] at hs'
    cases hs'
  | ok s₁ =>
    rcases hPQ n s₁ (hn s₁ hruns) with ⟨m, hm⟩
    refine ⟨n + m, fun s' hs' => hm s' ?_⟩
    rw [turns_add, runs_append, hruns] at hs'
    exact hs'

/-- The first turn, and from there the rest. -/
theorem Eventually.next {s : σ} (h : ∀ s', exec (sched 0) s = .ok s' →
      Eventually exec (fun i => sched (1 + i)) Q s') : Eventually exec sched Q s := by
  cases hfirst : exec (sched 0) s with
  | error e =>
    refine ⟨1, fun s' hs' => ?_⟩
    have hone : runs exec [sched 0] s = .ok s' := hs'
    simp only [runs, hfirst] at hone
    cases hone
  | ok s₁ =>
    rcases h s₁ hfirst with ⟨n, hn⟩
    refine ⟨1 + n, fun s' hs' => hn s' ?_⟩
    have hone : runs exec (sched 0 :: turns (fun i => sched (1 + i)) n) s = .ok s' := by
      rw [turns_add] at hs'
      exact hs'
    simpa only [runs, hfirst] using hone

theorem Eventually.imp (hPQ : ∀ s, P s → Q s) {s : σ} (h : Eventually exec sched P s) :
    Eventually exec sched Q s := by
  rcases h with ⟨n, hn⟩
  exact ⟨n, fun s' hs' => hPQ s' (hn s' hs')⟩

/-- What every turn keeps holds there as well. -/
theorem Eventually.and_inv (hstep : ∀ s i s', I s → exec i s = .ok s' → I s') {s : σ} (hs : I s)
    (h : Eventually exec sched Q s) : Eventually exec sched (fun s' => I s' ∧ Q s') s := by
  rcases h with ⟨n, hn⟩
  exact ⟨n, fun s' hs' => ⟨of_runs hstep hs hs', hn s' hs'⟩⟩

/-- What one turn does to the rank of a state: it brings the goal nearer, and it must do so if
it is the turn of the helpful actor. -/
structure Ranked [LT α] (exec : ι → σ → Except ε σ) (I Goal : σ → Prop) (rank : σ → α)
    (helpful : σ → ι) : Prop where
  helps : ∀ s s', I s → ¬ Goal s → exec (helpful s) s = .ok s' → Goal s' ∨ rank s' < rank s
  keeps : ∀ i s s', I s → ¬ Goal s → exec i s = .ok s' →
    Goal s' ∨ (I s' ∧ (rank s' < rank s ∨ (rank s' = rank s ∧ helpful s' = helpful s)))

/-- The same for some of the actors, those that help among them. -/
theorem Ranked.comp [LT α] {κ : Type*} {rank : σ → α} {helpful : σ → ι}
    (h : Ranked exec I Goal rank helpful) {f : κ → ι} (hf : Function.Injective f)
    {helpful' : σ → κ} (heq : ∀ s, f (helpful' s) = helpful s) :
    Ranked (fun k => exec (f k)) I Goal rank helpful' := by
  constructor
  case helps =>
    intro s s' hI hgoal hs
    exact h.helps s s' hI hgoal (heq s ▸ hs)
  case keeps =>
    intro k s s' hI hgoal hs
    rcases h.keeps (f k) s s' hI hgoal hs with hdone | ⟨hI', hless | ⟨hrank, hsame⟩⟩
    · exact Or.inl hdone
    · exact Or.inr ⟨hI', Or.inl hless⟩
    · refine Or.inr ⟨hI', Or.inr ⟨hrank, hf ?_⟩⟩
      rw [heq, heq, hsame]

/-- A schedule that leaves no helpful actor out for ever reaches the goal. -/
theorem Ranked.eventually [LT α] [WellFoundedLT α] {rank : σ → α} {helpful : σ → ι}
    (h : Ranked exec I Goal rank helpful) (hrec : ∀ s, Recurs sched (helpful s)) {s : σ}
    (hs : I s) : Eventually exec sched Goal s := by
  induction hrank : rank s using WellFoundedLT.induction generalizing s sched with
  | _ a ihRank =>
    subst hrank
    rcases hrec s 0 with ⟨m, -, hm⟩
    -- the turns until that of the helpful actor
    induction m generalizing s sched with
    | zero =>
      by_cases hgoal : Goal s
      · exact .here hgoal
      refine .next fun s₁ hs₁ => ?_
      rcases h.keeps _ s s₁ hs hgoal hs₁ with hdone | ⟨hI, -⟩
      · exact .here hdone
      rw [hm] at hs₁
      rcases h.helps s s₁ hs hgoal hs₁ with hdone | hless
      · exact .here hdone
      · exact ihRank _ hless (fun s => (hrec s).shift 1) hI rfl
    | succ m ihTurn =>
      by_cases hgoal : Goal s
      · exact .here hgoal
      refine .next fun s₁ hs₁ => ?_
      rcases h.keeps _ s s₁ hs hgoal hs₁ with hdone | ⟨hI, hless | ⟨heq, hsame⟩⟩
      · exact .here hdone
      · exact ihRank _ hless (fun s => (hrec s).shift 1) hI rfl
      · apply ihTurn (fun s => (hrec s).shift 1) hI
        · rw [heq]
          exact ihRank
        · rw [hsame, Nat.add_comm, hm]

/-- The ranks that are four numbers, the first of which counts most. -/
abbrev Rank := Nat ×ₗ Nat ×ₗ Nat ×ₗ Nat

def rankOf (a b c d : Nat) : Rank := toLex (a, toLex (b, toLex (c, d)))

theorem rankOf_lt {a b c d a' b' c' d' : Nat} : rankOf a b c d < rankOf a' b' c' d' ↔
    a < a' ∨ a = a' ∧ (b < b' ∨ b = b' ∧ (c < c' ∨ c = c' ∧ d < d')) := by
  simp only [rankOf, Prod.Lex.toLex_lt_toLex]

end Hemem.Lib
