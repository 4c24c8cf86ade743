/-
Loops that need not end.

A loop is a function `round` that either goes on with a new state or leaves with a result.
`loop` runs it with a bound on the rounds, `Returns` without one.

* `Returns.loop`, `returns_of_loop`: the two agree, given enough rounds.
* `returns_of_measure`: a loop returns in which a measure falls from round to round.
* `returns_iff_acyclic`: a loop whose states are told apart by finitely many keys returns
  if and only if no state of its run is followed by itself.
* `Returns.loop_card`: it then returns within as many rounds as there are keys.
-/

import Mathlib.Data.Finset.Card
import Mathlib.Logic.Relation

namespace Solowan.Control

open Relation

universe u v w

/-- What one round of a loop does. -/
inductive Round (σ : Type u) (ρ : Type v) where
  | next (s : σ)
  | done (r : ρ)
  deriving DecidableEq

section Loop

variable {σ : Type u} {ρ : Type v} (round : σ → Round σ ρ)

/-- The loop, for at most `fuel` rounds. -/
def loop : Nat → σ → Option ρ
  | 0, _ => none
  | fuel + 1, s =>
    match round s with
    | .next s' => loop fuel s'
    | .done r => some r

/-- The loop leaves with a result. -/
inductive Returns : σ → ρ → Prop
  | done {s : σ} {r : ρ} : round s = .done r → Returns s r
  | next {s s' : σ} {r : ρ} : round s = .next s' → Returns s' r → Returns s r

/-- The loop goes on with `s'` after a round in `s`. -/
def Next (s s' : σ) : Prop := round s = .next s'

/-- No state the loop comes to from `s` is followed by itself. -/
def Acyclic (s : σ) : Prop := ∀ t, ReflTransGen (Next round) s t → ¬ TransGen (Next round) t t

variable {round} {s t : σ} {r : ρ}

theorem loop_next (h : round s = .next t) (fuel : Nat) :
    loop round (fuel + 1) s = loop round fuel t := by
  rw [loop, h]

theorem loop_done (h : round s = .done r) (fuel : Nat) : loop round (fuel + 1) s = some r := by
  rw [loop, h]

theorem returns_of_loop {fuel : Nat} (h : loop round fuel s = some r) : Returns round s r := by
  induction fuel generalizing s with
  | zero => cases h
  | succ fuel ih =>
    cases hround : round s with
    | next t =>
      rw [loop_next hround] at h
      exact .next hround (ih h)
    | done r' =>
      rw [loop_done hround] at h
      cases h
      exact .done hround

/-- A run that returns does so with any number of rounds from some number on. -/
theorem Returns.loop (h : Returns round s r) :
    ∃ fuel, ∀ fuel', fuel ≤ fuel' → loop round fuel' s = some r := by
  induction h with
  | done hround =>
    refine ⟨1, fun fuel' hle => ?_⟩
    cases fuel' with
    | zero => omega
    | succ fuel' => exact loop_done hround fuel'
  | next hround _ ih =>
    obtain ⟨fuel, hfuel⟩ := ih
    refine ⟨fuel + 1, fun fuel' hle => ?_⟩
    cases fuel' with
    | zero => omega
    | succ fuel' =>
      rw [loop_next hround]
      exact hfuel fuel' (by omega)

theorem Next.unique {t' : σ} (h : Next round s t) (h' : Next round s t') : t = t' := by
  have heq : (Round.next t : Round σ ρ) = .next t' := h.symm.trans h'
  cases heq
  rfl

/-- What returns from a later state returns from an earlier one. -/
theorem Returns.of_reach (h : Returns round t r) (hreach : ReflTransGen (Next round) s t) :
    Returns round s r := by
  induction hreach using ReflTransGen.head_induction_on with
  | refl => exact h
  | head hnext _ ih => exact .next hnext ih

/-- What returns from an earlier state returns from a later one. -/
theorem Returns.reach (h : Returns round s r) (hreach : ReflTransGen (Next round) s t) :
    Returns round t r := by
  induction hreach with
  | refl => exact h
  | tail _ hnext ih =>
    cases ih with
    | done hround =>
      have heq := hround.symm.trans hnext
      cases heq
    | next hround hrest =>
      rw [Next.unique hnext hround]
      exact hrest

/-- A loop that returns comes to a state in which it leaves. -/
theorem Returns.exists_done (h : Returns round s r) :
    ∃ t, ReflTransGen (Next round) s t ∧ round t = .done r := by
  induction h with
  | done hround => exact ⟨_, .refl, hround⟩
  | next hround _ ih =>
    obtain ⟨t, hreach, hdone⟩ := ih
    exact ⟨t, hreach.head hround, hdone⟩

theorem Returns.eq_of_done {r' : ρ} (h : Returns round s r) (hdone : round s = .done r') :
    r = r' := by
  cases h with
  | done hround =>
    have heq := hround.symm.trans hdone
    cases heq
    rfl
  | next hround _ =>
    have heq := hround.symm.trans hdone
    cases heq

/-- A state that is followed by itself never leads out of the loop. -/
theorem Returns.not_cycle (h : Returns round s r) : ¬ TransGen (Next round) s s := by
  induction h with
  | done hround =>
    intro hcycle
    obtain ⟨t, hnext, -⟩ := TransGen.head'_iff.mp hcycle
    have heq := hround.symm.trans hnext
    cases heq
  | next hround _ ih =>
    -- The cycle also goes through the next state.
    intro hcycle
    obtain ⟨t, hnext, hback⟩ := TransGen.head'_iff.mp hcycle
    rw [Next.unique hnext hround] at hback
    exact ih (TransGen.tail' hback hround)

/-- A run depends only on the rounds it takes. -/
theorem Returns.congr {round' : σ → Round σ ρ} (h : Returns round s r)
    (heq : ∀ a, ReflTransGen (Next round) s a → round' a = round a) : Returns round' s r := by
  induction h with
  | done hround => exact .done ((heq _ .refl).trans hround)
  | next hround _ ih =>
    exact .next ((heq _ .refl).trans hround) (ih fun a ha => heq a (ha.head hround))

theorem reach_congr {round' : σ → Round σ ρ} (h : ReflTransGen (Next round) s t)
    (heq : ∀ a, ReflTransGen (Next round) s a → TransGen (Next round) a t → round' a = round a) :
    ReflTransGen (Next round') s t := by
  induction h with
  | refl => exact .refl
  | tail hreach hnext ih =>
    refine (ih fun a ha hto => heq a ha (hto.tail hnext)).tail ?_
    exact (heq _ hreach (.single hnext)).trans hnext

/-- A loop returns if a measure falls in each of its rounds, as long as an invariant holds. -/
theorem returns_of_measure (inv : σ → Prop) (measure : σ → Nat) (hs : inv s)
    (hround : ∀ s t, inv s → Next round s t → inv t ∧ measure t < measure s) :
    ∃ r, Returns round s r := by
  induction hm : measure s using Nat.strong_induction_on generalizing s with
  | _ n ih =>
    cases h : round s with
    | done r => exact ⟨r, .done h⟩
    | next t =>
      obtain ⟨ht, hless⟩ := hround s t hs h
      obtain ⟨r, hr⟩ := ih (measure t) (by omega) ht rfl
      exact ⟨r, .next h hr⟩

theorem Returns.acyclic (h : Returns round s r) : Acyclic round s :=
  fun _ hreach => (h.reach hreach).not_cycle

/-! ### Runs with finitely many keys -/

/-- A loop that does not leave within `n` rounds goes through `n + 1` states. -/
theorem exists_states_of_loop_none {n : Nat} (h : loop round n s = none) :
    ∃ states : Nat → σ, states 0 = s ∧ ∀ i, i < n → Next round (states i) (states (i + 1)) := by
  induction n generalizing s with
  | zero => exact ⟨fun _ => s, rfl, fun i hi => absurd hi (Nat.not_lt_zero i)⟩
  | succ n ih =>
    cases hround : round s with
    | next t =>
      rw [loop_next hround] at h
      obtain ⟨states, hzero, hnext⟩ := ih h
      refine ⟨fun i => i.casesOn s states, rfl, fun i hi => ?_⟩
      cases i with
      | zero =>
        show round s = .next (states 0)
        rw [hzero]
        exact hround
      | succ i => exact hnext i (by omega)
    | done r =>
      rw [loop_done hround] at h
      cases h

theorem reach_of_states {states : Nat → σ} {n : Nat}
    (hnext : ∀ i, i < n → Next round (states i) (states (i + 1))) {i j : Nat} (hij : i ≤ j)
    (hj : j ≤ n) : ReflTransGen (Next round) (states i) (states j) := by
  induction j, hij using Nat.le_induction with
  | base => exact .refl
  | succ j hij ih => exact (ih (by omega)).tail (hnext j (by omega))

variable {κ : Type w} {key : σ → κ} {keys : Finset κ}

/-- **Pigeonhole**: more rounds than keys, and some state is followed by itself. -/
theorem exists_loop_of_acyclic (hkeys : ∀ t, ReflTransGen (Next round) s t → key t ∈ keys)
    (hinj : ∀ t t', ReflTransGen (Next round) s t → ReflTransGen (Next round) t t' →
      key t = key t' → t = t')
    (h : Acyclic round s) {n : Nat} (hn : keys.card ≤ n) : ∃ r, loop round n s = some r := by
  cases hloop : loop round n s with
  | some r => exact ⟨r, rfl⟩
  | none =>
    exfalso
    obtain ⟨states, hzero, hnext⟩ := exists_states_of_loop_none hloop
    have hreach : ∀ i, i ≤ n → ReflTransGen (Next round) s (states i) := by
      intro i hi
      have := reach_of_states hnext (Nat.zero_le i) hi
      rw [hzero] at this
      exact this
    have hno : ∀ i j, i < j → j ≤ n → key (states i) ≠ key (states j) := by
      intro i j hij hj heq
      have hlong := reach_of_states hnext (show i + 1 ≤ j from hij) hj
      have hstep := hnext i (by omega)
      have hsame := hinj _ _ (hreach i (by omega)) (hlong.head hstep) heq
      have hcycle : TransGen (Next round) (states i) (states j) := TransGen.head' hstep hlong
      rw [← hsame] at hcycle
      exact h _ (hreach i (by omega)) hcycle
    obtain ⟨i, hi, j, hj, hne, heq⟩ := Finset.exists_ne_map_eq_of_card_lt_of_maps_to
      (s := Finset.range (n + 1)) (t := keys) (f := fun i => key (states i))
      (by rw [Finset.card_range]; omega)
      (fun i hi => hkeys _ (hreach i (by have := Finset.mem_range.mp hi; omega)))
    have hi' := Finset.mem_range.mp hi
    have hj' := Finset.mem_range.mp hj
    rcases Nat.lt_or_gt_of_ne hne with hlt | hlt
    · exact hno i j hlt (by omega) heq
    · exact hno j i hlt (by omega) heq.symm

/-- **A loop returns** if and only if no state of its run is followed by itself. -/
theorem returns_iff_acyclic (hkeys : ∀ t, ReflTransGen (Next round) s t → key t ∈ keys)
    (hinj : ∀ t t', ReflTransGen (Next round) s t → ReflTransGen (Next round) t t' →
      key t = key t' → t = t') :
    (∃ r, Returns round s r) ↔ Acyclic round s := by
  constructor
  · rintro ⟨r, h⟩
    exact h.acyclic
  · intro h
    obtain ⟨r, hloop⟩ := exists_loop_of_acyclic hkeys hinj h (Nat.le_refl _)
    exact ⟨r, returns_of_loop hloop⟩

/-- As many rounds as there are keys are enough. -/
theorem Returns.loop_card (h : Returns round s r)
    (hkeys : ∀ t, ReflTransGen (Next round) s t → key t ∈ keys)
    (hinj : ∀ t t', ReflTransGen (Next round) s t → ReflTransGen (Next round) t t' →
      key t = key t' → t = t') {n : Nat} (hn : keys.card ≤ n) :
    Control.loop round n s = some r := by
  obtain ⟨r', hloop⟩ := exists_loop_of_acyclic hkeys hinj h.acyclic hn
  obtain ⟨fuel, hfuel⟩ := h.loop
  obtain ⟨fuel', hfuel'⟩ := (returns_of_loop hloop).loop
  have heq := (hfuel _ (Nat.le_max_left fuel fuel')).symm.trans
    (hfuel' _ (Nat.le_max_right fuel fuel'))
  rw [hloop, ← heq]

end Loop

end Solowan.Control
