/-
Runs that keep a property exactly as long as a condition is met.

A step has a label, and a condition says of a state and a label whether the step is a good one.
`exact_run`: when every single step keeps the property if and only if it meets its condition,
a run of such steps keeps it, and the first step that does not meet its condition loses it.
-/

import Mathlib.Logic.Relation

namespace Solowan.Control

open Relation

section ExactRun

variable {σ τ : Type} {step : σ → τ → σ → Prop} {inv good : σ → Prop} {cond : σ → τ → Prop}

/-- A step that meets its condition. -/
def Meets (step : σ → τ → σ → Prop) (cond : σ → τ → Prop) (s s' : σ) : Prop :=
  ∃ l, step s l s' ∧ cond s l

/-- What every step keeps, a run keeps, whatever condition its steps meet. -/
theorem inv_of_run (hinv : ∀ s l s', inv s → step s l s' → inv s') {s s' : σ} (hs : inv s)
    (h : ReflTransGen (Meets step cond) s s') : inv s' := by
  induction h with
  | refl => exact hs
  | tail _ hstep ih =>
    obtain ⟨l, hl, -⟩ := hstep
    exact hinv _ l _ ih hl

/-- **The property holds up to the first step that does not meet its condition**, and no
further. -/
theorem exact_run (inv : σ → Prop) (hinv : ∀ s l s', inv s → step s l s' → inv s')
    (hgood : ∀ s l s', inv s → good s → step s l s' → (good s' ↔ cond s l)) {s s' : σ}
    (hs : inv s) (hgs : good s) (h : ReflTransGen (Meets step cond) s s') :
    good s' ∧ ∀ l s'', step s' l s'' → (good s'' ↔ cond s' l) := by
  have hlast : good s' := by
    induction h with
    | refl => exact hgs
    | tail hrun hstep ih =>
      obtain ⟨l, hl, hcond⟩ := hstep
      exact (hgood _ l _ (inv_of_run hinv hs hrun) ih hl).mpr hcond
  exact ⟨hlast, fun l s'' hl => hgood _ l _ (inv_of_run hinv hs h) hlast hl⟩

end ExactRun

end Solowan.Control
