/-
Two parties of which one lags behind the other.

With every step the sender puts an item on the line, and the receiver takes the items in the order
in which they were put there. When both work at the same time they may be kept in a relation, item
by item. Here the receiver takes an item later than the sender has put it there, while the sender
has gone on.

* `Trail`: the states the sender has gone through since the oldest item on the line.
* `Lag`: the receiver is where it would be if it had kept pace up to that item.
* `Lag.send`, `Lag.receive`: both go on, each at its own pace.
* `Lag.caughtUp`: with an empty line the two are in the relation.
-/

import Mathlib.Logic.Relation

namespace Solowan.Control

section Lagging

variable {S T X : Type} {encodes : S → X → S → Prop} {related : S → T → Prop}

/-- The sender goes from `s` to `s'` while it puts these items on the line. -/
def Trail (encodes : S → X → S → Prop) (s : S) : List X → S → Prop
  | [], s' => s = s'
  | x :: xs, s' => ∃ s₁, encodes s x s₁ ∧ Trail encodes s₁ xs s'

/-- The receiver in `t` is related to the sender as it was before the items on the line. -/
def Lag (encodes : S → X → S → Prop) (related : S → T → Prop) (s : S) (xs : List X) (t : T) : Prop :=
  ∃ s₀, related s₀ t ∧ Trail encodes s₀ xs s

theorem Trail.snoc {s s' s'' : S} {xs : List X} {x : X} (h : Trail encodes s xs s')
    (hx : encodes s' x s'') : Trail encodes s (xs ++ [x]) s'' := by
  induction xs generalizing s with
  | nil =>
    subst h
    exact ⟨s'', hx, rfl⟩
  | cons y ys ih =>
    obtain ⟨s₁, hy, hys⟩ := h
    exact ⟨s₁, hy, ih hys⟩

variable {s s' : S} {t t' : T} {x : X} {xs : List X}

theorem Lag.start (h : related s t) : Lag encodes related s [] t := ⟨s, h, rfl⟩

/-- **The sender goes on.** -/
theorem Lag.send (h : Lag encodes related s xs t) (hx : encodes s x s') :
    Lag encodes related s' (xs ++ [x]) t := by
  obtain ⟨s₀, hrel, htrail⟩ := h
  exact ⟨s₀, hrel, htrail.snoc hx⟩

/-- **The receiver goes on**, with the oldest item. What keeps the relation when both take the item
at once is all there is to show, together with what comes out then. -/
theorem Lag.receive (h : Lag encodes related s (x :: xs) t) (result : T → Prop)
    (hboth : ∀ s₀ s₁, related s₀ t → encodes s₀ x s₁ → ∃ t', result t' ∧ related s₁ t') :
    ∃ t', result t' ∧ Lag encodes related s xs t' := by
  obtain ⟨s₀, hrel, s₁, hx, htrail⟩ := h
  obtain ⟨t', hresult, hrel'⟩ := hboth s₀ s₁ hrel hx
  exact ⟨t', hresult, s₁, hrel', htrail⟩

theorem Lag.caughtUp (h : Lag encodes related s [] t) : related s t := by
  obtain ⟨s₀, hrel, rfl⟩ := h
  exact hrel

end Lagging

end Solowan.Control
