/-
Tables of the last place seen.

Places are visited in increasing order, each has a key, and a table holds for a key the last
place visited that has it. A second table may lag behind: it has entered the places below some
bound only. For a place below the bound the two agree.

* `latest_insert_self`, `latest_insert_of_ne`: what a visit changes.
* `Indexes.insert`: a table is kept up by one update for each visit.
* `Indexes.lookup_below`: what the table that lags behind finds.
-/

import Mathlib.Logic.Function.Basic
import Mathlib.Order.Bounds.Basic

namespace Solowan.Memory

universe u v

section Latest

variable {α : Type u} {κ : Type v} [LinearOrder α] {key : α → κ} {V : Set α} {k : κ} {a b : α}

/-- The last place in `V` with this key. -/
def Latest (key : α → κ) (V : Set α) (k : κ) (a : α) : Prop := IsGreatest {u | u ∈ V ∧ key u = k} a

/-- The places in `V` below the bound. -/
def Below (V : Set α) (b : α) : Set α := {u | u ∈ V ∧ u < b}

theorem Latest.mem (h : Latest key V k a) : a ∈ V := h.1.1

theorem Latest.key_eq (h : Latest key V k a) : key a = k := h.1.2

theorem Latest.le (h : Latest key V k a) (hb : b ∈ V) (hkey : key b = k) : b ≤ a := h.2 ⟨hb, hkey⟩

theorem Latest.unique (h : Latest key V k a) (h' : Latest key V k b) : a = b := IsGreatest.unique h h'

/-- The place visited last is the last one with its key. -/
theorem latest_insert_self (h : ∀ u ∈ V, u < a) : Latest key (insert a V) (key a) a := by
  refine ⟨⟨Set.mem_insert a V, rfl⟩, ?_⟩
  rintro u ⟨hu, -⟩
  rcases hu with rfl | hu
  · exact le_refl u
  · exact le_of_lt (h u hu)

/-- It does not matter for the other keys. -/
theorem latest_insert_of_ne (h : key b ≠ k) : Latest key (insert b V) k a ↔ Latest key V k a := by
  have hset : {u | u ∈ insert b V ∧ key u = k} = {u | u ∈ V ∧ key u = k} := by
    ext u
    constructor
    · rintro ⟨rfl | hu, hkey⟩
      · exact absurd hkey h
      · exact ⟨hu, hkey⟩
    · rintro ⟨hu, hkey⟩
      exact ⟨Set.mem_insert_of_mem b hu, hkey⟩
  rw [Latest, Latest, hset]

/-- A last place below the bound is the last one below it. -/
theorem Latest.below (h : Latest key V k a) (hb : a < b) : Latest key (Below V b) k a := by
  refine ⟨⟨⟨h.mem, hb⟩, h.key_eq⟩, ?_⟩
  rintro u ⟨hu, hkey⟩
  exact h.le hu.1 hkey

/-- The table holds the last place for every key that has one. -/
def Indexes (key : α → κ) (V : Set α) (table : κ → α) : Prop := ∀ k a, Latest key V k a → table k = a

variable {table : κ → α}

/-- A visit is one update. -/
theorem Indexes.insert [DecidableEq κ] (h : Indexes key V table) (ha : ∀ u ∈ V, u < a) :
    Indexes key (insert a V) (Function.update table (key a) a) := by
  intro k b hb
  by_cases hk : key a = k
  · subst hk
    rw [Function.update_self]
    exact (latest_insert_self ha).unique hb
  · rw [Function.update_of_ne (Ne.symm hk)]
    exact h k b ((latest_insert_of_ne hk).mp hb)

/-- A table that lags behind finds the last place where that is not too recent for it. -/
theorem Indexes.lookup_below (h : Indexes key (Below V b) table) (ha : Latest key V k a) (hb : a < b) :
    table k = a := h k a (ha.below hb)

end Latest

section Bound

variable {V V' : Set Nat} {b b' : Nat}

/-- A visited place comes below the bound when the bound moves over it. -/
theorem below_succ (h : b ∈ V) : Below V (b + 1) = insert b (Below V b) := by
  ext u
  constructor
  · rintro ⟨hu, hlt⟩
    rcases Nat.lt_or_ge u b with hless | hge
    · exact Or.inr ⟨hu, hless⟩
    · exact Or.inl (by omega)
  · rintro (rfl | ⟨hu, hlt⟩)
    · exact ⟨h, Nat.lt_succ_self u⟩
    · exact ⟨hu, Nat.lt_succ_of_lt hlt⟩

/-- What is below the bounds is what counts. -/
theorem below_congr (h : ∀ u, u ∈ V ∧ u < b ↔ u ∈ V' ∧ u < b') : Below V b = Below V' b' := by
  ext u
  exact h u

/-- Places that are not below the bound do not matter. -/
theorem below_of_subset (hsub : V ⊆ V') (hnew : ∀ v ∈ V', v < b → v ∈ V) :
    Below V' b = Below V b :=
  below_congr fun v => ⟨fun hv => ⟨hnew v hv.1 hv.2, hv.2⟩, fun hv => ⟨hsub hv.1, hv.2⟩⟩

end Bound

end Solowan.Memory
