/-
Computations that leave a trace, and the discipline of an owner.

* `Traced` is a computation with the events it has caused. It may not return; the events up
  to there remain.
* `Owned` says of the uses of an object that is handed out: it is judged once, it is put back
  once, and it is left alone afterwards.
* `Held.owned_giveBack` and `not_owned_of_access_after` decide it for a trace in parts.
-/

import Mathlib.Data.List.Basic

namespace Solowan.Memory

/-! ### Traces -/

/-- A computation that may not return, with its events. -/
structure Traced (ε α : Type) where
  events : List ε
  value : Option α

namespace Traced

variable {ε α β : Type}

/-- An event. -/
def emit (e : ε) : Traced ε Unit := ⟨[e], some ()⟩

/-- A computation without events. -/
def ofOption (a : Option α) : Traced ε α := ⟨[], a⟩

instance : Monad (Traced ε) where
  pure a := ⟨[], some a⟩
  bind x f := ⟨x.events ++ x.value.elim [] fun a => (f a).events, x.value.bind fun a => (f a).value⟩

@[simp]
theorem events_emit (e : ε) : (emit e).events = [e] := rfl

@[simp]
theorem value_emit (e : ε) : (emit e).value = some () := rfl

@[simp]
theorem events_ofOption (a : Option α) : (ofOption a : Traced ε α).events = [] := rfl

@[simp]
theorem value_ofOption (a : Option α) : (ofOption a : Traced ε α).value = a := rfl

@[simp]
theorem events_pure (a : α) : (pure a : Traced ε α).events = [] := rfl

@[simp]
theorem value_pure (a : α) : (pure a : Traced ε α).value = some a := rfl

@[simp]
theorem events_bind (x : Traced ε α) (f : α → Traced ε β) :
    (x >>= f).events = x.events ++ x.value.elim [] fun a => (f a).events := rfl

@[simp]
theorem value_bind (x : Traced ε α) (f : α → Traced ε β) :
    (x >>= f).value = x.value.bind fun a => (f a).value := rfl

@[simp]
theorem events_ite (c : Prop) [Decidable c] (x y : Traced ε α) :
    (if c then x else y).events = if c then x.events else y.events :=
  apply_ite events c x y

@[simp]
theorem value_ite (c : Prop) [Decidable c] (x y : Traced ε α) :
    (if c then x else y).value = if c then x.value else y.value :=
  apply_ite value c x y

end Traced

/-! ### The uses of an object -/

/-- What an owner does with an object: it reads or writes it, passes a verdict on it, puts it
back. -/
inductive Use (V : Type) where
  | access
  | verdict (v : V)
  | put
  deriving DecidableEq, Repr

section Uses

variable {V : Type}

/-- The verdicts that are passed. -/
def verdicts (us : List (Use V)) : List V :=
  us.filterMap fun
    | .verdict v => some v
    | _ => none

/-- How often the object is put back. -/
def puts (us : List (Use V)) : Nat :=
  us.countP fun
    | .put => true
    | _ => false

@[simp]
theorem verdicts_append (us vs : List (Use V)) : verdicts (us ++ vs) = verdicts us ++ verdicts vs :=
  List.filterMap_append

@[simp]
theorem puts_append (us vs : List (Use V)) : puts (us ++ vs) = puts us + puts vs :=
  List.countP_append

/-- **The discipline.** -/
structure Owned (us : List (Use V)) : Prop where
  judged : (verdicts us).length = 1
  returned : puts us = 1
  released : ∀ before after, us = before ++ .put :: after → .access ∉ after

/-- The object is used, and kept. -/
def Held (us : List (Use V)) : Prop := ∀ u ∈ us, u = .access

@[simp]
theorem held_nil : Held ([] : List (Use V)) := nofun

@[simp]
theorem held_cons_access {us : List (Use V)} : Held (.access :: us) ↔ Held us := by
  rw [Held, List.forall_mem_cons]
  exact and_iff_right rfl

@[simp]
theorem held_append {us vs : List (Use V)} : Held (us ++ vs) ↔ Held us ∧ Held vs :=
  List.forall_mem_append

theorem Held.verdicts_eq {us : List (Use V)} (h : Held us) : verdicts us = [] := by
  rw [verdicts, List.filterMap_eq_nil_iff]
  intro u hu
  rw [h u hu]

theorem Held.puts_eq {us : List (Use V)} (h : Held us) : puts us = 0 := by
  rw [puts, List.countP_eq_zero]
  intro u hu
  rw [h u hu]
  exact Bool.false_ne_true

theorem put_mem {us : List (Use V)} (h : puts us = 1) : .put ∈ us := by
  obtain ⟨u, hu, hput⟩ := List.countP_pos_iff.mp (show 0 < puts us by omega)
  cases u with
  | put => exact hu
  | access => cases hput
  | verdict v => cases hput

/-- An object that is held has not been put back. -/
theorem Held.not_owned {us : List (Use V)} (h : Held us) : ¬ Owned us := by
  intro howned
  have := howned.returned
  rw [h.puts_eq] at this
  cases this

/-- Pass a verdict on the object, and put it back. -/
def giveBack (v : V) : List (Use V) := [.access, .verdict v, .put]

/-- An object that is used and then given back. -/
theorem Held.owned_giveBack {us : List (Use V)} (h : Held us) (v : V) :
    Owned (us ++ giveBack v) := by
  constructor
  · rw [verdicts_append, h.verdicts_eq]
    rfl
  · rw [puts_append, h.puts_eq]
    rfl
  · intro before after heq
    -- What stands behind the first `put` of the trace is a suffix of it.
    have hlast : ∀ (us : List (Use V)), Held us → ∀ before, us ++ giveBack v =
        before ++ .put :: after → after = [] := by
      intro us
      induction us with
      | nil =>
        intro _ before heq
        rcases before with _ | ⟨_, _ | ⟨_, _ | ⟨_, rest⟩⟩⟩ <;> simp [giveBack] at heq
        exact heq.2.2
      | cons u us ih =>
        intro hheld before heq
        cases before with
        | nil =>
          have hu := hheld u List.mem_cons_self
          rw [List.cons_append, List.nil_append, List.cons.injEq, hu] at heq
          cases heq.1
        | cons b before =>
          rw [List.cons_append, List.cons_append, List.cons.injEq] at heq
          exact ih (fun u hu => hheld u (List.mem_cons_of_mem _ hu)) before heq.2
    rw [hlast us h before heq]
    exact List.not_mem_nil

/-- An object that is used after it was put back. -/
theorem not_owned_of_access_after {us vs : List (Use V)} (hput : .put ∈ us)
    (haccess : .access ∈ vs) : ¬ Owned (us ++ vs) := by
  intro howned
  obtain ⟨before, after, rfl⟩ := List.append_of_mem hput
  refine howned.released before (after ++ vs) ?_ (List.mem_append_right _ haccess)
  rw [List.append_assoc, List.cons_append]

end Uses

end Solowan.Memory
