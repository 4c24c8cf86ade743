/-
What a box knows about the accelerators of a connection.

A session has a field for the accelerator of either end, which is 0 as long as none is known. The
threads write it in one way only, and everything else they do to a session is one of a few
operations (`Act`).

* `acceleratorAt`: the field, as it is found through the sockets.
* `Acts.frame`: the operations on one session leave the others alone.
* `Acts.acceleratorAt`: where a value of the field can come from.
* `Acts.stateOf`: what opens or closes no session leaves its state.
-/

import Solowan.Sessions.Evolution
import Solowan.Sessions.Lifecycle

namespace Solowan.Sessions

/-- The accelerator of the end with the address `x`. -/
def acceleratorOf (k : Sockets) (x : UInt32) (s : Session) : UInt32 :=
  if x = k.largerIP then s.largerIPAccelerator else s.smallerIPAccelerator

/-- What the table says, 0 when there is no session. -/
def acceleratorAt (t : SessionTable) (k : Sockets) (x : UInt32) : UInt32 :=
  ((getsession t k).map (acceleratorOf k x)).getD 0

/-- Two addresses stand for the same end. -/
def SameEnd (k : Sockets) (x y : UInt32) : Prop := x = k.largerIP ↔ y = k.largerIP

/-- A write that tells nothing about accelerators and leaves the state alone. -/
structure Plain (g : Session → Session) : Prop where
  quiet : Quiet g
  accelerator : ∀ k x s, acceleratorOf k x (g s) = acceleratorOf k x s

/-- One operation on the session `k`: `saves` are the accelerators that may be saved, and `moves`
says whether it may be opened, closed or put into another state. -/
inductive Act (k : Sockets) (saves : UInt32 → UInt32 → Prop) (moves : Prop) (t : SessionTable) :
    SessionTable → Prop
  | write {g : Session → Session} (hg : Plain g) : Act k saves moves t (t.update k g)
  | save {x v : UInt32} (h : saves x v) :
      Act k saves moves t (t.update k (saveacceleratorid k.largerIP v x))
  | setState (state : State) (h : moves) :
      Act k saves moves t (t.update k fun s => { s with state := state })
  | insert (hnone : getsession t k = none) (qnum : Option UInt8) (h : moves) :
      Act k saves moves t (insertsession t k qnum)
  | clear (h : moves) : Act k saves moves t (clearsession t k)

/-- A sequence of operations on one session. -/
abbrev Acts (k : Sockets) (saves : UInt32 → UInt32 → Prop) (moves : Prop) :
    SessionTable → SessionTable → Prop :=
  Relation.ReflTransGen (Act k saves moves)

section Fields

variable {k : Sockets} {x y v : UInt32}

theorem acceleratorOf_save_same (hpos : k.largerIP ≠ 0) (h : SameEnd k x y) (s : Session) :
    acceleratorOf k y (saveacceleratorid k.largerIP v x s) = v := by
  unfold acceleratorOf saveacceleratorid
  rw [if_pos hpos]
  by_cases hx : x = k.largerIP
  · rw [if_pos hx, if_pos (h.mp hx)]
  · rw [if_neg hx, if_neg (fun hy => hx (h.mpr hy))]

theorem acceleratorOf_save_other (h : ¬ SameEnd k x y) (s : Session) :
    acceleratorOf k y (saveacceleratorid k.largerIP v x s) = acceleratorOf k y s := by
  rw [saveacceleratorid]
  split
  · unfold acceleratorOf
    by_cases hx : x = k.largerIP
    · have hy : y ≠ k.largerIP := fun hy => h (iff_of_true hx hy)
      rw [if_pos hx, if_neg hy, if_neg hy]
    · have hy : y = k.largerIP := by
        by_contra hy
        exact h (iff_of_false hx hy)
      rw [if_neg hx, if_pos hy, if_pos hy]
  · rfl

theorem plain_updateseqnumber (largerIP saddr seq : UInt32) :
    Plain (updateseqnumber largerIP saddr seq) := by
  refine ⟨quiet_updateseqnumber .., fun k x s => ?_⟩
  unfold updateseqnumber acceleratorOf
  repeat' split
  all_goals rfl

theorem plain_updateseq (largerIP saddr seq : UInt32) : Plain (updateseq largerIP saddr seq) := by
  refine ⟨quiet_updateseq .., fun k x s => ?_⟩
  unfold updateseq acceleratorOf
  repeat' split
  all_goals rfl

theorem plain_sourceisclient (largerIP saddr daddr : UInt32) (issyn : Bool) :
    Plain (sourceisclient largerIP saddr daddr issyn) := by
  refine ⟨quiet_sourceisclient .., fun k x s => ?_⟩
  unfold sourceisclient acceleratorOf
  repeat' split
  all_goals rfl

theorem Plain.comp {g g' : Session → Session} (h : Plain g) (h' : Plain g') :
    Plain fun s => g' (g s) :=
  ⟨h.quiet.comp h'.quiet, fun k x s => (h'.accelerator k x _).trans (h.accelerator k x s)⟩

end Fields

section Tables

variable {t t' : SessionTable} {k k' : Sockets} {x y v : UInt32} {saves : UInt32 → UInt32 → Prop}
  {moves : Prop}

theorem acceleratorAt_update {g : Session → Session} (hg : ∀ s, (g s).toSockets = s.toSockets) :
    acceleratorAt (t.update k g) k y =
      ((getsession t k).map fun s => acceleratorOf k y (g s)).getD 0 := by
  rw [acceleratorAt, getsession_update t k hg, Option.map_map]
  rfl

/-- Two writes through one pointer. -/
theorem update_update (t : SessionTable) (k : Sockets) {g : Session → Session}
    (g' : Session → Session) (hg : ∀ s, (g s).toSockets = s.toSockets) :
    (t.update k g).update k g' = t.update k fun s => g' (g s) := by
  have hlist : ∀ l : List Session, updateFirst (fun s => s.toSockets = k) g'
      (updateFirst (fun s => s.toSockets = k) g l) =
        updateFirst (fun s => s.toSockets = k) (fun s => g' (g s)) l := by
    intro l
    induction l with
    | nil => rfl
    | cons s l ih =>
      by_cases hs : s.toSockets = k
      · have hgs : (g s).toSockets = k := (hg s).trans hs
        simp only [updateFirst, decide_eq_true hs, decide_eq_true hgs, if_true]
      · simp only [updateFirst, decide_eq_false hs, Bool.false_eq_true, if_false, ih]
  simp only [SessionTable.update, Function.update_self, Function.update_idem, hlist]

/-- A write that is not about the accelerator of this end. -/
theorem acceleratorAt_write {g : Session → Session} (hg : ∀ s, (g s).toSockets = s.toSockets)
    (hsame : ∀ s, acceleratorOf k y (g s) = acceleratorOf k y s) :
    acceleratorAt (t.update k g) k y = acceleratorAt t k y := by
  rw [acceleratorAt_update hg, acceleratorAt]
  exact congrArg (fun f => ((getsession t k).map f).getD 0) (funext hsame)

theorem acceleratorAt_setState (t : SessionTable) (k : Sockets) (y : UInt32) (state : State) :
    acceleratorAt (t.update k fun s => { s with state := state }) k y = acceleratorAt t k y :=
  acceleratorAt_write (fun _ => rfl) fun _ => rfl

theorem acceleratorAt_save (hpos : k.largerIP ≠ 0) (h : SameEnd k x y) {s : Session}
    (hs : getsession t k = some s) :
    acceleratorAt (t.update k (saveacceleratorid k.largerIP v x)) k y = v := by
  rw [acceleratorAt_update fun s => saveacceleratorid_sockets .., hs, Option.map_some,
    Option.getD_some, acceleratorOf_save_same hpos h]

theorem acceleratorAt_insert (hnone : getsession t k = none) (qnum : Option UInt8) :
    acceleratorAt (insertsession t k qnum) k y = 0 := by
  rw [acceleratorAt, getsession_insertsession hnone, Option.map_some, Option.getD_some,
    acceleratorOf]
  split <;> rfl

theorem Act.sockets_single (h : Act k saves moves t t') (hsingle : t.Single k') : t'.Single k' := by
  cases h with
  | write hg => exact hsingle.write k hg.quiet.sockets
  | save hs => exact hsingle.write k fun s => saveacceleratorid_sockets ..
  | setState state hm => exact hsingle.write k fun _ => rfl
  | insert hnone qnum hm => exact hsingle.insert hnone qnum
  | clear hm => exact hsingle.clear k

theorem Acts.keeps_single (h : Acts k saves moves t t') (hsingle : t.Single k') : t'.Single k' := by
  induction h with
  | refl => exact hsingle
  | tail _ hact ih => exact hact.sockets_single ih

theorem Acts.mono {saves' : UInt32 → UInt32 → Prop} {moves' : Prop} (h : Acts k saves moves t t')
    (hsaves : ∀ x v, saves x v → saves' x v) (hmoves : moves → moves') :
    Acts k saves' moves' t t' := by
  induction h with
  | refl => exact .refl
  | tail _ hact ih =>
    cases hact with
    | write hg => exact ih.tail (.write hg)
    | save hs => exact ih.tail (.save (hsaves _ _ hs))
    | setState state hm => exact ih.tail (.setState state (hmoves hm))
    | insert hnone qnum hm => exact ih.tail (.insert hnone qnum (hmoves hm))
    | clear hm => exact ih.tail (.clear (hmoves hm))

/-- **The other sessions** are left alone. -/
theorem Acts.frame (h : Acts k saves moves t t') (hne : k' ≠ k) :
    getsession t' k' = getsession t k' := by
  induction h with
  | refl => rfl
  | tail _ hact ih =>
    rw [← ih]
    cases hact with
    | write hg => exact getsession_update_of_ne _ hne hg.quiet.sockets
    | save hs => exact getsession_update_of_ne _ hne fun s => saveacceleratorid_sockets ..
    | setState state hm => exact getsession_update_of_ne _ hne fun _ => rfl
    | insert hnone qnum hm => exact getsession_insertsession_of_ne _ hne qnum
    | clear hm => exact getsession_clearsession_of_ne _ hne

/-- **Where an accelerator comes from**: it was there, the session has been cleared, or it was
saved for this end. -/
theorem Acts.acceleratorAt (h : Acts k saves moves t t') (hsingle : t.Single k) (y : UInt32) :
    acceleratorAt t' k y = acceleratorAt t k y ∨ moves ∧ Sessions.acceleratorAt t' k y = 0 ∨
      ∃ x, SameEnd k x y ∧ saves x (Sessions.acceleratorAt t' k y) := by
  induction h with
  | refl => exact Or.inl rfl
  | @tail t₁ t₂ hacts hact ih =>
    have hsingle₁ := Acts.keeps_single hacts hsingle
    have hsame : Sessions.acceleratorAt t₂ k y = Sessions.acceleratorAt t₁ k y →
        Sessions.acceleratorAt t₂ k y = Sessions.acceleratorAt t k y ∨
          moves ∧ Sessions.acceleratorAt t₂ k y = 0 ∨
          ∃ x, SameEnd k x y ∧ saves x (Sessions.acceleratorAt t₂ k y) := by
      intro heq
      rw [heq]
      exact ih
    cases hact with
    | write hg => exact hsame (acceleratorAt_write hg.quiet.sockets fun s => hg.accelerator k y s)
    | @save x v hs =>
      by_cases hend : SameEnd k x y ∧ k.largerIP ≠ 0
      · cases hold : getsession t₁ k with
        | none =>
          refine hsame ?_
          rw [acceleratorAt_update fun s => saveacceleratorid_sockets .., hold, Sessions.acceleratorAt,
            hold]
          rfl
        | some s =>
          refine Or.inr (Or.inr ⟨x, hend.1, ?_⟩)
          rw [acceleratorAt_save hend.2 hend.1 hold]
          exact hs
      · refine hsame (acceleratorAt_write (fun s => saveacceleratorid_sockets ..) fun s => ?_)
        by_cases hsame' : SameEnd k x y
        · have hzero : k.largerIP = 0 := by
            by_contra hne
            exact hend ⟨hsame', hne⟩
          rw [saveacceleratorid, if_neg (fun hne => hne hzero)]
        · exact acceleratorOf_save_other hsame' s
    | setState state hm =>
      exact hsame (acceleratorAt_setState t₁ k y state)
    | insert hnone qnum hm =>
      refine hsame ?_
      rw [acceleratorAt_insert hnone, Sessions.acceleratorAt, hnone]
      rfl
    | clear hm =>
      refine Or.inr (Or.inl ⟨hm, ?_⟩)
      rw [Sessions.acceleratorAt, getsession_clearsession hsingle₁]
      rfl

/-- **The state** is left alone where a session may not move. -/
theorem Acts.stateOf (h : Acts k saves moves t t') (hm : ¬ moves) : stateOf t' k = stateOf t k := by
  induction h with
  | refl => rfl
  | tail _ hact ih =>
    rw [← ih]
    cases hact with
    | write hg => exact (SameStates.write (.refl _) k hg.quiet).state k
    | save hs => exact (SameStates.write (.refl _) k (quiet_saveacceleratorid ..)).state k
    | setState state hmoves => exact absurd hmoves hm
    | insert hnone qnum hmoves => exact absurd hmoves hm
    | clear hmoves => exact absurd hmoves hm

/-- The end of a segment. -/
theorem Acts.endSegment (h : Acts k saves moves t t') {rst fin : Bool}
    (hm : rst = true ∨ fin = true → moves) : Acts k saves moves t (endSegment t' k rst fin) := by
  unfold Sessions.endSegment closingsession
  split
  · rename_i hrst
    exact h.tail (.clear (hm (Or.inl hrst)))
  · split
    · exact h
    · split
      · rename_i hfin
        split
        · exact h.tail (.setState _ (hm (Or.inr hfin)))
        · exact h.tail (.clear (hm (Or.inr hfin)))
        · exact h
      · exact h

end Tables

end Solowan.Sessions
