/-
The state of a session.

The fetcher puts a session into one of its states. The threads only close it: a FIN moves an
established session to `TCP_CLOSING`, and the next FIN removes it, whichever end it comes from
(`closingsession`).

* `SameStates`: writes to other fields of a session leave the states of all sessions alone.
* `stateOf_endSegment`: what is left of the state at the end of a segment that is no reset.
-/

import Solowan.Sessions.Evolution

namespace Solowan.Sessions

/-- The state of the session with the sockets `k`, where there is one. -/
def stateOf (t : SessionTable) (k : Sockets) : Option State := (getsession t k).map Session.state

/-- What a FIN makes of a state. -/
def afterFin : Option State → Option State
  | some .TCP_ESTABLISHED => some .TCP_CLOSING
  | some .TCP_CLOSING => none
  | state => state

theorem afterFin_ne_established (state : Option State) : afterFin state ≠ some .TCP_ESTABLISHED := by
  intro h
  cases state with
  | none => cases h
  | some state => cases state <;> cases h

/-- Only an established session starts to close. -/
theorem afterFin_eq_closing {state : Option State} (h : afterFin state = some .TCP_CLOSING) :
    state = some .TCP_ESTABLISHED := by
  cases state with
  | none => cases h
  | some state =>
    cases state with
    | TCP_ESTABLISHED => rfl
    | NONE => cases h
    | TCP_SYN_SENT => cases h
    | TCP_CLOSING => cases h

/-- Only a session that is closing is removed. -/
theorem afterFin_eq_none {state : Option State} (h : afterFin state = none) (hsome : state ≠ none) :
    state = some .TCP_CLOSING := by
  cases state with
  | none => exact absurd rfl hsome
  | some state =>
    cases state with
    | TCP_CLOSING => rfl
    | NONE => cases h
    | TCP_ESTABLISHED => cases h
    | TCP_SYN_SENT => cases h

/-- A write that neither the sockets nor the state of a session depend on. -/
structure Quiet (g : Session → Session) : Prop where
  sockets : ∀ s, (g s).toSockets = s.toSockets
  state : ∀ s, (g s).state = s.state

/-- The sessions of `t'` are in the states of those of `t`, and no sockets have more of them. -/
structure SameStates (t t' : SessionTable) : Prop where
  state : ∀ k, stateOf t' k = stateOf t k
  single : ∀ k, t.Single k → t'.Single k

section Single

variable {t : SessionTable} {k k' : Sockets}

/-- Whether sockets have one session only depends on the sockets in their bucket. -/
theorem single_iff (t : SessionTable) (k : Sockets) :
    t.Single k ↔ ((t.sessiontable (bucket k)).map Session.toSockets).countP (· = k) ≤ 1 := by
  rw [SessionTable.Single, List.countP_map]
  rfl

theorem SessionTable.Single.of_sublist {t' : SessionTable} (h : t.Single k)
    (hsub : List.Sublist ((t'.sessiontable (bucket k)).map Session.toSockets)
      ((t.sessiontable (bucket k)).map Session.toSockets)) : t'.Single k := by
  rw [single_iff] at h ⊢
  exact Nat.le_trans hsub.countP_le h

theorem SessionTable.Single.write (h : t.Single k') (k : Sockets) {g : Session → Session}
    (hg : ∀ s, (g s).toSockets = s.toSockets) : (t.update k g).Single k' := by
  rw [single_iff] at h ⊢
  rw [sockets_update t k hg]
  exact h

theorem SessionTable.Single.insert (h : t.Single k') (hnone : getsession t k = none)
    (qnum : Option UInt8) : (insertsession t k qnum).Single k' := by
  by_cases hk : k' = k
  · rw [hk]
    exact single_insertsession hnone qnum
  · unfold SessionTable.Single insertsession at *
    dsimp only
    by_cases hb : bucket k' = bucket k
    · rw [hb] at h ⊢
      rw [Function.update_self, List.countP_append,
        List.countP_singleton, if_neg (by simp [newSession, Ne.symm hk])]
      exact h
    · rw [Function.update_of_ne hb]
      exact h

theorem SessionTable.Single.clear (h : t.Single k') (k : Sockets) :
    (clearsession t k).Single k' := by
  rw [clearsession]
  split
  · exact h
  · by_cases hb : bucket k' = bucket k
    · refine h.of_sublist ?_
      dsimp only
      rw [hb, Function.update_self]
      exact List.eraseP_sublist.map _
    · rw [single_iff] at h ⊢
      dsimp only
      rw [Function.update_of_ne hb]
      exact h

end Single

section States

variable {t t' t'' : SessionTable} {k k' : Sockets}

theorem SameStates.refl (t : SessionTable) : SameStates t t := ⟨fun _ => rfl, fun _ h => h⟩

theorem SameStates.trans (h : SameStates t t') (h' : SameStates t' t'') : SameStates t t'' :=
  ⟨fun k => (h'.state k).trans (h.state k), fun k hk => h'.single k (h.single k hk)⟩

/-- A quiet write. -/
theorem SameStates.write (h : SameStates t t') (k : Sockets) {g : Session → Session}
    (hg : Quiet g) : SameStates t (t'.update k g) := by
  refine ⟨?_, fun k' hk' => (h.single k' hk').write k hg.sockets⟩
  intro k'
  rw [← h.state k', stateOf, stateOf]
  by_cases hk : k' = k
  · rw [hk, getsession_update _ _ hg.sockets, Option.map_map]
    congr 1
    funext s
    exact hg.state s
  · rw [getsession_update_of_ne _ hk hg.sockets]

theorem stateOf_setState (t : SessionTable) (k : Sockets) (state : State) :
    stateOf (t.update k fun s => { s with state := state }) k = (stateOf t k).map fun _ => state := by
  rw [stateOf, getsession_update t k (by simp), Option.map_map, stateOf, Option.map_map]
  rfl

theorem stateOf_update_of_ne (t : SessionTable) (hne : k' ≠ k) {g : Session → Session}
    (hg : ∀ s, (g s).toSockets = s.toSockets) : stateOf (t.update k g) k' = stateOf t k' := by
  rw [stateOf, getsession_update_of_ne t hne hg, stateOf]

theorem stateOf_insertsession_of_ne (t : SessionTable) (hne : k' ≠ k) (qnum : Option UInt8) :
    stateOf (insertsession t k qnum) k' = stateOf t k' := by
  rw [stateOf, getsession_insertsession_of_ne t hne, stateOf]

theorem stateOf_endSegment_of_ne (t : SessionTable) (hne : k' ≠ k) (rst fin : Bool) :
    stateOf (endSegment t k rst fin) k' = stateOf t k' := by
  rw [stateOf, getsession_endSegment_of_ne t hne, stateOf]

/-- **The end of a segment** that is no reset. -/
theorem stateOf_endSegment (h : t.Single k) (fin : Bool) :
    stateOf (endSegment t k false fin) k =
      if fin then afterFin (stateOf t k) else stateOf t k := by
  rw [endSegment, if_neg Bool.false_ne_true, closingsession]
  cases hs : getsession t k with
  | none =>
    dsimp only
    rw [stateOf, hs]
    split <;> rfl
  | some s =>
    dsimp only
    cases fin with
    | false => rfl
    | true =>
      have hstate : stateOf t k = some s.state := by rw [stateOf, hs, Option.map_some]
      rw [if_pos rfl, if_pos rfl, hstate]
      split
      · rename_i hest
        rw [stateOf_setState, hstate, hest]
        rfl
      · rename_i hclosing
        rw [stateOf, getsession_clearsession h, hclosing]
        rfl
      · rename_i hest hclosing
        rw [hstate]
        cases hother : s.state with
        | NONE => rfl
        | TCP_SYN_SENT => rfl
        | TCP_ESTABLISHED => exact absurd hother hest
        | TCP_CLOSING => exact absurd hother hclosing

/-- Nothing happens at the end of a segment without a session. -/
theorem endSegment_unknown (h : getsession t k = none) (rst fin : Bool) :
    endSegment t k rst fin = t := by
  rw [endSegment, clearsession, closingsession, h]
  split <;> rfl

theorem SessionTable.Single.endSegment (h : t.Single k') (k : Sockets) (rst fin : Bool) :
    (endSegment t k rst fin).Single k' := by
  unfold Sessions.endSegment closingsession
  repeat' split
  · exact h.clear k
  · exact h
  · exact h.write k fun _ => rfl
  · exact h.clear k
  · exact h
  · exact h

end States

/-! ### The fields that are written -/

section Quiet

variable (largerIP saddr v : UInt32)

theorem quiet_saveacceleratorid : Quiet (saveacceleratorid largerIP v saddr) := by
  refine ⟨fun s => saveacceleratorid_sockets largerIP saddr v s, ?_⟩
  intro s
  unfold saveacceleratorid
  repeat' split
  all_goals rfl

theorem quiet_updateseqnumber : Quiet (updateseqnumber largerIP saddr v) := by
  refine ⟨fun s => updateseqnumber_sockets largerIP saddr v s, ?_⟩
  intro s
  unfold updateseqnumber
  repeat' split
  all_goals rfl

theorem quiet_updateseq : Quiet (updateseq largerIP saddr v) := by
  refine ⟨(inner_updateseq largerIP saddr v).sockets, ?_⟩
  intro s
  unfold updateseq
  repeat' split
  all_goals rfl

theorem quiet_sourceisclient (daddr : UInt32) (issyn : Bool) :
    Quiet (sourceisclient largerIP saddr daddr issyn) := by
  refine ⟨(inner_sourceisclient largerIP saddr daddr issyn).sockets, ?_⟩
  intro s
  unfold sourceisclient
  repeat' split
  all_goals rfl

theorem Quiet.comp {g g' : Session → Session} (h : Quiet g) (h' : Quiet g') :
    Quiet fun s => g' (g s) :=
  ⟨fun s => (h'.sockets _).trans (h.sockets s), fun s => (h'.state _).trans (h.state s)⟩

end Quiet

end Solowan.Sessions
