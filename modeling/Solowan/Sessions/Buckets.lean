/-
The buckets of the session table, with their pointers (`opennopd/sessionmanager.c`).

A bucket is a head with the first and the last session and the number of sessions; a session
has pointers to its neighbours and to its head. Insertion appends by the number of sessions,
removal has a case for each combination of neighbours. This is the level below
`Solowan.Sessions.Table`, where a bucket is a list: `Holds` says which list a bucket is, and the
operations here do what the operations there do (`insertsession_refines`, `clearsession_refines`,
`write_refines`, `getsession_refines`).

The memory for a session comes from `calloc`, whose answer is an argument of `insertsession`.
-/

import Mathlib.Data.List.Perm.Subperm
import Solowan.Memory.Chain
import Solowan.Sessions.Table

namespace Solowan.Sessions.Buckets

open Solowan.Memory

/-- An address; the null pointer is `none`. -/
abbrev Ptr := Nat

/-- What the session manager keeps in memory: of each session its pointers, `head` being the
number of a bucket, and its other fields; the buckets; and `sessions` of each worker. `live` is
what `calloc` has handed out and was not freed. -/
structure SessionMemory where
  next : Ptr → Option Ptr
  prev : Ptr → Option Ptr
  head : Ptr → UInt16
  session : Ptr → Session
  live : List Ptr
  sessiontable : UInt16 → ListHead Ptr
  sessions : UInt8 → UInt32
  numworkers : UInt8

/-! ### The operations -/

/-- The pointers of all buckets are cleared; the numbers of sessions are not. -/
def initializeSessiontable (t : SessionMemory) : SessionMemory :=
  { t with
    sessiontable := fun hash => { t.sessiontable hash with next := none, prev := none } }

/-- The table as the lists `l` of the buckets show it. -/
def SessionMemory.view (t : SessionMemory) (l : UInt16 → List Ptr) : SessionTable where
  sessiontable := fun hash => (l hash).map t.session
  sessions := t.sessions
  numworkers := t.numworkers

/-- Change the head of a bucket. -/
def SessionMemory.setHead (t : SessionMemory) (hash : UInt16) (h : ListHead Ptr) : SessionMemory :=
  { t with sessiontable := Function.update t.sessiontable hash h }

/-- The fields of the session that `calloc` has returned, in no bucket yet, and the counter of
its worker. -/
def SessionMemory.enter (t : SessionMemory) (newsession : Ptr) (k : Sockets) (queuenum : UInt8) :
    SessionMemory :=
  { t with
    live := newsession :: t.live
    head := Function.update t.head newsession (bucket k)
    next := Function.update t.next newsession none
    prev := Function.update t.prev newsession none
    session := Function.update t.session newsession (newSession k queuenum)
    sessions := Function.update t.sessions queuenum (t.sessions queuenum + 1) }

/-- `insertsession`, on what `calloc` answers. It would follow the null pointer in a bucket that
counts sessions and has no last one. -/
def insertsession (t : SessionMemory) (k : Sockets) (qnum : Option UInt8) (answer : Option Ptr) :
    Option (SessionMemory × Option Ptr) :=
  -- the choice of a queue looks at the counters only
  let queuenum := qnum.getD (leastLoaded (t.view fun _ => []))
  match answer with
  | none => some (t, none)
  | some newsession =>
    let t := t.enter newsession k queuenum
    let h := t.sessiontable (bucket k)
    if h.qlen = 0 then
      some (t.setHead (bucket k) ⟨some newsession, some newsession, h.qlen + 1⟩, some newsession)
    else
      match h.prev with
      | none => none
      | some last =>
        let t := { t with prev := Function.update t.prev newsession (some last) }
        let t := { t with next := Function.update t.next last (some newsession) }
        some (t.setHead (bucket k) { h with prev := some newsession, qlen := h.qlen + 1 },
          some newsession)

/-- `getsession`, the walk through a bucket. -/
def getsession (t : SessionMemory) (k : Sockets) (fuel : Nat) : Option (Option Ptr) :=
  searchFrom t.next (fun p => decide ((t.session p).toSockets = k)) fuel
    (t.sessiontable (bucket k)).next

/-- The only session. -/
def clearOnly (p : Ptr) (t : SessionMemory) : SessionMemory :=
  if t.next p = none ∧ t.prev p = none then
    t.setHead (t.head p) { t.sessiontable (t.head p) with next := none, prev := none }
  else t

/-- The first session. -/
def clearFirst (p : Ptr) (t : SessionMemory) : SessionMemory :=
  match t.next p, t.prev p with
  | some after, none =>
    let t := { t with prev := Function.update t.prev after none }
    t.setHead (t.head p) { t.sessiontable (t.head p) with next := t.next p }
  | _, _ => t

/-- The last session. -/
def clearLast (p : Ptr) (t : SessionMemory) : SessionMemory :=
  match t.next p, t.prev p with
  | none, some before =>
    let t := { t with next := Function.update t.next before none }
    t.setHead (t.head p) { t.sessiontable (t.head p) with prev := t.prev p }
  | _, _ => t

/-- A session in the middle. -/
def clearMiddle (p : Ptr) (t : SessionMemory) : SessionMemory :=
  match t.next p, t.prev p with
  | some after, some before =>
    let t := { t with next := Function.update t.next before (some after) }
    { t with prev := Function.update t.prev after (t.prev p) }
  | _, _ => t

/-- `clearsession`: the four cases one after the other, and what they have in common. -/
def clearsession (t : SessionMemory) (currentsession : Option Ptr) : SessionMemory :=
  match currentsession with
  | none => t
  | some p =>
    let t := clearMiddle p (clearLast p (clearFirst p (clearOnly p t)))
    let h := t.sessiontable (t.head p)
    let t := t.setHead (t.head p) { h with qlen := h.qlen - 1 }
    let queue := (t.session p).queue
    { t with
      sessions := Function.update t.sessions queue (t.sessions queue - 1)
      live := t.live.erase p }

/-- What the threads write through the pointer to a session. -/
def write (t : SessionMemory) (p : Ptr) (f : Session → Session) : SessionMemory :=
  { t with session := Function.update t.session p (f (t.session p)) }

/-! ### The lists of the buckets -/

/-- The live sessions are filed in the lists `l`: each in the list of its bucket, no two with
the same sockets, and the workers count them. -/
structure Filed (t : SessionMemory) (l : UInt16 → List Ptr) : Prop where
  nodup : ∀ hash, (l hash).Nodup
  place : ∀ hash, ∀ p ∈ l hash, t.head p = hash ∧ bucket (t.session p).toSockets = hash
  live : ∀ p, p ∈ t.live ↔ p ∈ l (t.head p)
  live_nodup : t.live.Nodup
  single : ∀ p ∈ t.live, ∀ q ∈ t.live, (t.session p).toSockets = (t.session q).toSockets → p = q
  counters : ∀ queue,
    (t.sessions queue).toNat = t.live.countP fun p => decide ((t.session p).queue = queue)

/-- The buckets hold the lists `l`: each is a doubly linked list, and the sessions are filed in
them. -/
structure Holds (t : SessionMemory) (l : UInt16 → List Ptr) : Prop extends Filed t l where
  linked : ∀ hash, Linked t.next t.prev (t.sessiontable hash) (l hash)

section Lists

variable {t : SessionMemory} {l : UInt16 → List Ptr} {k : Sockets} {p : Ptr}

theorem Filed.mem_live (h : Filed t l) {hash : UInt16} (hp : p ∈ l hash) : p ∈ t.live := by
  rw [h.live, (h.place hash p hp).1]
  exact hp

theorem Filed.length_le (h : Filed t l) (hash : UInt16) : (l hash).length ≤ t.live.length :=
  (List.subperm_of_subset (h.nodup hash) fun _ hp => h.mem_live hp).length_le

/-- A session is in the bucket of its sockets, and in no other. -/
theorem Filed.mem_iff (h : Filed t l) (hash : UInt16) :
    p ∈ l hash ↔ p ∈ t.live ∧ bucket (t.session p).toSockets = hash := by
  constructor
  · intro hp
    exact ⟨h.mem_live hp, (h.place hash p hp).2⟩
  · rintro ⟨hp, rfl⟩
    have hp' := (h.live p).mp hp
    rw [(h.place _ p hp').2]
    exact hp'

theorem Filed.head_eq (h : Filed t l) (hp : p ∈ t.live) :
    t.head p = bucket (t.session p).toSockets :=
  ((h.place _ p ((h.live p).mp hp)).2).symm

/-- The place of a session in its list; it is the first one there with its sockets. -/
theorem Filed.split (h : Filed t l) (hp : p ∈ t.live) :
    ∃ before after, l (t.head p) = before ++ p :: after ∧ p ∉ before ∧ p ∉ after ∧
      ∀ q ∈ before, (t.session q).toSockets ≠ (t.session p).toSockets := by
  obtain ⟨before, after, hl⟩ := List.append_of_mem ((h.live p).mp hp)
  have hnodup := h.nodup (t.head p)
  rw [hl] at hnodup
  have hbefore : p ∉ before := fun hmem =>
    (List.disjoint_of_nodup_append hnodup) hmem List.mem_cons_self
  refine ⟨before, after, hl, hbefore, ?_, ?_⟩
  · exact (List.nodup_cons.mp (List.nodup_append.mp hnodup).2.1).1
  · intro q hq hsock
    have hqlive : q ∈ t.live := h.mem_live (hl ▸ List.mem_append_left _ hq)
    exact hbefore (h.single q hqlive p hp hsock ▸ hq)

/-! ### Finding -/

/-- The walk through a bucket ends, with the session of the list. -/
theorem Holds.getsession_eq (h : Holds t l) (k : Sockets) {fuel : Nat}
    (hfuel : t.live.length ≤ fuel) :
    getsession t k fuel =
      some ((l (bucket k)).find? fun p => decide ((t.session p).toSockets = k)) :=
  searchFrom_chain _ (h.linked _).forward (Nat.le_trans (h.length_le _) hfuel)

/-- A session is found by its sockets if and only if it is live. -/
theorem Filed.find?_eq_some_iff (h : Filed t l) :
    (l (bucket k)).find? (fun p => decide ((t.session p).toSockets = k)) = some p ↔
      p ∈ t.live ∧ (t.session p).toSockets = k := by
  constructor
  · intro hfind
    have hsock := List.find?_some hfind
    exact ⟨h.mem_live (List.mem_of_find?_eq_some hfind), by simpa using hsock⟩
  · rintro ⟨hp, rfl⟩
    have hmem : p ∈ l (bucket (t.session p).toSockets) := (h.mem_iff _).mpr ⟨hp, rfl⟩
    cases hfind : (l (bucket (t.session p).toSockets)).find?
        (fun q => decide ((t.session q).toSockets = (t.session p).toSockets)) with
    | none =>
      have := List.find?_eq_none.mp hfind p hmem
      simp at this
    | some q =>
      have hsock := List.find?_some hfind
      have hq := h.mem_live (List.mem_of_find?_eq_some hfind)
      rw [h.single q hq p hp (by simpa using hsock)]

/-- The table of lists finds the same session. -/
theorem getsession_refines (t : SessionMemory) (l : UInt16 → List Ptr) (k : Sockets) :
    Sessions.getsession (t.view l) k =
      ((l (bucket k)).find? fun p => decide ((t.session p).toSockets = k)).map t.session := by
  rw [Sessions.getsession, SessionMemory.view, List.find?_map]
  rfl

/-! ### Inserting -/

/-- The bucket that a session is appended to, whichever branch does it. -/
theorem insertsession_eq {L : List Ptr}
    (hL : Linked t.next t.prev (t.sessiontable (bucket k)) L) (qnum : Option UInt8)
    (l : UInt16 → List Ptr) :
    insertsession t k qnum (some p) =
      let t' := t.enter p k (qnum.getD (leastLoaded (t.view l)))
      some ({ t' with
        prev := Function.update t'.prev p L.getLast?
        next := storeAt t'.next L.getLast? (some p)
        sessiontable := Function.update t.sessiontable (bucket k)
          ⟨if L = [] then some p else (t.sessiontable (bucket k)).next, some p,
            (t.sessiontable (bucket k)).qlen + 1⟩ }, some p) := by
  have hqueue : leastLoaded (t.view fun _ => []) = leastLoaded (t.view l) := rfl
  have htable : ∀ q, (t.enter p k q).sessiontable = t.sessiontable := fun _ => rfl
  rw [insertsession, hqueue]
  dsimp only
  rw [htable]
  by_cases hqlen : (t.sessiontable (bucket k)).qlen = 0
  · obtain rfl := hL.qlen_eq_zero_iff.mp hqlen
    rw [if_pos hqlen, if_pos rfl]
    simp only [SessionMemory.setHead, SessionMemory.enter, List.getLast?_nil, storeAt,
      Function.update_idem]
  · have hne : L ≠ [] := fun hnil => hqlen (hL.qlen_eq_zero_iff.mpr hnil)
    obtain ⟨last, hlast⟩ : ∃ last, L.getLast? = some last :=
      ⟨_, List.getLast?_eq_some_getLast hne⟩
    rw [if_neg hqlen, if_neg hne, hL.last, hlast]
    simp only [SessionMemory.setHead, storeAt]

/-- A session that is found by no sockets of a live one has sockets of its own. -/
theorem Filed.sockets_ne (h : Filed t l) (hk : Sessions.getsession (t.view l) k = none) {q : Ptr}
    (hq : q ∈ t.live) : (t.session q).toSockets ≠ k := by
  intro hsock
  rw [getsession_refines, h.find?_eq_some_iff.mpr ⟨hq, hsock⟩] at hk
  cases hk

/-- A new session is filed at the end of its list. -/
theorem Filed.enter (h : Filed t l) (hk : ∀ q ∈ t.live, (t.session q).toSockets ≠ k)
    (hp : p ∉ t.live) (hroom : t.live.length + 1 < 2 ^ 32) (queuenum : UInt8) :
    Filed (t.enter p k queuenum) (Function.update l (bucket k) (l (bucket k) ++ [p])) := by
  have hout : ∀ hash, p ∉ l hash := fun hash hmem => hp (h.mem_live hmem)
  have hne : ∀ q ∈ t.live, q ≠ p := fun q hq heq => hp (heq ▸ hq)
  have hmem : ∀ hash q, q ∈ Function.update l (bucket k) (l (bucket k) ++ [p]) hash ↔
      q ∈ l hash ∨ q = p ∧ hash = bucket k := by
    intro hash q
    by_cases hb : hash = bucket k
    · subst hb
      simp
    · rw [Function.update_of_ne hb]
      simp [hb]
  -- what the entry of the new session looks like, and that of any other
  have hnew : (t.enter p k queuenum).session p = newSession k queuenum := Function.update_self ..
  have hold : ∀ q ∈ t.live, (t.enter p k queuenum).session q = t.session q :=
    fun q hq => Function.update_of_ne (hne q hq) ..
  have hhead : ∀ q ∈ t.live, (t.enter p k queuenum).head q = t.head q :=
    fun q hq => Function.update_of_ne (hne q hq) ..
  constructor
  case nodup =>
    intro hash
    by_cases hb : hash = bucket k
    · subst hb
      rw [Function.update_self]
      exact (h.nodup _).append (List.nodup_singleton p) (by simpa using hout _)
    · rw [Function.update_of_ne hb]
      exact h.nodup hash
  case place =>
    intro hash q hq
    rcases (hmem hash q).mp hq with hq | ⟨rfl, rfl⟩
    · rw [hhead q (h.mem_live hq), hold q (h.mem_live hq)]
      exact h.place hash q hq
    · rw [hnew]
      exact ⟨Function.update_self .., rfl⟩
  case live =>
    intro q
    rw [hmem]
    by_cases hq : q = p
    · subst hq
      exact iff_of_true List.mem_cons_self (Or.inr ⟨rfl, Function.update_self ..⟩)
    · have hhead' : (t.enter p k queuenum).head q = t.head q := Function.update_of_ne hq ..
      rw [hhead', ← h.live q]
      simp [SessionMemory.enter, hq]
  case live_nodup => exact List.nodup_cons.mpr ⟨hp, h.live_nodup⟩
  case single =>
    intro q hq r hr hsock
    rcases List.mem_cons.mp hq with rfl | hq'
    · rcases List.mem_cons.mp hr with rfl | hr'
      · rfl
      · rw [hnew, hold r hr'] at hsock
        exact absurd hsock.symm (hk r hr')
    · rcases List.mem_cons.mp hr with rfl | hr'
      · rw [hnew, hold q hq'] at hsock
        exact absurd hsock (hk q hq')
      · rw [hold q hq', hold r hr'] at hsock
        exact h.single q hq' r hr' hsock
  case counters =>
    intro queue
    have hcount : t.live.countP (fun q => decide (((t.enter p k queuenum).session q).queue = queue)) =
        (t.sessions queue).toNat := by
      rw [h.counters]
      refine List.countP_congr fun q hq => ?_
      rw [hold q hq]
    have hle := (h.counters queue).trans_le List.countP_le_length
    show (Function.update t.sessions queuenum (t.sessions queuenum + 1) queue).toNat =
      (p :: t.live).countP _
    rw [List.countP_cons, hcount, hnew]
    by_cases hq : queue = queuenum
    · subst hq
      rw [Function.update_self, UInt32.toNat_add, if_pos (by simp [newSession])]
      exact Nat.mod_eq_of_lt (by simp; omega)
    · rw [Function.update_of_ne hq, if_neg (by simp [newSession, Ne.symm hq])]
      rfl

/-- **Insertion** does at the pointers what it does at the lists. -/
theorem insertsession_refines (h : Holds t l) (hk : Sessions.getsession (t.view l) k = none)
    (hp : p ∉ t.live) (hroom : t.live.length + 1 < 2 ^ 32) (qnum : Option UInt8) :
    ∃ t', insertsession t k qnum (some p) = some (t', some p) ∧ t'.live = p :: t.live ∧
      Holds t' (Function.update l (bucket k) (l (bucket k) ++ [p])) ∧
      t'.view (Function.update l (bucket k) (l (bucket k) ++ [p])) =
        Sessions.insertsession (t.view l) k qnum := by
  have hout : ∀ hash, p ∉ l hash := fun hash hmem => hp (h.mem_live hmem)
  have hlen := h.length_le (bucket k)
  have hfiled := h.toFiled.enter (fun q hq => h.sockets_ne hk hq) hp hroom
    (qnum.getD (leastLoaded (t.view l)))
  rw [insertsession_eq (h.linked (bucket k)) qnum l]
  refine ⟨_, rfl, rfl, ⟨⟨hfiled.nodup, hfiled.place, hfiled.live, hfiled.live_nodup, hfiled.single,
    hfiled.counters⟩, ?_⟩, ?_⟩
  · intro hash
    have hfree : Linked (t.enter p k (qnum.getD (leastLoaded (t.view l)))).next
        (t.enter p k (qnum.getD (leastLoaded (t.view l)))).prev (t.sessiontable hash) (l hash) :=
      ((h.linked hash).update_next (hout hash) none).update_prev (hout hash) none
    dsimp only
    by_cases hb : hash = bucket k
    · subst hb
      rw [Function.update_self, Function.update_self]
      exact hfree.append (hout _) (Function.update_self ..) (by omega) (h.nodup _)
    · rw [Function.update_of_ne hb, Function.update_of_ne hb]
      refine (hfree.storeAt_next ?_ _).update_prev (hout hash) _
      -- the last session of the other bucket is not in this one
      intro last hlast hmem
      exact hb ((h.place hash last hmem).1.symm.trans
        (h.place _ last (List.mem_of_getLast? hlast)).1)
  · have hkept : ∀ hash (s : Session), (l hash).map (Function.update t.session p s) =
        (l hash).map t.session := by
      intro hash s
      rw [(h.nodup hash).map_update, if_neg (hout hash)]
    simp only [SessionMemory.view, Sessions.insertsession, SessionMemory.enter,
      SessionTable.mk.injEq, and_true]
    funext hash
    by_cases hb : hash = bucket k
    · subst hb
      rw [Function.update_self, Function.update_self, List.map_append, hkept, List.map_singleton,
        Function.update_self]
    · rw [Function.update_of_ne hb, Function.update_of_ne hb, hkept]

/-! ### Removing -/

/-- The four cases are one: the neighbours of the session, or else the head, are made to point
to each other. -/
theorem clear_eq (hnext : t.next p ≠ some p) (hprev : t.prev p ≠ some p) :
    clearMiddle p (clearLast p (clearFirst p (clearOnly p t))) =
      { t with
        next := storeAt t.next (t.prev p) (t.next p)
        prev := storeAt t.prev (t.next p) (t.prev p)
        sessiontable := Function.update t.sessiontable (t.head p)
          { t.sessiontable (t.head p) with
            next := if t.prev p = none then t.next p else (t.sessiontable (t.head p)).next
            prev := if t.next p = none then t.prev p else (t.sessiontable (t.head p)).prev } } := by
  cases hn : t.next p with
  | none =>
    cases hp : t.prev p with
    | none => simp [clearOnly, clearFirst, clearLast, clearMiddle, SessionMemory.setHead, storeAt, hn, hp]
    | some before =>
      have hne : p ≠ before := by
        rintro rfl
        exact hprev hp
      simp [clearOnly, clearFirst, clearLast, clearMiddle, SessionMemory.setHead, storeAt, hn, hp,
        Function.update_of_ne hne]
  | some after =>
    have hne : p ≠ after := by
      rintro rfl
      exact hnext hn
    cases hp : t.prev p with
    | none =>
      simp [clearOnly, clearFirst, clearLast, clearMiddle, SessionMemory.setHead, storeAt, hn, hp,
        Function.update_of_ne hne]
    | some before =>
      simp [clearOnly, clearFirst, clearLast, clearMiddle, storeAt, hn, hp]

/-- A session that is freed is not filed any more. -/
theorem Filed.leave (h : Filed t l) (hp : p ∈ t.live) :
    Filed
      { t with
        sessions := Function.update t.sessions (t.session p).queue
          (t.sessions (t.session p).queue - 1)
        live := t.live.erase p }
      (Function.update l (t.head p) ((l (t.head p)).erase p)) := by
  have hmem : ∀ hash q, q ∈ Function.update l (t.head p) ((l (t.head p)).erase p) hash ↔
      q ≠ p ∧ q ∈ l hash := by
    intro hash q
    by_cases hb : hash = t.head p
    · subst hb
      rw [Function.update_self, (h.nodup _).mem_erase_iff]
    · rw [Function.update_of_ne hb]
      refine ⟨fun hq => ⟨?_, hq⟩, fun hq => hq.2⟩
      rintro rfl
      exact hb (h.place hash q hq).1.symm
  constructor
  case nodup =>
    intro hash
    by_cases hb : hash = t.head p
    · subst hb
      rw [Function.update_self]
      exact (h.nodup _).erase p
    · rw [Function.update_of_ne hb]
      exact h.nodup hash
  case place =>
    intro hash q hq
    exact h.place hash q ((hmem hash q).mp hq).2
  case live =>
    intro q
    rw [hmem, ← h.live q]
    exact h.live_nodup.mem_erase_iff
  case live_nodup => exact h.live_nodup.erase p
  case single =>
    intro q hq r hr hsock
    exact h.single q (List.mem_of_mem_erase hq) r (List.mem_of_mem_erase hr) hsock
  case counters =>
    intro queue
    have hcount := h.counters queue
    have hperm := List.perm_cons_erase hp
    rw [hperm.countP_eq, List.countP_cons] at hcount
    dsimp only
    by_cases hq : queue = (t.session p).queue
    · subst hq
      rw [if_pos (by simp)] at hcount
      rw [Function.update_self, toNat_pred hcount]
    · rw [if_neg (by simp [Ne.symm hq])] at hcount
      rw [Function.update_of_ne hq, hcount]
      rfl

/-- What becomes of a session in a list, and of its neighbours. -/
theorem clearsession_linked {before after : List Ptr}
    (hl : Linked t.next t.prev (t.sessiontable (t.head p)) (before ++ p :: after))
    (hnodup : (before ++ p :: after).Nodup) :
    clearsession t (some p) =
      { t with
        next := storeAt t.next (t.prev p) (t.next p)
        prev := storeAt t.prev (t.next p) (t.prev p)
        sessiontable := Function.update t.sessiontable (t.head p)
          ⟨if t.prev p = none then t.next p else (t.sessiontable (t.head p)).next,
            if t.next p = none then t.prev p else (t.sessiontable (t.head p)).prev,
            (t.sessiontable (t.head p)).qlen - 1⟩
        sessions := Function.update t.sessions (t.session p).queue
          (t.sessions (t.session p).queue - 1)
        live := t.live.erase p } := by
  obtain ⟨hnext, hprev⟩ := hl.neighbours
  have hafter : p ∉ after := (List.nodup_cons.mp (List.nodup_append.mp hnodup).2.1).1
  have hbefore : p ∉ before := fun hmem =>
    (List.disjoint_of_nodup_append hnodup) hmem List.mem_cons_self
  rw [clearsession, clear_eq]
  · simp only [SessionMemory.setHead, Function.update_self, Function.update_idem]
  · intro hself
    rw [hnext] at hself
    exact hafter (List.mem_of_mem_head? hself)
  · intro hself
    rw [hprev] at hself
    exact hbefore (List.mem_of_getLast? hself)

theorem clearsession_eq (h : Holds t l) (hp : p ∈ t.live) :
    clearsession t (some p) =
      { t with
        next := storeAt t.next (t.prev p) (t.next p)
        prev := storeAt t.prev (t.next p) (t.prev p)
        sessiontable := Function.update t.sessiontable (t.head p)
          ⟨if t.prev p = none then t.next p else (t.sessiontable (t.head p)).next,
            if t.next p = none then t.prev p else (t.sessiontable (t.head p)).prev,
            (t.sessiontable (t.head p)).qlen - 1⟩
        sessions := Function.update t.sessions (t.session p).queue
          (t.sessions (t.session p).queue - 1)
        live := t.live.erase p } := by
  obtain ⟨before, after, hl, -⟩ := h.split hp
  have hnodup := h.nodup (t.head p)
  have hlinked := h.linked (t.head p)
  rw [hl] at hnodup hlinked
  exact clearsession_linked hlinked hnodup

/-- **Removal** does at the pointers what it does at the lists. -/
theorem clearsession_refines (h : Holds t l) (hp : p ∈ t.live) :
    Holds (clearsession t (some p)) (Function.update l (t.head p) ((l (t.head p)).erase p)) ∧
      (clearsession t (some p)).view (Function.update l (t.head p) ((l (t.head p)).erase p)) =
        Sessions.clearsession (t.view l) (t.session p).toSockets := by
  have hfiled := h.toFiled.leave hp
  obtain ⟨before, after, hl, hbefore, -, hfirst⟩ := h.split hp
  have hnodup := h.nodup (t.head p)
  have hlinked := h.linked (t.head p)
  rw [hl] at hnodup hlinked
  obtain ⟨hnext, hprev⟩ := hlinked.neighbours
  have herase : (l (t.head p)).erase p = before ++ after := by
    rw [hl, List.erase_append_right _ hbefore, List.erase_cons_head]
  rw [clearsession_eq h hp]
  refine ⟨⟨⟨hfiled.nodup, hfiled.place, hfiled.live, hfiled.live_nodup, hfiled.single,
    hfiled.counters⟩, ?_⟩, ?_⟩
  · intro hash
    dsimp only
    by_cases hb : hash = t.head p
    · subst hb
      rw [Function.update_self, Function.update_self, herase]
      exact hlinked.unlink hnodup
    · rw [Function.update_of_ne hb, Function.update_of_ne hb]
      -- the neighbours are in the bucket of the session
      have hother : ∀ q ∈ l (t.head p), q ∉ l hash := fun q hq hq' =>
        hb ((h.place hash q hq').1.symm.trans (h.place _ q hq).1)
      refine ((h.linked hash).storeAt_next ?_ _).storeAt_prev ?_ _
      · intro q hq
        rw [hprev] at hq
        refine hother q ?_
        rw [hl]
        exact List.mem_append_left _ (List.mem_of_getLast? hq)
      · intro q hq
        rw [hnext] at hq
        refine hother q ?_
        rw [hl]
        exact List.mem_append_right _ (List.mem_cons_of_mem p (List.mem_of_mem_head? hq))
  · have hfound : Sessions.getsession (t.view l) (t.session p).toSockets = some (t.session p) := by
      rw [getsession_refines, h.find?_eq_some_iff.mpr ⟨hp, rfl⟩, Option.map_some]
    rw [Sessions.clearsession, hfound]
    simp only [SessionMemory.view, SessionTable.mk.injEq, and_true]
    funext hash
    rw [← h.head_eq hp]
    by_cases hb : hash = t.head p
    · subst hb
      rw [Function.update_self, Function.update_self, herase, hl, List.map_append, List.map_append,
        List.eraseP_append_right, List.map_cons, List.eraseP_cons_of_pos (by simp)]
      intro s hs
      obtain ⟨q, hq, rfl⟩ := List.mem_map.mp hs
      simpa using hfirst q hq
    · rw [Function.update_of_ne hb, Function.update_of_ne hb]

/-! ### Writing -/

/-- A write to one session, by what it does to each. -/
theorem write_session {β : Type} {g : Session → β} {f : Session → Session}
    (hg : ∀ s, g (f s) = g s) (t : SessionMemory) (p q : Ptr) :
    g ((write t p f).session q) = g (t.session q) := by
  rw [write]
  by_cases hq : q = p
  · subst hq
    dsimp only
    rw [Function.update_self, hg]
  · dsimp only
    rw [Function.update_of_ne hq]

/-- The first element that satisfies the test is the one behind those that do not. -/
theorem updateFirst_append {α : Type} {test : α → Bool} {f : α → α} {l₁ : List α}
    (h : ∀ x ∈ l₁, test x = false) {x : α} (hx : test x = true) (l₂ : List α) :
    updateFirst test f (l₁ ++ x :: l₂) = l₁ ++ f x :: l₂ := by
  induction l₁ with
  | nil => rw [List.nil_append, updateFirst, if_pos hx, List.nil_append]
  | cons y l₁ ih =>
    rw [List.cons_append, updateFirst, if_neg (by simp [h y List.mem_cons_self]),
      ih fun z hz => h z (List.mem_cons_of_mem y hz), List.cons_append]

/-- **A write** to the other fields of a session does at the pointers what it does at the
lists. -/
theorem write_refines (h : Holds t l) (hp : p ∈ t.live) {f : Session → Session}
    (hsock : ∀ s, (f s).toSockets = s.toSockets) (hqueue : ∀ s, (f s).queue = s.queue) :
    Holds (write t p f) l ∧
      (write t p f).view l = (t.view l).update (t.session p).toSockets f := by
  refine ⟨⟨⟨h.nodup, ?_, h.live, h.live_nodup, ?_, ?_⟩, h.linked⟩, ?_⟩
  · intro hash q hq
    rw [write_session hsock]
    exact h.place hash q hq
  · intro q hq r hr
    rw [write_session hsock, write_session hsock]
    exact h.single q hq r hr
  · intro queue
    simp only [write_session hqueue]
    exact h.counters queue
  · obtain ⟨before, after, hl, hbefore, hafter, hfirst⟩ := h.split hp
    simp only [SessionMemory.view, SessionTable.update, SessionTable.mk.injEq, write, and_true]
    funext hash
    rw [← h.head_eq hp]
    by_cases hb : hash = t.head p
    · subst hb
      have hnodup := h.nodup (t.head p)
      rw [hl] at hnodup
      have hsplit := List.nodup_append.mp hnodup
      rw [Function.update_self, hl, List.map_append, List.map_append, List.map_cons, List.map_cons,
        updateFirst_append _ (by simp), hsplit.1.map_update, if_neg hbefore,
        (List.nodup_cons.mp hsplit.2.1).2.map_update, if_neg hafter, Function.update_self]
      intro s hs
      obtain ⟨q, hq, rfl⟩ := List.mem_map.mp hs
      simpa using hfirst q hq
    · have hout : p ∉ l hash := fun hmem => hb (h.place hash p hmem).1.symm
      rw [Function.update_of_ne hb, (h.nodup hash).map_update, if_neg hout]

end Lists

end Solowan.Sessions.Buckets
