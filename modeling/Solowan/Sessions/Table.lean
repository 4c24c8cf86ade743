/-
The session table (`opennopd/sessionmanager.c`).

A session is found by its two sockets, put in order by address. The table is an array of
buckets; a bucket is a list that new sessions are appended to, and a pointer to a session
is the sockets it was found by. What the threads write through such a pointer is an update
of the first session of the bucket with these sockets (`update`).

* `getsession_update`, `getsession_update_of_ne`, `getsession_insertsession`,
  `getsession_clearsession_of_ne`: the operations on one session are not seen through the
  sockets of another.
* `getsession_clearsession`: a session that was entered once is gone when it is cleared.
-/

import Mathlib.Logic.Function.Basic
import Solowan.Net.Headers

namespace Solowan.Sessions

open Solowan.Memory Solowan.Net

/-- The two ends of a connection, the larger address first. -/
structure Sockets where
  largerIP : UInt32
  largerIPPort : UInt16
  smallerIP : UInt32
  smallerIPPort : UInt16
  deriving DecidableEq, Repr

def sortSockets (saddr : UInt32) (source : UInt16) (daddr : UInt32) (dest : UInt16) : Sockets :=
  if saddr > daddr then ⟨saddr, source, daddr, dest⟩ else ⟨daddr, dest, saddr, source⟩

/-- The sockets of a packet. -/
def sockets (m : Mem) : Sockets := sortSockets (saddr m) (source m) (daddr m) (dest m)

/-- They are those of its connection. -/
theorem sockets_of_flow {m m' : Mem} (h : flow m' = flow m) : sockets m' = sockets m := by
  have h1 : saddr m' = saddr m := congrArg Flow.saddr h
  have h2 : source m' = source m := congrArg Flow.source h
  have h3 : daddr m' = daddr m := congrArg Flow.daddr h
  have h4 : dest m' = dest m := congrArg Flow.dest h
  rw [sockets, h1, h2, h3, h4, ← sockets]

/-- The source of a packet is one of the ends of its session. -/
theorem saddr_sockets (m : Mem) :
    saddr m = (sockets m).largerIP ∨ saddr m = (sockets m).smallerIP := by
  unfold sockets sortSockets
  split
  · exact Or.inl rfl
  · exact Or.inr rfl

/-- The values of `session.state` the daemon uses. -/
inductive State where
  | NONE
  | TCP_ESTABLISHED
  | TCP_SYN_SENT
  | TCP_CLOSING
  deriving DecidableEq, Repr

/-- `struct session`, with the values `client` and `server` point to. -/
structure Session extends Sockets where
  client : Option UInt32
  server : Option UInt32
  largerIPStartSEQ : UInt32
  largerIPseq : UInt32
  largerIPAccelerator : UInt32
  smallerIPStartSEQ : UInt32
  smallerIPseq : UInt32
  smallerIPAccelerator : UInt32
  lastactive : UInt64
  deadcounter : UInt8
  state : State
  queue : UInt8
  deriving DecidableEq, Repr

/-- The table, with the number of sessions of each worker and the number of workers. -/
structure SessionTable where
  sessiontable : UInt16 → List Session
  sessions : UInt8 → UInt32
  numworkers : UInt8

/-! ### Finding a session -/

def sessionhash (largerIP : UInt32) (largerIPPort : UInt16) (smallerIP : UInt32)
    (smallerIPPort : UInt16) : UInt16 :=
  let hash1 := ((largerIP ^^^ smallerIP) >>> 16).toUInt16
  let hash2 := (largerIP ^^^ smallerIP).toUInt16
  let hash3 := hash1 ^^^ hash2
  let hash4 := largerIPPort ^^^ smallerIPPort
  hash3 ^^^ hash4

/-- The bucket of a session. Every caller passes the smaller address where the larger
port is expected, and the larger port in its place. -/
def bucket (k : Sockets) : UInt16 :=
  sessionhash k.largerIP k.smallerIP.toUInt16 k.largerIPPort.toUInt32 k.smallerIPPort

def getsession (t : SessionTable) (k : Sockets) : Option Session :=
  (t.sessiontable (bucket k)).find? fun s => s.toSockets = k

/-! ### Changing the table -/

/-- Apply `f` to the first element that satisfies `p`. -/
def updateFirst {α : Type} (p : α → Bool) (f : α → α) : List α → List α
  | [] => []
  | x :: xs => if p x then f x :: xs else x :: updateFirst p f xs

/-- Write through the pointer to the session with sockets `k`. -/
def SessionTable.update (t : SessionTable) (k : Sockets) (f : Session → Session) : SessionTable :=
  { t with
    sessiontable := Function.update t.sessiontable (bucket k)
      (updateFirst (fun s => s.toSockets = k) f (t.sessiontable (bucket k))) }

/-- The worker with the fewest sessions: the loop over all workers in `insertsession`. -/
def leastLoaded (t : SessionTable) : UInt8 :=
  (List.range t.numworkers.toNat).foldl
    (fun queuenum i =>
      if t.sessions queuenum > t.sessions (UInt8.ofNat i) then UInt8.ofNat i else queuenum) 0

def newSession (k : Sockets) (queuenum : UInt8) : Session :=
  { toSockets := k
    client := none
    server := none
    largerIPStartSEQ := 0
    largerIPseq := 0
    largerIPAccelerator := 0
    smallerIPStartSEQ := 0
    smallerIPseq := 0
    smallerIPAccelerator := 0
    lastactive := 0
    deadcounter := 0
    state := .NONE
    queue := queuenum }

/-- `insertsession`; the queue is chosen here when `qnum` is -1, which is `none`. -/
def insertsession (t : SessionTable) (k : Sockets) (qnum : Option UInt8) : SessionTable :=
  let queuenum := qnum.getD (leastLoaded t)
  { t with
    sessiontable := Function.update t.sessiontable (bucket k)
      (t.sessiontable (bucket k) ++ [newSession k queuenum])
    sessions := Function.update t.sessions queuenum (t.sessions queuenum + 1) }

/-- `clearsession` on the session with sockets `k`. -/
def clearsession (t : SessionTable) (k : Sockets) : SessionTable :=
  match getsession t k with
  | none => t
  | some s =>
    { t with
      sessiontable := Function.update t.sessiontable (bucket k)
        ((t.sessiontable (bucket k)).eraseP fun s => s.toSockets = k)
      sessions := Function.update t.sessions s.queue (t.sessions s.queue - 1) }

/-! ### Fields of a session -/

def updateseq (largerIP saddr seq : UInt32) (s : Session) : Session :=
  if largerIP ≠ 0 then
    if saddr = largerIP then
      if seq ≠ s.largerIPseq - 1 then { s with largerIPStartSEQ := seq } else s
    else if seq ≠ s.smallerIPseq - 1 then { s with smallerIPStartSEQ := seq } else s
  else s

def sourceisclient (largerIP saddr daddr : UInt32) (issyn : Bool) (s : Session) : Session :=
  if largerIP ≠ 0 then
    if saddr = largerIP ∧ issyn = true ∨ daddr = largerIP ∧ issyn = false then
      { s with client := some s.largerIP, server := some s.smallerIP }
    else { s with client := some s.smallerIP, server := some s.largerIP }
  else s

def saveacceleratorid (largerIP acceleratorID saddr : UInt32) (s : Session) : Session :=
  if largerIP ≠ 0 then
    if saddr = largerIP then { s with largerIPAccelerator := acceleratorID }
    else { s with smallerIPAccelerator := acceleratorID }
  else s

def updateseqnumber (largerIP saddr seq : UInt32) (s : Session) : Session :=
  if largerIP ≠ 0 then
    if saddr = largerIP then { s with largerIPseq := seq } else { s with smallerIPseq := seq }
  else s

/-- Whether a segment is not below the last one stored for its direction. -/
def checkseqnumber (largerIP saddr seq : UInt32) (s : Session) : Bool :=
  if largerIP ≠ 0 then
    if saddr = largerIP then !decide (seq < s.largerIPseq) else !decide (seq < s.smallerIPseq)
  else false

/-- `closingsession`, on a packet with or without `fin`. -/
def closingsession (t : SessionTable) (k : Sockets) (fin : Bool) : SessionTable :=
  match getsession t k with
  | none => t
  | some s =>
    if fin then
      match s.state with
      | .TCP_ESTABLISHED => t.update k fun s => { s with state := .TCP_CLOSING }
      | .TCP_CLOSING => clearsession t k
      | _ => t
    else t

/-- What both threads do with the session when they are done with the packet: a reset
clears it, and otherwise a `fin` moves it on. -/
def endSegment (t : SessionTable) (k : Sockets) (rst fin : Bool) : SessionTable :=
  if rst then clearsession t k else closingsession t k fin

/-! ### One session at a time -/

section Lookup

variable {α : Type} {p q : α → Bool} {f : α → α}

theorem find?_updateFirst (hf : ∀ x, p x = true → p (f x) = true) (l : List α) :
    (updateFirst p f l).find? p = (l.find? p).map f := by
  induction l with
  | nil => rfl
  | cons x l ih =>
    by_cases hx : p x = true
    · rw [updateFirst, if_pos hx, List.find?_cons_of_pos (hf x hx), List.find?_cons_of_pos hx,
        Option.map_some]
    · rw [updateFirst, if_neg hx, List.find?_cons_of_neg hx, List.find?_cons_of_neg hx, ih]

theorem find?_updateFirst_of_disjoint (h : ∀ x, p x = true → q x = false ∧ q (f x) = false)
    (l : List α) : (updateFirst p f l).find? q = l.find? q := by
  induction l with
  | nil => rfl
  | cons x l ih =>
    by_cases hx : p x = true
    · obtain ⟨hq, hqf⟩ := h x hx
      rw [updateFirst, if_pos hx, List.find?_cons_of_neg (by simp [hqf]),
        List.find?_cons_of_neg (by simp [hq])]
    · rw [updateFirst, if_neg hx, List.find?_cons, List.find?_cons, ih]

theorem find?_eraseP_of_disjoint (h : ∀ x, p x = true → q x = false) (l : List α) :
    (l.eraseP p).find? q = l.find? q := by
  induction l with
  | nil => rfl
  | cons x l ih =>
    by_cases hx : p x = true
    · rw [List.eraseP_cons_of_pos hx, List.find?_cons_of_neg (by simp [h x hx])]
    · rw [List.eraseP_cons_of_neg hx, List.find?_cons, List.find?_cons, ih]

theorem countP_updateFirst (hf : ∀ x, p x = true → p (f x) = true) (l : List α) :
    (updateFirst p f l).countP p = l.countP p := by
  induction l with
  | nil => rfl
  | cons x l ih =>
    by_cases hx : p x = true
    · rw [updateFirst, if_pos hx, List.countP_cons_of_pos (hf x hx), List.countP_cons_of_pos hx]
    · rw [updateFirst, if_neg hx, List.countP_cons_of_neg hx, List.countP_cons_of_neg hx, ih]

theorem find?_eraseP_self {l : List α} (h : l.countP p ≤ 1) : (l.eraseP p).find? p = none := by
  induction l with
  | nil => rfl
  | cons x l ih =>
    by_cases hx : p x = true
    · rw [List.countP_cons_of_pos hx] at h
      rw [List.eraseP_cons_of_pos hx, List.find?_eq_none]
      exact List.countP_eq_zero.mp (by omega)
    · rw [List.countP_cons_of_neg hx] at h
      rw [List.eraseP_cons_of_neg hx, List.find?_cons_of_neg hx, ih h]

end Lookup

section Table

variable {t : SessionTable} {k k' : Sockets} {s : Session}

/-- Only the bucket of the sockets matters. -/
theorem getsession_of_bucket {l : List Session} (hne : bucket k' ≠ bucket k)
    (t : SessionTable) :
    getsession { t with sessiontable := Function.update t.sessiontable (bucket k) l } k' =
      getsession t k' := by
  simp only [getsession, Function.update_of_ne hne]

theorem getsession_update (t : SessionTable) (k : Sockets) {f : Session → Session}
    (hf : ∀ s, (f s).toSockets = s.toSockets) :
    getsession (t.update k f) k = (getsession t k).map f := by
  simp only [getsession, SessionTable.update, Function.update_self]
  apply find?_updateFirst
  intro s hs
  rw [decide_eq_true_eq] at hs ⊢
  rw [hf, hs]

theorem getsession_update_of_ne (t : SessionTable) (hne : k' ≠ k) {f : Session → Session}
    (hf : ∀ s, (f s).toSockets = s.toSockets) :
    getsession (t.update k f) k' = getsession t k' := by
  by_cases hb : bucket k' = bucket k
  · simp only [getsession, SessionTable.update, hb, Function.update_self]
    apply find?_updateFirst_of_disjoint
    intro s hs
    rw [decide_eq_true_eq] at hs
    rw [hf, hs]
    simp [hne.symm]
  · exact getsession_of_bucket hb t

/-- A new session is found when there was none. -/
theorem getsession_insertsession (h : getsession t k = none) (qnum : Option UInt8) :
    getsession (insertsession t k qnum) k =
      some (newSession k (qnum.getD (leastLoaded t))) := by
  unfold getsession at h
  simp only [getsession, insertsession, Function.update_self]
  rw [List.find?_append, h, Option.none_or, List.find?_cons_of_pos (by simp [newSession])]

theorem getsession_insertsession_of_ne (t : SessionTable) (hne : k' ≠ k) (qnum : Option UInt8) :
    getsession (insertsession t k qnum) k' = getsession t k' := by
  by_cases hb : bucket k' = bucket k
  · simp only [getsession, insertsession, hb, Function.update_self]
    rw [List.find?_append, List.find?_cons_of_neg (by simp [newSession, hne.symm]),
      List.find?_nil, Option.or_none]
  · simp only [getsession, insertsession, Function.update_of_ne hb]

theorem getsession_clearsession_of_ne (t : SessionTable) (hne : k' ≠ k) :
    getsession (clearsession t k) k' = getsession t k' := by
  unfold clearsession
  split
  · rfl
  · by_cases hb : bucket k' = bucket k
    · simp only [getsession, hb, Function.update_self]
      apply find?_eraseP_of_disjoint
      intro s hs
      rw [decide_eq_true_eq] at hs
      rw [hs]
      simp [hne.symm]
    · simp only [getsession, Function.update_of_ne hb]

/-- A write that leaves the sockets alone leaves the sockets of every bucket. -/
theorem sockets_update (t : SessionTable) (k : Sockets) {f : Session → Session}
    (hf : ∀ s, (f s).toSockets = s.toSockets) (hash : UInt16) :
    ((t.update k f).sessiontable hash).map Session.toSockets =
      (t.sessiontable hash).map Session.toSockets := by
  have hmap : ∀ l : List Session, (updateFirst (fun s => s.toSockets = k) f l).map
      Session.toSockets = l.map Session.toSockets := by
    intro l
    induction l with
    | nil => rfl
    | cons s l ih =>
      rw [updateFirst]
      split
      · rw [List.map_cons, List.map_cons, hf]
      · rw [List.map_cons, List.map_cons, ih]
  rw [SessionTable.update]
  dsimp only
  by_cases hhash : hash = bucket k
  · rw [hhash, Function.update_self, hmap]
  · rw [Function.update_of_ne hhash]

/-- At most one session has the sockets `k`. -/
def SessionTable.Single (t : SessionTable) (k : Sockets) : Prop :=
  (t.sessiontable (bucket k)).countP (fun s => s.toSockets = k) ≤ 1

theorem SessionTable.Single.update (h : t.Single k) {f : Session → Session}
    (hf : ∀ s, (f s).toSockets = s.toSockets) : (t.update k f).Single k := by
  unfold Single SessionTable.update at *
  dsimp only
  rw [Function.update_self, countP_updateFirst]
  · exact h
  · intro s hs
    rw [decide_eq_true_eq] at hs ⊢
    rw [hf, hs]

/-- A session that was not there is the only one when it has been entered. -/
theorem single_insertsession (h : getsession t k = none) (qnum : Option UInt8) :
    (insertsession t k qnum).Single k := by
  unfold SessionTable.Single insertsession
  dsimp only
  rw [Function.update_self, List.countP_append, List.countP_singleton]
  have hzero := List.countP_eq_zero.mpr (List.find?_eq_none.mp h)
  rw [hzero]
  split <;> simp

theorem getsession_clearsession (h : t.Single k) : getsession (clearsession t k) k = none := by
  unfold clearsession
  split
  · assumption
  · simp only [getsession, Function.update_self]
    exact find?_eraseP_self h

theorem getsession_endSegment_of_ne (t : SessionTable) (hne : k' ≠ k) (rst fin : Bool) :
    getsession (endSegment t k rst fin) k' = getsession t k' := by
  unfold endSegment closingsession
  repeat' split
  · exact getsession_clearsession_of_ne t hne
  · rfl
  · exact getsession_update_of_ne t hne fun _ => rfl
  · exact getsession_clearsession_of_ne t hne
  · rfl
  · rfl

end Table

section Fields

variable (largerIP saddr v : UInt32) (s : Session)

@[simp] theorem saveacceleratorid_sockets :
    (saveacceleratorid largerIP v saddr s).toSockets = s.toSockets := by
  unfold saveacceleratorid
  split
  · split <;> rfl
  · rfl

@[simp] theorem updateseqnumber_sockets :
    (updateseqnumber largerIP saddr v s).toSockets = s.toSockets := by
  unfold updateseqnumber
  split
  · split <;> rfl
  · rfl

@[simp] theorem saveacceleratorid_queue : (saveacceleratorid largerIP v saddr s).queue = s.queue := by
  unfold saveacceleratorid
  split
  · split <;> rfl
  · rfl

@[simp] theorem updateseqnumber_queue : (updateseqnumber largerIP saddr v s).queue = s.queue := by
  unfold updateseqnumber
  split
  · split <;> rfl
  · rfl

end Fields

end Solowan.Sessions
