/-
The session table as a finite map from sockets to sessions.

`Run` are the states that the session manager gets into, with the threads writing the other
fields of live sessions in between. In each of them the buckets hold lists (`Run.holds`), and
that is all that is needed for the table to be a map.

* `lookup_insertsession`, `lookup_clearsession`: the operations are those of a map.
* `sessionTable_isMap`: the lists are well formed, no sockets have two sessions, a session is
  found if and only if it is live, the workers count their sessions, and the operations are those
  of a map.
-/

import Mathlib.Data.List.Find
import Solowan.Sessions.Buckets

namespace Solowan.Sessions.Buckets

open Solowan.Memory

/-- What is known of the answer of `calloc`: the null pointer, or memory that is not in use. There
is no memory for `2 ^ 32` sessions, which would take some four hundred gigabytes. -/
structure Calloc (t : SessionMemory) (answer : Option Ptr) : Prop where
  fresh : ∀ p ∈ answer, p ∉ t.live
  room : ∀ p ∈ answer, t.live.length + 1 < 2 ^ 32

/-- The states of the session manager. -/
inductive Run : SessionMemory → Prop
  /-- The number of sessions of a bucket is zero from the start of the program, and so are the
  counters of the workers. -/
  | start {t : SessionMemory} (hqlen : ∀ hash, (t.sessiontable hash).qlen = 0)
      (hcount : ∀ queue, t.sessions queue = 0) (hlive : t.live = []) :
      Run (initializeSessiontable t)
  /-- The fetcher inserts a session when it has found none. -/
  | insert {t t' : SessionMemory} {k : Sockets} {qnum : Option UInt8} {answer r : Option Ptr}
      {fuel : Nat} (hrun : Run t) (hnone : getsession t k fuel = some none)
      (hcalloc : Calloc t answer) (hinsert : insertsession t k qnum answer = some (t', r)) : Run t'
  | clear {t : SessionMemory} {p : Ptr} (hrun : Run t) (hlive : p ∈ t.live) :
      Run (clearsession t (some p))
  | write {t : SessionMemory} {p : Ptr} {f : Session → Session} (hrun : Run t) (hlive : p ∈ t.live)
      (hsock : ∀ s, (f s).toSockets = s.toSockets) (hqueue : ∀ s, (f s).queue = s.queue) :
      Run (write t p f)

section Run

variable {t t' : SessionMemory} {l : UInt16 → List Ptr} {k : Sockets} {p : Ptr}

/-- Nothing is in the buckets of an initialized table. -/
theorem holds_start (hqlen : ∀ hash, (t.sessiontable hash).qlen = 0)
    (hcount : ∀ queue, t.sessions queue = 0) (hlive : t.live = []) :
    Holds (initializeSessiontable t) fun _ => [] := by
  constructor
  case linked =>
    intro hash
    refine ⟨rfl, rfl, ?_⟩
    exact congrArg UInt32.toNat (hqlen hash)
  case toFiled =>
    constructor
    case nodup => exact fun _ => List.nodup_nil
    case place => exact fun _ _ hp => absurd hp List.not_mem_nil
    case live => simp [initializeSessiontable, hlive]
    case live_nodup => simp [initializeSessiontable, hlive]
    case single => simp [initializeSessiontable, hlive]
    case counters => simp [initializeSessiontable, hlive, hcount]

/-- What a walk that has ended has found. -/
theorem Holds.getsession_found (h : Holds t l) {fuel : Nat} {r : Option Ptr}
    (hget : getsession t k fuel = some r) :
    r = (l (bucket k)).find? fun p => decide ((t.session p).toSockets = k) := by
  have hmore := searchFrom_add _ hget t.live.length
  have hall := h.getsession_eq k (Nat.le_add_left t.live.length fuel)
  rw [getsession, hmore] at hall
  exact Option.some.inj hall

/-- **In every state** the buckets hold lists. -/
theorem Run.holds (h : Run t) : ∃ l, Holds t l := by
  induction h with
  | start hqlen hcount hlive => exact ⟨_, holds_start hqlen hcount hlive⟩
  | @insert t t' k qnum answer r fuel _ hnone hcalloc hinsert ih =>
    obtain ⟨l, h⟩ := ih
    cases answer with
    | none =>
      cases hinsert
      exact ⟨l, h⟩
    | some p =>
      have hk : Sessions.getsession (t.view l) k = none := by
        rw [getsession_refines, ← h.getsession_found hnone, Option.map_none]
      obtain ⟨t'', hins, -, hholds, -⟩ := insertsession_refines h hk (hcalloc.fresh p rfl)
        (hcalloc.room p rfl) qnum
      rw [hinsert] at hins
      cases hins
      exact ⟨_, hholds⟩
  | clear _ hlive ih =>
    obtain ⟨l, h⟩ := ih
    exact ⟨_, (clearsession_refines h hlive).1⟩
  | write _ hlive hsock hqueue ih =>
    obtain ⟨l, h⟩ := ih
    exact ⟨l, (write_refines h hlive hsock hqueue).1⟩

/-! ### The map -/

/-- The session of the sockets `k`. -/
def SessionMemory.lookup (t : SessionMemory) (k : Sockets) : Option Ptr :=
  t.live.find? fun p => decide ((t.session p).toSockets = k)

theorem Filed.lookup_eq_some_iff (h : Filed t l) :
    t.lookup k = some p ↔ p ∈ t.live ∧ (t.session p).toSockets = k := by
  constructor
  · intro hfind
    have hsock := List.find?_some hfind
    exact ⟨List.mem_of_find?_eq_some hfind, by simpa using hsock⟩
  · rintro ⟨hp, rfl⟩
    cases hfind : t.lookup (t.session p).toSockets with
    | none =>
      have := List.find?_eq_none.mp hfind p hp
      simp at this
    | some q =>
      have hsock := List.find?_some hfind
      have hq := List.mem_of_find?_eq_some hfind
      rw [h.single q hq p hp (by simpa using hsock)]

/-- The walk through a bucket finds what the map has. -/
theorem Holds.getsession_lookup (h : Holds t l) (k : Sockets) {fuel : Nat}
    (hfuel : t.live.length ≤ fuel) : getsession t k fuel = some (t.lookup k) := by
  rw [h.getsession_eq k hfuel]
  congr 1
  refine Option.ext fun p => ?_
  rw [h.find?_eq_some_iff, h.lookup_eq_some_iff]

/-- A session is added to the map. -/
theorem lookup_insertsession (h : Holds t l) (hk : t.lookup k = none) (hp : p ∉ t.live)
    (hroom : t.live.length + 1 < 2 ^ 32) (qnum : Option UInt8) :
    ∃ t', insertsession t k qnum (some p) = some (t', some p) ∧
      t'.lookup = Function.update t.lookup k (some p) := by
  have hget := h.getsession_eq k (Nat.le_refl _)
  rw [h.getsession_lookup k (Nat.le_refl _), hk] at hget
  have hnone : Sessions.getsession (t.view l) k = none := by
    rw [getsession_refines, ← Option.some.inj hget, Option.map_none]
  obtain ⟨t', hins, hlive, hholds, -⟩ := insertsession_refines h hnone hp hroom qnum
  have hsession : t'.session = Function.update t.session p
      (newSession k (qnum.getD (leastLoaded (t.view l)))) := by
    rw [insertsession_eq (h.linked (bucket k)) qnum l] at hins
    cases hins
    rfl
  have hsame : ∀ q ∈ t.live, t'.session q = t.session q := by
    intro q hq
    rw [hsession, Function.update_of_ne]
    rintro rfl
    exact hp hq
  refine ⟨t', hins, ?_⟩
  funext k'
  rw [SessionMemory.lookup, hlive]
  by_cases hk' : k' = k
  · subst hk'
    rw [Function.update_self, List.find?_cons_of_pos]
    simp [hsession, newSession]
  · rw [Function.update_of_ne hk', List.find?_cons_of_neg]
    · rw [SessionMemory.lookup]
      apply List.find?_congr
      intro q hq
      rw [hsame q hq]
    · simp [hsession, newSession, Ne.symm hk']

/-- A session is taken off the map. -/
theorem lookup_clearsession (h : Holds t l) (hp : p ∈ t.live) :
    (clearsession t (some p)).lookup =
      Function.update t.lookup (t.session p).toSockets none := by
  obtain ⟨hholds, -⟩ := clearsession_refines h hp
  have heq := clearsession_eq h hp
  have hlive : (clearsession t (some p)).live = t.live.erase p := by rw [heq]
  have hsession : (clearsession t (some p)).session = t.session := by rw [heq]
  funext k
  refine Option.ext fun q => ?_
  rw [hholds.lookup_eq_some_iff, hlive, hsession, h.live_nodup.mem_erase_iff]
  by_cases hk : k = (t.session p).toSockets
  · rw [hk, Function.update_self]
    refine iff_of_false ?_ (by simp)
    rintro ⟨⟨hne, hq⟩, hsock⟩
    exact hne (h.single q hq p hp hsock)
  · rw [Function.update_of_ne hk, h.lookup_eq_some_iff]
    refine ⟨fun hq => ⟨hq.1.2, hq.2⟩, fun hq => ⟨⟨?_, hq.1⟩, hq.2⟩⟩
    rintro rfl
    exact hk hq.2.symm

/-- **The session table is a finite map.** In every state each bucket is a doubly linked list of
the live sessions that belong there, no two live sessions have the same sockets, the walk through
a bucket returns the session with the sockets or the null pointer, and the counter of a worker is
the number of its sessions. No operation follows the null pointer, `insertsession` adds its
session to the map and `clearsession` takes one off, and they change nothing else of it. -/
theorem sessionTable_isMap (h : Run t) :
    (∀ hash, ∃ l, Linked t.next t.prev (t.sessiontable hash) l ∧
      ∀ p, p ∈ l ↔ p ∈ t.live ∧ bucket (t.session p).toSockets = hash) ∧
    (∀ p ∈ t.live, ∀ q ∈ t.live, (t.session p).toSockets = (t.session q).toSockets → p = q) ∧
    (∀ k, (∀ fuel, t.live.length ≤ fuel → getsession t k fuel = some (t.lookup k)) ∧
      ∀ p, t.lookup k = some p ↔ p ∈ t.live ∧ (t.session p).toSockets = k) ∧
    (∀ queue, (t.sessions queue).toNat =
      t.live.countP fun p => decide ((t.session p).queue = queue)) ∧
    (∀ k qnum answer, getsession t k t.live.length = some none → Calloc t answer →
      ∃ t', insertsession t k qnum answer = some (t', answer) ∧
        t'.lookup = Function.update t.lookup k answer) ∧
    ∀ p ∈ t.live, (clearsession t (some p)).lookup =
      Function.update t.lookup (t.session p).toSockets none := by
  obtain ⟨l, h⟩ := h.holds
  refine ⟨?_, h.single, ?_, h.counters, ?_, fun p hp => lookup_clearsession h hp⟩
  · intro hash
    exact ⟨l hash, h.linked hash, fun p => h.mem_iff hash⟩
  · intro k
    exact ⟨fun fuel hfuel => h.getsession_lookup k hfuel, fun p => h.lookup_eq_some_iff⟩
  · intro k qnum answer hnone hcalloc
    rw [h.getsession_lookup k (Nat.le_refl _)] at hnone
    have hk : t.lookup k = none := Option.some.inj hnone
    cases answer with
    | none =>
      refine ⟨t, rfl, ?_⟩
      rw [← hk, Function.update_eq_self]
    | some p =>
      exact lookup_insertsession h hk (hcalloc.fresh p rfl) (hcalloc.room p rfl) qnum

end Run

/-- The table of a daemon with two workers when it starts. -/
def startMemory : SessionMemory :=
  initializeSessiontable
    ⟨fun _ => none, fun _ => none, fun _ => 0, fun _ => newSession ⟨0, 0, 0, 0⟩ 0, [],
      fun _ => ListHead.empty, fun _ => 0, 2⟩

/-- The sockets of two connections in one bucket. -/
def someSockets (port : UInt16) : Sockets := ⟨0x0a000002, port, 0x0a000001, port⟩

/-- Its first session. -/
def oneSession : SessionMemory × Option Ptr :=
  (insertsession startMemory (someSockets 80) none (some 1)).get rfl

/-- A second one behind it. -/
def twoSessions : SessionMemory × Option Ptr :=
  (insertsession oneSession.1 (someSockets 443) none (some 2)).get (by decide +kernel)

theorem twoSessions_run : Run twoSessions.1 := by
  have hstart : Run startMemory := .start (fun _ => rfl) (fun _ => rfl) rfl
  have hnone : getsession startMemory (someSockets 80) 0 = some none := rfl
  have hins : insertsession startMemory (someSockets 80) none (some 1) = some oneSession :=
    (Option.some_get _).symm
  have hone : Run oneSession.1 := by
    refine .insert hstart hnone ⟨?_, ?_⟩ hins
    · rintro p ⟨⟩
      exact List.not_mem_nil
    · rintro p ⟨⟩
      decide
  have hnone' : getsession oneSession.1 (someSockets 443) 1 = some none := by decide
  have hins' : insertsession oneSession.1 (someSockets 443) none (some 2) = some twoSessions :=
    (Option.some_get _).symm
  refine .insert hone hnone' ⟨?_, ?_⟩ hins'
  · rintro p ⟨⟩
    decide
  · rintro p ⟨⟩
    decide

/-- Two connections on two workers, and the first of them is closed. -/
theorem sessionTable_isMap_twoSessions :
    twoSessions.1.live = [2, 1] ∧
      (∀ k, (∀ fuel, twoSessions.1.live.length ≤ fuel →
        getsession twoSessions.1 k fuel = some (twoSessions.1.lookup k)) ∧
          ∀ p, twoSessions.1.lookup k = some p ↔
            p ∈ twoSessions.1.live ∧ (twoSessions.1.session p).toSockets = k) ∧
      (∀ queue, (twoSessions.1.sessions queue).toNat =
        twoSessions.1.live.countP fun p => decide ((twoSessions.1.session p).queue = queue)) ∧
      (clearsession twoSessions.1 (some 1)).lookup =
        Function.update twoSessions.1.lookup (someSockets 80) none := by
  obtain ⟨-, -, hget, hcount, -, hclear⟩ := sessionTable_isMap twoSessions_run
  exact ⟨by decide, hget, hcount, hclear 1 (by decide)⟩

end Solowan.Sessions.Buckets
