/-
One round of the cleanup in a bucket (`cleanuplist`, `opennopd/subsystems/sessioncleanup.c`), at
the pointers.

The loop removes a dead session through the pointer back to it from the next one, which it has
gone on to by then.

* `cleanupLoop_eq`: the loop visits every session of the list once, and follows no pointer to a
  session that was freed.
* `cleanuplist_refines`: it does what `cleanup` does with one session after the other.
* `cleanuplist_iff`: which sessions are removed, and that those that have been idle for a minute
  are counted and no others, if and only if the clock is past its first minute or no session is
  older than that.
-/

import Solowan.Fetcher.Keepalive
import Solowan.Sessions.Buckets
import Solowan.System.Box

namespace Solowan.System

open Solowan.Memory Solowan.Sessions Solowan.Sessions.Buckets Solowan.Fetcher

/-! ### The loop -/

/-- The keepalives for an idle session, one to each end. -/
def keepalives (s : Session) : List Keepalive :=
  [⟨s.largerIP, s.largerIPPort, s.largerIPseq, s.smallerIP, s.smallerIPPort, s.smallerIPseq⟩,
    ⟨s.smallerIP, s.smallerIPPort, s.smallerIPseq, s.largerIP, s.largerIPPort, s.largerIPseq⟩]

/-- The loop over the sessions of a list, with the keepalives it has sent. It does not go on at a
session that was freed, nor when it runs out of `fuel`. -/
def cleanupLoop (currenttime : UInt64) :
    Nat → SessionMemory → Option Ptr → List Keepalive → Option (SessionMemory × List Keepalive)
  | _, t, none, sent => some (t, sent)
  | 0, _, some _, _ => none
  | fuel + 1, t, some p, sent =>
    if p ∉ t.live then none
    else if (t.session p).deadcounter > 2 then
      match t.next p with
      | some after => cleanupLoop currenttime fuel (clearsession t (t.prev after)) (some after) sent
      | none => cleanupLoop currenttime fuel (clearsession t (some p)) none sent
    else
      let s := t.session p
      if s.lastactive < currenttime then
        let t := write t p fun s => { s with deadcounter := s.deadcounter + 1 }
        cleanupLoop currenttime fuel t (t.next p) (sent ++ keepalives s)
      else cleanupLoop currenttime fuel t (t.next p) sent

/-- `cleanuplist` on the bucket `hash`, when the clock says `now`. -/
def cleanuplist (t : SessionMemory) (hash : UInt16) (now : UInt64) (fuel : Nat) :
    Option (SessionMemory × List Keepalive) :=
  cleanupLoop (now - 60) fuel t (t.sessiontable hash).next []

/-! ### One session -/

/-- The bucket `hash` is the list `l` of live sessions. -/
structure SessionList (t : SessionMemory) (hash : UInt16) (l : List Ptr) : Prop where
  linked : Linked t.next t.prev (t.sessiontable hash) l
  nodup : l.Nodup
  head : ∀ p ∈ l, t.head p = hash
  live : ∀ p ∈ l, p ∈ t.live

/-- The session is not dead yet. -/
def kept (t : SessionMemory) (p : Ptr) : Bool := decide ((t.session p).deadcounter ≤ 2)

/-- The session is kept, and has not been active since `currenttime`. -/
def idle (currenttime : UInt64) (t : SessionMemory) (p : Ptr) : Bool :=
  kept t p && decide ((t.session p).lastactive < currenttime)

/-- What the loop does with a session. -/
def visit (currenttime : UInt64) (t : SessionMemory) (p : Ptr) : SessionMemory :=
  if kept t p then
    if idle currenttime t p then write t p fun s => { s with deadcounter := s.deadcounter + 1 } else t
  else clearsession t (some p)

section Visit

variable {t : SessionMemory} {hash : UInt16} {before after todo : List Ptr} {p q : Ptr}
  {currenttime : UInt64}

/-- A session is cleared in the middle of its list. -/
theorem SessionList.clearsession (h : SessionList t hash (before ++ p :: after)) :
    SessionList (clearsession t (some p)) hash (before ++ after) ∧
      (clearsession t (some p)).session = t.session ∧
      (clearsession t (some p)).live = t.live.erase p ∧
      (clearsession t (some p)).sessions = Function.update t.sessions (t.session p).queue
        (t.sessions (t.session p).queue - 1) := by
  have hmem : p ∈ before ++ p :: after := List.mem_append_right _ List.mem_cons_self
  have hhead := h.head p hmem
  have hl := h.linked
  rw [← hhead] at hl
  rw [clearsession_linked hl h.nodup]
  have hsub : ∀ q ∈ before ++ after, q ∈ before ++ p :: after ∧ q ≠ p := by
    have hnodup := h.nodup
    rw [List.nodup_middle, List.nodup_cons] at hnodup
    intro q hq
    refine ⟨?_, fun heq => hnodup.1 (heq ▸ hq)⟩
    exact List.perm_middle.mem_iff.mpr (List.mem_cons_of_mem p hq)
  refine ⟨⟨?_, ?_, ?_, ?_⟩, rfl, rfl, rfl⟩
  · have hout := hl.unlink h.nodup
    dsimp only
    rw [← hhead, Function.update_self]
    exact hout
  · exact (List.nodup_cons.mp (List.nodup_middle.mp h.nodup)).2
  · intro q hq
    exact h.head q (hsub q hq).1
  · intro q hq
    exact (List.mem_erase_of_ne (hsub q hq).2).mpr (h.live q (hsub q hq).1)

/-- The list without the session, if it is dead. -/
theorem SessionList.visit (h : SessionList t hash (before ++ p :: after)) (currenttime : UInt64) :
    SessionList (visit currenttime t p) hash (before ++ [p].filter (kept t) ++ after) := by
  unfold System.visit
  by_cases hkept : kept t p
  · rw [if_pos hkept, List.filter_cons_of_pos hkept, List.filter_nil, List.append_assoc,
      List.singleton_append]
    split
    · exact ⟨h.linked, h.nodup, h.head, h.live⟩
    · exact h
  · rw [if_neg hkept, List.filter_cons_of_neg hkept, List.filter_nil, List.append_nil]
    exact h.clearsession.1

/-- What a visit does to the fields of a session: nothing, unless it is the idle one. -/
theorem SessionList.visit_session (h : SessionList t hash (before ++ p :: after)) (q : Ptr) :
    (System.visit currenttime t p).session q =
      if q = p ∧ idle currenttime t p then
        { t.session q with deadcounter := (t.session q).deadcounter + 1 }
      else t.session q := by
  unfold System.visit
  by_cases hkept : kept t p
  · rw [if_pos hkept]
    split
    · rename_i hidle
      by_cases hq : q = p
      · rw [if_pos ⟨hq, hidle⟩, hq]
        exact Function.update_self ..
      · rw [if_neg fun h => hq h.1]
        exact Function.update_of_ne hq ..
    · rename_i hidle
      rw [if_neg fun h => hidle h.2]
  · have hidle : ¬ idle currenttime t p := by simp [idle, hkept]
    rw [if_neg hkept, if_neg fun h => hidle h.2, h.clearsession.2.1]

/-- The sessions that a visit frees. -/
theorem SessionList.visit_live (h : SessionList t hash (before ++ p :: after)) :
    (System.visit currenttime t p).live = t.live.diff ([p].filter fun q => !kept t q) := by
  unfold System.visit
  by_cases hkept : kept t p
  · rw [if_pos hkept, List.filter_cons_of_neg (by simp [hkept]), List.filter_nil, List.diff_nil]
    split
    · rfl
    · rfl
  · rw [if_neg hkept, List.filter_cons_of_pos (by simp [hkept]), List.filter_nil, List.diff_cons,
      List.diff_nil]
    exact h.clearsession.2.2.1

/-- The workers that lose a session. -/
theorem SessionList.visit_sessions (h : SessionList t hash (before ++ p :: after)) (queue : UInt8) :
    (System.visit currenttime t p).sessions queue = t.sessions queue -
      UInt32.ofNat ([p].countP fun q => !kept t q && decide ((t.session q).queue = queue)) := by
  unfold System.visit
  by_cases hkept : kept t p
  · rw [if_pos hkept, List.countP_cons_of_neg (by simp [hkept])]
    split
    · exact (UInt32.sub_zero _).symm
    · exact (UInt32.sub_zero _).symm
  · rw [if_neg hkept, h.clearsession.2.2.2]
    by_cases hqueue : (t.session p).queue = queue
    · rw [List.countP_cons_of_pos (by simp [hkept, hqueue]), hqueue, Function.update_self]
      rfl
    · rw [List.countP_cons_of_neg (by simp [hqueue]), Function.update_of_ne (Ne.symm hqueue)]
      exact (UInt32.sub_zero _).symm

/-- The sessions that come later look the same. -/
theorem SessionList.visit_later (h : SessionList t hash (before ++ p :: after))
    (currenttime : UInt64) :
    (∀ q ∈ after, (System.visit currenttime t p).session q = t.session q) ∧
      (∀ q ∈ after, kept (System.visit currenttime t p) q = kept t q) ∧
      ∀ q ∈ after, idle currenttime (System.visit currenttime t p) q = idle currenttime t q := by
  have hsame : ∀ q ∈ after, (System.visit currenttime t p).session q = t.session q := by
    intro q hq
    rw [h.visit_session, if_neg]
    rintro ⟨rfl, -⟩
    exact (List.nodup_cons.mp (List.nodup_append.mp h.nodup).2.1).1 hq
  refine ⟨hsame, ?_, ?_⟩
  · intro q hq
    rw [kept, hsame q hq, kept]
  · intro q hq
    rw [idle, kept, hsame q hq, idle, kept]

end Visit

/-! ### The whole list -/

section Round

variable {t : SessionMemory} {hash : UInt16} {before todo : List Ptr} {currenttime : UInt64}

/-- **The loop** ends when there is fuel for every session that is left, and it has visited each
of them. -/
theorem cleanupLoop_eq (currenttime : UInt64) (before : List Ptr)
    (h : SessionList t hash (before ++ todo)) {fuel : Nat} (hfuel : todo.length ≤ fuel)
    (sent : List Keepalive) :
    cleanupLoop currenttime fuel t todo.head? sent =
      some (todo.foldl (visit currenttime) t,
        sent ++ (todo.filter (idle currenttime t)).flatMap fun p => keepalives (t.session p)) := by
  induction todo generalizing t before fuel sent with
  | nil =>
    rw [List.head?_nil, List.filter_nil, List.flatMap_nil, List.append_nil]
    cases fuel <;> rfl
  | cons p todo ih =>
    cases fuel with
    | zero => exact absurd hfuel (Nat.not_succ_le_zero _)
    | succ fuel =>
      obtain ⟨hnext, hprev⟩ := h.linked.neighbours
      have hlive : p ∈ t.live := h.live p (List.mem_append_right _ List.mem_cons_self)
      obtain ⟨hsession, -, hidle⟩ := h.visit_later currenttime
      -- what is left to do, after the visit to `p`
      have hrest : ∀ sent, cleanupLoop currenttime fuel (visit currenttime t p) todo.head? sent =
          some (todo.foldl (visit currenttime) (visit currenttime t p), sent ++
            (todo.filter (idle currenttime t)).flatMap fun p => keepalives (t.session p)) := by
        intro sent
        rw [ih _ (h.visit currenttime) (Nat.le_of_succ_le_succ hfuel), List.filter_congr hidle,
          List.flatMap_congr fun q hq => by rw [hsession q (List.mem_of_mem_filter hq)]]
      rw [List.foldl_cons, List.head?_cons, cleanupLoop, if_neg (not_not_intro hlive)]
      by_cases hkept : kept t p
      · have hdead : ¬ (t.session p).deadcounter > 2 :=
          UInt8.not_lt.mpr (of_decide_eq_true hkept)
        rw [if_neg hdead]
        dsimp only
        by_cases hlast : (t.session p).lastactive < currenttime
        · have hi : idle currenttime t p := by simp [idle, hkept, hlast]
          have hvisit : visit currenttime t p =
              write t p fun s => { s with deadcounter := s.deadcounter + 1 } := by
            rw [visit, if_pos hkept, if_pos hi]
          rw [if_pos hlast, List.filter_cons_of_pos hi, List.flatMap_cons, ← List.append_assoc,
            ← hrest, hvisit, ← hnext]
          rfl
        · have hi : ¬ idle currenttime t p := by simp [idle, hlast]
          have hvisit : visit currenttime t p = t := by rw [visit, if_pos hkept, if_neg hi]
          rw [if_neg hlast, List.filter_cons_of_neg hi, ← hrest, hvisit, hnext]
      · have hdead : (t.session p).deadcounter > 2 := by
          rw [kept, decide_eq_true_eq, UInt8.not_le] at hkept
          exact hkept
        have hi : ¬ idle currenttime t p := by simp [idle, hkept]
        have hvisit : visit currenttime t p = clearsession t (some p) := by rw [visit, if_neg hkept]
        rw [if_pos hdead, List.filter_cons_of_neg hi, ← hrest, hvisit, hnext]
        cases todo with
        | nil => rfl
        | cons q todo =>
          -- the pointer back from the next session
          have hback : t.prev q = some p := by
            have hl := h.linked
            rw [List.append_cons] at hl
            rw [hl.neighbours.2, List.getLast?_concat]
          rw [List.head?_cons]
          dsimp only
          rw [hback]

/-- What the visits leave behind. -/
structure Visited (currenttime : UInt64) (hash : UInt16) (before todo : List Ptr)
    (t t' : SessionMemory) : Prop where
  list : SessionList t' hash (before ++ todo.filter (kept t))
  session : ∀ q, t'.session q = if q ∈ todo ∧ idle currenttime t q then
    { t.session q with deadcounter := (t.session q).deadcounter + 1 } else t.session q
  sessions : ∀ queue, t'.sessions queue = t.sessions queue -
    UInt32.ofNat (todo.countP fun p => !kept t p && decide ((t.session p).queue = queue))
  live : t'.live = t.live.diff (todo.filter fun p => !kept t p)

theorem visited_foldl (currenttime : UInt64) (before : List Ptr)
    (h : SessionList t hash (before ++ todo)) :
    Visited currenttime hash before todo t (todo.foldl (visit currenttime) t) := by
  induction todo generalizing t before with
  | nil =>
    refine ⟨by simpa using h, fun q => ?_, fun queue => ?_, List.diff_nil _⟩
    · rw [if_neg]
      · rfl
      · rintro ⟨hq, -⟩
        exact List.not_mem_nil hq
    · exact (UInt32.sub_zero _).symm
  | cons p todo ih =>
    obtain ⟨hlist, hsession, hsessions, hlive⟩ := ih _ (h.visit currenttime)
    obtain ⟨hsame, hkept, hidle⟩ := h.visit_later currenttime
    have hp : p ∉ todo := (List.nodup_cons.mp (List.nodup_append.mp h.nodup).2.1).1
    rw [List.foldl_cons]
    constructor
    case list =>
      rw [List.filter_congr hkept] at hlist
      rw [← List.singleton_append, List.filter_append, ← List.append_assoc]
      exact hlist
    case session =>
      intro q
      rw [hsession, h.visit_session]
      by_cases hq : q ∈ todo
      · have hne : q ≠ p := fun heq => hp (heq ▸ hq)
        simp [hq, hne, hidle q hq]
      · by_cases hne : q = p
        · subst hne
          simp [hq]
        · simp [hq, hne]
    case sessions =>
      intro queue
      have hlater : todo.countP (fun q => !kept (visit currenttime t p) q &&
            decide (((visit currenttime t p).session q).queue = queue)) =
          todo.countP fun q => !kept t q && decide ((t.session q).queue = queue) :=
        List.countP_congr fun q hq => by rw [hkept q hq, hsame q hq]
      have hsplit : UInt32.ofNat ((p :: todo).countP fun q =>
            !kept t q && decide ((t.session q).queue = queue)) =
          UInt32.ofNat ([p].countP fun q => !kept t q && decide ((t.session q).queue = queue)) +
            UInt32.ofNat (todo.countP fun q =>
              !kept t q && decide ((t.session q).queue = queue)) := by
        rw [← UInt32.ofNat_add, ← List.countP_append, List.singleton_append]
      rw [hsessions, hlater, h.visit_sessions, hsplit, UInt32.sub_eq_add_neg,
        UInt32.sub_eq_add_neg, UInt32.sub_eq_add_neg, UInt32.neg_add, UInt32.sub_eq_add_neg,
        UInt32.add_assoc]
    case live =>
      have hlater : todo.filter (fun q => !kept (visit currenttime t p) q) =
          todo.filter fun q => !kept t q := List.filter_congr fun q hq => by rw [hkept q hq]
      rw [hlive, hlater, h.visit_live, ← List.diff_append, ← List.filter_append,
        List.singleton_append]

end Round

/-! ### The table of lists -/

section Refines

variable {t : SessionMemory} {l : UInt16 → List Ptr} {hash : UInt16} {before todo : List Ptr}
  {p : Ptr}

theorem sessionList_of_holds (h : Holds t l) (hash : UInt16) : SessionList t hash (l hash) where
  linked := h.linked hash
  nodup := h.nodup hash
  head := fun p hp => (h.place hash p hp).1
  live := fun _ hp => h.mem_live hp

/-- A visit does what the cleanup does with the session. -/
theorem visit_refines (h : Holds t l) (hp : p ∈ t.live) (now : UInt64) :
    (kept t p = true → Holds (visit (now - 60) t p) l ∧ (visit (now - 60) t p).view l =
        cleanup (t.view l) now (t.session p).toSockets) ∧
      (kept t p = false →
        Holds (visit (now - 60) t p) (Function.update l (t.head p) ((l (t.head p)).erase p)) ∧
        (visit (now - 60) t p).view (Function.update l (t.head p) ((l (t.head p)).erase p)) =
          cleanup (t.view l) now (t.session p).toSockets) := by
  have hfound : getsession (t.view l) (t.session p).toSockets = some (t.session p) := by
    rw [Buckets.getsession_refines, h.find?_eq_some_iff.mpr ⟨hp, rfl⟩, Option.map_some]
  rw [cleanup, hfound, visit]
  dsimp only
  constructor
  · intro hkept
    have hdead : ¬ (t.session p).deadcounter > 2 := UInt8.not_lt.mpr (of_decide_eq_true hkept)
    rw [if_pos hkept, if_neg hdead]
    by_cases hlast : (t.session p).lastactive < now - 60
    · rw [if_pos hlast, if_pos (by simp [idle, hkept, hlast])]
      exact write_refines h hp (fun _ => rfl) (fun _ => rfl)
    · rw [if_neg hlast, if_neg (by simp [idle, hlast])]
      exact ⟨h, rfl⟩
  · intro hkept
    have hdead : (t.session p).deadcounter > 2 := UInt8.not_le.mp (of_decide_eq_false hkept)
    rw [if_neg (by rw [hkept]; exact Bool.false_ne_true), if_pos hdead]
    exact clearsession_refines h hp

/-- **The visits**, one session after the other. -/
theorem foldl_visit_refines (before : List Ptr) (h : Holds t l) (hl : l hash = before ++ todo) (now : UInt64) :
    Holds (todo.foldl (visit (now - 60)) t)
        (Function.update l hash (before ++ todo.filter (kept t))) ∧
      (todo.foldl (visit (now - 60)) t).view
          (Function.update l hash (before ++ todo.filter (kept t))) =
        todo.foldl (fun table q => cleanup table now (t.session q).toSockets) (t.view l) := by
  induction todo generalizing t l before with
  | nil =>
    rw [List.filter_nil, ← hl, Function.update_eq_self]
    exact ⟨h, rfl⟩
  | cons p todo ih =>
    have hlist := sessionList_of_holds h hash
    rw [hl] at hlist
    have hp : p ∈ before ++ p :: todo := List.mem_append_right _ List.mem_cons_self
    obtain ⟨hsession, hkept, -⟩ := hlist.visit_later (now - 60)
    obtain ⟨hkeep, hclear⟩ := visit_refines h (hlist.live p hp) now
    have hfold : ∀ table, todo.foldl (fun table q => cleanup table now
          ((visit (now - 60) t p).session q).toSockets) table =
        todo.foldl (fun table q => cleanup table now (t.session q).toSockets) table :=
      fun table => List.foldl_ext _ _ table fun _ q hq => by rw [hsession q hq]
    rw [List.foldl_cons, List.foldl_cons]
    cases hk : kept t p with
    | true =>
      obtain ⟨hholds, hview⟩ := hkeep hk
      have hstep := ih (before ++ [p]) hholds (by rw [hl, List.append_cons])
      rw [hfold, hview, List.filter_congr hkept, List.append_assoc, List.singleton_append] at hstep
      rw [List.filter_cons_of_pos hk]
      exact hstep
    | false =>
      obtain ⟨hholds, hview⟩ := hclear hk
      have herase : (l hash).erase p = before ++ todo := by
        have hnodup := hlist.nodup
        rw [List.nodup_middle, List.nodup_cons] at hnodup
        rw [hl, List.erase_append_right _ fun hmem => hnodup.1 (List.mem_append_left _ hmem),
          List.erase_cons_head]
      rw [hlist.head p hp, herase] at hholds hview
      have hstep := ih before hholds (Function.update_self ..)
      rw [hfold, hview, List.filter_congr hkept, Function.update_idem] at hstep
      rw [List.filter_cons_of_neg (by rw [hk]; exact Bool.false_ne_true)]
      exact hstep

/-- **A round** does with the table what the cleanup does with one session after the other. -/
theorem cleanuplist_refines (h : Holds t l) (hash : UInt16) (now : UInt64) {fuel : Nat}
    (hfuel : (l hash).length ≤ fuel) :
    ∃ t' sent, cleanuplist t hash now fuel = some (t', sent) ∧
      Holds t' (Function.update l hash ((l hash).filter (kept t))) ∧
      t'.view (Function.update l hash ((l hash).filter (kept t))) =
        (l hash).foldl (fun table p => cleanup table now (t.session p).toSockets) (t.view l) := by
  have hloop := cleanupLoop_eq (now - 60) [] (sessionList_of_holds h hash) hfuel []
  rw [← (h.linked hash).forward.head] at hloop
  exact ⟨_, _, hloop, foldl_visit_refines [] h rfl now⟩

end Refines

/-! ### What a round is for -/

/-- The session has not been active for a minute. -/
def idleForMinute (now : UInt64) (t : SessionMemory) (p : Ptr) : Bool :=
  decide ((t.session p).lastactive.toNat + 60 < now.toNat)

/-- The dead sessions are gone, each of them once, and of those that are kept the idle ones are
counted and asked at both ends. -/
structure CleanedUp (now : UInt64) (hash : UInt16) (l : List Ptr) (t t' : SessionMemory)
    (sent : List Keepalive) : Prop where
  list : SessionList t' hash (l.filter (kept t))
  session : ∀ p ∈ l, kept t p → t'.session p = if idleForMinute now t p then
    { t.session p with deadcounter := (t.session p).deadcounter + 1 } else t.session p
  other : ∀ p ∉ l, t'.session p = t.session p
  sent : sent = (l.filter fun p => kept t p && idleForMinute now t p).flatMap fun p =>
    keepalives (t.session p)
  sessions : ∀ queue, t'.sessions queue = t.sessions queue -
    UInt32.ofNat (l.countP fun p => !kept t p && decide ((t.session p).queue = queue))
  live : t'.live = t.live.diff (l.filter fun p => !kept t p)

section Purpose

variable {t : SessionMemory} {hash : UInt16} {l : List Ptr} {p : Ptr} {now : UInt64}

/-- The clock minus a minute wraps around in the first minute. -/
theorem lastactive_lt_iff (lastactive now : UInt64) : lastactive < now - 60 ↔
    (60 ≤ now.toNat ∧ lastactive.toNat + 60 < now.toNat ∨
      now.toNat < 60 ∧ lastactive.toNat + 60 < 18446744073709551616 + now.toNat) := by
  have hnow := now.toNat_lt
  have hsixty : (60 : UInt64).toNat = 60 := rfl
  rw [UInt64.lt_iff_toNat_lt, UInt64.toNat_sub, hsixty]
  omega

/-- **One round of the cleanup.** The loop ends. It removes the dead sessions of any list, and it
counts the idle ones as it should if and only if the clock is past its first minute, or what it
wraps around to is no later than any session that is kept. -/
theorem cleanuplist_iff (h : SessionList t hash l) (now : UInt64) {fuel : Nat}
    (hfuel : l.length ≤ fuel) :
    ∃ t' sent, cleanuplist t hash now fuel = some (t', sent) ∧
      (CleanedUp now hash l t t' sent ↔ 60 ≤ now.toNat ∨
        ∀ p ∈ l, kept t p →
          18446744073709551616 + now.toNat ≤ (t.session p).lastactive.toNat + 60) := by
  have hloop := cleanupLoop_eq (now - 60) [] h hfuel []
  rw [← h.linked.forward.head, List.nil_append] at hloop
  obtain ⟨hlist, hsession, hsessions, hlive⟩ :=
    visited_foldl (now - 60) [] h
  refine ⟨_, _, hloop, ?_⟩
  constructor
  · intro hclean
    by_contra hcond
    rw [not_or, not_forall] at hcond
    obtain ⟨hearly, p, hp⟩ := hcond
    rw [Classical.not_imp, Classical.not_imp] at hp
    obtain ⟨hp, hkept, hlast⟩ := hp
    have hidle : idle (now - 60) t p = true := by
      rw [idle, hkept, Bool.true_and, decide_eq_true_eq, lastactive_lt_iff]
      omega
    have hminute : ¬ idleForMinute now t p = true := by
      rw [idleForMinute, decide_eq_true_eq]
      omega
    have hcount := hclean.session p hp hkept
    rw [hsession, if_pos ⟨hp, hidle⟩, if_neg hminute] at hcount
    have hsame : (t.session p).deadcounter + 1 = (t.session p).deadcounter :=
      congrArg Session.deadcounter hcount
    rw [UInt8.add_eq_left] at hsame
    exact absurd hsame (by decide)
  · intro hcond
    have hidle : ∀ p ∈ l, idle (now - 60) t p = (kept t p && idleForMinute now t p) := by
      intro p hp
      cases hkept : kept t p with
      | false => rw [idle, hkept, Bool.false_and, Bool.false_and]
      | true =>
        rw [idle, hkept, Bool.true_and, Bool.true_and, idleForMinute, decide_eq_decide,
          lastactive_lt_iff]
        rcases hcond with hlate | hrecent
        · omega
        · have hlast := hrecent p hp hkept
          omega
    constructor
    case list => exact hlist
    case session =>
      intro p hp hkept
      rw [hsession, hidle p hp, hkept, Bool.true_and]
      simp only [hp, true_and]
    case other =>
      intro p hp
      rw [hsession, if_neg fun h => hp h.1]
    case sent => rw [List.filter_congr hidle]
    case sessions => exact hsessions
    case live => exact hlive

end Purpose

/-! ### Three sessions -/

/-- A bucket with three sessions. -/
def threeSessions (session : Ptr → Session) : SessionMemory where
  next := fun p => if p = 1 then some 2 else if p = 2 then some 3 else none
  prev := fun p => if p = 3 then some 2 else if p = 2 then some 1 else none
  head := fun _ => 0
  session := session
  live := [1, 2, 3]
  sessiontable := fun _ => ⟨some 1, some 3, 3⟩
  sessions := fun _ => 3
  numworkers := 1

theorem threeSessions_list (session : Ptr → Session) :
    SessionList (threeSessions session) 0 [1, 2, 3] where
  linked := ⟨⟨rfl, rfl, rfl, rfl⟩, ⟨rfl, rfl, rfl, rfl⟩, rfl⟩
  nodup := by decide
  head := fun _ _ => rfl
  live := fun _ hp => hp

/-- A session that was active at the time given. -/
def activeAt (lastactive : UInt64) (deadcounter : UInt8) : Session :=
  { newSession ⟨2, 2, 1, 1⟩ 0 with lastactive := lastactive, deadcounter := deadcounter }

/-- The first session and the last one are dead, the one between them is idle. -/
theorem cleanuplist_iff_ends :
    ∃ t' sent, cleanuplist (threeSessions fun p => activeAt 30 (if p = 2 then 2 else 3)) 0 100 3 =
        some (t', sent) ∧
      CleanedUp 100 0 [1, 2, 3] (threeSessions fun p => activeAt 30 (if p = 2 then 2 else 3)) t'
        sent := by
  obtain ⟨t', sent, hrun, hclean⟩ := cleanuplist_iff
    (threeSessions_list fun p => activeAt 30 (if p = 2 then 2 else 3)) 100 (Nat.le_refl 3)
  exact ⟨t', sent, hrun, hclean.mpr (Or.inl (by decide))⟩

/-- In the first minute of the clock, sessions that are active right now are counted as idle. -/
theorem active_sessions_counted :
    ¬ ∀ (t : SessionMemory) (hash : UInt16) (l : List Ptr) (now : UInt64) (fuel : Nat),
      SessionList t hash l → l.length ≤ fuel →
        ∃ t' sent, cleanuplist t hash now fuel = some (t', sent) ∧
          CleanedUp now hash l t t' sent := by
  intro hall
  obtain ⟨t', sent, hrun, hclean⟩ := hall _ 0 [1, 2, 3] 30 3
    (threeSessions_list fun _ => activeAt 30 0) (Nat.le_refl 3)
  have hsix : (cleanuplist (threeSessions fun _ => activeAt 30 0) 0 30 3).map
      (fun out => out.2.length) = some 6 := by decide
  rw [hrun] at hsix
  have hlength : sent.length = 6 := Option.some.inj hsix
  rw [hclean.sent] at hlength
  exact absurd hlength (by decide)

end Solowan.System
