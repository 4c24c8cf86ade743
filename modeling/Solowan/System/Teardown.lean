/-
How a session ends.

The session has one state for both directions: `TCP_CLOSING` says that a FIN has come, and not
from where. The run of the box is watched for one connection: what is kept next to it are the
ends whose FIN `closingsession` has seen since the session was last established.

* `fetcherCallback_state`: the fetcher establishes a session, or opens it, or leaves it alone.
* `torn_down_by_both_ends`: in a run in which no end repeats its FIN while the session is
  closing, the session is removed only when the FINs of both have been seen.
* `repeated_fin_tears_down`: a retransmission of the first FIN removes it.
-/

import Solowan.Fetcher.Tagged
import Solowan.System.Binding
import Solowan.Worker.Closing
import Solowan.Worker.FailSafe

namespace Solowan.System

open Solowan.Memory Solowan.Dictionary Solowan.Net Solowan.Sessions Solowan.Worker Solowan.Fetcher

/-! ### The fetcher -/

/-- The guards before the two places where a session is put into `TCP_ESTABLISHED`: a SYN with
ACK, and a segment of another accelerator that has no session. -/
def establishes (f : FetcherState) (p : Delivery) : Bool :=
  let m := p.originalpacket
  p.running && decide (protocol m = IPPROTO_TCP) && decide (p.id ≠ 0) &&
    match getTcpOption m OPENNOP_OPTION with
    | none => false
    | some option =>
      (decide (option = 0) || announced m option) && ack m &&
        (syn m || (getsession f.sessions (sockets m)).isNone && decide (remoteId m option ≠ 0))

/-- The packet that is put into a queue. -/
def Queued.packet : Queued → Mem
  | .optimize _ packet => packet
  | .deoptimize _ packet => packet

section Fetcher

variable {d : Daemon} {f : FetcherState} {p : Delivery} {o : Fetched}

/-- What the fetcher can do to the states of the sessions. -/
structure Fetches (m : Mem) (established : Bool) (t t' : SessionTable) : Prop where
  state : stateOf t' (sockets m) =
      (if established then some .TCP_ESTABLISHED else stateOf t (sockets m)) ∨
    established = false ∧ stateOf t' (sockets m) = some .TCP_SYN_SENT
  others : ∀ k, k ≠ sockets m → stateOf t' k = stateOf t k
  single : ∀ k, t.Single k → t'.Single k

/-- The session of the packet is there, and the states of all others are as they were. -/
structure Opens (m : Mem) (t t' : SessionTable) : Prop where
  session : stateOf t' (sockets m) ≠ none
  others : ∀ k, k ≠ sockets m → stateOf t' k = stateOf t k
  single : ∀ k, t.Single k → t'.Single k

section Tables

variable {m : Mem} {t t' t'' : SessionTable}

theorem Fetches.of_same (h : SameStates t t') : Fetches m false t t' :=
  ⟨Or.inl (h.state _), fun k _ => h.state k, h.single⟩

theorem Opens.insert (h : getsession t (sockets m) = none) (qnum : Option UInt8) :
    Opens m t (insertsession t (sockets m) qnum) := by
  refine ⟨?_, fun k hk => stateOf_insertsession_of_ne t hk qnum, fun k hk => hk.insert h qnum⟩
  rw [stateOf, getsession_insertsession h]
  exact Option.some_ne_none _

theorem Opens.same (h : Opens m t t') (h' : SameStates t' t'') : Opens m t t'' := by
  refine ⟨?_, fun k hk => (h'.state k).trans (h.others k hk), fun k hk => h'.single k (h.single k hk)⟩
  rw [h'.state]
  exact h.session

/-- The session is put into a state, whatever else is written to it. -/
theorem Opens.write (h : Opens m t t') {state : State} {established : Bool} {g : Session → Session}
    (hsockets : ∀ s, (g s).toSockets = s.toSockets) (hwrite : ∀ s, (g s).state = state)
    (hstate : state = if established then .TCP_ESTABLISHED else .TCP_SYN_SENT) :
    Fetches m established t (t'.update (sockets m) g) := by
  refine ⟨?_, ?_, fun k hk => (h.single k hk).write _ hsockets⟩
  · have hnew : stateOf (t'.update (sockets m) g) (sockets m) = some state := by
      obtain ⟨old, hold⟩ := Option.ne_none_iff_exists'.mp h.session
      rw [stateOf, Option.map_eq_some_iff] at hold
      obtain ⟨s, hs, -⟩ := hold
      rw [stateOf, getsession_update _ _ hsockets, hs, Option.map_some, Option.map_some, hwrite]
    rw [hnew, hstate]
    cases established with
    | true => exact Or.inl rfl
    | false => exact Or.inr ⟨rfl, rfl⟩
  · intro k hk
    rw [stateOf_update_of_ne _ hk hsockets]
    exact h.others k hk

end Tables

theorem announce_edited {localID : UInt32} {queue : UInt8} {m m' : Mem} {b : Bool}
    (h : announce localID queue m = some (m', b)) : Edited m m' := by
  unfold announce at h
  split at h
  · cases h
  · dsimp only at h
    split at h
    · split at h
      · cases h
      · rename_i m₁ hset₁
        split at h
        · cases h
        · rename_i result m₂ hset₂
          cases h
          have hoptions := (edited_setTcpOption hset₁).trans (edited_setTcpOption hset₂)
          refine Edited.trans ?_ (edited_checksum _)
          split
          · exact hoptions
          · rename_i hok
            have hdoff := (setTcpOption_kept hset₂).2.2 hok
            exact (hoptions.trans (.of_same
              (sameHeaders_memcpy _ (tcph_le_tcpdata hdoff)).toSameSegment)).trans
                (.of_same (sameSegment_addTotLen _ _))
    · cases h
      exact .refl m

theorem acknowledge_edited {m m' : Mem} (h : acknowledge m = some m') : Edited m m' := by
  rw [acknowledge, Option.map_eq_some_iff] at h
  obtain ⟨⟨result, m₁⟩, hset, rfl⟩ := h
  refine Edited.trans (edited_setTcpOption hset) (Edited.trans ?_ (edited_checksum _))
  split
  · exact .refl _
  · exact .of_same (sameSegment_addTotLen _ _)

theorem quiet_openSession (k : Sockets) (m : Mem) (now : UInt64) : Quiet (openSession k m now) := by
  have hnow : Quiet fun s : Session => { s with lastactive := now } := ⟨fun _ => rfl, fun _ => rfl⟩
  exact ((hnow.comp (quiet_sourceisclient ..)).comp (quiet_updateseq ..)).comp
    (quiet_updateseqnumber ..)

/-- A SYN segment. -/
theorem synSegment_state {remoteID : UInt32} (hihl : 5 ≤ ihl p.originalpacket)
    (h : synSegment d f p remoteID = some o) :
    Fetches p.originalpacket (ack p.originalpacket) f.sessions o.state.sessions := by
  rw [synSegment] at h
  dsimp only at h
  rw [Option.map_eq_some_iff] at h
  obtain ⟨⟨m', accelerator⟩, hedit, rfl⟩ := h
  have hack : ack m' = ack p.originalpacket := by
    have hedited : Edited p.originalpacket m' := by
      split at hedit
      · rw [Option.map_eq_some_iff] at hedit
        obtain ⟨⟨m₁, b⟩, hann, heq⟩ := hedit
        cases heq
        exact announce_edited hann
      · rw [Option.map_eq_some_iff] at hedit
        obtain ⟨m₁, hack, heq⟩ := hedit
        cases heq
        exact acknowledge_edited hack
    rw [Net.ack, hedited.flags hihl, ← Net.ack]
  have hopen : Opens p.originalpacket f.sessions (opened f.sessions p.originalpacket remoteID) := by
    rw [opened]
    cases hs : getsession f.sessions (sockets p.originalpacket) with
    | some s =>
      refine ⟨?_, fun _ _ => rfl, fun _ hk => hk⟩
      rw [stateOf, hs]
      exact Option.some_ne_none _
    | none => exact .insert hs _
  have hwritten := hopen.same (.write (.refl _) (sockets p.originalpacket)
    (quiet_openSession (sockets p.originalpacket) p.originalpacket p.now))
  have hstate : (if ack m' then State.TCP_ESTABLISHED else .TCP_SYN_SENT) =
      if ack p.originalpacket then .TCP_ESTABLISHED else .TCP_SYN_SENT := by rw [hack]
  cases accelerator with
  | none => exact hwritten.write (fun _ => rfl) (fun _ => rfl) hstate
  | some v =>
    exact (hwritten.same (.write (.refl _) _ (quiet_saveacceleratorid ..))).write (fun _ => rfl)
      (fun _ => rfl) hstate

/-- **The fetcher** establishes the session of the packet where `establishes` says so. Otherwise
it may open it, and leaves the states of all others. -/
theorem fetcherCallback_state (hihl : 5 ≤ ihl p.originalpacket)
    (h : fetcherCallback d f p = some o) :
    Fetches p.originalpacket (establishes f p) f.sessions o.state.sessions := by
  have hsame : Fetches p.originalpacket false f.sessions f.sessions := .of_same (.refl _)
  rw [establishes]
  unfold fetcherCallback at h
  dsimp only at h ⊢
  split at h
  · rename_i hrun
    split at h
    · rename_i htcp
      rw [hrun, decide_eq_true htcp.1, decide_eq_true htcp.2]
      cases hopt : getTcpOption p.originalpacket OPENNOP_OPTION with
      | none =>
        rw [hopt] at h
        cases h
      | some option =>
        rw [hopt] at h
        dsimp only at h ⊢
        split at h
        · rename_i hbad
          cases h
          rw [decide_eq_false hbad.1, hbad.2]
          exact hsame
        · rename_i hgood
          have hok : (decide (option = 0) || announced p.originalpacket option) = true := by
            rcases Decidable.em (option = 0) with hzero | hne
            · rw [decide_eq_true hzero, Bool.true_or]
            · rw [decide_eq_false hne, Bool.false_or]
              simpa [hne] using hgood
          simp only [hok, Bool.true_and]
          split at h
          · rename_i hsyn
            rw [hsyn, Bool.true_or, Bool.and_true]
            have hstate := synSegment_state hihl h
            exact hstate
          · rename_i hsyn
            rw [Bool.eq_false_of_not_eq_true hsyn]
            split at h
            · rename_i s hs
              cases h
              have hactive : SameStates f.sessions (f.sessions.update (sockets p.originalpacket)
                  fun s => { s with lastactive := p.now, deadcounter := 0 }) :=
                .write (.refl _) _ ⟨fun _ => rfl, fun _ => rfl⟩
              have hknown : (getsession f.sessions (sockets p.originalpacket)).isNone = false := by
                rw [hs]
                rfl
              rw [hknown, knownSegment, Bool.false_and, Bool.or_false, Bool.and_false]
              dsimp only
              split
              · exact .of_same hactive
              · exact .of_same hactive
            · rename_i hs
              cases h
              have hunknown : (getsession f.sessions (sockets p.originalpacket)).isNone = true := by
                rw [hs]
                rfl
              rw [hunknown, unknownSegment]
              dsimp only
              split
              · rename_i hnew
                rw [hnew.1, decide_eq_true hnew.2]
                refine (Opens.insert hs _).write ?_ (fun s => ?_) rfl
                · intro s
                  rw [updateseqnumber_sockets, saveacceleratorid_sockets]
                · rw [(quiet_updateseqnumber ..).state, (quiet_saveacceleratorid ..).state]
                  rfl
              · rename_i hold
                have hfalse : (ack p.originalpacket && (false || (true &&
                    decide (remoteId p.originalpacket option ≠ 0)))) = false := by
                  simpa using hold
                rw [hfalse]
                exact hsame
    · rename_i htcp
      cases h
      have hfalse : (decide (protocol p.originalpacket = IPPROTO_TCP) && decide (p.id ≠ 0)) = false := by
        simpa using htcp
      rw [hrun, Bool.true_and, hfalse]
      exact hsame
  · rename_i hrun
    cases h
    rw [Bool.eq_false_of_not_eq_true hrun]
    exact hsame

/-- A segment of another accelerator establishes its session where there is none. -/
theorem establishes_tagged {value : UInt8} {oh : OpennopHeader} (h : Tagged p value oh) :
    establishes f p =
      (ack p.originalpacket && (getsession f.sessions (sockets p.originalpacket)).isNone) := by
  rw [establishes]
  simp [h.running, h.tcp, h.id, h.option, h.announced, h.syn, h.remoteId, h.accelerator]

/-- A packet that is put into a queue is the copy of the one that came. -/
theorem fetcherCallback_copies (h : fetcherCallback d f p = some o) {q : Queued}
    (hq : o.queued = some q) : Queued.packet q = savePacket p.originalpacket p.ret := by
  obtain ⟨option, queue, -, -, rfl⟩ := queues_of_queued h hq
  split <;> rfl

end Fetcher

/-! ### What is watched -/

/-- An end of a connection: an address and a port. -/
abbrev Endpoint := UInt32 × UInt16

def endpoints (k : Sockets) : List Endpoint :=
  [(k.largerIP, k.largerIPPort), (k.smallerIP, k.smallerIPPort)]

/-- The end that a packet comes from. -/
def endpoint (m : Mem) : Endpoint := (saddr m, source m)

/-- The packet that a thread passes to `closingsession` in a step. -/
def passed (b : Box) : Event → Option Mem
  | .optimize worker sw => if sw.on then (b.optimization worker).head? else none
  | .deoptimize worker _ => (b.deoptimization worker).head?.filter guarded
  | _ => none

/-- The end whose FIN is seen in a step. -/
def finOf (k : Sockets) (b : Box) (e : Event) : List Endpoint :=
  match passed b e with
  | none => []
  | some m => if sockets m = k ∧ fin m = true then [endpoint m] else []

/-- The session is established in a step. -/
def establishedBy (k : Sockets) (b : Box) : Event → Bool
  | .fetch p => decide (sockets p.originalpacket = k) && establishes b.fetcher p
  | _ => false

/-- The ends whose FIN has been seen since the session was last established. -/
def observe (k : Sockets) (b : Box) (e : Event) (seen : List Endpoint) : List Endpoint :=
  if establishedBy k b e then [] else seen ++ finOf k b e

/-- Steps lead from `b₀` to another state, each of which meets `cond`. Next to the state are the
ends whose FIN has been seen. -/
inductive Watched (d : Daemon) (k : Sockets) (cond : Box → List Endpoint → Event → Prop) (b₀ : Box) :
    Box → List Endpoint → Prop
  | start : Watched d k cond b₀ b₀ []
  | next {b b' : Box} {seen : List Endpoint} {e : Event} (hrun : Watched d k cond b₀ b seen)
      (hcond : cond b seen e) (hstep : step d b e = some b') :
      Watched d k cond b₀ b' (observe k b e seen)

/-- The headers of a packet are there, and on the connection `k` it is no reset. -/
structure Orderly (k : Sockets) (m : Mem) : Prop where
  headed : Headed m
  rst : sockets m = k → rst m = false

/-- What comes in are segments that have been received with their headers, none of them a reset of
the connection, and the cleanup leaves it alone. -/
def Segments (k : Sockets) : Event → Prop
  | .fetch p => Orderly k p.originalpacket ∧ tcph p.originalpacket + TCPHDR ≤ p.ret
  | .cleanup _ k' => k' ≠ k
  | _ => True

/-- A FIN that is seen while the session is closing comes from an end that has not sent one. -/
def OtherEnd (k : Sockets) (b : Box) (seen : List Endpoint) (e : Event) : Prop :=
  stateOf b.fetcher.sessions k = some .TCP_CLOSING → ∀ x ∈ finOf k b e, x ∉ seen

/-- What a step of an orderly run meets. -/
structure Closes (k : Sockets) (b : Box) (seen : List Endpoint) (e : Event) : Prop where
  segments : Segments k e
  other : OtherEnd k b seen e

/-- A packet comes from an end of its connection. -/
theorem endpoint_mem (m : Mem) : endpoint m ∈ endpoints (sockets m) := by
  rw [endpoint, endpoints, sockets, sortSockets]
  split
  · exact List.mem_cons_self
  · exact List.mem_cons_of_mem _ List.mem_cons_self

/-- Two ends are all. -/
theorem endpoints_subset {k : Sockets} {x y : Endpoint} (hx : x ∈ endpoints k) (hy : y ∈ endpoints k)
    (hne : y ≠ x) : ∀ z ∈ endpoints k, z ∈ [x, y] := by
  simp only [endpoints, List.mem_cons, List.not_mem_nil, or_false] at hx hy ⊢
  rcases hx with rfl | rfl <;> rcases hy with rfl | rfl
  · exact absurd rfl hne
  · exact fun z hz => hz
  · exact fun z hz => hz.symm
  · exact absurd rfl hne

theorem finOf_cases (k : Sockets) (b : Box) (e : Event) :
    finOf k b e = [] ∨ ∃ x ∈ endpoints k, finOf k b e = [x] := by
  rw [finOf]
  split
  · exact Or.inl rfl
  · rename_i m _
    split
    · rename_i hfin
      rw [← hfin.1]
      exact Or.inr ⟨endpoint m, endpoint_mem m, rfl⟩
    · exact Or.inl rfl

section Copies

variable {k : Sockets} {m : Mem}

theorem Orderly.of_same {m' : Mem} (h : Orderly k m) (hsame : SameHeaders m m') : Orderly k m' := by
  have hedited : Edited m m' := .of_same hsame.toSameSegment
  refine ⟨⟨?_, hedited.doff h.headed.doff⟩, ?_⟩
  · rw [hedited.kept.ihl]
    exact h.headed.ihl
  · intro hk
    rw [Net.rst, hedited.flags h.headed.ihl, ← Net.rst]
    exact h.rst ((hedited.sockets h.headed.ihl).symm.trans hk)

/-- A packet is copied with its headers. -/
theorem sameHeaders_savePacket {ret : Nat} (h : tcph m + TCPHDR ≤ ret) :
    SameHeaders m (savePacket m ret) :=
  sameHeaders_of_apply fun _ hi => savePacket_apply (Nat.lt_of_lt_of_le hi h)

end Copies

section Cleanup

variable {t : SessionTable} {k k' : Sockets}

theorem stateOf_cleanup_of_ne (t : SessionTable) (now : UInt64) (hne : k ≠ k') :
    stateOf (cleanup t now k') k = stateOf t k := by
  unfold cleanup
  repeat' split
  · rfl
  · rw [stateOf, getsession_clearsession_of_ne t hne, stateOf]
  · exact stateOf_update_of_ne t hne fun _ => rfl
  · rfl

theorem single_cleanup (h : t.Single k) (now : UInt64) (k' : Sockets) :
    (cleanup t now k').Single k := by
  unfold cleanup
  repeat' split
  · exact h
  · exact h.clear k'
  · exact h.write k' fun _ => rfl
  · exact h

end Cleanup

/-! ### What a step does to the session -/

/-- The packets in the queues are orderly. -/
structure Box.Orderly (b : Box) (k : Sockets) : Prop where
  optimization : ∀ worker, ∀ m ∈ b.optimization worker, System.Orderly k m
  deoptimization : ∀ worker, ∀ m ∈ b.deoptimization worker, System.Orderly k m

/-- What a step can do to the state of a session: it is established, or opened, or moved on by a
FIN. -/
structure Moves (k : Sockets) (b : Box) (e : Event) (b' : Box) : Prop where
  state : establishedBy k b e = true ∧ stateOf b'.fetcher.sessions k = some .TCP_ESTABLISHED ∨
    establishedBy k b e = false ∧
      (finOf k b e = [] ∧ stateOf b'.fetcher.sessions k = some .TCP_SYN_SENT ∨
      stateOf b'.fetcher.sessions k =
        if finOf k b e = [] then stateOf b.fetcher.sessions k
        else afterFin (stateOf b.fetcher.sessions k))
  single : b'.fetcher.sessions.Single k
  queues : b'.Orderly k

section Moves

variable {d : Daemon} {k : Sockets} {b b' : Box}

/-- A packet is added to a queue, or taken from it. -/
theorem orderly_update {queues : UInt8 → List Mem} (h : ∀ worker, ∀ m ∈ queues worker, Orderly k m)
    (queue : UInt8) {packets : List Mem} (hpackets : ∀ m ∈ packets, Orderly k m) :
    ∀ worker, ∀ m ∈ Function.update queues queue packets worker, Orderly k m := by
  intro worker
  by_cases hw : worker = queue
  · rw [hw, Function.update_self]
    exact hpackets
  · rw [Function.update_of_ne hw]
    exact h worker

theorem Box.Orderly.enqueue (h : b.Orderly k) {queued : Option Queued}
    (hq : ∀ q, queued = some q → System.Orderly k (Queued.packet q)) : (b.enqueue queued).Orderly k := by
  have hadded : ∀ (l : List Mem) (m : Mem), (∀ m ∈ l, System.Orderly k m) → System.Orderly k m →
      ∀ m' ∈ l ++ [m], System.Orderly k m' := by
    intro l m hl hm m' hm'
    rcases List.mem_append.mp hm' with hin | hin
    · exact hl m' hin
    · rw [List.mem_singleton.mp hin]
      exact hm
  cases queued with
  | none => exact h
  | some q =>
    cases q with
    | optimize queue packet =>
      exact ⟨orderly_update h.optimization queue (hadded _ _ (h.optimization queue) (hq _ rfl)),
        h.deoptimization⟩
    | deoptimize queue packet =>
      exact ⟨h.optimization,
        orderly_update h.deoptimization queue (hadded _ _ (h.deoptimization queue) (hq _ rfl))⟩

theorem sessions_enqueue (b : Box) (queued : Option Queued) :
    (b.enqueue queued).fetcher = b.fetcher := by
  cases queued with
  | none => rfl
  | some q => cases q <;> rfl

/-- A packet comes in. -/
theorem fetchStep_moves {p : Delivery} (hseg : Segments k (.fetch p))
    (hsingle : b.fetcher.sessions.Single k) (hqueues : b.Orderly k) (h : step d b (.fetch p) = some b') : Moves k b (.fetch p) b' := by
  obtain ⟨hp, hret⟩ := hseg
  rw [step, fetchStep, Option.map_eq_some_iff] at h
  obtain ⟨o, ho, rfl⟩ := h
  have hfetch := fetcherCallback_state hp.headed.ihl ho
  have hbox : Box.Orderly { b with fetcher := o.state } k :=
    ⟨hqueues.optimization, hqueues.deoptimization⟩
  refine ⟨?_, ?_, hbox.enqueue ?_⟩
  · rw [sessions_enqueue, establishedBy]
    dsimp only
    by_cases hk : sockets p.originalpacket = k
    · rw [decide_eq_true hk, Bool.true_and, ← hk]
      rcases hfetch.state with hstate | ⟨hno, hstate⟩
      · cases hest : establishes b.fetcher p with
        | true =>
          rw [hest] at hstate
          exact Or.inl ⟨rfl, hstate⟩
        | false =>
          rw [hest] at hstate
          exact Or.inr ⟨rfl, Or.inr hstate⟩
      · exact Or.inr ⟨hno, Or.inl ⟨rfl, hstate⟩⟩
    · rw [decide_eq_false hk, Bool.false_and]
      exact Or.inr ⟨rfl, Or.inr (hfetch.others k (Ne.symm hk))⟩
  · rw [sessions_enqueue]
    exact hfetch.single k hsingle
  · intro q hq
    rw [fetcherCallback_copies ho hq]
    exact hp.of_same (sameHeaders_savePacket hret)

/-- A thread is done with a packet. -/
theorem thread_state {m : Mem} {looked : Bool} {t t' : SessionTable} (hsingle : t.Single k)
    (hm : Orderly k m)
    (h : (looked = false ∧ t' = t) ∨ looked = true ∧ ∃ t₁, SameStates t t₁ ∧
      t' = endSegment t₁ (sockets m) (rst m) (fin m)) :
    t'.Single k ∧ stateOf t' k =
      if looked = true ∧ sockets m = k ∧ fin m = true then afterFin (stateOf t k)
      else stateOf t k := by
  rcases h with ⟨hoff, rfl⟩ | ⟨hon, t₁, hsame, rfl⟩
  · rw [if_neg (by rw [hoff]; exact fun h => Bool.false_ne_true h.1)]
    exact ⟨hsingle, rfl⟩
  · have hsingle₁ := hsame.single k hsingle
    refine ⟨hsingle₁.endSegment _ _ _, ?_⟩
    by_cases hk : sockets m = k
    · rw [hk, hm.rst hk, stateOf_endSegment hsingle₁, hsame.state]
      cases fin m with
      | true => rw [if_pos rfl, if_pos ⟨hon, rfl, rfl⟩]
      | false => rw [if_neg Bool.false_ne_true, if_neg (fun h => Bool.false_ne_true h.2.2)]
    · rw [stateOf_endSegment_of_ne _ (Ne.symm hk), hsame.state, if_neg (fun h => hk h.2.1)]

theorem orderly_tail {m : Mem} {packets rest : List Mem} (h : ∀ m ∈ packets, Orderly k m)
    (hpackets : packets = m :: rest) : Orderly k m ∧ ∀ m ∈ rest, Orderly k m := by
  rw [hpackets] at h
  exact ⟨h m List.mem_cons_self, fun m' hm' => h m' (List.mem_cons_of_mem m hm')⟩

/-- The FIN of a step is that of the packet a thread has taken. -/
theorem finOf_eq_nil {e : Event} {m : Mem} {looked : Bool}
    (hpassed : passed b e = if looked then some m else none) :
    finOf k b e = [] ↔ ¬ (looked = true ∧ sockets m = k ∧ fin m = true) := by
  rw [finOf, hpassed]
  cases looked with
  | false => simp
  | true => simp

theorem Moves.of_thread {e : Event} (m : Mem) (looked : Bool) (hest : establishedBy k b e = false)
    (hpassed : passed b e = if looked then some m else none) (hqueues : b'.Orderly k)
    (h : b'.fetcher.sessions.Single k ∧ stateOf b'.fetcher.sessions k =
      if looked = true ∧ sockets m = k ∧ fin m = true then afterFin (stateOf b.fetcher.sessions k)
      else stateOf b.fetcher.sessions k) : Moves k b e b' := by
  refine ⟨Or.inr ⟨hest, Or.inr ?_⟩, h.1, hqueues⟩
  rw [h.2]
  have hfin := finOf_eq_nil (k := k) hpassed
  by_cases hclose : looked = true ∧ sockets m = k ∧ fin m = true
  · rw [if_pos hclose, if_neg (fun hnil => hfin.mp hnil hclose)]
  · rw [if_neg hclose, if_pos (hfin.mpr hclose)]

/-- **A step of the box.** -/
theorem step_moves {e : Event} (hseg : Segments k e) (hsingle : b.fetcher.sessions.Single k)
    (hqueues : b.Orderly k) (h : step d b e = some b') : Moves k b e b' := by
  cases step_turn h with
  | fetch => exact fetchStep_moves hseg hsingle hqueues h
  | @optimize worker sw m rest o _ hq ho =>
    obtain ⟨hm, hrest⟩ := orderly_tail (hqueues.optimization worker) hq
    have hcloses := optimizationStep_closes (a := ⟨m, b.fetcher.sessions, b.shared, sw⟩)
      hm.headed.ihl ho
    refine .of_thread m sw.on rfl ?_ ⟨orderly_update hqueues.optimization worker hrest,
      hqueues.deoptimization⟩ (thread_state hsingle hm hcloses)
    rw [passed, hq]
    rfl
  | @deoptimize worker sw t m rest o _ _ hq ho =>
    obtain ⟨hm, hrest⟩ := orderly_tail (hqueues.deoptimization worker) hq
    have hcloses := deoptimizationStep_closes (a := ⟨m, b.fetcher.sessions, b.shared, sw⟩)
      hm.headed ho
    refine .of_thread m (guarded m) rfl ?_ ⟨hqueues.optimization,
      orderly_update hqueues.deoptimization worker hrest⟩ (thread_state hsingle hm hcloses)
    rw [passed, hq, List.head?_cons, Option.filter_some]
  | @cleanup now k' =>
    have hk : k ≠ k' := Ne.symm hseg
    refine ⟨Or.inr ⟨rfl, Or.inr ?_⟩, ?_, ⟨hqueues.optimization, hqueues.deoptimization⟩⟩
    · exact stateOf_cleanup_of_ne _ now hk
    · exact single_cleanup hsingle now k'

end Moves

/-! ### The ends that have been seen -/

/-- What the state of a session says about the ends whose FIN has been seen. -/
structure Accounts (k : Sockets) (b : Box) (seen : List Endpoint) : Prop where
  established : stateOf b.fetcher.sessions k = some .TCP_ESTABLISHED → seen = []
  closing : stateOf b.fetcher.sessions k = some .TCP_CLOSING → ∃ x ∈ endpoints k, seen = [x]
  single : b.fetcher.sessions.Single k
  queues : b.Orderly k

section Accounts

variable {d : Daemon} {k : Sockets} {b b' : Box} {seen : List Endpoint} {e : Event}

theorem Initial.accounts (h : Initial b) (k : Sockets) : Accounts k b [] := by
  have hnone : stateOf b.fetcher.sessions k = none := by
    rw [h.sessions]
    rfl
  constructor
  · exact fun _ => rfl
  · rw [hnone]
    exact fun h => by cases h
  · rw [h.sessions]
    exact Nat.zero_le 1
  · constructor
    · intro worker
      rw [h.optimization]
      exact fun m hm => by cases hm
    · intro worker
      rw [h.deoptimization]
      exact fun m hm => by cases hm

/-- A step keeps the account. -/
theorem Accounts.step (h : Accounts k b seen) (hseg : Segments k e)
    (hstep : System.step d b e = some b') : Accounts k b' (observe k b e seen) := by
  obtain ⟨hstate, hsingle, hqueues⟩ := step_moves hseg h.single h.queues hstep
  rcases hstate with ⟨hest, hstate⟩ | ⟨hest, hstate⟩
  · rw [observe, if_pos hest]
    refine ⟨fun _ => rfl, ?_, hsingle, hqueues⟩
    rw [hstate]
    exact fun h => by cases h
  · rw [observe, hest, if_neg Bool.false_ne_true]
    rcases hstate with ⟨-, hopen⟩ | hstate
    · refine ⟨?_, ?_, hsingle, hqueues⟩
      · rw [hopen]
        exact fun h => by cases h
      · rw [hopen]
        exact fun h => by cases h
    · rcases finOf_cases k b e with hnil | ⟨x, hx, hfin⟩
      · rw [hnil, if_pos rfl] at hstate
        rw [hnil, List.append_nil]
        refine ⟨?_, ?_, hsingle, hqueues⟩
        · rw [hstate]
          exact h.established
        · rw [hstate]
          exact h.closing
      · rw [hfin, if_neg (List.cons_ne_nil _ _)] at hstate
        rw [hfin]
        refine ⟨?_, ?_, hsingle, hqueues⟩
        · rw [hstate]
          exact fun habs => absurd habs (afterFin_ne_established _)
        · rw [hstate]
          intro hclosing
          rw [h.established (afterFin_eq_closing hclosing), List.nil_append]
          exact ⟨x, hx, rfl⟩

theorem Watched.mono {cond cond' : Box → List Endpoint → Event → Prop} {b₀ : Box}
    (h : Watched d k cond b₀ b seen) (hmono : ∀ b seen e, cond b seen e → cond' b seen e) :
    Watched d k cond' b₀ b seen := by
  induction h with
  | start => exact .start
  | next _ hcond hstep ih => exact ih.next (hmono _ _ _ hcond) hstep

theorem Watched.accounts {cond : Box → List Endpoint → Event → Prop} {b₀ : Box}
    (h : Watched d k cond b₀ b seen) (hstart : Initial b₀)
    (hseg : ∀ b seen e, cond b seen e → Segments k e) : Accounts k b seen := by
  induction h with
  | start => exact hstart.accounts k
  | next hrun hcond hstep ih => exact ih.step (hseg _ _ _ hcond) hstep

theorem observe_fetch (k : Sockets) (b : Box) (p : Delivery) : observe k b (.fetch p) [] = [] := by
  rw [observe]
  split <;> rfl

/-- A FIN that a thread has taken. -/
theorem Watched.fin_moves {b₀ : Box} {worker : UInt8} {sw : Switches} {x : Endpoint}
    (h : Watched d k (Closes k) b₀ b seen) (hstart : Initial b₀)
    (hstep : step d b (.deoptimize worker sw) = some b')
    (hfin : finOf k b (.deoptimize worker sw) = [x]) :
    stateOf b'.fetcher.sessions k = afterFin (stateOf b.fetcher.sessions k) := by
  have hb := h.accounts hstart fun _ _ _ hcond => hcond.segments
  have hseg : Segments k (.deoptimize worker sw) := trivial
  obtain ⟨hstate, -, -⟩ := step_moves hseg hb.single hb.queues hstep
  rw [hfin, if_neg (List.cons_ne_nil _ _)] at hstate
  rcases hstate with ⟨habs, -⟩ | ⟨-, ⟨habs, -⟩ | hstate⟩
  · cases habs
  · cases habs
  · exact hstate

/-- **A session is removed when both ends have closed**, in every run in which no end repeats its
FIN while the session is closing. -/
theorem torn_down_by_both_ends (d : Daemon) (k : Sockets) {b₀ b b' : Box} {seen : List Endpoint}
    {e : Event} (hstart : Initial b₀) (hrun : Watched d k (Closes k) b₀ b seen)
    (hcond : Closes k b seen e) (hstep : step d b e = some b')
    (hsession : getsession b.fetcher.sessions k ≠ none)
    (hgone : getsession b'.fetcher.sessions k = none) :
    ∀ x ∈ endpoints k, x ∈ seen ++ finOf k b e := by
  have h := hrun.accounts hstart fun _ _ _ hcond => hcond.segments
  have hbefore : stateOf b.fetcher.sessions k ≠ none := by
    rw [stateOf]
    simpa using hsession
  have hafter : stateOf b'.fetcher.sessions k = none := by rw [stateOf, hgone, Option.map_none]
  obtain ⟨hstate, -, -⟩ := step_moves hcond.segments h.single h.queues hstep
  rw [hafter] at hstate
  rcases hstate with ⟨-, habs⟩ | ⟨-, ⟨-, habs⟩ | hstate⟩
  · cases habs
  · cases habs
  · rcases finOf_cases k b e with hnil | ⟨y, hy, hfin⟩
    · rw [hnil, if_pos rfl] at hstate
      exact absurd hstate.symm hbefore
    · rw [hfin, if_neg (List.cons_ne_nil _ _)] at hstate
      have hclosing := afterFin_eq_none hstate.symm hbefore
      obtain ⟨x, hx, hseen⟩ := h.closing hclosing
      have hne : y ≠ x := by
        rintro rfl
        refine hcond.other hclosing y ?_ ?_
        · rw [hfin]
          exact List.mem_cons_self
        · rw [hseen]
          exact List.mem_cons_self
      rw [hseen, hfin]
      exact endpoints_subset hx hy hne

end Accounts

/-! ### Two FINs -/

/-- A FIN from another accelerator, of the connection of two hosts: from the first, or from the
second in `reply`. -/
def finSegment (reply : Bool) : List UInt8 :=
  if reply then taggedSegment 2 1 0x11 1000 (synHeader 88 0) []
  else taggedSegment 1 2 0x11 1000 (synHeader 88 0) []

/-- The copy of it that a thread gets. -/
def finCopy (reply : Bool) : Mem :=
  savePacket (ofList (finSegment reply)) (finSegment reply).length

def finSockets : Sockets := sockets (ofList (finSegment false))

def finEnd (reply : Bool) : Endpoint := endpoint (ofList (finSegment reply))

section Fins

variable (reply : Bool)

theorem finSegment_segment :
    Segment (ofList (finSegment reply)) 5 (flow (ofList (finSegment reply))) 1000
      (shortOption OPENNOP_OPTION 1 ++ [0]) ((synHeader 88 0).bytes ++ []) := by
  cases reply with
  | false => refine ⟨?_, ?_, rfl, ?_, ?_, ?_, ?_, ?_⟩ <;> decide
  | true => refine ⟨?_, ?_, rfl, ?_, ?_, ?_, ?_, ?_⟩ <;> decide

theorem finSegment_tagged : Tagged (deliveryOf (finSegment reply)) 1 (synHeader 88 0) := by
  have hid : (deliveryOf (finSegment reply)).id ≠ 0 := show (1 : UInt32) ≠ 0 by decide
  refine .of_segment (finSegment_segment reply) (by decide) rfl (by decide) rfl ?_ hid ?_
  · cases reply <;> decide
  · cases reply <;> decide

theorem finSegment_flags : ack (ofList (finSegment reply)) = true ∧
    rst (ofList (finSegment reply)) = false ∧ fin (ofList (finSegment reply)) = true := by
  cases reply <;> decide

theorem finSegment_sockets : sockets (ofList (finSegment reply)) = finSockets := by
  cases reply with
  | false => rfl
  | true => decide

theorem finSegment_segments : Segments finSockets (.fetch (deliveryOf (finSegment reply))) := by
  refine ⟨⟨⟨?_, ?_⟩, fun _ => (finSegment_flags reply).2.1⟩, ?_⟩
  · cases reply <;> decide
  · cases reply <;> decide
  · cases reply <;> decide

theorem finCopy_segment :
    Segment (finCopy reply) 5 (flow (ofList (finSegment reply))) 1000
      (shortOption OPENNOP_OPTION 1 ++ [0]) ((synHeader 88 0).bytes ++ []) :=
  segment_savePacket (finSegment_segment reply) (by cases reply <;> decide)

theorem finCopy_sockets : sockets (finCopy reply) = finSockets :=
  (segment_sockets (finSegment_segment reply) (finCopy_segment reply)).trans
    (finSegment_sockets reply)

theorem finCopy_flow : flow (finCopy reply) = flow (ofList (finSegment reply)) :=
  (finCopy_segment reply).flow

/-- A thread that takes it passes it to `closingsession`, with the end it comes from. -/
theorem finOf_finCopy {b : Box} {rest : List Mem} (sw : Switches)
    (h : b.deoptimization 0 = finCopy reply :: rest) :
    finOf finSockets b (.deoptimize 0 sw) = [finEnd reply] := by
  obtain ⟨hget, hann, -⟩ := announced_segment (finCopy_segment reply) (by decide) rfl
  have hguarded : guarded (finCopy reply) = true := by
    rw [guarded, hget]
    exact hann
  have hfin : fin (finCopy reply) = true := by
    rw [fin, segment_flags (finSegment_segment reply) (finCopy_segment reply), ← fin]
    exact (finSegment_flags reply).2.2
  have hend : endpoint (finCopy reply) = finEnd reply := by
    have hflow := finCopy_flow reply
    have haddr : saddr (finCopy reply) = saddr (ofList (finSegment reply)) := congrArg Flow.saddr hflow
    have hport : source (finCopy reply) = source (ofList (finSegment reply)) :=
      congrArg Flow.source hflow
    rw [endpoint, haddr, hport, finEnd, endpoint]
  rw [finOf, passed, h, List.head?_cons, Option.filter_some, if_pos hguarded]
  dsimp only
  rw [if_pos ⟨finCopy_sockets reply, hfin⟩, hend]

/-- A box whose first worker waits for `packets`, and knows the connection in a state. -/
structure Waiting (b : Box) (packets : List Mem) (state : State) : Prop where
  bound : b.BoundTo 2
  queue : b.deoptimization 0 = packets
  thread : ∃ t, b.deoptimizers 0 = some t
  session : ∃ s, getsession b.fetcher.sessions finSockets = some s ∧ s.queue = 0
  state : stateOf b.fetcher.sessions finSockets = some state

theorem finSegment_names_worker {b : Box} (h : b.BoundTo 2) :
    PeerNamesWorker b (.fetch (deliveryOf (finSegment reply))) := by
  intro _
  rw [(finSegment_tagged reply).header, h.numworkers]
  decide

/-- The first FIN comes in, and a session is entered for it. -/
theorem fin_enters (d : Daemon) :
    ∃ b, step d twoWorkers (.fetch (deliveryOf (finSegment reply))) = some b ∧
      Waiting b [finCopy reply] .TCP_ESTABLISHED := by
  have hbound : twoWorkers.BoundTo 2 := by
    refine ⟨rfl, ⟨?_, fun _ _ => rfl⟩, fun _ _ => rfl, fun _ _ => rfl⟩
    intro hash s hs
    cases hs
  have htagged := finSegment_tagged reply
  have hack := (finSegment_flags reply).1
  obtain ⟨o, s, ho, hq, hs, hqueue, -⟩ :=
    fetcherCallback_entered (d := d) (f := twoWorkers.fetcher) htagged hack rfl
  have hstep : step d twoWorkers (.fetch (deliveryOf (finSegment reply))) =
      some ({ twoWorkers with fetcher := o.state }.enqueue o.queued) := by
    rw [step, fetchStep, ho, Option.map_some]
  have hestablishes : establishes twoWorkers.fetcher (deliveryOf (finSegment reply)) = true := by
    rw [establishes_tagged htagged, Bool.and_eq_true]
    exact ⟨hack, rfl⟩
  have hfetch := fetcherCallback_state (finSegment_segments reply).1.headed.ihl ho
  refine ⟨_, hstep, step_bound hstep (finSegment_names_worker reply hbound) (by decide) hbound, ?_,
    ?_, ⟨s, ?_, hqueue⟩, ?_⟩
  · rw [hq]
    rfl
  · rw [hq]
    exact ⟨_, rfl⟩
  · rw [sessions_enqueue, ← finSegment_sockets reply]
    exact hs
  · rw [sessions_enqueue, ← finSegment_sockets reply]
    have hstate := hfetch.state
    rw [hestablishes] at hstate
    rcases hstate with hstate | ⟨habs, -⟩
    · exact hstate
    · cases habs

/-- Another FIN comes in. -/
theorem fin_waits (d : Daemon) {b : Box} {packets : List Mem} {state : State}
    (h : Waiting b packets state) :
    ∃ b', step d b (.fetch (deliveryOf (finSegment reply))) = some b' ∧
      Waiting b' (packets ++ [finCopy reply]) state := by
  obtain ⟨s, hs, hqueue⟩ := h.session
  rw [← finSegment_sockets reply] at hs
  obtain ⟨o, ho, hq, hsessions⟩ :=
    fetcherCallback_known (d := d) (finSegment_tagged reply) (by decide) hs
  have hstep : step d b (.fetch (deliveryOf (finSegment reply))) =
      some ({ b with fetcher := o.state }.enqueue o.queued) := by
    rw [step, fetchStep, ho, Option.map_some]
  have hsame : SameStates b.fetcher.sessions o.state.sessions := by
    rw [hsessions]
    exact .write (.refl _) _ ⟨fun _ => rfl, fun _ => rfl⟩
  refine ⟨_, hstep, step_bound hstep (finSegment_names_worker reply h.bound) (by decide) h.bound, ?_,
    ?_, ?_, ?_⟩
  · rw [hq, hqueue, Box.enqueue]
    dsimp only
    rw [Function.update_self, h.queue]
    rfl
  · rw [hq]
    exact h.thread
  · rw [sessions_enqueue, ← finSegment_sockets reply]
    have hs' : getsession o.state.sessions (sockets (deliveryOf (finSegment reply)).originalpacket) =
        some { s with lastactive := (deliveryOf (finSegment reply)).now, deadcounter := 0 } := by
      rw [hsessions, getsession_update _ _ (by simp)]
      exact congrArg _ hs
    exact ⟨_, hs', hqueue⟩
  · rw [sessions_enqueue]
    exact (hsame.state _).trans h.state

/-- The deoptimization thread of the first worker takes a FIN. -/
theorem fin_taken (d : Daemon) (sw : Switches) {b : Box} {rest : List Mem} {t : Deoptimizer}
    (hbound : b.BoundTo 2) (hqueue : b.deoptimization 0 = finCopy reply :: rest)
    (hthread : b.deoptimizers 0 = some t)
    (hstate : stateOf b.fetcher.sessions finSockets ≠ none) :
    ∃ b', step d b (.deoptimize 0 sw) = some b' ∧ b'.deoptimization 0 = rest ∧
      ∃ t', b'.deoptimizers 0 = some t' := by
  obtain ⟨state, hsome⟩ := Option.ne_none_iff_exists'.mp hstate
  rw [stateOf, Option.map_eq_some_iff] at hsome
  obtain ⟨s, hs, -⟩ := hsome
  rw [← finCopy_sockets reply] at hs
  obtain ⟨o, ho, hends⟩ := deoptimizationStep_plain (d := d) (t := t)
    (a := ⟨finCopy reply, b.fetcher.sessions, b.shared, sw⟩) (finCopy_segment reply) (by decide)
    rfl rfl rfl hs
  rw [step, deoptimizeStep, if_pos (by rw [hbound.numworkers]; decide), hthread, hqueue]
  dsimp only
  rw [ho, Option.map_some, hends]
  refine ⟨_, rfl, ?_, o.thread, ?_⟩
  · dsimp only
    rw [Function.update_self]
  · dsimp only
    rw [Function.update_self, if_neg Bool.false_ne_true]

end Fins

/-- The FINs of two ends, or one FIN twice: up to the last step it is all the same. -/
theorem fins_run (d : Daemon) (sw : Switches) (first second : Bool) :
    ∃ b b', Watched d finSockets (Closes finSockets) twoWorkers b [finEnd first] ∧
      finOf finSockets b (.deoptimize 0 sw) = [finEnd second] ∧
      step d b (.deoptimize 0 sw) = some b' ∧
      getsession b.fetcher.sessions finSockets ≠ none ∧
      getsession b'.fetcher.sessions finSockets = none := by
  have hinit : Initial twoWorkers := ⟨rfl, fun _ => rfl, fun _ => rfl⟩
  have hopen : ∀ {b seen e state}, stateOf b.fetcher.sessions finSockets = state →
      state ≠ some .TCP_CLOSING → OtherEnd finSockets b seen e :=
    fun hstate hne hclosing => absurd (hstate.symm.trans hclosing) hne
  have hestablished : some State.TCP_ESTABLISHED ≠ some .TCP_CLOSING := by decide
  -- Both FINs come in.
  obtain ⟨b₁, hstep₁, h₁⟩ := fin_enters first d
  obtain ⟨b₂, hstep₂, h₂⟩ := fin_waits second d h₁
  have hrun₁ : Watched d finSockets (Closes finSockets) twoWorkers b₁ [] := by
    have hcond : Closes finSockets twoWorkers [] (.fetch (deliveryOf (finSegment first))) :=
      ⟨finSegment_segments first, hopen (show _ = none from rfl) (by decide)⟩
    have hrun := Watched.next (k := finSockets) .start hcond hstep₁
    rwa [observe_fetch] at hrun
  have hrun₂ : Watched d finSockets (Closes finSockets) twoWorkers b₂ [] := by
    have hrun := hrun₁.next ⟨finSegment_segments second, hopen h₁.state hestablished⟩ hstep₂
    rwa [observe_fetch] at hrun
  -- The thread takes the first.
  obtain ⟨t, ht⟩ := h₂.thread
  obtain ⟨b₃, hstep₃, hqueue₃, t', ht'⟩ := fin_taken first d sw h₂.bound h₂.queue ht
    (by rw [h₂.state]; exact Option.some_ne_none _)
  have hfin₂ := finOf_finCopy first sw h₂.queue
  have hrun₃ : Watched d finSockets (Closes finSockets) twoWorkers b₃ [finEnd first] := by
    have hrun := hrun₂.next (e := .deoptimize 0 sw) ⟨trivial, hopen h₂.state hestablished⟩ hstep₃
    rwa [observe, hfin₂] at hrun
  have hbound₃ : b₃.BoundTo 2 := step_bound hstep₃ trivial (by decide) h₂.bound
  have hstate₃ : stateOf b₃.fetcher.sessions finSockets = some .TCP_CLOSING := by
    rw [hrun₂.fin_moves hinit hstep₃ hfin₂, h₂.state]
    rfl
  -- The thread takes the second.
  obtain ⟨b₄, hstep₄, -⟩ := fin_taken second d sw hbound₃ hqueue₃ ht'
    (by rw [hstate₃]; exact Option.some_ne_none _)
  have hfin₃ := finOf_finCopy second sw hqueue₃
  have hstate₄ : stateOf b₄.fetcher.sessions finSockets = none := by
    rw [hrun₃.fin_moves hinit hstep₄ hfin₃, hstate₃]
    rfl
  refine ⟨b₃, b₄, hrun₃, hfin₃, hstep₄, ?_, ?_⟩
  · intro hnone
    rw [stateOf, hnone] at hstate₃
    cases hstate₃
  · rw [stateOf, Option.map_eq_none_iff] at hstate₄
    exact hstate₄

/-- Each end sends its FIN. -/
theorem torn_down_by_two_fins :
    ∃ b b', Watched sharedBox finSockets (Closes finSockets) twoWorkers b [finEnd false] ∧
      getsession b.fetcher.sessions finSockets ≠ none ∧
      step sharedBox b (.deoptimize 0 ⟨false, false, false⟩) = some b' ∧
      getsession b'.fetcher.sessions finSockets = none ∧
      ∀ x ∈ endpoints finSockets,
        x ∈ [finEnd false] ++ finOf finSockets b (.deoptimize 0 ⟨false, false, false⟩) := by
  obtain ⟨b, b', hrun, hfin, hstep, hsession, hgone⟩ :=
    fins_run sharedBox ⟨false, false, false⟩ false true
  have hcond : Closes finSockets b [finEnd false] (.deoptimize 0 ⟨false, false, false⟩) := by
    refine ⟨trivial, ?_⟩
    intro _ x hx hseen
    rw [hfin, List.mem_singleton] at hx
    rw [List.mem_singleton, hx] at hseen
    exact absurd hseen (by decide)
  exact ⟨b, b', hrun, hsession, hstep, hgone, torn_down_by_both_ends sharedBox finSockets
    ⟨rfl, fun _ => rfl, fun _ => rfl⟩ hrun hcond hstep hsession hgone⟩

/-- **A FIN that is sent again removes the session.** The other end has not sent one, and may
have data for it. -/
theorem repeated_fin_tears_down :
    ¬ ∀ (d : Daemon) (k : Sockets) (b₀ b b' : Box) (seen : List Endpoint) (e : Event), Initial b₀ →
      Watched d k (fun _ _ e => Segments k e) b₀ b seen → Segments k e → step d b e = some b' →
        getsession b.fetcher.sessions k ≠ none → getsession b'.fetcher.sessions k = none →
          ∀ x ∈ endpoints k, x ∈ seen ++ finOf k b e := by
  intro hclaim
  obtain ⟨b, b', hrun, hfin, hstep, hsession, hgone⟩ :=
    fins_run sharedBox ⟨false, false, false⟩ false false
  have hseg : Segments finSockets (.deoptimize 0 ⟨false, false, false⟩) := trivial
  have hseen := hclaim sharedBox finSockets twoWorkers b b' [finEnd false] _
    ⟨rfl, fun _ => rfl, fun _ => rfl⟩ (hrun.mono fun _ _ _ hcond => hcond.segments) hseg hstep
    hsession hgone
  rw [hfin] at hseen
  exact absurd (hseen (finEnd true) (by decide)) (by decide)

end Solowan.System
