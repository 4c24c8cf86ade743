/-
How a box learns which accelerators a connection has.

Two boxes stand between the ends of a connection, and each takes the accelerator of an end from
the packets: a segment that comes without a header is from the host behind the box itself, one
with a header is from the other box, which has written its identifier into it.

* `fetcherCallback_acts`, `optimizationStep_acts`, `deoptimizationStep_acts`, `cleanup_acts`: what
  each of them can do to the session of a packet.
* `step_acts`: what a step of the box can do to the session of a connection.
* `accelerators_right`: in every run, whatever else happens to the connection, its session names
  the right accelerators or none, and the box works on the segments of its own side only.
-/

import Solowan.Sessions.Knowledge
import Solowan.System.Teardown

namespace Solowan.System

open Solowan.Memory Solowan.Dictionary Solowan.Net Solowan.Sessions Solowan.Worker Solowan.Fetcher

/-! ### What the parties write -/

section Fetcher

variable {d : Daemon} {f : FetcherState} {p : Delivery} {o : Fetched} {option : UInt64}

theorem plain_openSession (k : Sockets) (m : Mem) (now : UInt64) : Plain (openSession k m now) := by
  have hnow : Plain fun s : Session => { s with lastactive := now } :=
    ⟨⟨fun _ => rfl, fun _ => rfl⟩, fun _ _ _ => rfl⟩
  exact ((hnow.comp (plain_sourceisclient ..)).comp (plain_updateseq ..)).comp
    (plain_updateseqnumber ..)

/-- What the fetcher saves for the end a packet comes from. -/
def named (d : Daemon) (m : Mem) (remoteID x v : UInt32) : Prop :=
  x = saddr m ∧ v = if remoteID = 0 then d.localID else remoteID

/-- The address of a SYN segment is not edited. -/
theorem synEdit_saddr {remoteID : UInt32} {queue : UInt8} {edit : Mem × Option UInt32}
    (hihl : 5 ≤ ihl p.originalpacket)
    (h : (if remoteID = 0 then
        (announce d.localID queue p.originalpacket).map fun (m, announced) =>
          (m, if announced then some d.localID else none)
      else (acknowledge p.originalpacket).map fun m => (m, some remoteID)) = some edit) :
    saddr edit.1 = saddr p.originalpacket ∧
      ∀ v, edit.2 = some v → v = if remoteID = 0 then d.localID else remoteID := by
  by_cases hid : remoteID = 0
  · rw [if_pos hid, Option.map_eq_some_iff] at h
    obtain ⟨⟨m₁, sent⟩, hann, rfl⟩ := h
    refine ⟨congrArg Flow.saddr ((announce_edited hann).flow hihl), fun v hv => ?_⟩
    rw [if_pos hid]
    dsimp only at hv
    split at hv
    · exact (Option.some.inj hv).symm
    · cases hv
  · rw [if_neg hid, Option.map_eq_some_iff] at h
    obtain ⟨m₁, hack, rfl⟩ := h
    refine ⟨congrArg Flow.saddr ((acknowledge_edited hack).flow hihl), fun v hv => ?_⟩
    rw [if_neg hid]
    exact (Option.some.inj hv).symm

theorem synSegment_acts {remoteID : UInt32} (hihl : 5 ≤ ihl p.originalpacket)
    (h : synSegment d f p remoteID = some o) :
    Acts (sockets p.originalpacket) (named d p.originalpacket remoteID) True f.sessions
      o.state.sessions := by
  rw [synSegment] at h
  dsimp only at h
  rw [Option.map_eq_some_iff] at h
  obtain ⟨⟨m', accelerator⟩, hedit, rfl⟩ := h
  obtain ⟨haddr, hsaved⟩ := synEdit_saddr hihl hedit
  have hopen : Acts (sockets p.originalpacket) (named d p.originalpacket remoteID) True f.sessions
      (opened f.sessions p.originalpacket remoteID) := by
    rw [opened]
    cases hs : getsession f.sessions (sockets p.originalpacket) with
    | some s => exact .refl
    | none => exact .single (.insert hs _ trivial)
  have hwritten := hopen.tail (.write (plain_openSession (sockets p.originalpacket) p.originalpacket
    p.now))
  cases accelerator with
  | none => exact hwritten.tail (.setState _ trivial)
  | some v =>
    refine (hwritten.tail (.save (x := saddr m') (v := v) ⟨haddr, hsaved v rfl⟩)).tail
      (.setState _ trivial)

/-- **The fetcher** writes to the session of the packet. -/
theorem fetcherCallback_acts (hihl : 5 ≤ ihl p.originalpacket)
    (h : fetcherCallback d f p = some o) :
    Acts (sockets p.originalpacket)
      (fun x v => ∃ option, getTcpOption p.originalpacket OPENNOP_OPTION = some option ∧
        (syn p.originalpacket = true ∨ remoteId p.originalpacket option ≠ 0) ∧
        named d p.originalpacket (remoteId p.originalpacket option) x v)
      (syn p.originalpacket = true ∨ getsession f.sessions (sockets p.originalpacket) = none)
      f.sessions o.state.sessions := by
  unfold fetcherCallback at h
  dsimp only at h
  split at h
  · split at h
    · split at h
      · cases h
      · rename_i option hopt
        split at h
        · cases h
          exact .refl
        · split at h
          · rename_i hsyn
            have hacts := synSegment_acts hihl h
            refine Acts.mono hacts (fun x v hname => ?_) fun _ => Or.inl hsyn
            exact ⟨option, hopt, Or.inl hsyn, hname⟩
          · split at h
            · cases h
              have hactive : Plain fun s : Session =>
                  { s with lastactive := p.now, deadcounter := 0 } :=
                ⟨⟨fun _ => rfl, fun _ => rfl⟩, fun _ _ _ => rfl⟩
              rw [knownSegment]
              dsimp only
              split
              · exact .single (.write hactive)
              · exact .single (.write hactive)
            · rename_i hs
              cases h
              rw [unknownSegment]
              dsimp only
              split
              · rename_i hnew
                have hid : remoteId p.originalpacket option ≠ 0 := hnew.2
                have hstate : ∀ s : Session,
                    ({ s with state := State.TCP_ESTABLISHED } : Session).toSockets = s.toSockets :=
                  fun _ => rfl
                rw [← update_update _ _ (updateseqnumber _ _ _) fun s =>
                    (saveacceleratorid_sockets ..).trans (hstate s),
                  ← update_update _ _ (saveacceleratorid _ _ _) hstate]
                refine (((Relation.ReflTransGen.single (.insert hs _ (Or.inr hs))).tail
                  (.setState _ (Or.inr hs))).tail (.save ?_)).tail (.write (plain_updateseqnumber ..))
                exact ⟨option, hopt, Or.inr hid, rfl, (if_neg hid).symm⟩
              · exact .refl
    · cases h
      exact .refl
  · cases h
    exact .refl

end Fetcher

section Threads

variable {d : Daemon} {a : Arrival} {k : Sockets} {saves : UInt32 → UInt32 → Prop} {moves : Prop}

/-- **The optimization thread** takes itself for the accelerator of the end that a data segment
comes from. -/
theorem optimizationStep_acts {t : Optimizer} {o : Optimized} (hihl : 5 ≤ ihl a.packet)
    (h : optimizationStep d t a = some o) :
    Acts (sockets a.packet)
      (fun x v => isData a.packet = true ∧ x = saddr a.packet ∧ v = d.localID)
      (rst a.packet = true ∨ fin a.packet = true) a.sessions o.sessions := by
  unfold optimizationStep at h
  dsimp only at h
  split at h
  · split at h
    · cases h
    · split at h
      · cases h
      · split at h
        · split at h
          · rename_i hdata
            have hsave : Acts (sockets a.packet)
                (fun x v => isData a.packet = true ∧ x = saddr a.packet ∧ v = d.localID)
                (rst a.packet = true ∨ fin a.packet = true) a.sessions
                (a.sessions.update (sockets a.packet)
                  (saveacceleratorid (sockets a.packet).largerIP d.localID (saddr a.packet))) :=
              .single (.save ⟨hdata, rfl, rfl⟩)
            split at h
            · cases h
            · rename_i result m hset
              split at h
              · cases h
                rw [emit_closes (edited_setTcpOption hset) hihl]
                exact hsave.endSegment id
              · rename_i hok
                have hdoff := (setTcpOption_kept hset).2.2 hok
                rw [tagPacket] at h
                dsimp only at h
                rw [Option.map_eq_some_iff] at h
                obtain ⟨e, he, rfl⟩ := h
                have hedited : Edited m e.packet := by
                  split at he
                  · exact accelerate_edited hdoff he
                  · exact pass_edited he
                have hsent : ∀ oh, Edited a.packet (addHeader e.packet oh) := fun oh =>
                  ((edited_setTcpOption hset).trans hedited).trans (.of_same
                    (sameSegment_addHeader (tcph_le_tcpdata (hedited.doff hdoff)) oh))
                rw [emit_closes (hsent _) hihl]
                refine Acts.endSegment ?_ id
                split
                · exact hsave.tail (.write (plain_updateseqnumber ..))
                · exact hsave
          · cases h
            exact Acts.endSegment .refl id
        · cases h
          exact .refl
  · cases h
    exact .refl

/-- The decoders. -/
theorem restore_acts {sw : Switches} {compressPresent dedupPresent : Bool} {r r' : Decoded}
    (h : restore d sw k compressPresent dedupPresent r = some r') :
    Acts k saves moves r.sessions r'.sessions := by
  rw [restore] at h
  split at h
  · have hsame := decompress_if_sessions d (sw.compression && compressPresent) (!dedupPresent) r
    generalize (if (sw.compression && compressPresent) = true then
      decompress d (!dedupPresent) r else (0, r)) = c at h hsame
    obtain ⟨redComp, r₁⟩ := c
    dsimp only at h hsame
    split at h
    · rw [deoptimize] at h
      dsimp only at h
      rw [Option.map_eq_some_iff] at h
      obtain ⟨⟨redDedup, m, x⟩, -, rfl⟩ := h
      rw [← hsame]
      dsimp only
      split
      · exact .single (.write (plain_updateseqnumber ..))
      · exact .single (.write (plain_updateseqnumber ..))
    · cases h
      rw [← hsame]
      exact .refl
  · split at h
    · cases h
      rw [decompress_sessions]
    · cases h
      exact .refl

theorem deoptimizeSegment_acts {sw : Switches} {s : Session} {oh : OpennopHeader} {r r' : Decoded}
    (hsaves : saves (saddr r.packet) oh.opennopID)
    (h : deoptimizeSegment d sw k s oh r = some r') : Acts k saves moves r.sessions r'.sessions := by
  have hsave : Acts k saves moves r.sessions (r.sessions.update k
      (saveacceleratorid k.largerIP oh.opennopID (saddr r.packet))) :=
    .single (.save hsaves)
  rw [deoptimizeSegment] at h
  dsimp only at h
  split at h
  · split at h
    · split at h
      · exact hsave.trans (restore_acts h)
      · cases h
        exact hsave
    · split at h
      · cases h
        exact hsave
      · cases h
        exact hsave
  · cases h
    exact .refl

/-- **The deoptimization thread** takes the accelerator of the end that a packet comes from out of
its header. -/
theorem deoptimizationStep_acts {t : Deoptimizer} {o : Deoptimized} (hm : Headed a.packet)
    (h : deoptimizationStep d t a = some o) :
    Acts (sockets a.packet)
      (fun x v => x = saddr a.packet ∧ v = (opennopHeader a.packet).opennopID)
      (rst a.packet = true ∨ fin a.packet = true) a.sessions o.sessions := by
  unfold deoptimizationStep at h
  dsimp only at h
  split at h
  · cases h
  · split at h
    · split at h
      · cases h
      · rename_i m hstrip
        have hstripped := stripHeader_edited hm.doff hstrip
        have haddr : saddr m = saddr a.packet := congrArg Flow.saddr (hstripped.flow hm.ihl)
        rw [deoptimizeStripped] at h
        dsimp only at h
        rw [hstripped.sockets hm.ihl] at h
        split at h
        · rw [Option.map_eq_some_iff] at h
          obtain ⟨r, hr, rfl⟩ := h
          have hpacket := (deoptimizeSegment_carried hr (hstripped.doff hm.doff)).packet
          have hflags := (hstripped.trans hpacket).flags hm.ihl
          have hrst : rst r.packet = rst a.packet := congrArg (·.toNat.testBit 2) hflags
          have hfin : fin r.packet = fin a.packet := congrArg (·.toNat.testBit 0) hflags
          rw [deliver]
          dsimp only
          rw [hrst, hfin]
          exact (deoptimizeSegment_acts ⟨haddr, rfl⟩ hr).endSegment id
        · cases h
          exact .refl
    · cases h
      exact .refl

/-- **The cleanup** of a session. -/
theorem cleanup_acts (t : SessionTable) (now : UInt64) (k : Sockets)
    (saves : UInt32 → UInt32 → Prop) : Acts k saves True t (cleanup t now k) := by
  unfold cleanup
  repeat' split
  · exact .refl
  · exact .single (.clear trivial)
  · exact .single (.write ⟨⟨fun _ => rfl, fun _ => rfl⟩, fun _ _ _ => rfl⟩)
  · exact .refl

end Threads

/-! ### A connection between two boxes -/

/-- A connection as one of the two boxes sees it: the host behind the box itself, the host behind
the other box, and the identifier of that box. -/
structure Connection where
  sockets : Sockets
  near : UInt32
  far : UInt32
  peer : UInt32
  apart : near ≠ far
  ends : near = sockets.largerIP ∧ far = sockets.smallerIP ∨
    near = sockets.smallerIP ∧ far = sockets.largerIP

/-- A segment with the accelerator `remoteID` comes from the side it should: from the other box when
it names one, and otherwise, if it is one that accelerators are taken from, from the near host. -/
def FromItsSide (c : Connection) (m : Mem) (remoteID : UInt32) : Prop :=
  if remoteID = 0 then syn m = true ∨ isData m = true → saddr m = c.near
  else saddr m = c.far ∧ remoteID = c.peer

/-- A packet has been received with its headers, and on the connection it comes from its side. -/
structure Routed (c : Connection) (p : Delivery) : Prop where
  headed : Headed p.originalpacket
  received : tcph p.originalpacket + TCPHDR ≤ p.ret
  side : Sessions.sockets p.originalpacket = c.sockets → ∀ option,
    getTcpOption p.originalpacket OPENNOP_OPTION = some option →
    FromItsSide c p.originalpacket (remoteId p.originalpacket option)
  header : ∀ option, getTcpOption p.originalpacket OPENNOP_OPTION = some option →
    remoteId p.originalpacket option ≠ 0 → tcpdata p.originalpacket + OPENNOP_HEADER ≤ p.ret

/-- So do all packets that come in. -/
def Route (c : Connection) : Event → Prop
  | .fetch p => Routed c p
  | _ => True

/-- What is saved for an end of the connection is right. -/
def Rightly (c : Connection) (localID x v : UInt32) : Prop :=
  x = c.near ∧ v = localID ∨ x = c.far ∧ v = c.peer

/-- A packet for the optimization thread, and one for the deoptimization thread. -/
def FromNear (c : Connection) (m : Mem) : Prop :=
  Headed m ∧ (Sessions.sockets m = c.sockets → isData m = true → saddr m = c.near)

def FromPeer (c : Connection) (m : Mem) : Prop :=
  Headed m ∧ (Sessions.sockets m = c.sockets →
    saddr m = c.far ∧ (opennopHeader m).opennopID = c.peer)

/-- The packets wait in the queues they belong to. -/
structure Placed (c : Connection) (b : Box) : Prop where
  optimization : ∀ worker, ∀ m ∈ b.optimization worker, FromNear c m
  deoptimization : ∀ worker, ∀ m ∈ b.deoptimization worker, FromPeer c m

/-- A step opens or closes the session of the connection, or may do so. -/
def disturbs (c : Connection) (b : Box) : Event → Prop
  | .fetch p => Sessions.sockets p.originalpacket = c.sockets ∧
      (syn p.originalpacket = true ∨ getsession b.fetcher.sessions c.sockets = none)
  | .optimize worker _ => ∃ m ∈ (b.optimization worker).head?,
      Sessions.sockets m = c.sockets ∧ (rst m = true ∨ fin m = true)
  | .deoptimize worker _ => ∃ m ∈ (b.deoptimization worker).head?,
      Sessions.sockets m = c.sockets ∧ (rst m = true ∨ fin m = true)
  | .cleanup _ k => k = c.sockets

section Steps

variable {d : Daemon} {c : Connection} {b b' : Box} {e : Event}

/-- The two ends are told apart by their addresses. -/
theorem Connection.sameEnd (c : Connection) {x y : UInt32} (hx : x = c.near ∨ x = c.far)
    (hy : y = c.near ∨ y = c.far) (h : SameEnd c.sockets x y) : x = y := by
  have hapart := c.apart
  unfold SameEnd at h
  rcases c.ends with ⟨hn, hf⟩ | ⟨hn, hf⟩
  · rw [← hn] at h
    rcases hx with rfl | rfl
    · exact (h.mp rfl).symm
    · rcases hy with rfl | rfl
      · exact h.mpr rfl
      · rfl
  · rw [← hf] at h
    rcases hx with rfl | rfl
    · rcases hy with rfl | rfl
      · rfl
      · exact h.mpr rfl
    · exact (h.mp rfl).symm

/-- A header is copied with the bytes it lies in. -/
theorem opennopHeader_congr {m m' : Mem} (hpos : tcpdata m' = tcpdata m)
    (h : ∀ i, i < OPENNOP_HEADER → m' (tcpdata m + i) = m (tcpdata m + i)) :
    opennopHeader m' = opennopHeader m := by
  have hword : ∀ q, q + 4 ≤ OPENNOP_HEADER →
      loadLE m' (tcpdata m + q) 4 = loadLE m (tcpdata m + q) 4 := by
    intro q hq
    refine loadLE_congr fun i hi => ?_
    rw [Nat.add_assoc]
    exact h (q + i) (by omega)
  unfold opennopHeader readHeader
  rw [hpos]
  have h0 := hword 0 (by decide)
  rw [Nat.add_zero] at h0
  rw [h0, hword 4 (by decide), hword 12 (by decide), h 8 (by decide), h 9 (by decide),
    h 10 (by decide), h 11 (by decide)]

/-- A queue is replaced by packets that belong there. -/
theorem forall_queue {P : Mem → Prop} {queues : UInt8 → List Mem}
    (h : ∀ worker, ∀ m ∈ queues worker, P m) (queue : UInt8) {packets : List Mem}
    (hpackets : ∀ m ∈ packets, P m) :
    ∀ worker, ∀ m ∈ Function.update queues queue packets worker, P m := by
  intro worker
  by_cases hw : worker = queue
  · rw [hw, Function.update_self]
    exact hpackets
  · rw [Function.update_of_ne hw]
    exact h worker

theorem forall_added {P : Mem → Prop} {packets : List Mem} {m : Mem} (h : ∀ m ∈ packets, P m)
    (hm : P m) : ∀ m' ∈ packets ++ [m], P m' := by
  intro m' hm'
  rcases List.mem_append.mp hm' with hin | hin
  · exact h m' hin
  · rw [List.mem_singleton.mp hin]
    exact hm

/-- A packet is copied to where it belongs. -/
theorem Routed.saved {p : Delivery} (hp : Routed c p) {option : UInt64}
    (hopt : getTcpOption p.originalpacket OPENNOP_OPTION = some option) :
    (remoteId p.originalpacket option = 0 → FromNear c (savePacket p.originalpacket p.ret)) ∧
      (remoteId p.originalpacket option ≠ 0 → FromPeer c (savePacket p.originalpacket p.ret)) := by
  have hsame := sameHeaders_savePacket hp.received
  have hedited : Edited p.originalpacket (savePacket p.originalpacket p.ret) :=
    .of_same hsame.toSameSegment
  have hflow := hedited.flow hp.headed.ihl
  have haddr : saddr (savePacket p.originalpacket p.ret) = saddr p.originalpacket :=
    congrArg Flow.saddr hflow
  have hflags := hedited.flags hp.headed.ihl
  have hdata : isData (savePacket p.originalpacket p.ret) = isData p.originalpacket := by
    unfold isData syn Net.ack fin
    rw [hflags]
  have hheaded : Headed (savePacket p.originalpacket p.ret) := by
    refine ⟨?_, hedited.doff hp.headed.doff⟩
    rw [hedited.kept.ihl]
    exact hp.headed.ihl
  rw [FromNear, FromPeer, hedited.sockets hp.headed.ihl, haddr, hdata]
  constructor
  · intro hid
    refine ⟨hheaded, fun hk hd => ?_⟩
    have hside := hp.side hk option hopt
    rw [FromItsSide, if_pos hid] at hside
    exact hside (Or.inr hd)
  · intro hid
    refine ⟨hheaded, fun hk => ?_⟩
    have hside := hp.side hk option hopt
    rw [FromItsSide, if_neg hid] at hside
    have hin := hp.header option hopt hid
    have hcopy : opennopHeader (savePacket p.originalpacket p.ret) = opennopHeader p.originalpacket :=
      opennopHeader_congr hsame.toSameSegment.tcpdata fun i hi => savePacket_apply (by omega)
    have hremote : remoteId p.originalpacket option = (opennopHeader p.originalpacket).opennopID := by
      rw [remoteId] at hid ⊢
      split
      · rfl
      · rename_i hzero
        rw [if_neg hzero] at hid
        exact absurd rfl hid
    rw [hcopy, ← hremote]
    exact hside

/-- **The packets stay where they belong.** -/
theorem step_placed (hb : Placed c b) (he : Route c e) (h : step d b e = some b') : Placed c b' := by
  cases step_turn h with
  | @fetch p o ho =>
    have hp : Routed c p := he
    cases hq : o.queued with
    | none => exact ⟨hb.optimization, hb.deoptimization⟩
    | some q =>
      obtain ⟨option, queue, hopt, -, rfl⟩ := queues_of_queued ho hq
      obtain ⟨hnear, hpeer⟩ := hp.saved hopt
      split
      · rename_i hid
        exact ⟨forall_queue hb.optimization queue (forall_added (hb.optimization queue) (hnear hid)),
          hb.deoptimization⟩
      · rename_i hid
        exact ⟨hb.optimization,
          forall_queue hb.deoptimization queue (forall_added (hb.deoptimization queue) (hpeer hid))⟩
  | @optimize worker sw m rest o _ hqueue _ =>
    have hrest : ∀ m' ∈ rest, FromNear c m' := fun m' hm' =>
      hb.optimization worker m' (by rw [hqueue]; exact List.mem_cons_of_mem m hm')
    exact ⟨forall_queue hb.optimization worker hrest, hb.deoptimization⟩
  | @deoptimize worker sw t m rest o _ _ hqueue _ =>
    have hrest : ∀ m' ∈ rest, FromPeer c m' := fun m' hm' =>
      hb.deoptimization worker m' (by rw [hqueue]; exact List.mem_cons_of_mem m hm')
    exact ⟨hb.optimization, forall_queue hb.deoptimization worker hrest⟩
  | cleanup => exact ⟨hb.optimization, hb.deoptimization⟩

/-- **A step of the box** writes to one session. -/
theorem step_acts (hb : Placed c b) (he : Route c e) (h : step d b e = some b') :
    ∃ k, Acts k (fun x v => k = c.sockets → Rightly c d.localID x v)
      (k = c.sockets → disturbs c b e) b.fetcher.sessions b'.fetcher.sessions := by
  cases step_turn h with
  | @fetch p o ho =>
    have hp : Routed c p := he
    rw [sessions_enqueue]
    have hacts := fetcherCallback_acts hp.headed.ihl ho
    refine ⟨Sessions.sockets p.originalpacket, hacts.mono ?_ fun hm hk => ⟨hk, hk ▸ hm⟩⟩
    rintro x v ⟨option, hopt, hnamed, rfl, rfl⟩ hk
    have hside := hp.side hk option hopt
    rw [FromItsSide] at hside
    by_cases hid : remoteId p.originalpacket option = 0
    · rw [if_pos hid] at hside ⊢
      refine Or.inl ⟨hside (Or.inl (hnamed.resolve_right fun hne => hne hid)), rfl⟩
    · rw [if_neg hid] at hside ⊢
      exact Or.inr hside
  | @optimize worker sw m rest o _ hqueue ho =>
    obtain ⟨hheaded, hside⟩ := hb.optimization worker m (by rw [hqueue]; exact List.mem_cons_self)
    have hacts := optimizationStep_acts hheaded.ihl ho
    refine ⟨Sessions.sockets m, hacts.mono ?_ fun hm hk => ?_⟩
    · rintro x v ⟨hdata, rfl, rfl⟩ hk
      exact Or.inl ⟨hside hk hdata, rfl⟩
    · exact ⟨m, by rw [hqueue]; rfl, hk, hm⟩
  | @deoptimize worker sw t m rest o _ _ hqueue ho =>
    obtain ⟨hheaded, hside⟩ := hb.deoptimization worker m (by rw [hqueue]; exact List.mem_cons_self)
    have hacts := deoptimizationStep_acts hheaded ho
    refine ⟨Sessions.sockets m, hacts.mono ?_ fun hm hk => ?_⟩
    · rintro x v ⟨rfl, rfl⟩ hk
      exact Or.inr (hside hk)
    · exact ⟨m, by rw [hqueue]; rfl, hk, hm⟩
  | @cleanup now k =>
    refine ⟨k, Acts.mono (cleanup_acts b.fetcher.sessions now k _) (fun x v hs => hs) ?_⟩
    exact fun _ hk => hk

end Steps

/-! ### What the session says -/

/-- The session of the connection names the right accelerators, or none. -/
structure Informed (c : Connection) (localID : UInt32) (t : SessionTable) : Prop where
  near : acceleratorAt t c.sockets c.near = 0 ∨ acceleratorAt t c.sockets c.near = localID
  far : acceleratorAt t c.sockets c.far = 0 ∨ acceleratorAt t c.sockets c.far = c.peer

section Ends

variable {k : Sockets} {x y localID : UInt32}

/-- The acceleration condition, with the two ends of the connection. -/
theorem accelerates_iff (hne : x ≠ y)
    (hends : x = k.largerIP ∧ y = k.smallerIP ∨ x = k.smallerIP ∧ y = k.largerIP) (s : Session) :
    accelerates localID k x s = true ↔ acceleratorOf k x s = localID ∧ acceleratorOf k y s ≠ 0 ∧
      acceleratorOf k y s ≠ localID ∧ s.state = .TCP_ESTABLISHED := by
  unfold accelerates acceleratorOf
  rcases hends with ⟨rfl, rfl⟩ | ⟨rfl, rfl⟩
  · simp [hne, hne.symm, and_assoc]
  · simp [hne, and_assoc]

theorem acceleratesDestination_iff (hne : x ≠ y)
    (hends : x = k.largerIP ∧ y = k.smallerIP ∨ x = k.smallerIP ∧ y = k.largerIP) (s : Session) :
    acceleratesDestination localID k x s = true ↔ acceleratorOf k y s = localID := by
  unfold acceleratesDestination acceleratorOf
  rcases hends with ⟨rfl, rfl⟩ | ⟨rfl, rfl⟩
  · simp [hne, hne.symm]
  · simp [hne]

end Ends

section Runs

variable {d : Daemon} {c : Connection} {b b' b₀ : Box} {e : Event}

/-- An accelerator that a step saves. -/
theorem step_acceleratorAt (hb : Placed c b) (hsingle : b.fetcher.sessions.Single c.sockets)
    (he : Route c e) (h : step d b e = some b') {y : UInt32} (hy : y = c.near ∨ y = c.far) :
    acceleratorAt b'.fetcher.sessions c.sockets y = acceleratorAt b.fetcher.sessions c.sockets y ∨
      disturbs c b e ∧ acceleratorAt b'.fetcher.sessions c.sockets y = 0 ∨
      Rightly c d.localID y (acceleratorAt b'.fetcher.sessions c.sockets y) := by
  obtain ⟨k, hacts⟩ := step_acts hb he h
  by_cases hk : k = c.sockets
  · subst hk
    rcases Acts.acceleratorAt hacts hsingle y with hsame | ⟨hm, hzero⟩ | ⟨x, hend, hsaved⟩
    · exact Or.inl hsame
    · exact Or.inr (Or.inl ⟨hm rfl, hzero⟩)
    · have hright := hsaved rfl
      have hx : x = c.near ∨ x = c.far := hright.imp And.left And.left
      rw [c.sameEnd hx hy hend] at hright
      exact Or.inr (Or.inr hright)
  · left
    rw [acceleratorAt, hacts.frame (Ne.symm hk), acceleratorAt]

theorem step_single (hb : Placed c b) (hsingle : b.fetcher.sessions.Single c.sockets)
    (he : Route c e) (h : step d b e = some b') : b'.fetcher.sessions.Single c.sockets := by
  obtain ⟨k, hacts⟩ := step_acts hb he h
  exact hacts.keeps_single hsingle

/-- What a step keeps. -/
theorem step_informed (hb : Placed c b) (hsingle : b.fetcher.sessions.Single c.sockets)
    (hinf : Informed c d.localID b.fetcher.sessions) (he : Route c e) (h : step d b e = some b') :
    Informed c d.localID b'.fetcher.sessions := by
  constructor
  · rcases step_acceleratorAt hb hsingle he h (Or.inl rfl) with hsame | ⟨-, hzero⟩ | hright
    · rw [hsame]
      exact hinf.near
    · exact Or.inl hzero
    · rcases hright with ⟨-, hv⟩ | ⟨hfar, -⟩
      · exact Or.inr hv
      · exact absurd hfar c.apart
  · rcases step_acceleratorAt hb hsingle he h (Or.inr rfl) with hsame | ⟨-, hzero⟩ | hright
    · rw [hsame]
      exact hinf.far
    · exact Or.inl hzero
    · rcases hright with ⟨hnear, -⟩ | ⟨-, hv⟩
      · exact absurd hnear.symm c.apart
      · exact Or.inr hv

/-- What holds of the connection in every state of a run. -/
structure Standing (c : Connection) (localID : UInt32) (b : Box) : Prop where
  placed : Placed c b
  single : b.fetcher.sessions.Single c.sockets
  informed : Informed c localID b.fetcher.sessions

theorem Initial.standing (h : Initial b) (c : Connection) (localID : UInt32) :
    Standing c localID b := by
  have hnone : getsession b.fetcher.sessions c.sockets = none := by
    rw [h.sessions]
    rfl
  have hzero : ∀ y, acceleratorAt b.fetcher.sessions c.sockets y = 0 := by
    intro y
    rw [acceleratorAt, hnone]
    rfl
  refine ⟨⟨fun worker m hm => ?_, fun worker m hm => ?_⟩, ?_, Or.inl (hzero _), Or.inl (hzero _)⟩
  · rw [h.optimization worker] at hm
    cases hm
  · rw [h.deoptimization worker] at hm
    cases hm
  · rw [h.sessions]
    exact Nat.zero_le 1

theorem Runs.standing {cond : Box → Event → Prop} (hrun : Runs d cond b₀ b)
    (hroute : ∀ b e, cond b e → Route c e) (h : Standing c d.localID b₀) :
    Standing c d.localID b := by
  refine hrun.invariant (I := Standing c d.localID) h ?_
  intro b₁ e b₂ hcond hstep hst
  have he := hroute b₁ e hcond
  exact ⟨step_placed hst.placed he hstep, step_single hst.placed hst.single he hstep,
    step_informed hst.placed hst.single hst.informed he hstep⟩

end Runs

/-- **A box knows the right accelerators, or none.** Whatever comes in and in whatever order the
parties work, as long as the segments of the connection come from their sides: its session names
this box for the near end and the other box for the far end, or does not know them yet. So data of
the near host is accelerated for the other box only, and data of the far host is not taken for data
to be accelerated, nor that of the near host for data to be restored. -/
theorem accelerators_right (d : Daemon) (c : Connection) (hpeer : c.peer ≠ d.localID) {b₀ b : Box}
    (hstart : Initial b₀) (hrun : Runs d (fun _ e => Route c e) b₀ b) {s : Session}
    (hs : getsession b.fetcher.sessions c.sockets = some s) :
    (acceleratorOf c.sockets c.near s = 0 ∨ acceleratorOf c.sockets c.near s = d.localID) ∧
      (acceleratorOf c.sockets c.far s = 0 ∨ acceleratorOf c.sockets c.far s = c.peer) ∧
      (accelerates d.localID c.sockets c.near s = true →
        acceleratorOf c.sockets c.far s = c.peer) ∧
      accelerates d.localID c.sockets c.far s = false ∧
      acceleratesDestination d.localID c.sockets c.near s = false := by
  have hst := hrun.standing (fun _ _ he => he) (hstart.standing c d.localID)
  have hat : ∀ y, acceleratorAt b.fetcher.sessions c.sockets y = acceleratorOf c.sockets y s := by
    intro y
    rw [acceleratorAt, hs]
    rfl
  have hnear := hst.informed.near
  have hfar := hst.informed.far
  rw [hat] at hnear hfar
  have hends : c.far = c.sockets.largerIP ∧ c.near = c.sockets.smallerIP ∨
      c.far = c.sockets.smallerIP ∧ c.near = c.sockets.largerIP := c.ends.symm.imp And.symm And.symm
  have hnot : acceleratorOf c.sockets c.far s ≠ d.localID := by
    rcases hfar with hzero | hright
    · rw [hzero]
      exact d.identified.symm
    · rw [hright]
      exact hpeer
  refine ⟨hnear, hfar, fun hacc => ?_, ?_, ?_⟩
  · obtain ⟨-, hknown, -⟩ := (accelerates_iff c.apart c.ends s).mp hacc
    exact hfar.resolve_left hknown
  · rw [← Bool.not_eq_true, accelerates_iff c.apart.symm hends]
    exact fun h => hnot h.1
  · rw [← Bool.not_eq_true, acceleratesDestination_iff c.apart c.ends]
    exact hnot

/-- The connection of the segments that come from the box 88. -/
def peerConnection : Connection where
  sockets := Sessions.sockets (ofList (peerSegment 1))
  near := daddr (ofList (peerSegment 1))
  far := saddr (ofList (peerSegment 1))
  peer := 88
  apart := by decide +kernel
  ends := by decide +kernel

/-- Such a segment names the accelerator of the far end only. -/
theorem accelerators_right_peer :
    ∃ b s, step sharedBox twoWorkers (.fetch (deliveryOf (peerSegment 1))) = some b ∧
      getsession b.fetcher.sessions peerConnection.sockets = some s ∧
      (acceleratorOf peerConnection.sockets peerConnection.near s = 0 ∨
        acceleratorOf peerConnection.sockets peerConnection.near s = 77) ∧
      accelerates 77 peerConnection.sockets peerConnection.far s = false := by
  obtain ⟨b, s, hstep, hs, -, -⟩ := peerSegment_entered (Or.inl rfl) sharedBox
  have hremote : ∀ option,
      getTcpOption (deliveryOf (peerSegment 1)).originalpacket OPENNOP_OPTION = some option →
      remoteId (deliveryOf (peerSegment 1)).originalpacket option = 88 := by
    intro option hopt
    have hone := hopt.symm.trans
      (show getTcpOption (ofList (peerSegment 1)) OPENNOP_OPTION = some 1 by decide)
    cases hone
    decide
  have hroute : Routed peerConnection (deliveryOf (peerSegment 1)) := by
    refine ⟨⟨by decide, by decide⟩, by decide, fun _ option hopt => ?_,
      fun _ _ _ => by decide⟩
    rw [FromItsSide, hremote option hopt, if_neg (by decide)]
    exact ⟨rfl, rfl⟩
  have hrun : Runs sharedBox (fun _ e => Route peerConnection e) twoWorkers b :=
    .next .refl (show Route peerConnection (.fetch _) from hroute) hstep
  obtain ⟨hnear, -, -, hfar, -⟩ := accelerators_right sharedBox peerConnection (by decide)
    ⟨rfl, fun _ => rfl, fun _ => rfl⟩ hrun hs
  exact ⟨b, s, hstep, hs, hnear, hfar⟩

end Solowan.System
