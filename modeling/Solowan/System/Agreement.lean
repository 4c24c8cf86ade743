/-
Two boxes agree on a connection.

A SYN segment passes the box of the client and then that of the server, and the segment that
answers it passes them the other way round. Each box names itself in the segment that comes from
its own host and reads the name of the other box in the other segment.

* `synSegment_learned`: what a SYN segment leaves in the session.
* `offered_crosses`: what it leaves in the sessions of both boxes.
* `Runs.undisturbed`: nothing else that happens before the connection ends changes that.
* `handshake_agrees`: after the two segments both boxes work on the data of both hosts, whatever
  their other connections do in between and afterwards.
-/

import Solowan.Fetcher.Handshake
import Solowan.System.Discovery
import Solowan.Worker.Receiving

namespace Solowan.System

open Solowan.Memory Solowan.Dictionary Solowan.Net Solowan.Sessions Solowan.Worker Solowan.Fetcher

/-! ### A SYN segment at one box -/

/-- The accelerator of the end `x` of the connection has become known as `v`, and the session is
established or waits for the answer. -/
structure Learned (k : Sockets) (x v : UInt32) (established : Bool) (t t' : SessionTable) : Prop where
  saved : ∀ y, SameEnd k x y → acceleratorAt t' k y = v
  kept : ∀ y, ¬ SameEnd k x y → acceleratorAt t' k y = acceleratorAt t k y
  state : stateOf t' k = some (if established then .TCP_ESTABLISHED else .TCP_SYN_SENT)
  single : t.Single k → t'.Single k

section One

variable {d : Daemon} {f : FetcherState} {p : Delivery} {m' : Mem} {remoteID : UInt32}

/-- The session that a SYN segment finds, or enters. -/
theorem getsession_opened (t : SessionTable) (m : Mem) (remoteID : UInt32) :
    ∃ s, getsession (opened t m remoteID) (sockets m) = some s ∧
      ∀ y, acceleratorOf (sockets m) y s = acceleratorAt t (sockets m) y := by
  rw [opened]
  cases hs : getsession t (sockets m) with
  | some s =>
    refine ⟨s, hs, fun y => ?_⟩
    rw [acceleratorAt, hs]
    rfl
  | none =>
    refine ⟨_, getsession_insertsession hs _, fun y => ?_⟩
    rw [acceleratorAt, hs, acceleratorOf]
    split <;> rfl

theorem single_opened {t : SessionTable} {m : Mem} (h : t.Single (sockets m)) (remoteID : UInt32) :
    (opened t m remoteID).Single (sockets m) := by
  rw [opened]
  split
  · exact h
  · rename_i hs
    exact h.insert hs _

/-- The writes of a SYN segment, when the accelerator of its source is saved. -/
theorem learned_writes (t : SessionTable) (p : Delivery) (remoteID v : UInt32) {x : UInt32}
    (hpos : (sockets p.originalpacket).largerIP ≠ 0) (established : Bool) :
    Learned (sockets p.originalpacket) x v established t
      ((((opened t p.originalpacket remoteID).update (sockets p.originalpacket)
        (openSession (sockets p.originalpacket) p.originalpacket p.now)).update
        (sockets p.originalpacket) (saveacceleratorid (sockets p.originalpacket).largerIP v x)).update
        (sockets p.originalpacket) fun s =>
          { s with state := if established then .TCP_ESTABLISHED else .TCP_SYN_SENT }) := by
  obtain ⟨s, hs, hsame⟩ := getsession_opened t p.originalpacket remoteID
  have hopen := plain_openSession (sockets p.originalpacket) p.originalpacket p.now
  have hfound := getsession_update (opened t p.originalpacket remoteID) (sockets p.originalpacket)
    hopen.quiet.sockets
  rw [hs, Option.map_some] at hfound
  have hsave : ∀ s, (saveacceleratorid (sockets p.originalpacket).largerIP v x s).toSockets =
      s.toSockets := fun s => saveacceleratorid_sockets ..
  refine ⟨fun y hy => ?_, fun y hy => ?_, ?_, fun h => ?_⟩
  · rw [acceleratorAt_setState]
    exact acceleratorAt_save hpos hy hfound
  · rw [acceleratorAt_setState, acceleratorAt_write hsave fun s => acceleratorOf_save_other hy s,
      acceleratorAt, hfound, Option.map_some, Option.getD_some, hopen.accelerator, hsame]
  · rw [stateOf_setState, stateOf, getsession_update _ _ hsave, hfound]
    rfl
  · exact (((single_opened h remoteID).write _ hopen.quiet.sockets).write _ hsave).write _ fun _ => rfl

/-- **What a SYN segment leaves** in the session of its connection: the box has announced itself,
or noted another one. -/
theorem synSegment_learned {v : UInt32} (hpos : (sockets p.originalpacket).largerIP ≠ 0)
    (h : remoteID = 0 ∧ v = d.localID ∧ announce d.localID
          (synQueue f.sessions (sockets p.originalpacket)) p.originalpacket = some (m', true) ∨
      remoteID ≠ 0 ∧ v = remoteID ∧ acknowledge p.originalpacket = some m') :
    ∃ o, synSegment d f p remoteID = some o ∧ o.packet = m' ∧ o.queued = none ∧
      Learned (sockets p.originalpacket) (saddr m') v (ack m') f.sessions o.state.sessions := by
  have hwritten := learned_writes f.sessions p remoteID v (x := saddr m') hpos (ack m')
  have hqueue : ((getsession ((opened f.sessions p.originalpacket 0).update (sockets p.originalpacket)
      (openSession (sockets p.originalpacket) p.originalpacket p.now))
      (sockets p.originalpacket)).map Session.queue).getD 0 =
        synQueue f.sessions (sockets p.originalpacket) := by
    rw [queue_openSession, opened, synQueue]
    cases hs : getsession f.sessions (sockets p.originalpacket) with
    | some s =>
      dsimp only
      rw [hs]
      rfl
    | none =>
      dsimp only
      rw [getsession_insertsession hs]
      rfl
  rw [opened] at hqueue hwritten
  rw [synSegment]
  dsimp only
  cases hs : getsession f.sessions (sockets p.originalpacket) with
  | some s =>
    rw [hs] at hqueue hwritten
    dsimp only at hqueue hwritten ⊢
    rcases h with ⟨rfl, rfl, hann⟩ | ⟨hid, rfl, hack⟩
    · rw [if_pos rfl, hqueue, hann]
      exact ⟨_, rfl, rfl, rfl, hwritten⟩
    · rw [if_neg hid, hack]
      exact ⟨_, rfl, rfl, rfl, hwritten⟩
  | none =>
    rw [hs] at hqueue hwritten
    dsimp only at hqueue hwritten ⊢
    rcases h with ⟨rfl, rfl, hann⟩ | ⟨hid, rfl, hack⟩
    · rw [if_pos rfl, hqueue, hann]
      exact ⟨_, rfl, rfl, rfl, hwritten⟩
    · rw [if_neg hid, hack]
      exact ⟨_, rfl, rfl, rfl, hwritten⟩

end One

/-! ### A SYN segment at two boxes -/

section Two

variable {p p' : Delivery} {m : Mem} {n pad : Nat} {f : Flow} {sq : UInt32}
  {items : List TcpOption} {mss : UInt16} {payload data : List UInt8}

/-- The larger address of a packet between two hosts is not 0. -/
theorem largerIP_ne_zero {m : Mem} (h : saddr m ≠ daddr m) : (sockets m).largerIP ≠ 0 := by
  unfold sockets sortSockets
  split
  · rename_i hgt
    intro hzero
    rw [show saddr m = 0 from hzero] at hgt
    exact absurd hgt (by simp)
  · rename_i hle
    intro hzero
    have hdest : daddr m = 0 := hzero
    rw [hdest] at h hle
    exact hle (UInt32.pos_iff_ne_zero.mpr h)

/-- **A SYN segment crosses two boxes**: each notes the first of them for the end it comes from. -/
theorem offered_crosses (h : Offered p n f sq items pad mss payload) (htag : TagReadable items)
    (hne : saddr p.originalpacket ≠ daddr p.originalpacket) (d d' : Daemon) (s s' : FetcherState) :
    ∃ o, fetcherCallback d s p = some o ∧ o.queued = none ∧
      Learned (sockets p.originalpacket) (saddr p.originalpacket) d.localID (ack p.originalpacket)
        s.sessions o.state.sessions ∧
      ∀ p', Arrives o.packet p' → p'.running = true → p'.id ≠ 0 →
        ∃ o', fetcherCallback d' s' p' = some o' ∧ o'.queued = none ∧
          Learned (sockets p.originalpacket) (saddr p.originalpacket) d.localID
            (ack p.originalpacket) s'.sessions o'.state.sessions := by
  have hstep := fetcherCallback_syn d s h.running h.tcp h.id h.untagged (Or.inl rfl) h.syn
  have hlocal : remoteId p.originalpacket 0 = 0 := if_neg fun hne => hne rfl
  rw [hlocal] at hstep
  have hfit := h.fits
  obtain ⟨m', pad', rest, hann, hcar, -, -⟩ := announce_carries h.carries h.segmentSize h.large
    h.room (by omega) d.localID (synQueue s.sessions (sockets p.originalpacket))
  obtain ⟨o, ho, rfl, hqueued, hlearned⟩ := synSegment_learned (p := p)
    (f := { s with bytesin := s.bytesin + UInt64.ofNat (totLen p.originalpacket) })
    (largerIP_ne_zero hne) (Or.inl ⟨rfl, rfl, hann⟩)
  have haddr : saddr o.packet = saddr p.originalpacket :=
    (segment_saddr hcar.segment).trans (segment_saddr h.carries.segment).symm
  have hack : ack o.packet = ack p.originalpacket := by
    rw [Net.ack, segment_flags h.carries.segment hcar.segment, ← Net.ack]
  rw [haddr, hack] at hlearned
  refine ⟨o, hstep.trans ho, hqueued, hlearned, fun p' harrives hrun hid => ?_⟩
  obtain ⟨hcar', htcp, hsyn⟩ := h.arrives hcar harrives
  have hget : getTcpOption p'.originalpacket OPENNOP_OPTION = some 1 := by
    rw [hcar'.getTcpOption (by decide), lookup_tagged htag, Option.elim_some, dataValue_byte]
    rfl
  have hheader : opennopHeader p'.originalpacket =
      synHeader d.localID (synQueue s.sessions (sockets p.originalpacket)) := by
    have hslice := (slice_split hcar'.segment.data).1
    rw [OpennopHeader.length_bytes] at hslice
    exact readHeader_of_slice hslice
  have hannounced : announced p'.originalpacket 1 = true := by
    have hlen : ¬ incomingLen p'.originalpacket < OPENNOP_HEADER := by
      rw [hcar'.segment.incomingLen, List.length_append, OpennopHeader.length_bytes]
      omega
    rw [announced, hheader, decide_eq_false hlen]
    rfl
  have hremote : remoteId p'.originalpacket 1 = d.localID := by
    rw [remoteId, if_pos (by decide), hheader]
    rfl
  have hstep' := fetcherCallback_syn d' s' hrun ((segment_protocol hcar'.segment).trans htcp) hid
    hget (Or.inr hannounced) hsyn
  rw [hremote] at hstep'
  obtain ⟨m'', hacked, hdone⟩ := acknowledge_carries hcar' (OpennopHeader.length_bytes _)
    (present_setOption rfl)
  have hsockets : sockets p'.originalpacket = sockets p.originalpacket :=
    segment_sockets h.carries.segment hcar'.segment
  have hpos : (sockets p'.originalpacket).largerIP ≠ 0 := by
    rw [hsockets]
    exact largerIP_ne_zero hne
  obtain ⟨o', ho', rfl, hqueued', hlearned'⟩ := synSegment_learned (p := p')
    (f := { s' with bytesin := s'.bytesin + UInt64.ofNat (totLen p'.originalpacket) }) hpos
    (Or.inr ⟨d.identified, rfl, hacked⟩)
  have haddr' : saddr o'.packet = saddr p.originalpacket :=
    (segment_saddr hdone.segment).trans (segment_saddr h.carries.segment).symm
  have hack' : ack o'.packet = ack p.originalpacket := by
    rw [Net.ack, segment_flags h.carries.segment hdone.segment, ← Net.ack]
  rw [haddr', hack', hsockets] at hlearned'
  exact ⟨o', hstep'.trans ho', hqueued', hlearned'⟩

end Two

/-! ### What lies between -/

/-- Nothing opens or closes the session of the connection, and its segments come from their
sides. -/
def Undisturbed (c : Connection) (b : Box) (e : Event) : Prop := Route c e ∧ ¬ disturbs c b e

/-- What a run needs to know about the queues and the table. -/
structure Sound (c : Connection) (b : Box) : Prop where
  placed : Placed c b
  single : b.fetcher.sessions.Single c.sockets

section Runs

variable {d : Daemon} {c : Connection} {b b' : Box}

theorem Initial.sound (h : Initial b) (c : Connection) : Sound c b :=
  have hst := h.standing c 0
  ⟨hst.placed, hst.single⟩

theorem Runs.sound {cond : Box → Event → Prop} (hrun : Runs d cond b b')
    (hroute : ∀ b e, cond b e → Route c e) (h : Sound c b) : Sound c b' := by
  refine hrun.invariant (I := Sound c) h ?_
  intro b₁ e b₂ hcond hstep hs
  have he := hroute b₁ e hcond
  exact ⟨step_placed hs.placed he hstep, step_single hs.placed hs.single he hstep⟩

/-- A step that does not disturb the connection leaves the state of its session. -/
theorem step_stateOf {e : Event} (hs : Sound c b) (he : Undisturbed c b e)
    (h : step d b e = some b') :
    stateOf b'.fetcher.sessions c.sockets = stateOf b.fetcher.sessions c.sockets := by
  obtain ⟨k, hacts⟩ := step_acts hs.placed he.1 h
  by_cases hk : k = c.sockets
  · subst hk
    exact Acts.stateOf hacts fun hm => he.2 (hm rfl)
  · rw [stateOf, hacts.frame (Ne.symm hk), stateOf]

/-- **What is known stays known** as long as the connection is not disturbed. -/
theorem Runs.undisturbed (hrun : Runs d (Undisturbed c) b b') (h : Sound c b) :
    Sound c b' ∧ stateOf b'.fetcher.sessions c.sockets = stateOf b.fetcher.sessions c.sockets ∧
      (acceleratorAt b.fetcher.sessions c.sockets c.near = d.localID →
        acceleratorAt b'.fetcher.sessions c.sockets c.near = d.localID) ∧
      (acceleratorAt b.fetcher.sessions c.sockets c.far = c.peer →
        acceleratorAt b'.fetcher.sessions c.sockets c.far = c.peer) := by
  refine hrun.invariant (I := fun b' => Sound c b' ∧
    stateOf b'.fetcher.sessions c.sockets = stateOf b.fetcher.sessions c.sockets ∧
      (acceleratorAt b.fetcher.sessions c.sockets c.near = d.localID →
        acceleratorAt b'.fetcher.sessions c.sockets c.near = d.localID) ∧
      (acceleratorAt b.fetcher.sessions c.sockets c.far = c.peer →
        acceleratorAt b'.fetcher.sessions c.sockets c.far = c.peer))
    ⟨h, rfl, fun heq => heq, fun heq => heq⟩ ?_
  rintro b₁ e b₂ he hstep ⟨hs, hstate, hnear, hfar⟩
  refine ⟨⟨step_placed hs.placed he.1 hstep, step_single hs.placed hs.single he.1 hstep⟩,
    (step_stateOf hs he hstep).trans hstate, fun hknown => ?_, fun hknown => ?_⟩
  · rcases step_acceleratorAt hs.placed hs.single he.1 hstep (Or.inl rfl) with hsame | ⟨hm, -⟩ | hright
    · exact hsame.trans (hnear hknown)
    · exact absurd hm he.2
    · rcases hright with ⟨-, hv⟩ | ⟨hx, -⟩
      · exact hv
      · exact absurd hx c.apart
  · rcases step_acceleratorAt hs.placed hs.single he.1 hstep (Or.inr rfl) with hsame | ⟨hm, -⟩ | hright
    · exact hsame.trans (hfar hknown)
    · exact absurd hm he.2
    · rcases hright with ⟨hx, -⟩ | ⟨-, hv⟩
      · exact absurd hx.symm c.apart
      · exact hv

end Runs

/-! ### Both segments -/

/-- The connection as the other box sees it, when `localID` is this one. -/
def Connection.flip (c : Connection) (localID : UInt32) : Connection where
  sockets := c.sockets
  near := c.far
  far := c.near
  peer := localID
  apart := c.apart.symm
  ends := c.ends.symm.imp And.symm And.symm

/-- The packet passes one box, and what leaves it passes the other. -/
def Crosses (d d' : Daemon) (p : Delivery) (b b₁ b' b₁' : Box) : Prop :=
  ∃ o p', fetcherCallback d b.fetcher p = some o ∧ step d b (.fetch p) = some b₁ ∧
    Arrives o.packet p' ∧ p'.running = true ∧ p'.id ≠ 0 ∧ step d' b' (.fetch p') = some b₁'

/-- The box knows who works at either end of the connection, which is established. -/
structure Known (c : Connection) (localID : UInt32) (b : Box) : Prop where
  near : acceleratorAt b.fetcher.sessions c.sockets c.near = localID
  far : acceleratorAt b.fetcher.sessions c.sockets c.far = c.peer
  state : stateOf b.fetcher.sessions c.sockets = some .TCP_ESTABLISHED

/-- Data from the end `x` is worked on: the optimization thread of the box there finds the
acceleration condition met, and the other box is the one that its session names for the
destination. -/
def WorksOn (k : Sockets) (x localID localID' : UInt32) (t t' : SessionTable) : Prop :=
  (∃ s, getsession t k = some s ∧
    accelerates localID k x (saveacceleratorid k.largerIP localID x s) = true) ∧
  ∃ s, getsession t' k = some s ∧ destinationAccelerator k x s = localID'

section Handshake

variable {d d' : Daemon} {c : Connection} {b b₁ b' b₁' : Box} {p : Delivery} {o : Fetched}

/-- A packet that goes into no queue leaves the queues as they are. -/
theorem Sound.fetch {x v : UInt32} {established : Bool} (hs : Sound c b)
    (hstep : step d b (.fetch p) = some b₁) (ho : fetcherCallback d b.fetcher p = some o)
    (hq : o.queued = none)
    (hl : Learned c.sockets x v established b.fetcher.sessions o.state.sessions) :
    Sound c b₁ ∧ Learned c.sockets x v established b.fetcher.sessions b₁.fetcher.sessions := by
  rw [step, fetchStep, ho, Option.map_some, hq] at hstep
  cases hstep
  exact ⟨⟨⟨hs.placed.optimization, hs.placed.deoptimization⟩, hl.single hs.single⟩, hl⟩

/-- The ends of a connection have two addresses. -/
theorem Connection.addresses {m : Mem} (c : Connection) (h : Sessions.sockets m = c.sockets) :
    saddr m ≠ daddr m := by
  intro heq
  have hsame : c.sockets.largerIP = c.sockets.smallerIP := by
    rw [← h]
    unfold Sessions.sockets sortSockets
    rw [heq]
    split <;> rfl
  have hapart := c.apart
  rcases c.ends with ⟨hn, hf⟩ | ⟨hn, hf⟩
  · rw [hn, hf] at hapart
    exact hapart hsame
  · rw [hn, hf] at hapart
    exact hapart hsame.symm

/-- **A segment crosses**, and both boxes note the first of them for its source. -/
theorem Crosses.learned {n pad : Nat} {f : Flow} {sq : UInt32} {items : List TcpOption}
    {mss : UInt16} {payload : List UInt8} (c c' : Connection)
    (h : Crosses d d' p b b₁ b' b₁') (hoff : Offered p n f sq items pad mss payload)
    (htag : TagReadable items) (hk : Sessions.sockets p.originalpacket = c.sockets)
    (hsame : c'.sockets = c.sockets) (hs : Sound c b) (hs' : Sound c' b') :
    (Sound c b₁ ∧ Learned c.sockets (saddr p.originalpacket) d.localID (ack p.originalpacket)
      b.fetcher.sessions b₁.fetcher.sessions) ∧
    Sound c' b₁' ∧ Learned c'.sockets (saddr p.originalpacket) d.localID (ack p.originalpacket)
      b'.fetcher.sessions b₁'.fetcher.sessions := by
  obtain ⟨o, p', ho, hstep, harrives, hrun, hid, hstep'⟩ := h
  obtain ⟨o₁, ho₁, hq, hl, hrest⟩ := offered_crosses hoff htag (c.addresses hk) d d' b.fetcher
    b'.fetcher
  rw [ho] at ho₁
  cases ho₁
  obtain ⟨o', ho', hq', hl'⟩ := hrest p' harrives hrun hid
  rw [hk] at hl hl'
  rw [← hsame] at hl'
  exact ⟨hs.fetch hstep ho hq hl, hs'.fetch hstep' ho' hq' hl'⟩

/-- A segment that can be tagged does cross. -/
theorem exists_crosses {n pad : Nat} {f : Flow} {sq : UInt32} {items : List TcpOption}
    {mss : UInt16} {payload : List UInt8} (hoff : Offered p n f sq items pad mss payload)
    (htag : TagReadable items) (hne : saddr p.originalpacket ≠ daddr p.originalpacket)
    (d d' : Daemon) (b b' : Box) : ∃ b₁ b₁', Crosses d d' p b b₁ b' b₁' := by
  obtain ⟨o, ho, -, -, hrest⟩ := offered_crosses hoff htag hne d d' b.fetcher b'.fetcher
  obtain ⟨p', hp'⟩ : ∃ p' : Delivery, p' = ⟨1, o.packet, totLen o.packet, 0, true⟩ := ⟨_, rfl⟩
  have hsent : Arrives o.packet p' ∧ p'.running = true ∧ p'.id ≠ 0 := by
    rw [hp']
    exact ⟨rfl, rfl, show (1 : UInt32) ≠ 0 by decide⟩
  obtain ⟨harrives, hrun, hid⟩ := hsent
  obtain ⟨o', ho', -⟩ := hrest p' harrives hrun hid
  exact ⟨_, _, o, p', ho, (Turn.fetch ho).step_eq, harrives, hrun, hid, (Turn.fetch ho').step_eq⟩

/-- The ends are told apart. -/
theorem Connection.notSameEnd (c : Connection) :
    ¬ SameEnd c.sockets c.near c.far ∧ ¬ SameEnd c.sockets c.far c.near :=
  ⟨fun h => c.apart (c.sameEnd (Or.inl rfl) (Or.inr rfl) h),
    fun h => c.apart (c.sameEnd (Or.inr rfl) (Or.inl rfl) h).symm⟩

/-- The box on this side works on what comes from the near host, and the other one restores it. -/
theorem Known.worksOn (h : Known c d.localID b) (h' : Known (c.flip d.localID) d'.localID b')
    (hpeer : c.peer = d'.localID) (hne : d.localID ≠ d'.localID) (hpos : c.sockets.largerIP ≠ 0) :
    WorksOn c.sockets c.near d.localID d'.localID b.fetcher.sessions b'.fetcher.sessions := by
  obtain ⟨s, hs, hstate⟩ := Option.map_eq_some_iff.mp h.state
  obtain ⟨s', hs', -⟩ := Option.map_eq_some_iff.mp h'.state
  have hfar := h.far
  rw [acceleratorAt, hs] at hfar
  have hnear' := h'.near
  rw [acceleratorAt, hs'] at hnear'
  refine ⟨⟨s, hs, (accelerates_iff c.apart c.ends _).mpr ⟨?_, ?_, ?_, ?_⟩⟩, s', hs', ?_⟩
  · exact acceleratorOf_save_same hpos (iff_of_eq rfl) s
  · rw [acceleratorOf_save_other c.notSameEnd.1]
    exact ne_of_eq_of_ne (hfar.trans hpeer) d'.identified
  · rw [acceleratorOf_save_other c.notSameEnd.1]
    exact ne_of_eq_of_ne (hfar.trans hpeer) hne.symm
  · exact (quiet_saveacceleratorid _ _ _).state s |>.trans hstate
  · have hdest : destinationAccelerator c.sockets c.near s' = acceleratorOf c.sockets c.far s' := by
      have hapart := c.apart
      unfold destinationAccelerator acceleratorOf
      rcases c.ends with ⟨hn, hf⟩ | ⟨hn, hf⟩
      · rw [hn, hf] at hapart
        rw [hn, hf, if_pos rfl, if_neg hapart.symm]
      · rw [hn, hf] at hapart
        rw [hn, hf, if_neg hapart, if_pos rfl]
    exact hdest.trans hnear'

end Handshake

/-- **Two boxes agree on a connection.** The SYN segment of the near host passes this box and then
the other, the SYN segment that acknowledges it passes them the other way round, and in between and
afterwards both boxes do whatever else they have to do. Then each box knows both accelerators, and
what either host sends is accelerated at its own side and restored at the other. -/
theorem handshake_agrees (d d' : Daemon) (c : Connection) (hpeer : c.peer = d'.localID)
    (hne : d.localID ≠ d'.localID) {p q : Delivery} {n n' pad pad' : Nat} {f f' : Flow}
    {sq sq' : UInt32} {items items' : List TcpOption} {mss mss' : UInt16}
    {payload payload' : List UInt8}
    (hsyn : Offered p n f sq items pad mss payload) (htag : TagReadable items)
    (hsource : Sessions.sockets p.originalpacket = c.sockets ∧ saddr p.originalpacket = c.near)
    (hanswer : Offered q n' f' sq' items' pad' mss' payload') (htag' : TagReadable items')
    (hsource' : Sessions.sockets q.originalpacket = c.sockets ∧ saddr q.originalpacket = c.far)
    (hack : ack q.originalpacket = true)
    {b₀ b₁ b₂ b₃ b₄ b₅ b₀' b₁' b₂' b₃' b₄' b₅' : Box}
    (hstart : Initial b₀) (hrun : Runs d (fun _ e => Route c e) b₀ b₁)
    (hstart' : Initial b₀') (hrun' : Runs d' (fun _ e => Route (c.flip d.localID) e) b₀' b₁')
    (hcross : Crosses d d' p b₁ b₂ b₁' b₂')
    (hwait : Runs d (Undisturbed c) b₂ b₃) (hwait' : Runs d' (Undisturbed (c.flip d.localID)) b₂' b₃')
    (hreturn : Crosses d' d q b₃' b₄' b₃ b₄)
    (hlater : Runs d (Undisturbed c) b₄ b₅)
    (hlater' : Runs d' (Undisturbed (c.flip d.localID)) b₄' b₅') :
    Known c d.localID b₅ ∧ Known (c.flip d.localID) d'.localID b₅' ∧
      WorksOn c.sockets c.near d.localID d'.localID b₅.fetcher.sessions b₅'.fetcher.sessions ∧
      WorksOn c.sockets c.far d'.localID d.localID b₅'.fetcher.sessions b₅.fetcher.sessions := by
  have hpos : c.sockets.largerIP ≠ 0 := by
    rw [← hsource.1]
    exact largerIP_ne_zero (c.addresses hsource.1)
  -- The SYN segment.
  have hs₁ := hrun.sound (fun _ _ he => he) (hstart.sound c)
  have hs₁' := hrun'.sound (fun _ _ he => he) (hstart'.sound (c.flip d.localID))
  obtain ⟨⟨hs₂, hl₂⟩, hs₂', hl₂'⟩ := hcross.learned c (c.flip d.localID) hsyn htag hsource.1 rfl
    hs₁ hs₁'
  rw [hsource.2] at hl₂ hl₂'
  obtain ⟨hs₃, -, hnear₃, -⟩ := hwait.undisturbed hs₂
  obtain ⟨hs₃', -, -, hfar₃'⟩ := hwait'.undisturbed hs₂'
  have hknown₃ := hnear₃ (hl₂.saved c.near (iff_of_eq rfl))
  have hknown₃' := hfar₃' (hl₂'.saved c.near (iff_of_eq rfl))
  -- The segment that answers it.
  obtain ⟨⟨hs₄', hl₄'⟩, hs₄, hl₄⟩ := hreturn.learned (c.flip d.localID) c hanswer htag' hsource'.1
    rfl hs₃' hs₃
  rw [hsource'.2, hack] at hl₄ hl₄'
  obtain ⟨-, hstate₅, hnear₅, hfar₅⟩ := hlater.undisturbed hs₄
  obtain ⟨-, hstate₅', hnear₅', hfar₅'⟩ := hlater'.undisturbed hs₄'
  have hknown : Known c d.localID b₅ := by
    refine ⟨hnear₅ ?_, hfar₅ ?_, hstate₅.trans hl₄.state⟩
    · exact (hl₄.kept c.near c.notSameEnd.2).trans hknown₃
    · exact (hl₄.saved c.far (iff_of_eq rfl)).trans hpeer.symm
  have hknown' : Known (c.flip d.localID) d'.localID b₅' := by
    refine ⟨hnear₅' ?_, hfar₅' ?_, hstate₅'.trans hl₄'.state⟩
    · exact hl₄'.saved c.far (iff_of_eq rfl)
    · exact (hl₄'.kept c.near c.notSameEnd.2).trans hknown₃'
  refine ⟨hknown, hknown', hknown.worksOn hknown' hpeer hne hpos, ?_⟩
  have hback : Known ((c.flip d.localID).flip d'.localID) d.localID b₅ := by
    refine ⟨hknown.near, ?_, hknown.state⟩
    exact hknown.far.trans hpeer
  exact hknown'.worksOn hback rfl hne.symm hpos

/-- The segment that answers `synBytes []`. -/
def synAckBytes : List UInt8 :=
  [0x45, 0] ++ (beBytes 2 44 ++
    [0, 0, 0, 0, 64, 6, 0, 0, 10, 0, 0, 2, 10, 0, 0, 1, 0x30, 0x39, 0x30, 0x39, 0, 0, 7, 208,
      0, 0, 3, 233, 0x60, 0x12, 0xff, 0xff, 0, 0, 0, 0, 2, 4, 5, 180])

theorem offered_synAckBytes :
    Offered (deliveryOf synAckBytes) 5 (flow (ofList synAckBytes)) 2000
      [.option MSS_OPTION [5, 180]] 0 1460 [] where
  running := rfl
  id := show (1 : UInt32) ≠ 0 by decide
  carries :=
    { segment := by refine ⟨?_, ?_, rfl, ?_, ?_, ?_, ?_, ?_⟩ <;> decide
      wellFormed := by
        intro x hx
        rw [List.mem_singleton.mp hx]
        exact ⟨by decide, by decide⟩ }
  fits := by decide
  tcp := by decide
  syn := by decide
  segmentSize := by decide
  large := by decide
  untagged := by decide
  room := Or.inr (by decide)

/-- The connection that the two segments open. -/
def openedConnection : Connection where
  sockets := Sessions.sockets (ofList (synBytes []))
  near := saddr (ofList (synBytes []))
  far := daddr (ofList (synBytes []))
  peer := 88
  apart := by decide +kernel
  ends := by decide +kernel

theorem tagReadable_mss (data : List UInt8) : TagReadable [.option MSS_OPTION data] := by
  rintro ⟨x, hx, hmatch⟩
  rw [List.mem_singleton.mp hx] at hmatch
  cases hmatch

/-- Between the boxes 77 and 88. -/
theorem handshake_agrees_once :
    ∃ b b' : Box, Known openedConnection 77 b ∧ Known (openedConnection.flip 77) 88 b' ∧
      WorksOn openedConnection.sockets openedConnection.near 77 88 b.fetcher.sessions
        b'.fetcher.sessions ∧
      WorksOn openedConnection.sockets openedConnection.far 88 77 b'.fetcher.sessions
        b.fetcher.sessions := by
  have hinit : Initial twoWorkers := ⟨rfl, fun _ => rfl, fun _ => rfl⟩
  have hsyn := offered_synBytes (show ([] : List UInt8) = [] ∨ [] = [9] from Or.inl rfl)
  have htag := tagReadable_mss [5, 180]
  have hsockets : Sessions.sockets (ofList synAckBytes) = openedConnection.sockets := by
    decide
  obtain ⟨b₁, b₁', hcross⟩ := exists_crosses hsyn htag (openedConnection.addresses rfl) sharedBox
    otherBox twoWorkers twoWorkers
  obtain ⟨b₂', b₂, hreturn⟩ := exists_crosses offered_synAckBytes htag
    (openedConnection.addresses hsockets) otherBox sharedBox b₁' b₁
  exact ⟨b₂, b₂', handshake_agrees sharedBox otherBox openedConnection rfl (by decide) hsyn htag
    ⟨rfl, rfl⟩ offered_synAckBytes htag ⟨hsockets, by decide⟩ (by decide) hinit .refl
    hinit .refl hcross .refl .refl hreturn .refl .refl⟩

end Solowan.System
