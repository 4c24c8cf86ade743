/-
The number that the optimization thread stores for a direction.

The thread shares the sessions with the fetcher, the deoptimization threads and the cleanup. In a
run of `visits` a packet finds the sessions as the one before it left them, but for what the others
did in between; the number stored for a direction is then made by the segments of the direction.

* `visits_thread`: such a run is a run of the thread.
* `optimizationStep_number`: what one packet does to the number.
* `visits_number`: the number is the largest one of the segments that came.
-/

import Solowan.Sessions.Sequence
import Solowan.Worker.Closing

namespace Solowan.Worker

open Solowan.Memory Solowan.Dictionary Solowan.Net Solowan.Sessions

/-! ### Runs with sessions -/

/-- A packet that the thread takes from its queue, and what the other threads have done to the
sessions since it was done with the packet before. -/
structure Visit where
  packet : Mem
  meanwhile : SessionTable → SessionTable
  shared : SharedDictionaries
  switches : Switches

def Visit.arrival (v : Visit) (sessions : SessionTable) : Arrival :=
  ⟨v.packet, v.meanwhile sessions, v.shared, v.switches⟩

/-- A packet that was taken: what the thread found, and what it has done. -/
structure Taken where
  visit : Visit
  arrival : Arrival
  result : Optimized

/-- The thread on a sequence of packets, as far as it gets, on sessions that go from one packet to
the next. -/
def visits (d : Daemon) : Optimizer → SessionTable → List Visit → List Taken
  | _, _, [] => []
  | t, sessions, v :: vs =>
    match optimizationStep d t (v.arrival sessions) with
    | none => []
    | some o => ⟨v, v.arrival sessions, o⟩ :: visits d o.thread o.sessions vs

/-- It is a run of the thread on what its packets found. -/
theorem visits_thread (d : Daemon) (t : Optimizer) (sessions : SessionTable) (vs : List Visit) :
    (optimizationThread d t ((visits d t sessions vs).map Taken.arrival)).map
        (fun step => (step.1.2, step.2)) =
      (visits d t sessions vs).map fun x => (x.arrival, x.result) := by
  induction vs generalizing t sessions with
  | nil => rfl
  | cons v vs ih =>
    rw [visits]
    split
    · rfl
    · rename_i o ho
      rw [List.map_cons, optimizationThread, ho, List.map_cons, List.map_cons, ih]

/-- A run goes on from what a packet has left. -/
theorem visits_append {d : Daemon} {t : Optimizer} {sessions : SessionTable} {vs : List Visit}
    {past rest : List Taken} {x : Taken} (h : visits d t sessions vs = past ++ x :: rest) :
    ∃ t' sessions' vs', x.arrival = x.visit.arrival sessions' ∧
      optimizationStep d t' x.arrival = some x.result ∧ x.visit ∈ vs ∧ vs' ⊆ vs ∧
      rest = visits d x.result.thread x.result.sessions vs' := by
  induction vs generalizing t sessions past with
  | nil =>
    rw [visits] at h
    simp at h
  | cons v vs ih =>
    rw [visits] at h
    split at h
    · simp at h
    · rename_i o ho
      cases past with
      | nil =>
        obtain ⟨rfl, hrest⟩ := List.cons.inj h
        exact ⟨t, sessions, vs, rfl, ho, List.mem_cons_self, List.subset_cons_self v vs, hrest.symm⟩
      | cons y past =>
        obtain ⟨t', sessions', vs', harr, hstep, hmem, hsub, hrest⟩ := ih (List.cons.inj h).2
        exact ⟨t', sessions', vs', harr, hstep, List.mem_cons_of_mem v hmem,
          fun w hw => List.mem_cons_of_mem v (hsub hw), hrest⟩

/-! ### The number of a direction -/

/-- The number stored for the segments of the connection `k` that come from `addr`. -/
def storedNumber (sessions : SessionTable) (k : Sockets) (addr : UInt32) : Option UInt32 :=
  (getsession sessions k).map (storedSeq k.largerIP addr)

/-- The segment carries no SYN or FIN, option 32 can be set, and its session meets the acceleration
condition. -/
def Eligible (d : Daemon) (a : Arrival) : Prop :=
  ∃ s result m, getsession a.sessions (sockets a.packet) = some s ∧ isData a.packet = true ∧
    setTcpOption a.packet OPENNOP_OPTION.toNat 3 1 = some (result, m) ∧ result ≠ -1 ∧
    accelerates d.localID (sockets a.packet) (saddr a.packet)
      (saveacceleratorid (sockets a.packet).largerIP d.localID (saddr a.packet) s) = true

section Number

variable {d : Daemon} {t : Optimizer} {a : Arrival} {o : Optimized} {k : Sockets} {addr v : UInt32}
  {s s' : Session} {sessions : SessionTable} {n : UInt32}

theorem storedSeq_saveacceleratorid (largerIP : UInt32) :
    storedSeq largerIP addr (saveacceleratorid largerIP v n s) = storedSeq largerIP addr s := by
  unfold saveacceleratorid
  split
  · split <;> rfl
  · rfl

/-- A number is stored for one of the two ends. -/
theorem storedSeq_updateseqnumber_of_ne {largerIP saddr : UInt32}
    (h : ¬ (addr = largerIP ↔ saddr = largerIP)) :
    storedSeq largerIP addr (updateseqnumber largerIP saddr v s) = storedSeq largerIP addr s := by
  unfold storedSeq updateseqnumber
  by_cases hzero : largerIP ≠ 0
  · rw [if_pos hzero]
    by_cases haddr : addr = largerIP
    · have hother : saddr ≠ largerIP := fun hsame => h (iff_of_true haddr hsame)
      rw [if_pos haddr, if_pos haddr, if_neg hother]
    · have hother : saddr = largerIP := by
        by_contra hne
        exact h (iff_of_false haddr hne)
      rw [if_neg haddr, if_neg haddr, if_pos hother]
  · rw [if_neg hzero]

/-- The two ends of a connection. -/
theorem ends_of_ne {m : Mem} (hk : sockets m = k) (haddr : addr = k.largerIP ∨ addr = k.smallerIP)
    (hne : saddr m ≠ addr) : ¬ (addr = k.largerIP ↔ saddr m = k.largerIP) := by
  have hends := saddr_sockets m
  rw [hk] at hends
  grind

/-- What a packet does to its session, before it moves the session on. -/
structure Written (d : Daemon) (a : Arrival) (s s' : Session) : Prop where
  state : s'.state = s.state
  others : ∀ addr, isData a.packet = false ∨
    ¬ (addr = (sockets a.packet).largerIP ↔ saddr a.packet = (sockets a.packet).largerIP) →
      storedSeq (sockets a.packet).largerIP addr s' = storedSeq (sockets a.packet).largerIP addr s
  stored : Eligible d a → (sockets a.packet).largerIP ≠ 0 →
    storedSeq (sockets a.packet).largerIP (saddr a.packet) s' =
      if seq a.packet < storedSeq (sockets a.packet).largerIP (saddr a.packet) s then
        storedSeq (sockets a.packet).largerIP (saddr a.packet) s
      else seq a.packet

theorem Written.refl (hplain : ¬ Eligible d a) : Written d a s s :=
  ⟨rfl, fun _ _ => rfl, fun h => absurd h hplain⟩

/-- The accelerator is noted, and the number of a fresh segment is stored. -/
theorem written_save (hdata : isData a.packet = true) {stored : Bool}
    (hstored : Eligible d a → stored =
      checkseqnumber (sockets a.packet).largerIP (saddr a.packet) (seq a.packet) s) :
    Written d a s
      (if stored = true then
        updateseqnumber (sockets a.packet).largerIP (saddr a.packet) (seq a.packet)
          (saveacceleratorid (sockets a.packet).largerIP d.localID (saddr a.packet) s)
      else saveacceleratorid (sockets a.packet).largerIP d.localID (saddr a.packet) s) := by
  refine ⟨?_, fun addr hother => ?_, fun heligible hzero => ?_⟩
  · split
    · rw [(quiet_updateseqnumber ..).state, (quiet_saveacceleratorid ..).state]
    · rw [(quiet_saveacceleratorid ..).state]
  · have hne := hother.resolve_left (by rw [hdata]; decide)
    split
    · rw [storedSeq_updateseqnumber_of_ne hne, storedSeq_saveacceleratorid]
    · rw [storedSeq_saveacceleratorid]
  · rw [hstored heligible, checkseqnumber_eq hzero]
    by_cases hlt : seq a.packet < storedSeq (sockets a.packet).largerIP (saddr a.packet) s
    · simp only [hlt, decide_true, Bool.not_true, Bool.false_eq_true, if_false, if_true]
      exact storedSeq_saveacceleratorid _
    · simp only [hlt, decide_false, Bool.not_false, if_true, if_false]
      exact storedSeq_updateseqnumber hzero

/-- The sessions behind a packet, before its own is moved on. -/
structure Writes (d : Daemon) (a : Arrival) (sessions : SessionTable) : Prop where
  frame : ∀ k, k ≠ sockets a.packet → getsession sessions k = getsession a.sessions k
  own : ∀ s, getsession a.sessions (sockets a.packet) = some s →
    ∃ s', getsession sessions (sockets a.packet) = some s' ∧ Written d a s s'

theorem Writes.refl (hplain : ¬ Eligible d a) : Writes d a a.sessions :=
  ⟨fun _ _ => rfl, fun s hs => ⟨s, hs, .refl hplain⟩⟩

theorem Writes.of_own (hs : getsession a.sessions (sockets a.packet) = some s)
    (hframe : ∀ k, k ≠ sockets a.packet → getsession sessions k = getsession a.sessions k)
    (hown : getsession sessions (sockets a.packet) = some s') (hwritten : Written d a s s') :
    Writes d a sessions := by
  refine ⟨hframe, fun s₀ hs₀ => ⟨s', hown, ?_⟩⟩
  rw [hs] at hs₀
  cases hs₀
  exact hwritten

/-- The writes of the thread through the pointer to the session. -/
theorem writes_save (hs : getsession a.sessions (sockets a.packet) = some s)
    (hdata : isData a.packet = true) {stored : Bool}
    (hstored : Eligible d a → stored =
      checkseqnumber (sockets a.packet).largerIP (saddr a.packet) (seq a.packet) s) :
    Writes d a
      (if stored = true then
        (a.sessions.update (sockets a.packet)
          (saveacceleratorid (sockets a.packet).largerIP d.localID (saddr a.packet))).update
            (sockets a.packet)
            (updateseqnumber (sockets a.packet).largerIP (saddr a.packet) (seq a.packet))
      else a.sessions.update (sockets a.packet)
        (saveacceleratorid (sockets a.packet).largerIP d.localID (saddr a.packet))) := by
  have hwritten := written_save hdata hstored
  cases stored with
  | true =>
    refine .of_own hs (fun k hk => ?_) ?_ hwritten
    · rw [if_pos rfl, getsession_update_of_ne _ hk (by simp), getsession_update_of_ne _ hk (by simp)]
    · rw [if_pos rfl, getsession_update _ _ (by simp), getsession_update _ _ (by simp), hs]
      rfl
  | false =>
    refine .of_own hs (fun k hk => ?_) ?_ hwritten
    · exact getsession_update_of_ne _ hk (by simp)
    · rw [if_neg Bool.false_ne_true, getsession_update _ _ (by simp), hs]
      rfl

/-- **What one packet does to the sessions.** -/
theorem optimizationStep_writes (hsw : a.switches.deduplication = true) (hihl : 5 ≤ ihl a.packet)
    (h : optimizationStep d t a = some o) :
    ∃ sessions, Writes d a sessions ∧
      o.sessions = endSegment sessions (sockets a.packet) (rst a.packet) (fin a.packet) := by
  unfold optimizationStep at h
  dsimp only at h
  rw [if_pos (Or.inr (Or.inl hsw))] at h
  split at h
  · cases h
  · split at h
    · cases h
    · split at h
      · rename_i s hs
        split at h
        · rename_i hdata
          split at h
          · cases h
          · rename_i result m hset
            have hflow := (edited_setTcpOption hset).flow hihl
            have haddr : saddr m = saddr a.packet := congrArg Flow.saddr hflow
            have hseq : seq m = seq a.packet := (setTcpOption_kept hset).2.1
            split at h
            · rename_i hfail
              cases h
              refine ⟨_, ?_, emit_closes (edited_setTcpOption hset) hihl⟩
              refine writes_save hs hdata (show Eligible d a → false = _ from ?_)
              rintro ⟨s', result', m', -, -, hset', hne, -⟩
              rw [hset] at hset'
              cases hset'
              exact absurd hfail hne
            · rename_i hok
              have hdoff := (setTcpOption_kept hset).2.2 hok
              rw [tagPacket] at h
              dsimp only at h
              rw [Option.map_eq_some_iff, haddr, hseq] at h
              obtain ⟨e, he, rfl⟩ := h
              have hedit : Edited m e.packet := by
                split at he
                · exact accelerate_edited hdoff he
                · exact pass_edited he
              have hsent : ∀ oh, Edited a.packet (addHeader e.packet oh) := by
                intro oh
                exact ((edited_setTcpOption hset).trans hedit).trans (.of_same
                  (sameSegment_addHeader (tcph_le_tcpdata (hedit.doff hdoff)) oh))
              refine ⟨_, ?_, emit_closes (hsent _) hihl⟩
              rw [hsw, Bool.true_and, checkseqnumber_saveacceleratorid]
              refine writes_save hs hdata ?_
              rintro ⟨s', -, -, hs', -, -, -, hmet⟩
              rw [hs] at hs'
              cases hs'
              rw [hmet, Bool.not_true, Bool.false_or]
        · rename_i hdata
          cases h
          refine ⟨_, .refl ?_, emit_closes (.refl _) hihl⟩
          rintro ⟨s', -, -, -, hdata', -⟩
          exact hdata hdata'
      · rename_i hs
        cases h
        refine ⟨_, .refl ?_, (endSegment_unknown hs _ _).symm⟩
        rintro ⟨s', -, -, hs', -⟩
        rw [hs] at hs'
        cases hs'

/-- A session that is not closed by the packet stays, with its numbers. -/
theorem endSegment_stays (addr : UInt32) (hs : getsession sessions k = some s) {fin : Bool}
    (hfin : fin = true → s.state ≠ .TCP_CLOSING) :
    ∃ s', getsession (endSegment sessions k false fin) k = some s' ∧
      storedSeq k.largerIP addr s' = storedSeq k.largerIP addr s := by
  rw [endSegment, if_neg Bool.false_ne_true, closingsession, hs]
  dsimp only
  split
  · rename_i hclosing
    split
    · have hmoved := getsession_update sessions k (f := fun s => { s with state := .TCP_CLOSING })
        fun _ => rfl
      rw [hs, Option.map_some] at hmoved
      exact ⟨_, hmoved, rfl⟩
    · rename_i hstate
      exact absurd hstate (hfin hclosing)
    · exact ⟨s, hs, rfl⟩
  · exact ⟨s, hs, rfl⟩

end Number

/-! ### Whole runs -/

/-- The segment belongs to the connection `k`, comes from `addr`, and carries no SYN or FIN: its
number is compared and stored. -/
def Counts (k : Sockets) (addr : UInt32) (m : Mem) : Prop :=
  sockets m = k ∧ saddr m = addr ∧ isData m = true

/-- The packet has a whole IP header and does not close the session `k`, and it is eligible if its
number counts. -/
structure Steady (d : Daemon) (k : Sockets) (addr : UInt32) (a : Arrival) : Prop where
  headed : 5 ≤ ihl a.packet
  stays : sockets a.packet = k → ∀ s, getsession a.sessions k = some s →
    rst a.packet = false ∧ (fin a.packet = true → s.state ≠ .TCP_CLOSING)
  eligible : Counts k addr a.packet → Eligible d a

/-- What the other threads do leaves the session where it is, with the number of the direction. -/
def KeepsNumber (k : Sockets) (addr : UInt32) (meanwhile : SessionTable → SessionTable) : Prop :=
  ∀ sessions n, storedNumber sessions k addr = some n →
    storedNumber (meanwhile sessions) k addr = some n

section Runs

variable {d : Daemon} {t : Optimizer} {sessions : SessionTable} {vs : List Visit} {k : Sockets}
  {addr n : UInt32}

/-- **One packet** raises the number of a direction to its own, if its own counts. -/
theorem optimizationStep_number {a : Arrival} {o : Optimized}
    (hsw : a.switches.deduplication = true) (h : optimizationStep d t a = some o)
    (hends : addr = k.largerIP ∨ addr = k.smallerIP) (hzero : k.largerIP ≠ 0)
    (hsteady : Steady d k addr a) (hn : storedNumber a.sessions k addr = some n) :
    ∃ n', storedNumber o.sessions k addr = some n' ∧
      ∀ v, v < n' ↔ v < n ∨ Counts k addr a.packet ∧ v < seq a.packet := by
  obtain ⟨sessions, hwrites, hout⟩ := optimizationStep_writes hsw hsteady.headed h
  obtain ⟨s, hs, rfl⟩ := Option.map_eq_some_iff.mp hn
  by_cases hk : k = sockets a.packet
  · subst hk
    obtain ⟨s', hs', hwritten⟩ := hwrites.own s hs
    obtain ⟨hrst, hfin⟩ := hsteady.stays rfl s hs
    rw [← hwritten.state] at hfin
    rw [hrst] at hout
    obtain ⟨s'', hs'', hsame⟩ := endSegment_stays addr hs' hfin
    refine ⟨_, by rw [hout, storedNumber, hs'']; rfl, fun v => ?_⟩
    rw [hsame]
    by_cases hcounts : Counts (sockets a.packet) addr a.packet
    · obtain ⟨-, rfl, -⟩ := id hcounts
      rw [hwritten.stored (hsteady.eligible hcounts) hzero]
      simp only [hcounts, true_and]
      split <;> grind
    · have hother : isData a.packet = false ∨
          ¬ (addr = (sockets a.packet).largerIP ↔ saddr a.packet = (sockets a.packet).largerIP) := by
        by_cases hdata : isData a.packet = true
        · exact Or.inr (ends_of_ne rfl hends fun haddr => hcounts ⟨rfl, haddr, hdata⟩)
        · exact Or.inl (Bool.eq_false_of_not_eq_true hdata)
      rw [hwritten.others addr hother]
      simp [hcounts]
  · refine ⟨storedSeq k.largerIP addr s, ?_, fun v => ?_⟩
    · rw [hout, storedNumber, getsession_endSegment_of_ne _ hk, hwrites.frame k hk, hs]
      rfl
    · have hcounts : ¬ Counts k addr a.packet := fun h => hk h.1.symm
      simp [hcounts]

/-- **The number of a direction** is the largest one of the segments that came. -/
theorem visits_number (hends : addr = k.largerIP ∨ addr = k.smallerIP) (hzero : k.largerIP ≠ 0)
    (hon : ∀ v ∈ vs, v.switches.deduplication = true) {between rest : List Taken} {x : Taken}
    (h : visits d t sessions vs = between ++ x :: rest)
    (hkeeps : ∀ y ∈ between ++ [x], KeepsNumber k addr y.visit.meanwhile)
    (hsteady : ∀ y ∈ between, Steady d k addr y.arrival)
    (hn : storedNumber sessions k addr = some n) :
    ∃ n', storedNumber x.arrival.sessions k addr = some n' ∧
      ∀ v, v < n' ↔ v < n ∨
        ∃ y ∈ between, Counts k addr y.arrival.packet ∧ v < seq y.arrival.packet := by
  induction vs generalizing t sessions between n with
  | nil =>
    rw [visits] at h
    simp at h
  | cons v vs ih =>
    rw [visits] at h
    split at h
    · simp at h
    · rename_i o ho
      cases between with
      | nil =>
        obtain ⟨rfl, -⟩ := List.cons.inj h
        exact ⟨n, hkeeps _ List.mem_cons_self _ _ hn, fun w => by simp⟩
      | cons y between =>
        obtain ⟨rfl, hrest⟩ := List.cons.inj h
        obtain ⟨n₁, hn₁, hlt₁⟩ := optimizationStep_number (hon v List.mem_cons_self) ho hends hzero
          (hsteady _ List.mem_cons_self) (hkeeps _ List.mem_cons_self _ _ hn)
        obtain ⟨n', hn', hlt⟩ := ih (fun w hw => hon w (List.mem_cons_of_mem v hw)) hrest
          (fun z hz => hkeeps z (List.mem_cons_of_mem _ hz))
          (fun z hz => hsteady z (List.mem_cons_of_mem _ hz)) hn₁
        refine ⟨n', hn', fun w => ?_⟩
        rw [hlt, hlt₁, List.exists_mem_cons_iff, or_assoc]

end Runs

end Solowan.Worker
