/-
Who owns the buffer of a packet in the deoptimization thread (`deoptimization_thread`,
`opennopd/subsystems/worker.c`; `put_freepacket_buffer`, `opennopd/subsystems/memorymanager.c`).

The thread is written out once more, now with what it does to the buffer in the order of the
source: reading or writing it, `nfq_set_verdict` and `put_freepacket_buffer`.

* `tracedStep_value`: it is the same thread.
* `tracedStep_settled`: a round that returns passes one verdict, the one of the model, and puts
  the buffer back once.
* `deoptimizer_owns_iff`: it leaves the buffer alone afterwards if and only if every decoder
  that runs returns and succeeds.
* `dropped_packet_is_read`: a packet whose data cannot be restored is read after its buffer
  was put back.
-/

import Solowan.Memory.Ownership
import Solowan.Worker.FailSafe

namespace Solowan.Worker

open Solowan.Memory Solowan.Dictionary Solowan.Net Solowan.Sessions Solowan.Fetcher

/-! ### The thread and the buffer -/

/-- A round of the thread, with the uses of the buffer. -/
abbrev OnBuffer (α : Type) := Traced (Use Verdict) α

/-- The buffer is read or written through `thispacket`, `iph`, `tcph` or `tcpdata`. -/
def access : OnBuffer Unit := .emit .access

/-- `nfq_set_verdict(thispacket->hq, thispacket->id, ..)` and `put_freepacket_buffer`. -/
def setVerdict (v : Verdict) : OnBuffer Unit := ⟨giveBack v, some ()⟩

/-- `tcp_decompress`. Its failure is answered without a look at `thispacket`. -/
def tracedDecompress (d : Daemon) (last : Bool) (r : Decoded) : OnBuffer (Int × Decoded) := do
  access
  if (tcpDecompress d r.packet).1 < 0 then setVerdict .NF_DROP
  else if last then access
  return decompress d last r

/-- `updateseqnumber` and `tcp_deoptimize`. -/
def tracedDeoptimize (d : Daemon) (k : Sockets) (redComp : Int) (r : Decoded) :
    OnBuffer Decoded := do
  access
  access
  let (redDedup, _) ← .ofOption (tcpDeoptimize d r.thread.dedup r.packet)
  if redDedup = ERROR ∨ redDedup = HASH_NOT_FOUND then
    if r.kept then setVerdict .NF_DROP
  else access
  .ofOption (deoptimize d k redComp r)

/-- `tcp_cache_deoptim`. -/
def tracedCache (d : Daemon) (r : Decoded) : OnBuffer Decoded := do
  access
  return cacheDeoptim d r

/-- The branch for a packet with a flag, at the accelerator of its destination. -/
def tracedRestore (d : Daemon) (sw : Switches) (k : Sockets) (compressPresent dedupPresent : Bool)
    (r : Decoded) : OnBuffer Decoded :=
  if sw.deduplication then do
    let (redComp, r) ←
      if sw.compression && compressPresent then tracedDecompress d (!dedupPresent) r
      else pure (0, r)
    if dedupPresent then tracedDeoptimize d k redComp r else tracedCache d r
  else if sw.compression && compressPresent then do
    let (_, r) ← tracedDecompress d true r
    return r
  else pure r

/-- What happens to the data of a packet with the header `oh` in the session `s`. -/
def tracedSegment (d : Daemon) (sw : Switches) (k : Sockets) (s : Session) (oh : OpennopHeader)
    (r : Decoded) : OnBuffer Decoded := do
  access
  if isData r.packet && decide (oh.opennopID ≠ 0) then
    access
    let save := saveacceleratorid k.largerIP oh.opennopID (saddr r.packet)
    let r := { r with sessions := r.sessions.update k save }
    let compressPresent := decide (oh.compression ≠ 0)
    let dedupPresent := decide (oh.deduplication ≠ 0)
    if compressPresent || dedupPresent then
      access
      if acceleratesDestination d.localID k (saddr r.packet) (save s) then
        tracedRestore d sw k compressPresent dedupPresent r
      else return r
    else if sw.deduplication then tracedCache d r
    else return r
  else return r

/-- The end of the branch for a known session: the test for a reset, `closingsession`, and
the verdict when the packet is still there. -/
def tracedDeliver (k : Sockets) (headersBefore : Nat) (r : Decoded) : OnBuffer Deoptimized := do
  access
  access
  if r.kept then
    access
    setVerdict (.NF_ACCEPT (some (wholePacket (checksum r.packet))))
  return deliver k headersBefore r

/-- The number of the next header, and the gaps before this one. -/
def expectNext (t : Deoptimizer) (oh : OpennopHeader) : Deoptimizer :=
  { t with
    expectedSeqNo := oh.seqNo + 1
    metrics :=
      { t.metrics with
        sequenceGaps :=
          t.metrics.sequenceGaps + if oh.seqNo ≠ t.expectedSeqNo then 1 else 0 } }

/-- A packet whose header `oh` has been taken off. -/
def tracedStripped (d : Daemon) (t : Deoptimizer) (a : Arrival) (oh : OpennopHeader) (m : Mem) :
    OnBuffer Deoptimized := do
  let headersBefore := getIPPlusTCPHeaderLength a.packet
  let t := expectNext t oh
  access
  let k := sockets m
  match getsession a.sessions k with
  | some s =>
    let r ← tracedSegment d a.switches k s oh ⟨t, a.sessions, m, [], true⟩
    tracedDeliver k headersBefore r
  | none =>
    access
    setVerdict (.NF_ACCEPT none)
    return forward headersBefore t a.sessions m

/-- A packet whose option 32 has the value `option`. The header is read when it is there. -/
def tracedGuarded (d : Daemon) (t : Deoptimizer) (a : Arrival) (option : UInt64) :
    OnBuffer Deoptimized := do
  if option ≠ 0 then access
  if announced a.packet option then
    access
    let m ← .ofOption (stripHeader a.packet)
    tracedStripped d t a (opennopHeader a.packet) m
  else
    setVerdict .NF_DROP
    return refuse t a

/-- One round of the loop. -/
def tracedStep (d : Daemon) (t : Deoptimizer) (a : Arrival) : OnBuffer Deoptimized := do
  access
  let t :=
    { t with
      dedup := { t.dedup with shared := a.shared }
      metrics := { t.metrics with bytesin := t.metrics.bytesin + UInt64.ofNat (totLen a.packet) } }
  let option ← .ofOption (getTcpOption a.packet OPENNOP_OPTION)
  tracedGuarded d t a option

/-! ### It is the same thread -/

@[simp]
theorem events_access : access.events = [.access] := rfl

@[simp]
theorem value_access : access.value = some () := rfl

@[simp]
theorem events_setVerdict (v : Verdict) : (setVerdict v).events = giveBack v := rfl

@[simp]
theorem value_setVerdict (v : Verdict) : (setVerdict v).value = some () := rfl

section Same

variable {d : Daemon} {sw : Switches} {k : Sockets} {oh : OpennopHeader} {r r' : Decoded}

@[simp]
theorem tracedDecompress_value (last : Bool) :
    (tracedDecompress d last r).value = some (decompress d last r) := by
  simp [tracedDecompress]

@[simp]
theorem tracedDeoptimize_value (redComp : Int) :
    (tracedDeoptimize d k redComp r).value = deoptimize d k redComp r := by
  cases h : tcpDeoptimize d r.thread.dedup r.packet with
  | none => simp [tracedDeoptimize, h, deoptimize]
  | some v => simp [tracedDeoptimize, h]

@[simp]
theorem tracedCache_value : (tracedCache d r).value = some (cacheDeoptim d r) := rfl

@[simp]
theorem tracedRestore_value (c b : Bool) :
    (tracedRestore d sw k c b r).value = restore d sw k c b r := by
  unfold tracedRestore restore
  by_cases hc : (sw.compression && c) = true
  · cases b <;> simp [hc]
  · cases b <;> simp [hc]

@[simp]
theorem tracedSegment_value {s : Session} :
    (tracedSegment d sw k s oh r).value = deoptimizeSegment d sw k s oh r := by
  simp [tracedSegment, deoptimizeSegment]

@[simp]
theorem tracedDeliver_value (headersBefore : Nat) :
    (tracedDeliver k headersBefore r).value = some (deliver k headersBefore r) := by
  cases h : r.kept <;> simp [tracedDeliver, h]

theorem tracedStripped_value {t : Deoptimizer} {a : Arrival} {m : Mem} :
    (tracedStripped d t a oh m).value = deoptimizeStripped d t a oh m := by
  cases hs : getsession a.sessions (sockets m) with
  | none => simp [tracedStripped, deoptimizeStripped, expectNext, hs]
  | some s => simp [tracedStripped, deoptimizeStripped, expectNext, hs, Option.map_eq_bind]

/-- **The round with the uses of the buffer is the round.** -/
theorem tracedStep_value (d : Daemon) (t : Deoptimizer) (a : Arrival) :
    (tracedStep d t a).value = deoptimizationStep d t a := by
  cases hget : getTcpOption a.packet OPENNOP_OPTION with
  | none => simp [tracedStep, deoptimizationStep, hget]
  | some option =>
    cases hstrip : stripHeader a.packet with
    | none => simp [tracedStep, tracedGuarded, deoptimizationStep, hget, hstrip]
    | some m =>
      simp [tracedStep, tracedGuarded, deoptimizationStep, hget, hstrip, tracedStripped_value]

end Same

/-! ### When the buffer is left alone -/

/-- The decoders that run on the data in `m` return and succeed. -/
def Succeeds (d : Daemon) (sw : Switches) (x : Dedup) (oh : OpennopHeader) (m : Mem) : Prop :=
  let first := sw.compression = true ∧ oh.compression ≠ 0
  let m' := if first then (tcpDecompress d m).2 else m
  (first → 0 ≤ (tcpDecompress d m).1) ∧
    (sw.deduplication = true ∧ oh.deduplication ≠ 0 →
      ∃ r, tcpDeoptimize d x m' = some r ∧ 0 ≤ r.1)

/-- The loops over the options return, and the decoders that run succeed. -/
def DecodersSucceed (d : Daemon) (t : Deoptimizer) (a : Arrival) : Prop :=
  ∃ option, getTcpOption a.packet OPENNOP_OPTION = some option ∧
    (announced a.packet option = true → ∃ m, stripHeader a.packet = some m ∧
      ∀ s, getsession a.sessions (sockets m) = some s →
        reachesDecoders d.localID (sockets m) s (opennopHeader a.packet) m = true →
          Succeeds d a.switches { t.dedup with shared := a.shared } (opennopHeader a.packet) m)

/-- The buffer after a part of the round. It is held, and the packet is still there, when all
goes well (`ok`). Otherwise the packet was dropped, or a call does not return. -/
structure Keeps (ok : Prop) (x : OnBuffer Decoded) : Prop where
  success : ok → Held x.events ∧ ∃ r, x.value = some r ∧ r.kept = true
  failure : ¬ ok →
    (x.value = none ∧ ∀ us, Held us → ¬ Owned (us ++ x.events)) ∨
      ∃ r, x.value = some r ∧ r.kept = false ∧ verdicts x.events = [.NF_DROP] ∧ puts x.events = 1

section Keeping

variable {d : Daemon} {sw : Switches} {k : Sockets} {oh : OpennopHeader} {r r' : Decoded}
  {ok : Prop} {x : OnBuffer Decoded}

/-- A part that uses the buffer and keeps the packet. -/
theorem Keeps.of_held (hok : ok) (hheld : Held x.events) {r : Decoded} (hvalue : x.value = some r)
    (hkept : r.kept = true) : Keeps ok x :=
  ⟨fun _ => ⟨hheld, r, hvalue, hkept⟩, fun h => absurd hok h⟩

theorem Keeps.congr {ok' : Prop} (h : Keeps ok x) (hiff : ok ↔ ok') : Keeps ok' x :=
  ⟨fun hok => h.success (hiff.mpr hok), fun hok => h.failure (hiff.not.mpr hok)⟩

/-- A part behind one that uses the buffer and keeps it. -/
theorem Keeps.bind_held {α : Type} {x : OnBuffer α} {f : α → OnBuffer Decoded} {v : α}
    (hheld : Held x.events) (hvalue : x.value = some v) (h : Keeps ok (f v)) :
    Keeps ok (x >>= f) := by
  have hevents : (x >>= f).events = x.events ++ (f v).events := by simp [hvalue]
  have hvalue' : (x >>= f).value = (f v).value := by simp [hvalue]
  constructor
  · intro hok
    obtain ⟨hheld', hkept⟩ := h.success hok
    rw [hevents, hvalue']
    exact ⟨held_append.mpr ⟨hheld, hheld'⟩, hkept⟩
  · intro hok
    rw [hevents, hvalue']
    rcases h.failure hok with ⟨hnone, howned⟩ | ⟨r, hr, hkept, hverdict, hput⟩
    · refine Or.inl ⟨hnone, ?_⟩
      intro us hus
      rw [← List.append_assoc]
      exact howned _ (held_append.mpr ⟨hus, hheld⟩)
    · refine Or.inr ⟨r, hr, hkept, ?_, ?_⟩
      · rw [verdicts_append, hheld.verdicts_eq, hverdict]
        rfl
      · rw [puts_append, hheld.puts_eq, hput]

/-- A part that goes on with a packet that was dropped before it. -/
theorem Keeps.of_dropped {α : Type} {x : OnBuffer α} {f : α → OnBuffer Decoded} {v : α}
    (hok : ¬ ok) (hvalue : x.value = some v) (hverdict : verdicts x.events = [.NF_DROP])
    (hput : puts x.events = 1) (hheld : Held (f v).events)
    (haccess : (f v).value = none → .access ∈ (f v).events)
    (hkept : ∀ r, (f v).value = some r → r.kept = false) : Keeps ok (x >>= f) := by
  have hevents : (x >>= f).events = x.events ++ (f v).events := by simp [hvalue]
  have hvalue' : (x >>= f).value = (f v).value := by simp [hvalue]
  refine ⟨fun h => absurd h hok, fun _ => ?_⟩
  rw [hevents, hvalue']
  cases hv : (f v).value with
  | none =>
    refine Or.inl ⟨rfl, ?_⟩
    intro us _
    rw [← List.append_assoc]
    exact not_owned_of_access_after (List.mem_append_right _ (put_mem hput)) (haccess hv)
  | some r =>
    refine Or.inr ⟨r, rfl, hkept r hv, ?_, ?_⟩
    · rw [verdicts_append, hheld.verdicts_eq, hverdict]
      rfl
    · rw [puts_append, hheld.puts_eq, hput]

/-- What `tcp_decompress` does to the buffer. -/
theorem tracedDecompress_events (last : Bool) :
    (tracedDecompress d last r).events = .access ::
      if (tcpDecompress d r.packet).1 < 0 then giveBack .NF_DROP
      else if last then [.access] else [] := by
  cases last <;> simp [tracedDecompress]

/-- A decompression that succeeds. -/
theorem tracedDecompress_held (last : Bool) (h : 0 ≤ (tcpDecompress d r.packet).1) :
    Held (tracedDecompress d last r).events := by
  rw [tracedDecompress_events, if_neg (by omega)]
  cases last <;> simp

/-- A decompression that fails. -/
theorem tracedDecompress_dropped (last : Bool) (h : ¬ 0 ≤ (tcpDecompress d r.packet).1) :
    verdicts (tracedDecompress d last r).events = [.NF_DROP] ∧
      puts (tracedDecompress d last r).events = 1 := by
  rw [tracedDecompress_events, if_pos (by omega)]
  exact ⟨rfl, rfl⟩

/-- What `tcp_deoptimize` does to the buffer when it returns. -/
theorem tracedDeoptimize_events {redComp n : Int} {m : Mem} {x : Dedup}
    (h : tcpDeoptimize d r.thread.dedup r.packet = some (n, m, x)) :
    (tracedDeoptimize d k redComp r).events = .access :: .access ::
      if n < 0 then if r.kept then giveBack .NF_DROP else [] else [.access] := by
  have hsign := tcpDeoptimize_sign h
  by_cases hn : n < 0
  · simp [tracedDeoptimize, h, hsign.mpr hn, hn]
  · simp [tracedDeoptimize, h, hsign.not.mpr hn, hn]

/-- And when it does not. -/
theorem tracedDeoptimize_events_none {redComp : Int}
    (h : tcpDeoptimize d r.thread.dedup r.packet = none) :
    (tracedDeoptimize d k redComp r).events = [.access, .access] := by
  simp [tracedDeoptimize, h]

/-- `tcp_deoptimize` on a packet that is still there. -/
theorem tracedDeoptimize_keeps (redComp : Int) (hkept : r.kept = true) :
    Keeps (∃ v, tcpDeoptimize d r.thread.dedup r.packet = some v ∧ 0 ≤ v.1)
      (tracedDeoptimize d k redComp r) := by
  cases h : tcpDeoptimize d r.thread.dedup r.packet with
  | none =>
    refine ⟨by rintro ⟨v, ⟨⟩, -⟩, fun _ => Or.inl ⟨?_, ?_⟩⟩
    · rw [tracedDeoptimize_value, deoptimize_none h]
    · intro us hus
      rw [tracedDeoptimize_events_none h]
      exact Held.not_owned (by simpa using hus)
  | some v =>
    obtain ⟨n, m, x⟩ := v
    obtain ⟨r', hr', -, hfail, hsucc⟩ := deoptimize_spec k redComp h
    have hevents : (tracedDeoptimize d k redComp r).events = _ := tracedDeoptimize_events h
    constructor
    · rintro ⟨v, ⟨rfl⟩, hn⟩
      rw [hevents, if_neg (by omega), tracedDeoptimize_value]
      exact ⟨by simp, r', hr', (hsucc hn).1.trans hkept⟩
    · intro hn
      have hneg : n < 0 := by
        by_contra hpos
        exact hn ⟨_, rfl, by omega⟩
      rw [hevents, if_pos hneg, if_pos hkept, tracedDeoptimize_value]
      exact Or.inr ⟨r', hr', hfail hneg, rfl, rfl⟩

/-- `tcp_deoptimize` on a packet that was dropped. -/
theorem tracedDeoptimize_dropped (redComp : Int) (hkept : r.kept = false) :
    Held (tracedDeoptimize d k redComp r).events ∧
      .access ∈ (tracedDeoptimize d k redComp r).events ∧
      ∀ r', (tracedDeoptimize d k redComp r).value = some r' → r'.kept = false := by
  cases h : tcpDeoptimize d r.thread.dedup r.packet with
  | none =>
    rw [tracedDeoptimize_events_none h, tracedDeoptimize_value, deoptimize_none h]
    exact ⟨by simp, List.mem_cons_self, fun r' h => by cases h⟩
  | some v =>
    obtain ⟨n, m, x⟩ := v
    obtain ⟨r', hr', -, hfail, hsucc⟩ := deoptimize_spec k redComp h
    rw [tracedDeoptimize_events h, tracedDeoptimize_value, hr', hkept]
    refine ⟨?_, List.mem_cons_self, ?_⟩
    · split <;> simp
    · rintro _ ⟨rfl⟩
      by_cases hn : 0 ≤ n
      · exact (hsucc hn).1.trans hkept
      · exact hfail (by omega)

/-- What is left to do with deduplication on, for a packet that is still there. -/
theorem tracedNext_keeps (redComp : Int) (dedupPresent : Bool) (hkept : r.kept = true) :
    Keeps (dedupPresent = true → ∃ v, tcpDeoptimize d r.thread.dedup r.packet = some v ∧ 0 ≤ v.1)
      (if dedupPresent then tracedDeoptimize d k redComp r else tracedCache d r) := by
  cases dedupPresent with
  | true =>
    simp only [if_true, true_implies]
    exact tracedDeoptimize_keeps redComp hkept
  | false =>
    refine .of_held (fun h => by cases h) ?_ tracedCache_value hkept
    simp [tracedCache]

/-- And for one that was dropped. -/
theorem tracedNext_dropped (redComp : Int) (dedupPresent : Bool) (hkept : r.kept = false) :
    Held (if dedupPresent then tracedDeoptimize d k redComp r else tracedCache d r).events ∧
      .access ∈ (if dedupPresent then tracedDeoptimize d k redComp r else tracedCache d r).events ∧
      ∀ r', (if dedupPresent then tracedDeoptimize d k redComp r else tracedCache d r).value =
        some r' → r'.kept = false := by
  cases dedupPresent with
  | true => exact tracedDeoptimize_dropped redComp hkept
  | false =>
    refine ⟨by simp [tracedCache], by simp [tracedCache], ?_⟩
    rintro r' ⟨rfl⟩
    exact hkept

/-- Deduplication is on. -/
theorem tracedRestore_on (hsw : sw.deduplication = true) (c b : Bool) (hkept : r.kept = true) :
    Keeps (((sw.compression && c) = true → 0 ≤ (tcpDecompress d r.packet).1) ∧
        (b = true → ∃ v, tcpDeoptimize d r.thread.dedup
          (if (sw.compression && c) = true then (tcpDecompress d r.packet).2 else r.packet) =
            some v ∧ 0 ≤ v.1))
      (tracedRestore d sw k c b r) := by
  rw [tracedRestore, if_pos hsw]
  cases hc : (sw.compression && c) with
  | true =>
    simp only [if_true, forall_const]
    obtain ⟨-, -, hdedup, hok, hfail⟩ := decompress_spec d (!b) r
    by_cases hn : 0 ≤ (tcpDecompress d r.packet).1
    · obtain ⟨hkept', hpacket⟩ := hok hn
      refine .bind_held (tracedDecompress_held _ hn) (tracedDecompress_value _) ?_
      refine (tracedNext_keeps (decompress d (!b) r).1 b (hkept'.trans hkept)).congr ?_
      rw [hdedup, hpacket, and_iff_right hn]
      cases b with
      | true => rfl
      | false => exact iff_of_true (fun h => by cases h) fun h => by cases h
    · obtain ⟨hverdict, hput⟩ := tracedDecompress_dropped (!b) hn
      obtain ⟨hheld, haccess, hgone⟩ :=
        tracedNext_dropped (k := k) (decompress d (!b) r).1 b (hfail (by omega)).1
      exact .of_dropped (fun h => hn h.1) (tracedDecompress_value _) hverdict hput hheld
        (fun _ => haccess) hgone
  | false =>
    refine .bind_held held_nil rfl ?_
    refine (tracedNext_keeps 0 b hkept).congr ?_
    simp

/-- Deduplication is off. -/
theorem tracedRestore_off (hsw : sw.deduplication = false) (c b : Bool) (hkept : r.kept = true) :
    Keeps ((sw.compression && c) = true → 0 ≤ (tcpDecompress d r.packet).1)
      (tracedRestore d sw k c b r) := by
  rw [tracedRestore, if_neg (by simp [hsw])]
  cases hc : (sw.compression && c) with
  | true =>
    rw [if_pos rfl]
    simp only [forall_const]
    obtain ⟨-, -, -, hok, hfail⟩ := decompress_spec d true r
    by_cases hn : 0 ≤ (tcpDecompress d r.packet).1
    · exact .bind_held (tracedDecompress_held _ hn) (tracedDecompress_value _)
        (.of_held hn held_nil rfl ((hok hn).1.trans hkept))
    · obtain ⟨hverdict, hput⟩ := tracedDecompress_dropped true hn
      refine .of_dropped hn (tracedDecompress_value _) hverdict hput held_nil (fun h => by cases h) ?_
      rintro r' ⟨rfl⟩
      exact (hfail (by omega)).1
  | false =>
    rw [if_neg Bool.false_ne_true]
    exact .of_held (fun h => by cases h) held_nil rfl hkept

/-- **The decoders hold the buffer as long as they succeed.** -/
theorem tracedRestore_keeps (hkept : r.kept = true) :
    Keeps (Succeeds d sw r.thread.dedup oh r.packet)
      (tracedRestore d sw k (decide (oh.compression ≠ 0)) (decide (oh.deduplication ≠ 0)) r) := by
  cases hsw : sw.deduplication with
  | true =>
    refine (tracedRestore_on hsw _ _ hkept).congr ?_
    simp [Succeeds, hsw]
  | false =>
    refine (tracedRestore_off hsw _ _ hkept).congr ?_
    simp [Succeeds, hsw]

/-- A packet of a known session. -/
theorem tracedSegment_keeps (sw : Switches) (s : Session) (oh : OpennopHeader)
    (hkept : r.kept = true) :
    Keeps (reachesDecoders d.localID k s oh r.packet = true →
        Succeeds d sw r.thread.dedup oh r.packet) (tracedSegment d sw k s oh r) := by
  have hnone : oh.compression = 0 → oh.deduplication = 0 →
      Succeeds d sw r.thread.dedup oh r.packet := by
    intro hc hd
    exact ⟨fun h => absurd hc h.2, fun h => absurd hd h.2⟩
  unfold tracedSegment
  refine .bind_held (by simp) value_access ?_
  split
  · rename_i hdata
    refine .bind_held (by simp) value_access ?_
    dsimp only
    split
    · refine .bind_held (by simp) value_access ?_
      split
      · rename_i hdest
        refine Keeps.congr (tracedRestore_keeps ?_) ?_
        · exact hkept
        · rw [reachesDecoders, hdata, hdest]
          exact ⟨fun h _ => h, fun h => h rfl⟩
      · rename_i hdest
        refine .of_held ?_ held_nil rfl hkept
        rw [reachesDecoders, hdata, Bool.eq_false_of_not_eq_true hdest]
        exact fun h => by cases h
    · rename_i hflag
      have hno : oh.compression = 0 ∧ oh.deduplication = 0 := by simpa using hflag
      split
      · refine .of_held (fun _ => hnone hno.1 hno.2) ?_ tracedCache_value hkept
        simp [tracedCache]
      · exact .of_held (fun _ => hnone hno.1 hno.2) held_nil rfl hkept
  · rename_i hdata
    refine .of_held ?_ held_nil rfl hkept
    rw [reachesDecoders, Bool.eq_false_of_not_eq_true hdata]
    exact fun h => by cases h

/-! ### One packet -/

/-- A round whose verdict is passed once. -/
def Settled (x : OnBuffer Deoptimized) : Prop :=
  ∀ o, x.value = some o → verdicts x.events = [o.verdict] ∧ puts x.events = 1

/-- The buffer at the end of the branch for a known session. -/
theorem Keeps.deliver (h : Keeps ok x) (k : Sockets) (headersBefore : Nat) :
    (∀ us, Held us → (Owned (us ++ (x >>= tracedDeliver k headersBefore).events) ↔ ok)) ∧
      Settled (x >>= tracedDeliver k headersBefore) := by
  by_cases hok : ok
  · obtain ⟨hheld, r, hvalue, hkept⟩ := h.success hok
    have hevents : (x >>= tracedDeliver k headersBefore).events =
        (x.events ++ [.access, .access, .access]) ++
          giveBack (.NF_ACCEPT (some (wholePacket (checksum r.packet)))) := by
      simp [hvalue, tracedDeliver, hkept]
    constructor
    · intro us hus
      rw [hevents, ← List.append_assoc]
      refine iff_of_true (Held.owned_giveBack ?_ _) hok
      simp [hus, hheld]
    · intro o ho
      rw [Traced.value_bind, hvalue, Option.bind_some, tracedDeliver_value, Option.some.injEq] at ho
      rw [hevents, verdicts_append, puts_append, Held.verdicts_eq (by simp [hheld]),
        Held.puts_eq (by simp [hheld]), ← ho]
      simp [Worker.deliver, hkept, giveBack, verdicts, puts]
  · rcases h.failure hok with ⟨hnone, howned⟩ | ⟨r, hvalue, hkept, hverdict, hput⟩
    · constructor
      · intro us hus
        refine iff_of_false ?_ hok
        simpa [hnone] using howned us hus
      · intro o ho
        simp [hnone] at ho
    · have hevents : (x >>= tracedDeliver k headersBefore).events =
          x.events ++ [.access, .access] := by
        simp [hvalue, tracedDeliver, hkept]
      constructor
      · intro us hus
        refine iff_of_false ?_ hok
        rw [hevents, ← List.append_assoc]
        exact not_owned_of_access_after (List.mem_append_right _ (put_mem hput))
          List.mem_cons_self
      · intro o ho
        rw [Traced.value_bind, hvalue, Option.bind_some, tracedDeliver_value,
          Option.some.injEq] at ho
        rw [hevents, verdicts_append, puts_append, hverdict, hput, ← ho]
        simp [Worker.deliver, hkept, verdicts, puts]

/-- Uses of the buffer before the verdict do not change how often it is passed. -/
theorem Settled.bind_held {α : Type} {x : OnBuffer α} {f : α → OnBuffer Deoptimized} {v : α}
    (hheld : Held x.events) (hvalue : x.value = some v) (h : Settled (f v)) :
    Settled (x >>= f) := by
  intro o ho
  rw [Traced.value_bind, hvalue, Option.bind_some] at ho
  rw [Traced.events_bind, hvalue, Option.elim_some, verdicts_append, puts_append,
    hheld.verdicts_eq, hheld.puts_eq, List.nil_append, Nat.zero_add]
  exact h o ho

/-- A packet whose header has been taken off. -/
theorem tracedStripped_owned (t : Deoptimizer) (a : Arrival) (oh : OpennopHeader) (m : Mem) :
    (∀ us, Held us → (Owned (us ++ (tracedStripped d t a oh m).events) ↔
      ∀ s, getsession a.sessions (sockets m) = some s →
        reachesDecoders d.localID (sockets m) s oh m = true →
          Succeeds d a.switches t.dedup oh m)) ∧
      Settled (tracedStripped d t a oh m) := by
  cases hs : getsession a.sessions (sockets m) with
  | none =>
    have hevents : (tracedStripped d t a oh m).events =
        [.access, .access] ++ giveBack (.NF_ACCEPT none) := by
      simp [tracedStripped, hs]
    constructor
    · intro us hus
      rw [hevents, ← List.append_assoc]
      exact iff_of_true (Held.owned_giveBack (by simpa using hus) _) fun s h => by cases h
    · intro o ho
      rw [tracedStripped_value, deoptimizeStripped, hs, Option.some.injEq] at ho
      rw [hevents, ← ho]
      exact ⟨rfl, rfl⟩
  | some s =>
    have heq : tracedStripped d t a oh m = (access >>= fun _ =>
        tracedSegment d a.switches (sockets m) s oh ⟨expectNext t oh, a.sessions, m, [], true⟩ >>=
          tracedDeliver (sockets m) (getIPPlusTCPHeaderLength a.packet)) := by
      simp only [tracedStripped, hs]
    have hkeeps := tracedSegment_keeps (d := d) (k := sockets m)
      (r := ⟨expectNext t oh, a.sessions, m, [], true⟩) a.switches s oh rfl
    obtain ⟨howned, hsettled⟩ := hkeeps.deliver (sockets m) (getIPPlusTCPHeaderLength a.packet)
    rw [heq]
    constructor
    · intro us hus
      rw [Traced.events_bind, value_access, Option.elim_some, ← List.append_assoc,
        howned _ (by simpa using hus)]
      simp [expectNext]
    · exact .bind_held (by simp) value_access hsettled

/-- Behind the guards. -/
theorem tracedAnnounced_owned (t : Deoptimizer) (a : Arrival) (oh : OpennopHeader) :
    (∀ us, Held us → (Owned (us ++ (access >>= fun _ => .ofOption (stripHeader a.packet) >>= fun m =>
        tracedStripped d t a oh m).events) ↔
      ∃ m, stripHeader a.packet = some m ∧
        ∀ s, getsession a.sessions (sockets m) = some s →
          reachesDecoders d.localID (sockets m) s oh m = true →
            Succeeds d a.switches t.dedup oh m)) ∧
      Settled (access >>= fun _ => .ofOption (stripHeader a.packet) >>= fun m =>
        tracedStripped d t a oh m) := by
  cases hstrip : stripHeader a.packet with
  | none =>
    constructor
    · intro us hus
      refine iff_of_false (Held.not_owned ?_) (by simp)
      simpa using hus
    · intro o ho
      cases ho
  | some m =>
    obtain ⟨howned, hsettled⟩ := tracedStripped_owned (d := d) t a oh m
    constructor
    · intro us hus
      have hevents : (access >>= fun _ => .ofOption (some m) >>= fun m =>
          tracedStripped d t a oh m).events =
            [.access] ++ (tracedStripped d t a oh m).events := by simp
      rw [hevents, ← List.append_assoc, howned _ (by simpa using hus)]
      simp
    · exact .bind_held (by simp) value_access (.bind_held held_nil rfl hsettled)

/-- The guards of the thread. -/
theorem tracedGuarded_owned {t : Deoptimizer} {a : Arrival} (option : UInt64) :
    (∀ us, Held us → (Owned (us ++ (tracedGuarded d t a option).events) ↔
      (announced a.packet option = true → ∃ m, stripHeader a.packet = some m ∧
        ∀ s, getsession a.sessions (sockets m) = some s →
          reachesDecoders d.localID (sockets m) s (opennopHeader a.packet) m = true →
            Succeeds d a.switches t.dedup (opennopHeader a.packet) m))) ∧
      Settled (tracedGuarded d t a option) := by
  obtain ⟨x, hheld, hvalue, heq⟩ : ∃ x : OnBuffer Unit, Held x.events ∧ x.value = some () ∧
      tracedGuarded d t a option = (x >>= fun _ =>
        if announced a.packet option then
          access >>= fun _ => .ofOption (stripHeader a.packet) >>= fun m =>
            tracedStripped d t a (opennopHeader a.packet) m
        else setVerdict .NF_DROP >>= fun _ => pure (refuse t a)) := by
    by_cases hoption : option ≠ 0
    · exact ⟨access, by simp, rfl, by rw [tracedGuarded, if_pos hoption]⟩
    · exact ⟨pure (), held_nil, rfl, by rw [tracedGuarded, if_neg hoption]; rfl⟩
  rw [heq]
  by_cases hann : announced a.packet option = true
  · simp only [hann, if_true, forall_const]
    obtain ⟨howned, hsettled⟩ := tracedAnnounced_owned (d := d) t a (opennopHeader a.packet)
    constructor
    · intro us hus
      rw [Traced.events_bind, hvalue, Option.elim_some, ← List.append_assoc]
      exact howned _ (held_append.mpr ⟨hus, hheld⟩)
    · exact .bind_held hheld hvalue hsettled
  · simp only [if_neg hann]
    have hevents : (setVerdict .NF_DROP >>= fun _ => pure (refuse t a)).events =
        giveBack .NF_DROP := by simp
    constructor
    · intro us hus
      rw [Traced.events_bind, hvalue, Option.elim_some, hevents, ← List.append_assoc]
      refine iff_of_true (Held.owned_giveBack (held_append.mpr ⟨hus, hheld⟩) _) ?_
      intro h
      exact absurd h hann
    · refine .bind_held hheld hvalue ?_
      rintro o ⟨rfl⟩
      rw [hevents]
      exact ⟨rfl, rfl⟩

/-- **One packet** is left alone once it is given back exactly when its decoders succeed. -/
theorem tracedStep_owned_iff (d : Daemon) (t : Deoptimizer) (a : Arrival) :
    Owned (tracedStep d t a).events ↔ DecodersSucceed d t a := by
  unfold DecodersSucceed
  cases hget : getTcpOption a.packet OPENNOP_OPTION with
  | none =>
    refine iff_of_false (Held.not_owned ?_) (by simp)
    simp [tracedStep, hget]
  | some option =>
    simp only [Option.some.injEq, exists_eq_left']
    rw [tracedStep, hget]
    exact (tracedGuarded_owned option).1 [.access] (by simp)

/-- **A round that returns** passes its verdict once, and puts the buffer back once. -/
theorem tracedStep_settled (d : Daemon) (t : Deoptimizer) (a : Arrival) :
    Settled (tracedStep d t a) := by
  refine .bind_held (by simp) value_access ?_
  cases hget : getTcpOption a.packet OPENNOP_OPTION with
  | none =>
    intro o ho
    cases ho
  | some option => exact .bind_held held_nil rfl (tracedGuarded_owned option).2

end Keeping

/-- **Who owns a packet.** A round that returns passes one verdict, that of the model, and puts
the buffer back once. It keeps to the discipline if and only if the decoders that run succeed. -/
theorem deoptimizer_owns_iff (d : Daemon) (t : Deoptimizer) (a : Arrival) :
    (Owned (tracedStep d t a).events ↔ DecodersSucceed d t a) ∧
      ∀ o, deoptimizationStep d t a = some o →
        verdicts (tracedStep d t a).events = [o.verdict] ∧ puts (tracedStep d t a).events = 1 := by
  refine ⟨tracedStep_owned_iff d t a, ?_⟩
  intro o ho
  apply tracedStep_settled
  rw [tracedStep_value, ho]

/-! ### A packet that is read after it was dropped -/

/-- A header that announces deduplicated data, and none behind it. -/
def emptyBlock : List UInt8 :=
  taggedSegment 1 2 0x10 1000 { synHeader 88 0 with deduplication := 1 } []

theorem emptyBlock_segment :
    Segment (ofList emptyBlock) 5 (flow (ofList emptyBlock)) 1000
      (shortOption OPENNOP_OPTION 1 ++ [0])
      (({ synHeader 88 0 with deduplication := 1 } : OpennopHeader).bytes ++ []) := by
  refine ⟨?_, ?_, rfl, ?_, ?_, ?_, ?_, ?_⟩ <;> decide

/-- `tcp_deoptimize` has nothing to work on. -/
theorem tcpDeoptimize_empty {d : Daemon} {x : Dedup} {m : Mem} {n : Nat} {f : Flow} {sq : UInt32}
    {options : List UInt8} (h : Segment m n f sq options []) :
    tcpDeoptimize d x m = some (ERROR, m, x) := by
  have hsize : ¬ payloadSize m > 0 := by
    rw [h.payloadSize]
    exact Nat.lt_irrefl 0
  rw [tcpDeoptimize]
  dsimp only
  rw [if_neg hsize, ite_self]

/-- The session of the packet, with this box as the accelerator of both ends. -/
def servedTable : SessionTable := tableOf [established (ofList emptyBlock) 77 77]

/-- **The buffer of a dropped packet is read.** The packet is dropped because
`tcp_deoptimize` fails; then the thread reads `tcph->rst` and `tcph->fin` from the buffer it has
put back. -/
theorem dropped_packet_is_read :
    ¬ Owned (tracedStep sharedBox newDeoptimizer
      (takenWith (ofList emptyBlock) servedTable)).events := by
  obtain ⟨hget, hann, hread⟩ := announced_segment emptyBlock_segment (by decide) rfl
  obtain ⟨m, hstrip, hseg⟩ :=
    stripHeader_segment emptyBlock_segment (OpennopHeader.length_bytes _)
  have hsock := segment_sockets emptyBlock_segment hseg
  have haddr : saddr m = saddr (ofList emptyBlock) :=
    (segment_saddr hseg).trans (segment_saddr emptyBlock_segment).symm
  have hdata : isData m = true :=
    (segment_isData emptyBlock_segment hseg).trans (by decide)
  rw [tracedStep_owned_iff]
  rintro ⟨option, hoption, hsucceeds⟩
  rw [takenWith, hget] at hoption
  cases hoption
  obtain ⟨m', hm', hall⟩ := hsucceeds hann
  rw [takenWith, hstrip] at hm'
  cases hm'
  have hreach : reachesDecoders sharedBox.localID (sockets m)
      (established (ofList emptyBlock) 77 77) (opennopHeader (ofList emptyBlock)) m = true := by
    rw [reachesDecoders, hdata, hsock, haddr, hread]
    decide
  have hknown : getsession servedTable (sockets m) =
      some (established (ofList emptyBlock) 77 77) := by
    rw [hsock]
    decide
  obtain ⟨-, hdecoded⟩ := hall _ hknown hreach
  obtain ⟨v, hv, hpos⟩ := hdecoded ⟨rfl, by rw [takenWith, hread]; decide⟩
  rw [if_neg (by rintro ⟨⟨⟩, -⟩), tcpDeoptimize_empty hseg, Option.some.injEq] at hv
  rw [← hv] at hpos
  exact absurd (show 0 ≤ ERROR from hpos) (by decide)

end Solowan.Worker
