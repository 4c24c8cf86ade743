/-
What the deoptimization thread lets through.

* `deoptimizationThread_failSafe_iff`: in a run of the thread every well-formed packet is dropped,
  or forwarded without its header and restored, if and only if every one meets `Undoable` when it
  is taken from the queue.
* `reset_forwards_encoded`: it need not. A reset that is queued before a deduplicated packet
  clears the session the packet was queued for, and the packet is forwarded as it came.
-/

import Solowan.Fetcher.Tagged
import Solowan.Worker.HeaderOff
import Solowan.Worker.Receiving

namespace Solowan.Worker

open Solowan.Memory Solowan.Dictionary Solowan.Net Solowan.Sessions Solowan.Fetcher

/-! ### Packets that are restored -/

/-- Every flag is answered by a call that succeeded. -/
def Answered (oh : OpennopHeader) (calls : List Call) : Prop :=
  (oh.compression ≠ 0 → ∃ r, 0 ≤ r ∧ Call.tcpDecompress r ∈ calls) ∧
    (oh.deduplication ≠ 0 → ∃ r, 0 ≤ r ∧ Call.tcpDeoptimize r ∈ calls)

/-- The data of `m` after `tcp_decompress`, where that is asked for. -/
def Decompressed (d : Daemon) (asked : Prop) (m m' : Mem) : Prop :=
  asked ∧ (∃ r, 0 ≤ r ∧ tcpDecompress d m = (r, m')) ∨ ¬ asked ∧ m' = m

/-- The data of `m` after `tcp_deoptimize`, where that is asked for. -/
def Reassembled (d : Daemon) (asked : Prop) (x : Dedup) (m m' : Mem) : Prop :=
  asked ∧ (∃ r x', 0 ≤ r ∧ tcpDeoptimize d x m = some (r, m', x')) ∨ ¬ asked ∧ m' = m

/-- What `m` is when the transformations named by `oh` are undone, each by a call that
succeeds. -/
def Restores (d : Daemon) (oh : OpennopHeader) (x : Dedup) (m restored : Mem) : Prop :=
  ∃ m₁ m₂, Decompressed d (oh.compression ≠ 0) m m₁ ∧
    Reassembled d (oh.deduplication ≠ 0) x m₁ m₂ ∧
      restored = if oh.compression ≠ 0 ∨ oh.deduplication ≠ 0 then unmarkSeq m₂ else m₂

/-- The packet is forwarded without its header, with its data restored. -/
def Undone (d : Daemon) (t : Deoptimizer) (a : Arrival) (o : Deoptimized) : Prop :=
  Answered (opennopHeader a.packet) o.calls ∧
    ∃ stripped restored, HeaderOff a.packet stripped ∧
      Restores d (opennopHeader a.packet) { t.dedup with shared := a.shared } stripped restored ∧
        o.verdict = .NF_ACCEPT (some (wholePacket (checksum restored)))

/-- The thread returns, and it has dropped the packet or restored it. -/
def FailSafe (d : Daemon) (t : Deoptimizer) (a : Arrival) (result : Option Deoptimized) : Prop :=
  ∃ o, result = some o ∧ (o.verdict = .NF_DROP ∨ Undone d t a o)

/-! ### When they are -/

/-- The decoders that run on the data in `m` return. They are all that the flags name, or
one of them fails. -/
def Decodable (d : Daemon) (sw : Switches) (x : Dedup) (oh : OpennopHeader) (m : Mem) : Prop :=
  let first := sw.compression = true ∧ oh.compression ≠ 0
  let second := sw.deduplication = true ∧ oh.deduplication ≠ 0
  let m' := if first then (tcpDecompress d m).2 else m
  (second → tcpDeoptimize d x m' ≠ none) ∧
    ((oh.compression ≠ 0 → sw.compression = true) ∧
        (oh.deduplication ≠ 0 → sw.deduplication = true) ∨
      first ∧ (tcpDecompress d m).1 < 0 ∨
      second ∧ ∃ r, tcpDeoptimize d x m' = some r ∧ r.1 < 0)

/-- The segment gets to the decoders: it carries data and an accelerator, and this box is the
accelerator of its destination. -/
def reachesDecoders (localID : UInt32) (k : Sockets) (s : Session) (oh : OpennopHeader) (m : Mem) :
    Bool :=
  isData m && decide (oh.opennopID ≠ 0) &&
    acceleratesDestination localID k (saddr m)
      (saveacceleratorid k.largerIP oh.opennopID (saddr m) s)

/-- The packet is refused by the guards of the thread. Or its session is known, and its header has
no flag or what the header leaves is decodable here. -/
def Undoable (d : Daemon) (t : Deoptimizer) (a : Arrival) : Prop :=
  ∃ option, getTcpOption a.packet OPENNOP_OPTION = some option ∧
    (announced a.packet option = true →
      ∃ s, getsession a.sessions (sockets a.packet) = some s ∧
        ((opennopHeader a.packet).compression = 0 ∧ (opennopHeader a.packet).deduplication = 0 ∨
          reachesDecoders d.localID (sockets a.packet) s (opennopHeader a.packet) a.packet = true ∧
            ∀ m, HeaderOff a.packet m →
              Decodable d a.switches { t.dedup with shared := a.shared } (opennopHeader a.packet) m))

section Step

variable {d : Daemon} {sw : Switches} {k : Sockets} {oh : OpennopHeader} {r r' : Decoded}

/-- `tcp_deoptimize` reports one of its two errors, or a gain. -/
theorem tcpDeoptimize_sign {x x' : Dedup} {m m' : Mem} {n : Int}
    (h : tcpDeoptimize d x m = some (n, m', x')) : (n = ERROR ∨ n = HASH_NOT_FOUND) ↔ n < 0 := by
  have herr : ERROR < 0 := by decide
  have hhash : HASH_NOT_FOUND < 0 := by decide
  have hsign : n = ERROR ∨ n = HASH_NOT_FOUND ∨ 0 ≤ n := by
    unfold tcpDeoptimize at h
    dsimp only at h
    split at h
    · split at h
      · split at h
        · cases h
        · cases h
        · cases h
        · cases h
          exact Or.inr (Or.inl rfl)
        · split at h
          · cases h
            exact Or.inr (Or.inr (Int.natCast_nonneg _))
          · cases h
            exact Or.inl rfl
      · cases h
        exact Or.inl rfl
    · cases h
      exact Or.inl rfl
  constructor
  · rintro (rfl | rfl) <;> assumption
  · intro hneg
    omega

/-- What a decompression leaves behind. -/
theorem decompress_spec (d : Daemon) (last : Bool) (r : Decoded) :
    (decompress d last r).1 = (tcpDecompress d r.packet).1 ∧
      (decompress d last r).2.calls = r.calls ++ [.tcpDecompress (tcpDecompress d r.packet).1] ∧
      (decompress d last r).2.thread.dedup = r.thread.dedup ∧
      (0 ≤ (tcpDecompress d r.packet).1 → (decompress d last r).2.kept = r.kept ∧
        (decompress d last r).2.packet =
          if last then unmarkSeq (tcpDecompress d r.packet).2 else (tcpDecompress d r.packet).2) ∧
      ((tcpDecompress d r.packet).1 < 0 → (decompress d last r).2.kept = false ∧
        (decompress d last r).2.packet = (tcpDecompress d r.packet).2) := by
  unfold decompress
  dsimp only
  split
  · rename_i hneg
    exact ⟨rfl, rfl, rfl, fun hpos => absurd hneg (by omega), fun _ => ⟨rfl, rfl⟩⟩
  · rename_i hpos
    exact ⟨rfl, rfl, rfl, fun _ => ⟨rfl, rfl⟩, fun hneg => absurd hneg hpos⟩

/-- What a deoptimization leaves behind. -/
theorem deoptimize_spec (k : Sockets) (redComp : Int) {n : Int} {m' : Mem} {x' : Dedup}
    (h : tcpDeoptimize d r.thread.dedup r.packet = some (n, m', x')) :
    ∃ r', deoptimize d k redComp r = some r' ∧ r'.calls = r.calls ++ [.tcpDeoptimize n] ∧
      (n < 0 → r'.kept = false) ∧ (0 ≤ n → r'.kept = r.kept ∧ r'.packet = unmarkSeq m') := by
  have hsign := tcpDeoptimize_sign h
  rw [deoptimize, h, Option.map_some]
  dsimp only
  split
  · rename_i herr
    refine ⟨_, rfl, rfl, fun _ => rfl, ?_⟩
    intro hpos
    have := hsign.mp herr
    omega
  · rename_i hok
    refine ⟨_, rfl, rfl, ?_, fun _ => ⟨rfl, rfl⟩⟩
    intro hneg
    exact absurd (hsign.mpr hneg) hok

theorem deoptimize_none {redComp : Int} (h : tcpDeoptimize d r.thread.dedup r.packet = none) :
    deoptimize d k redComp r = none := by
  rw [deoptimize, h, Option.map_none]

/-- How the outcome of the decoders is judged: a packet that is still there has to have an
answer to every flag, and is restored when it has. -/
structure Judged (d : Daemon) (sw : Switches) (oh : OpennopHeader) (x : Dedup) (m : Mem)
    (r : Decoded) : Prop where
  restores : r.kept = true → Answered oh r.calls → Restores d oh x m r.packet
  decodable : Decodable d sw x oh m ↔ (r.kept = true → Answered oh r.calls)

/-- Deduplication is off. -/
theorem restore_compression (hsw : sw.deduplication = false) (hcalls : r.calls = [])
    (hkept : r.kept = true) (hflag : oh.compression ≠ 0 ∨ oh.deduplication ≠ 0) :
    ∃ r', restore d sw k (decide (oh.compression ≠ 0)) (decide (oh.deduplication ≠ 0)) r = some r' ∧
      Judged d sw oh r.thread.dedup r.packet r' := by
  rw [restore, if_neg (by rw [hsw]; decide)]
  by_cases hfirst : sw.compression = true ∧ oh.compression ≠ 0
  · rw [if_pos (by simp [hfirst])]
    obtain ⟨-, hcalls', -, hok, hfail⟩ := decompress_spec d true r
    rw [hcalls, List.nil_append] at hcalls'
    refine ⟨_, rfl, ?_, ?_⟩
    · rintro hkept' ⟨-, hanswer⟩
      have hdedup : ¬ oh.deduplication ≠ 0 := by
        intro hdedup
        obtain ⟨n, -, hmem⟩ := hanswer hdedup
        simp [hcalls'] at hmem
      by_cases hn : 0 ≤ (tcpDecompress d r.packet).1
      · refine ⟨(tcpDecompress d r.packet).2, _, Or.inl ⟨hfirst.2, _, hn, rfl⟩, Or.inr ⟨hdedup, rfl⟩, ?_⟩
        rw [if_pos (Or.inl hfirst.2), (hok hn).2, if_pos rfl]
      · rw [(hfail (by omega)).1] at hkept'
        cases hkept'
    · unfold Decodable Answered
      simp only [hcalls', List.mem_singleton, hsw, hfirst, ne_eq, not_false_eq_true, and_self,
        if_true, Bool.false_eq_true, false_and, false_implies, true_and, forall_const, reduceCtorEq,
        and_false, exists_const, imp_false, not_not, or_false, Call.tcpDecompress.injEq,
        exists_eq_right]
      by_cases hn : 0 ≤ (tcpDecompress d r.packet).1
      · rw [(hok hn).1]
        simp [hkept, hn]
      · rw [(hfail (by omega)).1]
        simp only [Bool.false_eq_true, false_implies, iff_true]
        omega
  · rw [if_neg (by simpa using hfirst)]
    have hanswer : ¬ Answered oh r.calls := by
      rw [hcalls]
      rintro ⟨h1, h2⟩
      rcases hflag with hflag | hflag
      · obtain ⟨n, -, hmem⟩ := h1 hflag
        cases hmem
      · obtain ⟨n, -, hmem⟩ := h2 hflag
        cases hmem
    refine ⟨r, rfl, fun _ h => absurd h hanswer, ?_⟩
    constructor
    · rintro ⟨-, ⟨h1, h2⟩ | ⟨h1, -⟩ | ⟨h1, -⟩⟩
      · rcases hflag with hflag | hflag
        · exact absurd ⟨h1 hflag, hflag⟩ hfirst
        · rw [hsw] at h2
          cases h2 hflag
      · exact absurd h1 hfirst
      · rw [hsw] at h1
        cases h1.1
    · intro h
      exact absurd (h hkept) hanswer

/-- The packet when `tcp_deoptimize` is next. -/
structure Prepared (d : Daemon) (sw : Switches) (oh : OpennopHeader) (r r' : Decoded) : Prop where
  dedup : r'.thread.dedup = r.thread.dedup
  packet : r'.packet =
    if sw.compression = true ∧ oh.compression ≠ 0 then (tcpDecompress d r.packet).2 else r.packet
  calls : r'.calls =
    if sw.compression = true ∧ oh.compression ≠ 0 then
      [.tcpDecompress (tcpDecompress d r.packet).1]
    else []
  kept : r'.kept = true ↔
    (sw.compression = true ∧ oh.compression ≠ 0 → 0 ≤ (tcpDecompress d r.packet).1)

/-- Deduplication is on and flagged. -/
theorem deoptimize_judged {redComp : Int} {r₀ : Decoded} (hsw : sw.deduplication = true)
    (hdedup : oh.deduplication ≠ 0) (hp : Prepared d sw oh r r₀) :
    (deoptimize d k redComp r₀ = none → ¬ Decodable d sw r.thread.dedup oh r.packet) ∧
      ∀ r', deoptimize d k redComp r₀ = some r' → Judged d sw oh r.thread.dedup r.packet r' := by
  cases hres : tcpDeoptimize d r₀.thread.dedup r₀.packet with
  | none =>
    rw [deoptimize_none hres]
    refine ⟨?_, fun r' h => by cases h⟩
    rintro - ⟨hret, -⟩
    rw [hp.dedup, hp.packet] at hres
    exact hret ⟨hsw, hdedup⟩ hres
  | some v =>
    obtain ⟨n, m', x'⟩ := v
    obtain ⟨r₁, hr₁, hcalls, hfail, hok⟩ := deoptimize_spec k redComp hres
    rw [hr₁]
    refine ⟨fun h => (by cases h), ?_⟩
    rintro r' ⟨rfl⟩
    rw [hp.dedup, hp.packet] at hres
    have hanswer : Answered oh r₁.calls ↔ 0 ≤ n ∧ (oh.compression ≠ 0 →
        sw.compression = true ∧ 0 ≤ (tcpDecompress d r.packet).1) := by
      rw [hcalls, hp.calls, Answered]
      by_cases hfirst : sw.compression = true ∧ oh.compression ≠ 0
      · simp [hfirst, hdedup]
        exact and_comm
      · simp only [if_neg hfirst]
        simp [hdedup]
        grind
    refine ⟨?_, ?_⟩
    · intro hkept hans
      obtain ⟨hn, hc⟩ := hanswer.mp hans
      refine ⟨_, m', ?_, Or.inl ⟨hdedup, n, x', hn, hres⟩, ?_⟩
      · by_cases hc' : oh.compression ≠ 0
        · rw [if_pos ⟨(hc hc').1, hc'⟩]
          exact Or.inl ⟨hc', _, (hc hc').2, rfl⟩
        · rw [if_neg (fun h => hc' h.2)]
          exact Or.inr ⟨hc', rfl⟩
      · rw [if_pos (Or.inr hdedup), (hok hn).2]
    · rw [hanswer]
      unfold Decodable
      simp only [hres, ne_eq, reduceCtorEq, not_false_eq_true, implies_true, true_and,
        Option.some.injEq, exists_eq_left', hsw, and_true, hdedup]
      by_cases hn : 0 ≤ n
      · rw [(hok hn).1, hp.kept]
        have : ¬ n < 0 := by omega
        simp only [hn, this, true_and, or_false]
        grind
      · rw [hfail (by omega)]
        simp only [Bool.false_eq_true, false_implies, iff_true]
        omega

/-- Deduplication is on but not flagged. -/
theorem cacheDeoptim_judged (hdedup : ¬ oh.deduplication ≠ 0) (hc : oh.compression ≠ 0)
    (hcalls : r.calls = []) (hkept : r.kept = true) :
    Judged d sw oh r.thread.dedup r.packet (cacheDeoptim d
      (if sw.compression && decide (oh.compression ≠ 0) then decompress d true r else (0, r)).2) := by
  obtain ⟨-, hcalls', -, hok, hfail⟩ := decompress_spec d true r
  rw [hcalls, List.nil_append] at hcalls'
  by_cases hfirst : sw.compression = true
  · rw [if_pos (by simp [hfirst, hc])]
    have hsucc : (decompress d true r).2.kept = true → 0 ≤ (tcpDecompress d r.packet).1 := by
      intro hkept'
      by_contra hn
      rw [(hfail (by omega)).1] at hkept'
      cases hkept'
    refine ⟨?_, ?_⟩
    · intro hkept' _
      have hn := hsucc hkept'
      refine ⟨(tcpDecompress d r.packet).2, _, Or.inl ⟨hc, _, hn, rfl⟩, Or.inr ⟨hdedup, rfl⟩, ?_⟩
      rw [if_pos (Or.inl hc)]
      exact (hok hn).2
    · constructor
      · intro _ hkept'
        refine ⟨fun _ => ⟨_, hsucc hkept', ?_⟩, fun h => absurd h hdedup⟩
        rw [cacheDeoptim, hcalls']
        exact List.mem_cons_self
      · intro _
        exact ⟨fun h => absurd h.2 hdedup, Or.inl ⟨fun _ => hfirst, fun h => absurd h hdedup⟩⟩
  · rw [if_neg (by simp [hfirst])]
    have hanswer : ¬ Answered oh (cacheDeoptim d r).calls := by
      rintro ⟨h, -⟩
      obtain ⟨n, -, hmem⟩ := h hc
      rw [cacheDeoptim, hcalls] at hmem
      simp at hmem
    refine ⟨fun _ h => absurd h hanswer, ?_⟩
    constructor
    · rintro ⟨-, ⟨h, -⟩ | ⟨h, -⟩ | ⟨h, -⟩⟩
      · exact absurd (h hc) hfirst
      · exact absurd h.1 hfirst
      · exact absurd h.2 hdedup
    · intro h
      exact absurd (h hkept) hanswer

/-- **The decoders restore what they can.** -/
theorem restore_judged (d : Daemon) (sw : Switches) (k : Sockets) (hcalls : r.calls = [])
    (hkept : r.kept = true) (hflag : oh.compression ≠ 0 ∨ oh.deduplication ≠ 0) :
    (restore d sw k (decide (oh.compression ≠ 0)) (decide (oh.deduplication ≠ 0)) r = none →
        ¬ Decodable d sw r.thread.dedup oh r.packet) ∧
      ∀ r', restore d sw k (decide (oh.compression ≠ 0)) (decide (oh.deduplication ≠ 0)) r =
        some r' → Judged d sw oh r.thread.dedup r.packet r' := by
  cases hsw : sw.deduplication with
  | false =>
    obtain ⟨r', hr', hjudged⟩ := restore_compression (d := d) (k := k) hsw hcalls hkept hflag
    rw [hr']
    refine ⟨fun h => (by cases h), ?_⟩
    rintro _ ⟨rfl⟩
    exact hjudged
  | true =>
    rw [restore, if_pos hsw]
    dsimp only
    by_cases hdedup : oh.deduplication ≠ 0
    · rw [if_pos (decide_eq_true hdedup), decide_eq_true hdedup, Bool.not_true]
      apply deoptimize_judged hsw hdedup
      obtain ⟨-, hcalls', hded, hok, hfail⟩ := decompress_spec d false r
      rw [hcalls, List.nil_append] at hcalls'
      by_cases hfirst : sw.compression = true ∧ oh.compression ≠ 0
      · rw [if_pos (by simp [hfirst])]
        by_cases hn : 0 ≤ (tcpDecompress d r.packet).1
        · obtain ⟨hkept', hpkt⟩ := hok hn
          refine ⟨hded, ?_, ?_, ?_⟩
          · rw [if_pos hfirst]
            exact hpkt
          · rw [if_pos hfirst, hcalls']
          · rw [hkept', hkept]
            exact ⟨fun _ _ => hn, fun _ => rfl⟩
        · obtain ⟨hkept', hpkt⟩ := hfail (by omega)
          refine ⟨hded, ?_, ?_, ?_⟩
          · rw [if_pos hfirst, hpkt]
          · rw [if_pos hfirst, hcalls']
          · rw [hkept']
            exact ⟨fun h => (by cases h), fun h => absurd (h hfirst) hn⟩
      · rw [if_neg (by simpa using hfirst)]
        refine ⟨rfl, ?_, ?_, ?_⟩
        · rw [if_neg hfirst]
        · rw [if_neg hfirst, hcalls]
        · exact ⟨fun _ h => absurd h hfirst, fun _ => hkept⟩
    · have hc : oh.compression ≠ 0 := hflag.resolve_right hdedup
      rw [if_neg (by simpa using hdedup), decide_eq_false hdedup, Bool.not_false]
      refine ⟨fun h => (by cases h), ?_⟩
      rintro _ ⟨rfl⟩
      exact cacheDeoptim_judged hdedup hc hcalls hkept

/-! ### One packet -/

/-- The verdict on a packet of a known session. -/
theorem deliver_failSafe_iff {t : Deoptimizer} {a : Arrival} {m : Mem} {headersBefore : Nat}
    (hm : HeaderOff a.packet m)
    (h : Judged d sw (opennopHeader a.packet) { t.dedup with shared := a.shared } m r) :
    FailSafe d t a (some (deliver k headersBefore r)) ↔
      Decodable d sw { t.dedup with shared := a.shared } (opennopHeader a.packet) m := by
  rw [h.decodable]
  constructor
  · rintro ⟨o, ⟨rfl⟩, hdrop | ⟨hanswer, -⟩⟩ hkept
    · simp [deliver, hkept] at hdrop
    · exact hanswer
  · intro hall
    refine ⟨_, rfl, ?_⟩
    cases hkept : r.kept with
    | false =>
      left
      simp [deliver, hkept]
    | true =>
      right
      refine ⟨hall hkept, m, r.packet, hm, h.restores hkept (hall hkept), ?_⟩
      simp [deliver, hkept]

/-- A packet that is let through without a call to a decoder is restored if and only if it
has no flag. -/
theorem untouched_failSafe_iff {t : Deoptimizer} {a : Arrival} {m : Mem} {headersBefore : Nat}
    (hm : HeaderOff a.packet m) (hpkt : r.packet = m) (hkept : r.kept = true)
    (hcalls : r.calls = [] ∨ r.calls = [.tcpCacheDeoptim]) :
    FailSafe d t a (some (deliver k headersBefore r)) ↔
      (opennopHeader a.packet).compression = 0 ∧ (opennopHeader a.packet).deduplication = 0 := by
  have hsilent : ∀ n, Call.tcpDecompress n ∉ r.calls ∧ Call.tcpDeoptimize n ∉ r.calls := by
    intro n
    rcases hcalls with hcalls | hcalls <;> simp [hcalls]
  constructor
  · rintro ⟨o, ⟨rfl⟩, hdrop | ⟨⟨hc, hd⟩, -⟩⟩
    · simp [deliver, hkept] at hdrop
    · constructor
      · by_contra hflag
        obtain ⟨n, -, hmem⟩ := hc hflag
        exact (hsilent n).1 hmem
      · by_contra hflag
        obtain ⟨n, -, hmem⟩ := hd hflag
        exact (hsilent n).2 hmem
  · rintro ⟨hc, hd⟩
    refine ⟨_, rfl, Or.inr ⟨⟨fun h => absurd hc h, fun h => absurd hd h⟩, m, m, hm, ?_, ?_⟩⟩
    · refine ⟨m, m, Or.inr ⟨not_not.mpr hc, rfl⟩, Or.inr ⟨not_not.mpr hd, rfl⟩, ?_⟩
      rw [if_neg (by simp [hc, hd])]
    · simp [deliver, hkept, hpkt]

/-- A packet of a known session. -/
theorem deoptimizeSegment_failSafe_iff {t : Deoptimizer} {a : Arrival} {m : Mem} {s : Session}
    {headersBefore : Nat} (hm : HeaderOff a.packet m)
    (hx : r.thread.dedup = { t.dedup with shared := a.shared })
    (hpkt : r.packet = m) (hkept : r.kept = true) (hcalls : r.calls = []) :
    FailSafe d t a ((deoptimizeSegment d a.switches k s (opennopHeader a.packet) r).map
        (deliver k headersBefore)) ↔
      ((opennopHeader a.packet).compression = 0 ∧ (opennopHeader a.packet).deduplication = 0 ∨
        reachesDecoders d.localID k s (opennopHeader a.packet) m = true ∧
          Decodable d a.switches { t.dedup with shared := a.shared } (opennopHeader a.packet) m) := by
  subst hpkt
  generalize hoh : opennopHeader a.packet = oh
  have huntouched : ∀ r' : Decoded, r'.packet = r.packet → r'.kept = true →
      (r'.calls = [] ∨ r'.calls = [.tcpCacheDeoptim]) →
      (FailSafe d t a ((some r').map (deliver k headersBefore)) ↔
        oh.compression = 0 ∧ oh.deduplication = 0) := by
    intro r' hpkt' hkept' hcalls'
    rw [← hoh]
    exact untouched_failSafe_iff hm hpkt' hkept' hcalls'
  rw [deoptimizeSegment, reachesDecoders]
  split
  · rename_i hdata
    rw [hdata, Bool.true_and]
    dsimp only
    split
    · rename_i hflag
      have hflag' : oh.compression ≠ 0 ∨ oh.deduplication ≠ 0 := by simpa using hflag
      have hno : ¬ (oh.compression = 0 ∧ oh.deduplication = 0) := by
        rintro ⟨h1, h2⟩
        rcases hflag' with h | h
        · exact h h1
        · exact h h2
      split
      · rename_i hdest
        rw [hdest]
        simp only [hno, false_or, true_and]
        obtain ⟨hnone, hsome⟩ := restore_judged d a.switches k
          (r := { r with
            sessions := r.sessions.update k
              (saveacceleratorid k.largerIP oh.opennopID (saddr r.packet)) }) hcalls hkept hflag'
        dsimp only at hnone hsome
        rw [hx] at hnone hsome
        generalize restore d a.switches k _ _ _ = res at hnone hsome ⊢
        cases res with
        | none =>
          refine iff_of_false ?_ (hnone rfl)
          rintro ⟨o, ho, -⟩
          cases ho
        | some r' =>
          subst hoh
          exact deliver_failSafe_iff hm (hsome r' rfl)
      · rename_i hdest
        refine Iff.trans (huntouched _ rfl hkept (Or.inl hcalls)) ?_
        simp [hno, hdest]
    · rename_i hflag
      have hno : oh.compression = 0 ∧ oh.deduplication = 0 := by simpa using hflag
      refine iff_of_true ?_ (Or.inl hno)
      split
      · refine Iff.mpr (huntouched _ rfl hkept (Or.inr ?_)) hno
        simp [cacheDeoptim, hcalls]
      · exact Iff.mpr (huntouched _ rfl hkept (Or.inl hcalls)) hno
  · rename_i hdata
    rw [Bool.eq_false_of_not_eq_true hdata]
    refine Iff.trans (huntouched _ rfl hkept (Or.inl hcalls)) ?_
    simp

/-- Which of two packets without the header the decoders run on does not matter. -/
theorem decodable_congr {sw : Switches} {x : Dedup} {oh : OpennopHeader} {m m' : Mem}
    (h : SameData m m') (hihl : 5 ≤ ihl m) (hdoff : 5 ≤ doff m) :
    Decodable d sw x oh m' ↔ Decodable d sw x oh m := by
  obtain ⟨hdec, hsame⟩ := h.tcpDecompress d hihl hdoff
  have hfound : ∀ {m₁ m₂ : Mem}, SameData m₁ m₂ →
      ((tcpDeoptimize d x m₂ ≠ none ↔ tcpDeoptimize d x m₁ ≠ none) ∧
        ((∃ r, tcpDeoptimize d x m₂ = some r ∧ r.1 < 0) ↔
          ∃ r, tcpDeoptimize d x m₁ = some r ∧ r.1 < 0)) := by
    intro m₁ m₂ h₁₂
    have hmap := h₁₂.tcpDeoptimize d x
    constructor
    · rw [ne_eq, ← Option.map_eq_none_iff (f := (·.1)), hmap, Option.map_eq_none_iff]
    · have hsome : ∀ m₀, (∃ r, tcpDeoptimize d x m₀ = some r ∧ r.1 < 0) ↔
          ∃ n, (tcpDeoptimize d x m₀).map (·.1) = some n ∧ n < 0 := by
        intro m₀
        simp only [Option.map_eq_some_iff]
        constructor
        · rintro ⟨r, hr, hneg⟩
          exact ⟨r.1, ⟨r, hr, rfl⟩, hneg⟩
        · rintro ⟨_, ⟨r, hr, rfl⟩, hneg⟩
          exact ⟨r, hr, hneg⟩
      rw [hsome, hsome, hmap]
  unfold Decodable
  dsimp only
  rw [hdec]
  split
  · rw [(hfound hsame).1, (hfound hsame).2]
  · rw [(hfound h).1, (hfound h).2]

/-- Whether the segment gets to the decoders can be said of the packet with its header. -/
theorem HeaderOff.reachesDecoders {m m' : Mem} (h : HeaderOff m m') (hihl : 5 ≤ ihl m)
    (localID : UInt32) (k : Sockets) (s : Session) :
    Worker.reachesDecoders localID k s oh m' = Worker.reachesDecoders localID k s oh m := by
  have hflow := h.same.kept.flow hihl
  have haddr : saddr m' = saddr m := congrArg Flow.saddr hflow
  rw [Worker.reachesDecoders, Worker.reachesDecoders, isData_of_flow hflow, haddr]

/-- **One packet** is dropped or restored exactly when it is undoable. -/
theorem deoptimizationStep_failSafe_iff (d : Daemon) (t : Deoptimizer) {a : Arrival}
    (hlaid : LaidOut a.packet) : FailSafe d t a (deoptimizationStep d t a) ↔ Undoable d t a := by
  rw [deoptimizationStep, Undoable]
  dsimp only
  split
  · rename_i hget
    simp [FailSafe, hget]
  · rename_i option hget
    simp only [hget, Option.some.injEq, exists_eq_left']
    split
    · rename_i hann
      obtain ⟨n, f, sq, items, pad, data, value, hcar, hvalue⟩ := hlaid option hget hann
      have hihl : 5 ≤ ihl a.packet := by
        rw [hcar.segment.ihl]
        exact hcar.segment.ihl_ge
      have hlen : OPENNOP_HEADER ≤ data.length := by
        rw [← hcar.segment.incomingLen]
        simp [announced] at hann
        omega
      obtain ⟨m, hstrip, hoff⟩ := stripHeader_headerOff hcar hvalue hlen
      have hevery : (∀ m', HeaderOff a.packet m' →
            Decodable d a.switches { t.dedup with shared := a.shared } (opennopHeader a.packet) m') ↔
          Decodable d a.switches { t.dedup with shared := a.shared } (opennopHeader a.packet) m := by
        have hihl' : 5 ≤ ihl m := by
          rw [hoff.same.kept.ihl]
          exact hihl
        have hdoff' : 5 ≤ doff m := by
          rw [hoff.same.doff]
          exact hcar.segment.doff_ge
        constructor
        · intro h
          exact h m hoff
        · intro h m' hoff'
          exact (decodable_congr (hoff.sameData hihl hoff') hihl' hdoff').mpr h
      simp only [hann, forall_const, hstrip]
      rw [deoptimizeStripped]
      dsimp only
      rw [sockets_of_flow (hoff.same.kept.flow hihl)]
      split
      · rename_i s hs
        simp only [hs, Option.some.injEq, exists_eq_left']
        rw [hevery, ← hoff.reachesDecoders hihl]
        exact deoptimizeSegment_failSafe_iff hoff rfl rfl rfl rfl
      · rename_i hs
        refine iff_of_false ?_ (by simp [hs])
        rintro ⟨o, ⟨rfl⟩, hdrop | ⟨-, stripped, restored, -, -, hverdict⟩⟩
        · cases hdrop
        · cases hverdict
    · rename_i hann
      refine iff_of_true ⟨_, rfl, Or.inl rfl⟩ ?_
      intro h
      exact absurd h hann

end Step

/-! ### Whole runs -/

/-- Every step of a run is a step of the thread. -/
theorem deoptimizationThread_step {d : Daemon} {t : Deoptimizer} {as : List Arrival}
    {step : (Deoptimizer × Arrival) × Option Deoptimized}
    (h : step ∈ deoptimizationThread d t as) :
    step.2 = deoptimizationStep d step.1.1 step.1.2 := by
  induction as generalizing t with
  | nil => simp [deoptimizationThread] at h
  | cons a as ih =>
    rw [deoptimizationThread] at h
    split at h
    · rename_i hnone
      obtain rfl := List.mem_singleton.mp h
      exact hnone.symm
    · rename_i o ho
      rcases List.mem_cons.mp h with rfl | hmem
      · exact ho.symm
      · split at hmem
        · cases hmem
        · exact ih hmem

/-- The first packet is taken with the variables the run starts from. -/
theorem mem_deoptimizationThread_head (d : Daemon) (t : Deoptimizer) (a : Arrival)
    (as : List Arrival) :
    ((t, a), deoptimizationStep d t a) ∈ deoptimizationThread d t (a :: as) := by
  rw [deoptimizationThread]
  cases deoptimizationStep d t a with
  | none => exact List.mem_singleton_self _
  | some o => exact List.mem_cons_self

/-- The run goes on with the variables the first packet leaves. -/
theorem mem_deoptimizationThread_tail {d : Daemon} {t : Deoptimizer} {a : Arrival}
    {as : List Arrival} {o : Deoptimized} {step : (Deoptimizer × Arrival) × Option Deoptimized}
    (ho : deoptimizationStep d t a = some o) (hends : o.ends = false)
    (h : step ∈ deoptimizationThread d o.thread as) :
    step ∈ deoptimizationThread d t (a :: as) := by
  rw [deoptimizationThread, ho]
  dsimp only
  rw [hends, if_neg (by decide)]
  exact List.mem_cons_of_mem _ h

/-- **Fail-safe deoptimization.** Over any run, with whatever sessions, shared dictionaries and
switches each packet finds when it is taken from the queue. -/
theorem deoptimizationThread_failSafe_iff (d : Daemon) (t : Deoptimizer) (as : List Arrival) :
    (∀ step ∈ deoptimizationThread d t as, LaidOut step.1.2.packet →
        FailSafe d step.1.1 step.1.2 step.2) ↔
      ∀ step ∈ deoptimizationThread d t as, LaidOut step.1.2.packet →
        Undoable d step.1.1 step.1.2 := by
  constructor
  · intro h step hstep hlaid
    have hsafe := h step hstep hlaid
    rw [deoptimizationThread_step hstep] at hsafe
    exact (deoptimizationStep_failSafe_iff _ _ hlaid).mp hsafe
  · intro h step hstep hlaid
    rw [deoptimizationThread_step hstep]
    exact (deoptimizationStep_failSafe_iff _ _ hlaid).mpr (h step hstep hlaid)

/-! ### A packet that outlives its session -/

section Outlived

variable {d : Daemon} {t : Deoptimizer} {a : Arrival} {n : Nat} {f : Flow} {sq : UInt32}
  {value : UInt8} {rest data : List UInt8} {oh : OpennopHeader} {s : Session}

/-- A packet without a session is forwarded as it came. -/
theorem deoptimizationStep_unknown
    (h : Segment a.packet n f sq (shortOption OPENNOP_OPTION value ++ rest) (oh.bytes ++ data))
    (hvalue : value ≠ 0) (hpattern : oh.pattern = OPENNOP_PATTERN)
    (hs : getsession a.sessions (sockets a.packet) = none) :
    ¬ FailSafe d t a (deoptimizationStep d t a) := by
  obtain ⟨hget, hann, -⟩ := announced_segment h hvalue hpattern
  obtain ⟨m, hstrip, hseg⟩ := stripHeader_segment h oh.length_bytes
  rw [deoptimizationStep]
  dsimp only
  rw [hget]
  dsimp only
  rw [if_pos hann, hstrip]
  dsimp only
  rw [deoptimizeStripped, segment_sockets h hseg, hs]
  rintro ⟨o, ⟨rfl⟩, hdrop | ⟨-, stripped, restored, -, -, hverdict⟩⟩
  · cases hdrop
  · cases hverdict

/-- A segment without flags is not decoded. -/
theorem deoptimizationStep_plain
    (h : Segment a.packet n f sq (shortOption OPENNOP_OPTION value ++ rest) (oh.bytes ++ data))
    (hvalue : value ≠ 0) (hpattern : oh.pattern = OPENNOP_PATTERN) (hc : oh.compression = 0)
    (hd : oh.deduplication = 0) (hs : getsession a.sessions (sockets a.packet) = some s) :
    ∃ o, deoptimizationStep d t a = some o ∧ o.ends = false := by
  obtain ⟨hget, hann, hread⟩ := announced_segment h hvalue hpattern
  obtain ⟨m, hstrip, hseg⟩ := stripHeader_segment h oh.length_bytes
  rw [deoptimizationStep]
  dsimp only
  rw [hget]
  dsimp only
  rw [if_pos hann, hstrip]
  dsimp only
  rw [deoptimizeStripped, segment_sockets h hseg, hs, hread]
  dsimp only
  rw [deoptimizeSegment, hc, hd]
  dsimp only
  split
  · rw [if_neg (by decide)]
    split
    · exact ⟨_, rfl, rfl⟩
    · exact ⟨_, rfl, rfl⟩
  · exact ⟨_, rfl, rfl⟩

/-- A reset without flags clears its session. -/
theorem deoptimizationStep_reset
    (h : Segment a.packet n f sq (shortOption OPENNOP_OPTION value ++ rest) (oh.bytes ++ data))
    (hvalue : value ≠ 0) (hpattern : oh.pattern = OPENNOP_PATTERN) (hid : oh.opennopID ≠ 0)
    (hc : oh.compression = 0) (hd : oh.deduplication = 0)
    (hs : getsession a.sessions (sockets a.packet) = some s) (hdata : isData a.packet = true)
    (hrst : rst a.packet = true) :
    ∃ o, deoptimizationStep d t a = some o ∧ o.ends = false ∧
      o.sessions = clearsession (a.sessions.update (sockets a.packet)
        (saveacceleratorid (sockets a.packet).largerIP oh.opennopID (saddr a.packet)))
          (sockets a.packet) := by
  obtain ⟨hget, hann, hread⟩ := announced_segment h hvalue hpattern
  obtain ⟨m, hstrip, hseg⟩ := stripHeader_segment h oh.length_bytes
  have hsock := segment_sockets h hseg
  have haddr : saddr m = saddr a.packet := (segment_saddr hseg).trans (segment_saddr h).symm
  have hrst' : rst m = true := by
    rw [rst, segment_flags h hseg, ← rst]
    exact hrst
  have hdata' : isData m = true := (segment_isData h hseg).trans hdata
  rw [deoptimizationStep]
  dsimp only
  rw [hget]
  dsimp only
  rw [if_pos hann, hstrip]
  dsimp only
  rw [deoptimizeStripped, hsock, hs, hread]
  dsimp only
  rw [deoptimizeSegment, hc, hd]
  dsimp only
  rw [hdata', haddr, decide_eq_true hid, Bool.true_and, if_pos rfl, if_neg (by decide)]
  split
  · exact ⟨_, rfl, rfl, by simp [deliver, cacheDeoptim, endSegment, hrst']⟩
  · exact ⟨_, rfl, rfl, by simp [deliver, endSegment, hrst']⟩

end Outlived

/-- A reset from another accelerator. -/
def resetSegment : List UInt8 := taggedSegment 1 2 0x14 1000 (synHeader 88 0) []

/-- Data from that accelerator, flagged as deduplicated. -/
def encodedSegment : List UInt8 :=
  taggedSegment 1 2 0x10 1000 { synHeader 88 0 with deduplication := 1 } [9]

/-- A fetcher that knows no session. -/
def newFetcher : FetcherState := ⟨tableOf [], 0, 0⟩

theorem resetSegment_segment : Segment (ofList resetSegment) 5 (flow (ofList resetSegment)) 1000
    (shortOption OPENNOP_OPTION 1 ++ [0]) ((synHeader 88 0).bytes ++ []) := by
  refine ⟨?_, ?_, rfl, ?_, ?_, ?_, ?_, ?_⟩ <;> decide

theorem encodedSegment_segment :
    Segment (ofList encodedSegment) 5 (flow (ofList encodedSegment)) 1000
      (shortOption OPENNOP_OPTION 1 ++ [0])
      (({ synHeader 88 0 with deduplication := 1 } : OpennopHeader).bytes ++ [9]) := by
  refine ⟨?_, ?_, rfl, ?_, ?_, ?_, ?_, ?_⟩ <;> decide

/-- The thread before its first packet. -/
def newDeoptimizer : Deoptimizer :=
  .start ⟨newDeduplicator Codec.zeroed, initDictionary Codec.zeroed Codec.zeroed, ofList []⟩ noCounts

/-- A packet that the thread finds with deduplication on. -/
def takenWith (m : Mem) (sessions : SessionTable) : Arrival :=
  ⟨m, sessions, initDictionary Codec.zeroed Codec.zeroed, ⟨false, true, false⟩⟩

theorem resetSegment_tagged : Tagged (deliveryOf resetSegment) 1 (synHeader 88 0) := by
  refine .of_segment resetSegment_segment (by decide) rfl (by decide) rfl ?_ (by decide) ?_ <;>
    decide

theorem encodedSegment_tagged :
    Tagged (deliveryOf encodedSegment) 1 { synHeader 88 0 with deduplication := 1 } := by
  refine .of_segment encodedSegment_segment (by decide) rfl (by decide) rfl ?_ (by decide) ?_ <;>
    decide

/-- **A packet is forwarded with its header, and still encoded.** The fetcher enters a session
for the reset and queues both packets; when the thread takes the second, it has cleared the
session. -/
theorem reset_forwards_encoded :
    ∃ o₁ o₂ queue m₁ m₂ r,
      fetcherCallback sharedBox newFetcher (deliveryOf resetSegment) = some o₁ ∧
      o₁.queued = some (.deoptimize queue m₁) ∧
      fetcherCallback sharedBox o₁.state (deliveryOf encodedSegment) = some o₂ ∧
      o₂.queued = some (.deoptimize queue m₂) ∧
      deoptimizationStep sharedBox newDeoptimizer (takenWith m₁ o₂.state.sessions) = some r ∧
      ¬ ∀ step ∈ deoptimizationThread sharedBox newDeoptimizer
          [takenWith m₁ o₂.state.sessions, takenWith m₂ r.sessions],
        FailSafe sharedBox step.1.1 step.1.2 step.2 := by
  have hsock : sockets (ofList encodedSegment) = sockets (ofList resetSegment) := by decide
  have hseg₁ := segment_savePacket resetSegment_segment
    (show totLen (ofList resetSegment) ≤ resetSegment.length by decide)
  have hseg₂ := segment_savePacket encodedSegment_segment
    (show totLen (ofList encodedSegment) ≤ encodedSegment.length by decide)
  have hsock₁ := segment_sockets resetSegment_segment hseg₁
  have hsock₂ := (segment_sockets encodedSegment_segment hseg₂).trans hsock
  have hflags₁ := segment_flags resetSegment_segment hseg₁
  have hack : ack (deliveryOf resetSegment).originalpacket = true := by decide
  obtain ⟨o₁, s₁, h₁, hq₁, hs₁, hqueue, hsingle⟩ :=
    fetcherCallback_entered (d := sharedBox) (f := newFetcher) resetSegment_tagged hack rfl
  have hs₁' : getsession o₁.state.sessions (sockets (deliveryOf encodedSegment).originalpacket) =
      some s₁ := by
    rw [← hs₁]
    exact congrArg _ hsock
  obtain ⟨o₂, h₂, hq₂, hsess₂⟩ :=
    fetcherCallback_known (d := sharedBox) encodedSegment_tagged (by decide) hs₁'
  rw [hqueue] at hq₂
  have hsess₂' : o₂.state.sessions = o₁.state.sessions.update (sockets (ofList resetSegment))
      fun s => { s with lastactive := 0, deadcounter := 0 } := by
    rw [← hsock]
    exact hsess₂
  obtain ⟨s₂, hs₂⟩ : ∃ s₂, getsession o₂.state.sessions (sockets (ofList resetSegment)) =
      some s₂ := by
    rw [hsess₂', getsession_update _ _ (by simp)]
    exact ⟨_, congrArg (Option.map _) hs₁⟩
  have hsingle₂ : o₂.state.sessions.Single (sockets (ofList resetSegment)) := by
    rw [hsess₂']
    exact SessionTable.Single.update hsingle (by simp)
  have hdata : isData (savePacket (ofList resetSegment) resetSegment.length) = true :=
    (segment_isData resetSegment_segment hseg₁).trans (by decide)
  have hrst : rst (savePacket (ofList resetSegment) resetSegment.length) = true := by
    rw [rst, hflags₁]
    decide
  obtain ⟨r, hr, hends, hsess⟩ := deoptimizationStep_reset (d := sharedBox) (t := newDeoptimizer)
    (a := takenWith (savePacket (ofList resetSegment) resetSegment.length) o₂.state.sessions)
    hseg₁ (by decide) rfl (by decide) rfl rfl ((congrArg _ hsock₁).trans hs₂) hdata hrst
  have hgone : getsession r.sessions (sockets (ofList resetSegment)) = none := by
    rw [hsess, takenWith]
    dsimp only
    rw [hsock₁]
    exact getsession_clearsession (SessionTable.Single.update hsingle₂ (by simp))
  have hunsafe := deoptimizationStep_unknown (d := sharedBox) (t := r.thread)
    (a := takenWith (savePacket (ofList encodedSegment) encodedSegment.length) r.sessions)
    hseg₂ (by decide) rfl ((congrArg _ hsock₂).trans hgone)
  refine ⟨o₁, o₂, 0, _, _, r, h₁, hq₁, h₂, hq₂, hr, ?_⟩
  intro hsafe
  apply hunsafe
  refine hsafe ((r.thread, _), deoptimizationStep sharedBox r.thread _) ?_
  exact mem_deoptimizationThread_tail hr hends (mem_deoptimizationThread_head _ _ _ _)

end Solowan.Worker
