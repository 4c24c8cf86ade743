/-
What an earlier call has left behind does not matter to the compressor.

Only the offsets of the table are reset: the words beside them, the destination and what lies
behind the source are as they happen to be. A word is looked at where the offset beside it was
entered in this call, the places of the control words are written before the output ends, and the
loops read nothing behind the source.

* `Alike`: two runs on the same source bytes, in step.
* `compress_independent`: they leave the same output behind.
-/

import Solowan.QuickLz.RoundTrip

namespace Solowan.QuickLz

open Solowan.Memory

/-- Two compressors on the same source bytes, in different leftovers. -/
structure Alike (destination : Nat) (c c' : Compressor) : Prop where
  src : c'.src = c.src
  fetch : c'.fetch = c.fetch
  lits : c'.lits = c.lits
  dst : c'.dst = c.dst
  cwordPtr : c'.cwordPtr = c.cwordPtr
  cword : c'.cword = c.cword
  offset : c'.state.offset = c.state.offset
  cache : ∀ h, c.state.offset h ≠ 0 → c'.state.cache h = c.state.cache h
  mem : ∀ i, destination ≤ i → i < c.dst → i < c.cwordPtr ∨ c.cwordPtr + 4 ≤ i → c'.mem i = c.mem i

section Alike

variable {s s' : Mem} {n destination : Nat} {V : Set Nat} {c c' c₁ : Compressor}

theorem memcpy_congr {m m' : Mem} {pos i : Nat} (bs : List UInt8)
    (h : i < pos ∨ pos + bs.length ≤ i → m' i = m i) : memcpy m' pos bs i = memcpy m pos bs i := by
  unfold memcpy
  split
  · rfl
  · exact h (by omega)

theorem scanWhile_congr {p q : Nat → Bool} {k : Nat} (h : ∀ i, i < k → p i = q i) :
    scanWhile p k = scanWhile q k := by
  induction k generalizing p q with
  | zero => rfl
  | succ k ih =>
    rw [scanWhile, scanWhile, h 0 (by omega), ih fun i hi => h (i + 1) (by omega)]

theorem same_congr {p k : Nat} (h : ∀ i, i ≤ k → s' (p + i) = s (p + i)) : same s' p k = same s p k := by
  induction k with
  | zero => rfl
  | succ k ih =>
    have h0 : s' p = s p := h 0 (by omega)
    rw [same, same, h (k + 1) (Nat.le_refl _), h0, ih fun i hi => h i (by omega)]

theorem matchLength_congr {o p : Nat} (hs : ∀ i, i < n → s' i = s i) (ho : o < p) (hround : p + 10 < n) :
    matchLength s' n o p = matchLength s n o p := by
  have hword : ∀ i, p + i < n → s' (o + i) = s (o + i) ∧ s' (p + i) = s (p + i) :=
    fun i hi => ⟨hs _ (by omega), hs _ hi⟩
  obtain ⟨ho4, hp4⟩ := hword 4 (by omega)
  obtain ⟨ho5, hp5⟩ := hword 5 (by omega)
  unfold matchLength
  rw [ho4, hp4, ho5, hp5]
  dsimp only
  generalize hq : n - 1 - UNCOMPRESSED_END - p + 1 = q
  rw [UNCOMPRESSED_END] at hq
  rw [scanWhile_congr fun i hi => ?_]
  have hi' : i < q - 6 := by
    split at hi <;> omega
  obtain ⟨hoi, hpi⟩ := hword (6 + i) (by omega)
  rw [hoi, hpi]

theorem loadLE_source {p : Nat} (hs : ∀ i, i < n → s' i = s i) (hp : p + 4 ≤ n) :
    loadLE s' p 4 = loadLE s p 4 := loadLE_congr fun i hi => hs _ (by omega)

/-- A table entry is made in both. -/
theorem enter_alike {state state' : StateCompress} (fetch p : Nat) (hoffset : state'.offset = state.offset)
    (hcache : ∀ h, state.offset h ≠ 0 → state'.cache h = state.cache h) :
    (state'.enter fetch p).offset = (state.enter fetch p).offset ∧
      ∀ h, (state.enter fetch p).offset h ≠ 0 →
        (state'.enter fetch p).cache h = (state.enter fetch p).cache h := by
  simp only [StateCompress.enter, hoffset, true_and]
  intro h hne
  by_cases hh : h = hashFunc fetch
  · subst hh
    rw [Function.update_self, Function.update_self]
  · rw [Function.update_of_ne hh] at hne ⊢
    rw [Function.update_of_ne hh]
    exact hcache h hne

/-- A control word is written in both, in the one place where they may differ. -/
theorem Alike.word {i w : Nat} (h : Alike destination c c') (hi : destination ≤ i) (hlt : i < c.dst) :
    storeLE c'.mem c'.cwordPtr 4 w i = storeLE c.mem c.cwordPtr 4 w i := by
  rw [h.cwordPtr]
  refine memcpy_congr _ fun hout => h.mem i hi hlt ?_
  rwa [length_leBytes] at hout

theorem Alike.turn (h : Alike destination c c') (fetch : Nat) :
    Alike destination { c with toWriter := c.turn, fetch := fetch }
      { c' with toWriter := c'.turn, fetch := fetch } where
  src := h.src
  fetch := rfl
  lits := h.lits
  dst := congrArg (· + 4) h.dst
  cwordPtr := h.dst
  cword := rfl
  offset := h.offset
  cache := h.cache
  mem := by
    intro i hi hlt hout
    simp only [Writer.turn] at hlt hout ⊢
    rw [h.cword]
    exact h.word hi (by omega)

/-- The beginning of a round. -/
theorem Alike.refill (h : Alike destination c c') (hs : ∀ i, i < n → s' i = s i) (hround : c.src + 10 < n) :
    (c.refill s n destination = .error c ∧ c'.refill s' n destination = .error c') ∨
      ∃ e e', c.refill s n destination = .ok e ∧ c'.refill s' n destination = .ok e' ∧
        Alike destination e e' := by
  have hlong : c'.tooLong n destination ↔ c.tooLong n destination := by
    unfold Compressor.tooLong
    rw [h.src, h.dst]
  have hfetch : fastRead s' c'.src 3 = fastRead s c.src 3 := by
    rw [h.src, fastRead_three, fastRead_three, loadLE_source hs (by omega)]
  unfold Compressor.refill
  rw [h.cword, hfetch]
  by_cases hodd : c.cword &&& 1 = 1
  · rw [if_pos hodd, if_pos hodd]
    by_cases hstop : c.tooLong n destination
    · rw [if_pos hstop, if_pos (hlong.mpr hstop)]
      exact Or.inl ⟨rfl, rfl⟩
    · rw [if_neg hstop, if_neg (hlong.not.mpr hstop)]
      exact Or.inr ⟨_, _, rfl, rfl, h.turn _⟩
  · rw [if_neg hodd, if_neg hodd]
    exact Or.inr ⟨c, c', rfl, rfl, h⟩

/-- Whether there is something to copy, and how much, is the same for both. -/
theorem Alike.matches_iff (h : Alike destination c c') (hs : ∀ i, i < n → s' i = s i)
    (hround : c.src + 10 < n) : c'.matches s' ↔ c.matches s := by
  unfold Compressor.matches
  rw [h.fetch, h.offset, h.src, h.lits, same_congr fun i hi => hs _ (by omega)]
  dsimp only
  constructor
  · rintro ⟨hcached, ho, hplace⟩
    rw [h.cache _ ho] at hcached
    exact ⟨hcached, ho, hplace⟩
  · rintro ⟨hcached, ho, hplace⟩
    rw [← h.cache _ ho] at hcached
    exact ⟨hcached, ho, hplace⟩

theorem Alike.matchlen (h : Alike destination c c') (hs : ∀ i, i < n → s' i = s i)
    (hscan : Scanning s n V c) (hround : c.src + 10 < n) (hm : c.matches s) :
    c'.matchlen s' n = c.matchlen s n := by
  have ho : c.state.offset (hashFunc c.fetch) ≠ 0 := hm.2.1
  have hlt := hscan.visited _ (hscan.entered _ ho).1.mem
  unfold Compressor.matchlen
  rw [h.fetch, h.offset, h.src]
  dsimp only
  rw [h.cache _ ho, matchLength_congr hs hlt hround]

/-- A write at the end leaves the same behind in both. -/
theorem Alike.write {i k : Nat} {bs : List UInt8} (h : Alike destination c c') (hk : k ≤ bs.length)
    (hi : destination ≤ i) (hlt : i < c.dst + k) (hout : i < c.cwordPtr ∨ c.cwordPtr + 4 ≤ i) :
    memcpy c'.mem c'.dst bs i = memcpy c.mem c.dst bs i := by
  rw [h.dst]
  exact memcpy_congr _ fun hoff => h.mem i hi (by omega) hout

theorem Alike.copy {len : Nat} (h : Alike destination c c') (hlen : c.matchlen s n = len)
    (hlen' : c'.matchlen s' n = len) (hs : ∀ i, i < n → s' i = s i) (hend : c.src + len + 4 ≤ n) :
    Alike destination (c.copy s n) (c'.copy s' n) := by
  obtain ⟨hoffset, hcache⟩ := enter_alike c.fetch c.src h.offset h.cache
  unfold Compressor.copy
  rw [hlen, hlen', h.fetch, h.src, h.cword]
  dsimp only
  rw [fastRead_three, fastRead_three, loadLE_source hs hend]
  refine ⟨rfl, rfl, rfl, congrArg (· + _) h.dst, h.cwordPtr, rfl, hoffset, hcache, ?_⟩
  intro i hi hlt hout
  dsimp only at hlt hout ⊢
  split at hlt
  · rw [if_pos ‹_›, if_pos ‹_›]
    exact h.write (by rw [length_leBytes]) hi hlt hout
  · rw [if_neg ‹_›, if_neg ‹_›]
    exact h.write (by rw [length_leBytes]; decide) hi hlt hout

theorem Alike.literal (h : Alike destination c c') (hs : ∀ i, i < n → s' i = s i) (hround : c.src + 10 < n) :
    Alike destination (c.literal s) (c'.literal s') := by
  obtain ⟨hoffset, hcache⟩ := enter_alike c.fetch c.src h.offset h.cache
  unfold Compressor.literal
  rw [h.fetch, h.src, h.cword, h.lits, fastRead_three, fastRead_three, loadLE_source hs (by omega),
    hs c.src (by omega)]
  refine ⟨rfl, rfl, rfl, congrArg (· + 1) h.dst, h.cwordPtr, rfl, hoffset, hcache, ?_⟩
  intro i hi hlt hout
  exact h.write (Nat.le_refl 1) hi hlt hout

/-- The rest of a round. -/
theorem Alike.item (h : Alike destination c c') (hs : ∀ i, i < n → s' i = s i) (hscan : Scanning s n V c)
    (hround : c.src + 10 < n) : Alike destination (c.item s n) (c'.item s' n) := by
  unfold Compressor.item
  have hiff := h.matches_iff hs hround
  by_cases hm : c.matches s
  · obtain ⟨o, -, -, -, hend, -⟩ := hscan.matches_spec hround hm
    rw [if_pos hm, if_pos (hiff.mpr hm)]
    exact h.copy rfl (h.matchlen hs hscan hround hm) hs hend
  · rw [if_neg hm, if_neg (hiff.not.mpr hm)]
    exact h.literal hs hround

/-- The first loop. -/
theorem compressLoop_alike (hs : ∀ i, i < n → s' i = s i) (hscan : Scanning s n V c)
    (h : Alike destination c c') :
    (∃ e e', compressLoop s n destination c = .error e ∧ compressLoop s' n destination c' = .error e') ∨
      ∃ e e', compressLoop s n destination c = .ok e ∧ compressLoop s' n destination c' = .ok e' ∧
        Alike destination e e' := by
  induction c using compressLoop.induct s n destination generalizing c' V with
  | case1 c hround c₁ hrefill =>
    have hround' : c'.src + UNCONDITIONAL_MATCHLEN + UNCOMPRESSED_END < n := by rwa [h.src]
    rcases h.refill hs hround with ⟨-, hrefill'⟩ | ⟨e, e', hok, -, -⟩
    · exact Or.inl ⟨c, c', compressLoop_error hround hrefill, compressLoop_error hround' hrefill'⟩
    · rw [hrefill] at hok
      cases hok
  | case2 c hround c₁ hrefill ih =>
    have hround' : c'.src + UNCONDITIONAL_MATCHLEN + UNCOMPRESSED_END < n := by rwa [h.src]
    rcases h.refill hs hround with ⟨herr, -⟩ | ⟨e, e', hok, hok', halike⟩
    · rw [hrefill] at herr
      cases herr
    · obtain rfl : c₁ = e := by
        rw [hrefill] at hok
        injection hok
      obtain ⟨hscan₁, hsrc, -⟩ := hscan.refill hrefill
      have hround₁ : c₁.src + 10 < n := by rwa [hsrc]
      obtain ⟨V', hscan'⟩ := hscan₁.item hround₁
      rw [compressLoop_ok hround hrefill, compressLoop_ok hround' hok']
      exact ih hscan' (halike.item hs hscan₁ hround₁)
  | case3 c hround =>
    have hround' : ¬ c'.src + UNCONDITIONAL_MATCHLEN + UNCOMPRESSED_END < n := by rwa [h.src]
    exact Or.inr ⟨c, c', compressLoop_end hround, compressLoop_end hround', h⟩

theorem Alike.next (h : Alike destination c c') :
    Alike destination { c with toWriter := c.next } { c' with toWriter := c'.next } := by
  have hturn := h.turn 0
  unfold Writer.next
  rw [h.cword]
  split
  · exact ⟨h.src, h.fetch, h.lits, hturn.dst, hturn.cwordPtr, rfl, h.offset, h.cache, hturn.mem⟩
  · exact ⟨h.src, h.fetch, h.lits, h.dst, h.cwordPtr, h.cword, h.offset, h.cache, h.mem⟩

/-- A round of the second loop. -/
theorem Alike.tail (h : Alike destination c c') (hs : ∀ i, i < n → s' i = s i) (hlt : c.src < n) :
    Alike destination (c.tail s n) (c'.tail s' n) := by
  have hnext := h.next
  have hstate : (c'.tail s' n).state.offset = (c.tail s n).state.offset ∧
      ∀ k, (c.tail s n).state.offset k ≠ 0 → (c'.tail s' n).state.cache k = (c.tail s n).state.cache k := by
    simp only [Compressor.tail, h.src]
    split
    · rw [fastRead_three, fastRead_three, loadLE_source hs (by omega)]
      exact enter_alike _ _ h.offset h.cache
    · exact ⟨h.offset, h.cache⟩
  refine ⟨congrArg (· + 1) h.src, h.fetch, h.lits, congrArg (· + 1) hnext.dst, hnext.cwordPtr,
    congrArg (shiftIn · false) hnext.cword, hstate.1, hstate.2, ?_⟩
  intro i hi hlt' hout
  have hbyte : s' c'.src = s c.src := by rw [h.src, hs _ hlt]
  simp only [Compressor.tail, hbyte] at hlt' hout ⊢
  exact hnext.write (Nat.le_refl 1) hi hlt' hout

/-- The second loop. -/
theorem literalLoop_alike (h : Alike destination c c') (hs : ∀ i, i < n → s' i = s i) :
    Alike destination (literalLoop s n c) (literalLoop s' n c') := by
  induction c using literalLoop.induct s n generalizing c' with
  | case1 c hlt ih =>
    have hlt' : c'.src < n := by rwa [h.src]
    have hgo : literalLoop s n c = literalLoop s n (c.tail s n) := by rw [literalLoop, if_pos hlt]
    have hgo' : literalLoop s' n c' = literalLoop s' n (c'.tail s' n) := by
      rw [literalLoop, if_pos hlt']
    rw [hgo, hgo']
    exact ih (h.tail hs hlt)
  | case2 c hge =>
    have hge' : ¬ c'.src < n := by rwa [h.src]
    rw [literalLoop, if_neg hge, literalLoop, if_neg hge']
    exact h

theorem alike_start (hs : ∀ i, i < n → s' i = s i) (m m' : Mem) (destination : Nat)
    (state state' : StateCompress) :
    Alike destination (.start s m destination n state.reset) (.start s' m' destination n state'.reset) where
  src := rfl
  fetch := by
    unfold Compressor.start
    dsimp only
    split
    · rename_i hround
      rw [UNCONDITIONAL_MATCHLEN, UNCOMPRESSED_END] at hround
      rw [fastRead_three, fastRead_three, loadLE_source hs (by omega)]
    · rfl
  lits := rfl
  dst := rfl
  cwordPtr := rfl
  cword := rfl
  offset := rfl
  cache := fun h hne => absurd rfl hne
  mem := by
    intro i hi hlt hout
    simp only [Compressor.start, CWORD_LEN] at hlt hout
    omega

/-- Five bytes take five tokens at least: the first of them is a literal. -/
theorem Emits.five_le_length {ts : List Token} (h : Emits s n ∅ 0 ts) (hn : 5 ≤ n) : 5 ≤ ts.length := by
  cases h with
  | tail =>
    simp only [literals, List.length_map, length_slice]
    exact hn
  | literal _ hrest =>
    have := hrest.four_le_length (by omega)
    rw [List.length_cons]
    omega
  | copy _ hlatest => exact absurd hlatest.mem (Set.notMem_empty _)

theorem Token.item_bytes_ne_nil (t : Token) : t.item.bytes ≠ [] := by
  intro hnil
  have hlen := congrArg List.length hnil
  cases t with
  | literal b => simp [Token.item] at hlen
  | copy hash len =>
    unfold Token.item at hlen
    split at hlen
    · rename_i heq
      cases heq
    · rename_i heq
      split at hlen <;> simp at hlen

/-- The outputs of the core. -/
theorem compressCore_alike (hs : ∀ i, i < n → s' i = s i) (m m' : Mem) (state state' : StateCompress) :
    (qlzCompressCore s' m' destination n state'.reset).1 = (qlzCompressCore s m destination n state.reset).1 ∧
      (5 ≤ n → ∀ i, destination ≤ i →
        i < destination + (qlzCompressCore s m destination n state.reset).1 →
          (qlzCompressCore s' m' destination n state'.reset).2.1 i =
            (qlzCompressCore s m destination n state.reset).2.1 i) := by
  have hstart := alike_start hs m m' destination state state'
  unfold qlzCompressCore
  rcases compressLoop_alike hs (scanning_start s m destination n state) hstart with
    ⟨e, e', herr, herr'⟩ | ⟨e, e', hok, hok', halike⟩
  · rw [herr, herr']
    exact ⟨rfl, fun _ i hi hlt => absurd hlt (by simpa using hi)⟩
  · obtain ⟨ts, hemits, hput⟩ := loops_emit hok
    have hlast := literalLoop_alike halike hs
    rw [hok, hok']
    dsimp only
    rw [hlast.dst]
    refine ⟨rfl, fun hn i hi hlt => ?_⟩
    have hlen := Wrote.length_le hput fun it hit => by
      obtain ⟨t, -, rfl⟩ := List.mem_map.mp hit
      exact t.item_bytes_ne_nil
    rw [List.length_map] at hlen
    have hfive := hemits.five_le_length hn
    have hin : i < (literalLoop s n e).dst := by
      split at hlt <;> omega
    rw [hlast.cword]
    exact hlast.word hi hin

/-- The header does not depend on what it is written over. -/
theorem putHeader_congr {m m' : Mem} {base r i : Nat} {compressed : Bool} (hbase : base = 3 ∨ base = 9)
    (h : base ≤ i → m' i = m i) :
    putHeader m' base compressed r n i = putHeader m base compressed r n i := by
  unfold putHeader
  rcases hbase with rfl | rfl
  · rw [if_pos rfl, if_pos rfl]
    refine memcpy_congr _ fun h2 => memcpy_congr _ fun h1 => memcpy_congr _ fun h0 => h ?_
    simp only [List.length_singleton] at h0 h1 h2
    omega
  · rw [if_neg (by decide), if_neg (by decide)]
    refine memcpy_congr _ fun h2 => memcpy_congr _ fun h1 => memcpy_congr _ fun h0 => h ?_
    simp only [List.length_singleton, length_leBytes] at h0 h1 h2
    omega

end Alike

/-- **The compressor does not depend on what an earlier call has left behind.** Two runs on the same
source bytes return the same length, and from five bytes on leave the same block behind, whatever
the table, the destination and the memory behind the source held before. -/
theorem compress_independent (s s' m m' : Mem) (size : Nat) (state state' : StateCompress)
    (hs : slice s' 0 size = slice s 0 size) :
    (qlzCompress s' m' size state').1 = (qlzCompress s m size state).1 ∧
      (5 ≤ size → slice (qlzCompress s' m' size state').2.1 0 (qlzCompress s m size state).1 =
        slice (qlzCompress s m size state).2.1 0 (qlzCompress s m size state).1) := by
  by_cases hrun : 0 < size ∧ size ≤ 0xffffffff - 400
  · obtain ⟨hpos, hsize⟩ := hrun
    have hbytes : ∀ i, i < size → s' i = s i := fun i hi => by
      have hbyte := slice_eq_apply hs hi
      rwa [Nat.zero_add] at hbyte
    obtain ⟨base, hbase, hcases⟩ := qlzCompress_cases hpos hsize s m state
    obtain ⟨base', hbase', hcases'⟩ := qlzCompress_cases hpos hsize s' m' state'
    obtain rfl : base' = base := by omega
    have hheader : base' = 3 ∨ base' = 9 := by omega
    obtain ⟨hlen, hmem⟩ := @compressCore_alike s s' size base' hbytes m m' state state'
    rcases hcases with ⟨hcore, hr, hm⟩ | ⟨hcore, hr, hm⟩
    · rcases hcases' with ⟨-, hr', hm'⟩ | ⟨hcore', -, -⟩
      · rw [hr, hr', hm, hm', hs]
        refine ⟨rfl, fun _ => slice_congr fun i hi => putHeader_congr hheader fun hout => ?_⟩
        refine memcpy_congr _ fun hoff => ?_
        rw [length_slice] at hoff
        omega
      · exact absurd (hlen.trans hcore) hcore'
    · rcases hcases' with ⟨hcore', -, -⟩ | ⟨-, hr', hm'⟩
      · exact absurd (hlen.symm.trans hcore') hcore
      · rw [hr, hr', hm, hm', hlen]
        refine ⟨rfl, fun hfive => slice_congr fun i hi => putHeader_congr hheader fun hout => ?_⟩
        exact hmem hfive _ (by omega) (by omega)
  · have hnot : size = 0 ∨ size > 0xffffffff - 400 := by omega
    have hzero : ∀ s m state, qlzCompress s m size state = (0, m, state) := by
      intro s m state
      rw [qlzCompress, if_pos hnot]
    rw [hzero, hzero]
    exact ⟨rfl, fun _ => rfl⟩

end Solowan.QuickLz
