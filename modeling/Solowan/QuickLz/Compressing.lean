/-
What the compressor writes.

* `Scanning`: the invariant of the loops; the table holds, for every hash it has seen, the last
  place with this hash and the word that was read there.
* `Scanning.matches_spec`: what the table offers for a copy is one, of a length the bytes bear out.
* `compressCore_emits`: what `qlz_compress_core` leaves behind are tokens that stand for the
  source, or it has given up.
-/

import Solowan.QuickLz.Tokens

namespace Solowan.QuickLz

open Solowan.Memory

/-- The table after the places in `V`: an offset other than 0 is the last place with its hash. -/
def Entered (s : Mem) (V : Set Nat) (state : StateCompress) : Prop :=
  ∀ h, state.offset h ≠ 0 → Latest (hashat s) V h (state.offset h) ∧
    state.cache h = loadLE s (state.offset h) 4

/-- The compressor before it goes over the place `c.src` of a source of `n` bytes. -/
structure Scanning (s : Mem) (n : Nat) (V : Set Nat) (c : Compressor) : Prop where
  le : c.src ≤ n
  visited : ∀ v ∈ V, v < c.src
  fetch : c.src + 10 < n → c.fetch = loadLE s c.src 4
  entered : Entered s V c.state
  lits : ∀ i, i < c.lits → i < c.src ∧ c.src - 1 - i ∈ V

section Scanning

variable {s : Mem} {n destination : Nat} {V : Set Nat} {c c' : Compressor}

theorem Entered.enter {state : StateCompress} {p : Nat} (h : Entered s V state) (hp : ∀ v ∈ V, v < p) :
    Entered s (insert p V) (state.enter (loadLE s p 4) p) := by
  intro k hk
  have hhash : hashFunc (loadLE s p 4) = hashat s p := rfl
  simp only [StateCompress.enter, hhash] at hk ⊢
  by_cases hkey : k = hashat s p
  · subst hkey
    rw [Function.update_self, Function.update_self]
    exact ⟨latest_insert_self hp, rfl⟩
  · rw [Function.update_of_ne hkey] at hk ⊢
    rw [Function.update_of_ne hkey]
    exact ⟨(latest_insert_of_ne (Ne.symm hkey)).mpr (h k hk).1, (h k hk).2⟩

theorem same_eq_true_iff {m : Mem} {p k : Nat} : same m p k = true ↔ ∀ i, i ≤ k → m (p + i) = m p := by
  induction k with
  | zero =>
    refine ⟨fun _ i hi => ?_, fun _ => rfl⟩
    rw [Nat.le_zero.mp hi, Nat.add_zero]
  | succ k ih =>
    rw [same]
    split
    · rename_i hk
      rw [ih]
      constructor
      · intro h i hi
        rcases Nat.lt_or_ge k i with hlt | hle
        · rw [show i = k + 1 by omega]
          exact hk
        · exact h i hle
      · exact fun h i hi => h i (by omega)
    · rename_i hk
      refine ⟨fun h => absurd h (by decide), fun h => absurd (h (k + 1) (Nat.le_refl _)) hk⟩

/-- The loop that compares goes on while the bytes agree, and stops before the last four. -/
theorem matchLength_spec {o p : Nat} (hround : p + 10 < n) (h : Agree s o p 4) :
    matchLength s n o p ≤ 255 ∧ p + matchLength s n o p + 4 ≤ n ∧ Agree s o p (matchLength s n o p) := by
  have hnext : ∀ {k}, Agree s o p k → s (o + k) = s (p + k) → Agree s o p (k + 1) := by
    intro k hk heq i hi
    rcases Nat.lt_or_ge i k with hlt | hge
    · exact hk i hlt
    · rw [show i = k by omega]
      exact heq
  unfold matchLength
  split
  · rename_i h4
    split
    · rename_i h5
      have h6 : Agree s o p 6 := hnext (hnext h h4) h5
      dsimp only
      generalize hq : n - 1 - UNCOMPRESSED_END - p + 1 = q
      generalize hremaining : (if q > 255 then 255 else q) = remaining
      rw [UNCOMPRESSED_END] at hq
      have hmost : remaining ≤ 255 ∧ remaining ≤ q ∧ 6 ≤ remaining := by
        split at hremaining <;> omega
      have hle := scanWhile_le (fun i => decide (s (o + (6 + i)) = s (p + (6 + i)))) (remaining - 6)
      refine ⟨by omega, by omega, fun i hi => ?_⟩
      rcases Nat.lt_or_ge i 6 with hlt | hge
      · exact h6 i hlt
      · obtain ⟨j, rfl⟩ := Nat.exists_eq_add_of_le hge
        have hscan : j < scanWhile (fun i => decide (s (o + (6 + i)) = s (p + (6 + i))))
          (remaining - 6) := by omega
        exact of_decide_eq_true (scanWhile_spec hscan)
    · exact ⟨by decide, by omega, hnext h h4⟩
  · exact ⟨by decide, by omega, h⟩

/-- A copy the table offers is one. -/
theorem Scanning.matches_spec (h : Scanning s n V c) (hround : c.src + 10 < n) (hm : c.matches s) :
    ∃ o, Latest (hashat s) V (hashat s c.src) o ∧ Copyable s V c.src o ∧
      c.matchlen s n ≤ 255 ∧ c.src + c.matchlen s n + 4 ≤ n ∧ Agree s o c.src (c.matchlen s n) := by
  have hfetch := h.fetch hround
  have hhash : hashFunc c.fetch = hashat s c.src := by rw [hfetch]; rfl
  unfold Compressor.matches at hm
  unfold Compressor.matchlen
  rw [hhash] at hm ⊢
  dsimp only at hm ⊢
  obtain ⟨hcached, ho, hplace⟩ := hm
  obtain ⟨hlatest, hword⟩ := h.entered _ ho
  generalize c.state.offset (hashat s c.src) = o at *
  rw [hfetch, hword] at hcached ⊢
  have hlow := (xor_masked_eq_zero.mp hcached).symm
  have hthree : Agree s o c.src 3 := bytes_of_loadLE_four_mod hlow
  refine ⟨o, hlatest, ?_, ?_⟩
  · rcases hplace with hback | ⟨hbefore, hlits, hthird, hsame⟩
    · left
      rw [MINOFFSET] at hback
      omega
    · right
      rw [same_eq_true_iff] at hsame
      have hall : ∀ i, i ≤ 6 → s (c.src - 3 + i) = s c.src := by
        intro i hi
        have hthis := hsame 3 (by decide)
        rw [show c.src - 3 + 3 = c.src by omega] at hthis
        rw [hsame i hi, hthis]
      refine ⟨hbefore.symm, by omega, fun i hi => ?_, fun i hi => hall i (by omega)⟩
      have hvisited := (h.lits (2 - i) (by omega)).2
      rwa [show c.src - 1 - (2 - i) = c.src - 3 + i by omega] at hvisited
  · split
    · exact ⟨by decide, by omega, hthree⟩
    · rename_i hxor
      rw [not_not, Nat.xor_eq_zero_iff] at hxor
      exact matchLength_spec hround (bytes_of_loadLE_four hxor.symm)

theorem Scanning.copy (h : Scanning s n V c) (hround : c.src + 10 < n)
    (hlen : c.src + c.matchlen s n + 4 ≤ n) :
    Scanning s n (insert c.src V) (c.copy s n) := by
  have hge := c.matchlen_ge s n
  refine ⟨?_, ?_, fun _ => rfl, ?_, ?_⟩
  · simp only [Compressor.copy]
    omega
  · simp only [Compressor.copy]
    rintro v (rfl | hv)
    · omega
    · have := h.visited v hv
      omega
  · simp only [Compressor.copy]
    rw [h.fetch hround]
    exact h.entered.enter h.visited
  · simp only [Compressor.copy]
    intro i hi
    omega

theorem Scanning.literal (h : Scanning s n V c) (hround : c.src + 10 < n) :
    Scanning s n (insert c.src V) (c.literal s) := by
  refine ⟨?_, ?_, fun _ => rfl, ?_, ?_⟩
  · simp only [Compressor.literal]
    omega
  · simp only [Compressor.literal]
    rintro v (rfl | hv)
    · omega
    · have := h.visited v hv
      omega
  · simp only [Compressor.literal]
    rw [h.fetch hround]
    exact h.entered.enter h.visited
  · simp only [Compressor.literal]
    intro i hi
    cases i with
    | zero => exact ⟨by omega, Set.mem_insert _ _⟩
    | succ i =>
      obtain ⟨hlt, hmem⟩ := h.lits i (by omega)
      refine ⟨by omega, Set.mem_insert_of_mem _ ?_⟩
      rwa [show c.src + 1 - 1 - (i + 1) = c.src - 1 - i by omega]

/-- The rest of a round. -/
theorem Scanning.item (h : Scanning s n V c) (hround : c.src + 10 < n) :
    ∃ V', Scanning s n V' (c.item s n) := by
  unfold Compressor.item
  split
  · rename_i hm
    obtain ⟨o, -, -, -, hend, -⟩ := h.matches_spec hround hm
    exact ⟨_, h.copy hround hend⟩
  · exact ⟨_, h.literal hround⟩

/-- Before the first byte nothing is in the table, whatever an earlier call has left in it. -/
theorem scanning_start (s m : Mem) (destination n : Nat) (state : StateCompress) :
    Scanning s n ∅ (.start s m destination n state.reset) := by
  refine ⟨Nat.zero_le _, by simp, fun hround => ?_, fun h hne => absurd rfl hne, by simp [Compressor.start]⟩
  have h0 : UNCONDITIONAL_MATCHLEN + UNCOMPRESSED_END < n := hround
  rw [Compressor.start, if_pos h0, fastRead_three]

/-- A new control word does not matter to the table. -/
theorem Scanning.refill (h : Scanning s n V c) (hr : c.refill s n destination = .ok c') :
    Scanning s n V c' ∧ c'.src = c.src ∧ c'.toWriter = c.toWriter.next := by
  unfold Compressor.refill at hr
  unfold Writer.next
  split at hr
  · rename_i hodd
    split at hr
    · cases hr
    · cases hr
      rw [if_pos hodd]
      exact ⟨⟨h.le, h.visited, fun _ => rfl, h.entered, h.lits⟩, rfl, rfl⟩
  · rename_i hodd
    cases hr
    rw [if_neg hodd]
    exact ⟨h, rfl, rfl⟩

end Scanning

/-! ### The output -/

section Output

variable {s : Mem} {n destination : Nat} {V : Set Nat} {c c' : Compressor} {ts : List Token}

/-- The last byte of a word is the only one a shorter one lacks. -/
theorem leBytes_succ (k f : Nat) : leBytes (k + 1) f = leBytes k f ++ [UInt8.ofNat (f / 256 ^ k)] := by
  rw [leBytes, beBytes_succ, List.reverse_cons]
  rfl

/-- The bytes of a copy are written, and for a long one a byte behind them. -/
theorem written_copy {full : List (List Item)} {cur : List Item}
    (h : Written destination c.toWriter full cur) (hroom : cur.length < GROUP)
    (hhash : hashFunc c.fetch = hashat s c.src) :
    Written destination (c.copy s n).toWriter full
      (cur ++ [(Token.copy (hashat s c.src) (c.matchlen s n)).item]) := by
  unfold Compressor.copy
  rw [hhash]
  by_cases hlen : c.matchlen s n < 18
  · simp only [Token.item, if_pos hlen]
    have h2 := h.put hroom ⟨true, leBytes 2 ((c.matchlen s n - 2) ||| (hashat s c.src <<< 4))⟩
      (m := fastWrite ((c.matchlen s n - 2) ||| (hashat s c.src <<< 4)) c.mem c.dst 2)
      (fun i hi => storeLE_apply_outside (Or.inl hi)) (slice_memcpy_self _ _ _)
    rwa [length_leBytes] at h2
  · simp only [Token.item, if_neg hlen]
    have hthree : slice (fastWrite ((c.matchlen s n <<< 16) ||| (hashat s c.src <<< 4)) c.mem c.dst 3)
        c.dst (leBytes 3 ((c.matchlen s n <<< 16) ||| (hashat s c.src <<< 4))).length =
          leBytes 3 ((c.matchlen s n <<< 16) ||| (hashat s c.src <<< 4)) := by
      have hword := slice_memcpy_self c.mem c.dst
        (leBytes 4 ((c.matchlen s n <<< 16) ||| (hashat s c.src <<< 4)))
      rw [leBytes_succ] at hword
      have hfirst := (slice_split hword).1
      rwa [← leBytes_succ] at hfirst
    have h3 := h.put hroom ⟨true, leBytes 3 ((c.matchlen s n <<< 16) ||| (hashat s c.src <<< 4))⟩
      (fun i hi => storeLE_apply_outside (Or.inl hi)) hthree
    rwa [length_leBytes] at h3

theorem written_literal {full : List (List Item)} {cur : List Item} {w : Writer}
    (h : Written destination w full cur) (hroom : cur.length < GROUP) (b : UInt8) :
    Written destination ⟨memcpy w.mem w.dst [b], w.cwordPtr, w.dst + 1, shiftIn w.cword false⟩ full
      (cur ++ [(Token.literal b).item]) :=
  h.put hroom ⟨false, [b]⟩ (fun _ hi => memcpy_apply_outside (Or.inl hi)) (slice_memcpy_self _ _ _)

/-- The writer was given the items of these tokens. -/
def Put (destination : Nat) (c : Compressor) (ts : List Token) : Prop :=
  Wrote destination c.toWriter (ts.map Token.item)

/-- An item goes behind the others, whatever group it comes to. -/
theorem Put.snoc {t : Token} (h : Put destination c ts)
    (hnext : ∀ full cur, Written destination c.toWriter.next full cur → cur.length < GROUP →
      Written destination c'.toWriter full (cur ++ [t.item])) : Put destination c' (ts ++ [t]) := by
  obtain ⟨full, cur, hw, hits⟩ := h
  obtain ⟨full', cur', hw', hroom, hsame⟩ := hw.next
  refine ⟨full', cur' ++ [t.item], hnext _ _ hw' hroom, ?_⟩
  rw [← List.append_assoc, hsame, hits, List.map_append]
  rfl

theorem Put.copy (h : Put destination c ts) (hnext : c'.toWriter = c.toWriter.next)
    (hhash : hashFunc c'.fetch = hashat s c'.src) :
    Put destination (c'.copy s n) (ts ++ [.copy (hashat s c'.src) (c'.matchlen s n)]) :=
  h.snoc fun full cur hw hroom => by
    rw [← hnext] at hw
    exact written_copy hw hroom hhash

theorem Put.literal (h : Put destination c ts) (hnext : c'.toWriter = c.toWriter.next) :
    Put destination (c'.literal s) (ts ++ [.literal (s c'.src)]) :=
  h.snoc fun full cur hw hroom => by
    rw [← hnext] at hw
    exact written_literal hw hroom _

/-- A round of the second loop, as the writer sees it. -/
theorem Compressor.toWriter_tail :
    (c.tail s n).toWriter = ⟨memcpy c.toWriter.next.mem c.toWriter.next.dst [s c.src],
      c.toWriter.next.cwordPtr, c.toWriter.next.dst + 1, shiftIn c.toWriter.next.cword false⟩ := rfl

theorem Put.tail (h : Put destination c ts) :
    Put destination (c.tail s n) (ts ++ [.literal (s c.src)]) :=
  h.snoc fun full cur hw hroom => by
    rw [Compressor.toWriter_tail]
    exact written_literal hw hroom _

/-- The first loop leaves tokens behind, which the tokens for the rest complete. -/
theorem compressLoop_emits (hscan : Scanning s n V c) (hput : Put destination c ts)
    (h : compressLoop s n destination c = .ok c') :
    ∃ V' more, Put destination c' (ts ++ more) ∧ c'.src ≤ n ∧ n ≤ c'.src + 10 ∧
      ∀ rest, Emits s n V' c'.src rest → Emits s n V c.src (more ++ rest) := by
  induction c using compressLoop.induct s n destination generalizing V ts with
  | case1 c hround c₁ hrefill =>
    rw [compressLoop_error hround hrefill] at h
    cases h
  | case2 c hround c₁ hrefill ih =>
    rw [compressLoop_ok hround hrefill] at h
    simp only [UNCONDITIONAL_MATCHLEN, UNCOMPRESSED_END] at hround
    obtain ⟨hscan₁, hsrc, hnext⟩ := hscan.refill hrefill
    rw [← hsrc] at hround ⊢
    have hhash : hashFunc c₁.fetch = hashat s c₁.src := by
      rw [hscan₁.fetch hround]
      rfl
    unfold Compressor.item at ih h
    split at h
    · rename_i hm
      rw [if_pos hm] at ih
      obtain ⟨o, hlatest, hcopyable, h255, hend, hagree⟩ := hscan₁.matches_spec hround hm
      obtain ⟨V', more, hput', hle, hnear, hemits⟩ :=
        ih (hscan₁.copy hround hend) (hput.copy hnext hhash) h
      refine ⟨V', .copy (hashat s c₁.src) (c₁.matchlen s n) :: more, ?_, hle, hnear, fun rest hrest => ?_⟩
      · rwa [List.append_assoc] at hput'
      · exact .copy hround hlatest hcopyable (c₁.matchlen_ge s n) h255 hend hagree (hemits rest hrest)
    · rename_i hm
      rw [if_neg hm] at ih
      obtain ⟨V', more, hput', hle, hnear, hemits⟩ :=
        ih (hscan₁.literal hround) (hput.literal hnext) h
      refine ⟨V', .literal (s c₁.src) :: more, ?_, hle, hnear, fun rest hrest => ?_⟩
      · rwa [List.append_assoc] at hput'
      · exact .literal hround (hemits rest hrest)
  | case3 c hround =>
    rw [compressLoop_end hround] at h
    cases h
    simp only [UNCONDITIONAL_MATCHLEN, UNCOMPRESSED_END] at hround
    refine ⟨V, [], ?_, hscan.le, by omega, fun rest hrest => hrest⟩
    rwa [List.append_nil]

/-- The second loop leaves the rest behind. -/
theorem literalLoop_put (hput : Put destination c ts) :
    Put destination (literalLoop s n c) (ts ++ literals s c.src (n - c.src)) := by
  induction c using literalLoop.induct s n generalizing ts with
  | case1 c hlt ih =>
    rw [literalLoop, if_pos hlt]
    have hmore := ih hput.tail
    rw [Compressor.src_tail, List.append_assoc] at hmore
    rw [show n - c.src = n - (c.src + 1) + 1 by omega, literals_succ]
    exact hmore
  | case2 c hge =>
    rw [literalLoop, if_neg hge, show n - c.src = 0 by omega]
    rwa [literals, slice_zero, List.map_nil, List.append_nil]

/-- What the two loops leave behind are tokens that stand for the source. -/
theorem loops_emit {m : Mem} {state : StateCompress}
    (h : compressLoop s n destination (.start s m destination n state.reset) = .ok c) :
    ∃ ts : List Token, Emits s n ∅ 0 ts ∧ Put destination (literalLoop s n c) ts := by
  have hnil : Put destination (.start s m destination n state.reset) [] :=
    ⟨[], [], written_nil m destination, rfl⟩
  obtain ⟨V', more, hput, hle, hnear, hemits⟩ :=
    compressLoop_emits (scanning_start s m destination n state) hnil h
  exact ⟨more ++ literals s c.src (n - c.src), hemits _ (.tail hle hnear), literalLoop_put hput⟩

/-- The output of `qlz_compress_core` are tokens that stand for the source, or it has given up. -/
theorem compressCore_emits (m : Mem) (state : StateCompress)
    (h : (qlzCompressCore s m destination n state.reset).1 ≠ 0) :
    ∃ (ts : List Token) (c : Compressor), Emits s n ∅ 0 ts ∧ Put destination c ts ∧
      qlzCompressCore s m destination n state.reset =
        (max 9 (c.dst - destination), storeLE c.mem c.cwordPtr 4 (markedWord (shiftOut c.cword)),
          c.state) := by
  unfold qlzCompressCore at h ⊢
  split at h
  · exact absurd rfl h
  · rename_i c hloop
    obtain ⟨ts, hemits, hput⟩ := loops_emit hloop
    refine ⟨ts, literalLoop s n c, hemits, hput, ?_⟩
    simp only [Prod.mk.injEq, and_true]
    split <;> omega

end Output

end Solowan.QuickLz
