/-
How long the output of the compressor gets.

Where the source does not repeat itself every group costs the four bytes of its control word. The
check at the beginning of a group bounds what this adds up to, except in the first half of the
source and in the group that is being written. A copy saves what the first half has cost: to get
over the second half in one group takes copies.

* `Budget`: the invariant of the loops.
* `compressCore_length`: the output is at most 111 bytes longer than the source, and nothing is
  written behind the next three.
-/

import Solowan.QuickLz.Compressing

namespace Solowan.QuickLz

open Solowan.Memory

/-- The current group began at the byte `S` of the source with `D` bytes of output. The control
words before it cost 4 bytes for at least 31, and the output was not too long. Every item since
went over at least as many bytes as it wrote, and wrote three at most. -/
structure Spent (n S D k src dst : Nat) : Prop where
  words : 31 * D ≤ 35 * S
  ratio : S ≤ n / 2 ∨ D ≤ S
  items : S + k ≤ src
  paid : dst ≤ D + 4 + (src - S)
  atMost : dst ≤ D + 4 + 3 * k
  group : k ≤ GROUP

/-- The writer within its budget, in a memory that is `m` from `limit` on. -/
structure Budget (n destination limit : Nat) (m : Mem) (c : Compressor) : Prop where
  spent : ∃ full cur S D dst, Written destination c.toWriter full cur ∧ c.dst = destination + dst ∧
    Spent n S D cur.length c.src dst
  outside : ∀ i, limit ≤ i → c.mem i = m i

section Spent

variable {n S D k src dst : Nat}

/-- The output is never much longer than the source. -/
theorem Spent.dst_le (h : Spent n S D k src dst) (hsrc : src ≤ n) : dst ≤ n + 97 := by
  obtain ⟨hwords, hratio, hitems, hpaid, hmost, hgroup⟩ := h
  rw [GROUP] at hgroup
  omega

/-- An item goes over `len` bytes and writes `w`. -/
theorem Spent.item {len w : Nat} (h : Spent n S D k src dst) (hk : k < GROUP) (hw : w ≤ len)
    (h3 : w ≤ 3) (hpos : 0 < w) : Spent n S D (k + 1) (src + len) (dst + w) where
  words := h.words
  ratio := h.ratio
  items := by
    have := h.items
    omega
  paid := by
    have := h.paid
    have := h.items
    omega
  atMost := by
    have := h.atMost
    omega
  group := hk

/-- A group is complete, and the output not too long. -/
theorem Spent.turn (h : Spent n S D GROUP src dst) (hratio : ¬ (src > n >>> 1 ∧ dst > src - (src >>> 5))) :
    Spent n src dst 0 src (dst + 4) := by
  have hwords := h.words
  have hitems := h.items
  have hpaid := h.paid
  rw [Nat.shiftRight_eq_div_pow, Nat.shiftRight_eq_div_pow] at hratio
  rw [GROUP] at hitems
  refine ⟨by omega, by omega, by omega, by omega, by omega, by decide⟩

/-- Behind the first loop at most ten bytes are left, and at most one more control word. -/
theorem Spent.final (h : Spent n S D k src dst) (hsrc : src ≤ n) (hnear : n ≤ src + 10) :
    dst + (n - src) + 4 ≤ n + 111 ∧ (n < 216 → dst + (n - src) + 4 < 250) := by
  obtain ⟨hwords, hratio, hitems, hpaid, hmost, hgroup⟩ := h
  rw [GROUP] at hgroup
  omega

end Spent

section Budget

variable {s m : Mem} {n destination limit : Nat} {V : Set Nat} {c c' : Compressor}

theorem budget_start (limit : Nat) (m : Mem) (state : StateCompress) :
    Budget n destination limit m (.start s m destination n state) where
  spent := by
    refine ⟨[], [], 0, 0, 4, written_nil m destination, rfl, ?_⟩
    exact ⟨by decide, by omega, Nat.zero_le _, by omega, by decide, by decide⟩
  outside := fun _ _ => rfl

/-- The beginning of a round. -/
theorem Budget.refill (h : Budget n destination limit m c) (hlimit : destination + n + 112 ≤ limit)
    (hsrc : c.src ≤ n) (hr : c.refill s n destination = .ok c') :
    ∃ full cur S D dst, Written destination c'.toWriter full cur ∧ cur.length < GROUP ∧
      c'.dst = destination + dst ∧ Spent n S D cur.length c'.src dst ∧
      ∀ i, limit ≤ i → c'.mem i = m i := by
  obtain ⟨⟨full, cur, S, D, dst, hw, hdst, hspent⟩, hout⟩ := h
  unfold Compressor.refill at hr
  split at hr
  · rename_i hodd
    have hlen := hw.complete_iff.mp hodd
    split at hr
    · cases hr
    · rename_i hratio
      cases hr
      rw [hlen] at hspent
      rw [Compressor.tooLong, hdst, Nat.add_sub_cancel_left] at hratio
      refine ⟨full ++ [cur], [], c.src, dst, dst + 4, hw.turn hlen, by decide, ?_, hspent.turn hratio, ?_⟩
      · simp only [Writer.turn, hdst]
        omega
      · intro i hi
        have hle := hspent.dst_le hsrc
        have hptr := hw.dst
        refine (storeLE_apply_outside (Or.inr ?_)).trans (hout i hi)
        omega
  · rename_i hodd
    cases hr
    have hne : cur.length ≠ GROUP := fun hlen => hodd (hw.complete_iff.mpr hlen)
    exact ⟨full, cur, S, D, dst, hw, Nat.lt_of_le_of_ne hw.room hne, hdst, hspent, hout⟩

/-- The rest of a round. -/
theorem Budget.item (h : ∃ full cur S D dst, Written destination c.toWriter full cur ∧ cur.length < GROUP ∧
      c.dst = destination + dst ∧ Spent n S D cur.length c.src dst ∧ ∀ i, limit ≤ i → c.mem i = m i)
    (hlimit : destination + n + 112 ≤ limit) (hsrc : c.src ≤ n)
    (hhash : hashFunc c.fetch = hashat s c.src) : Budget n destination limit m (c.item s n) := by
  obtain ⟨full, cur, S, D, dst, hw, hroom, hdst, hspent, hout⟩ := h
  have hle := hspent.dst_le hsrc
  unfold Compressor.item
  split
  · have hge := c.matchlen_ge s n
    refine ⟨⟨full, cur ++ [_], S, D, dst + (if c.matchlen s n < 18 then 2 else 3),
      written_copy hw hroom hhash, ?_, ?_⟩, fun i hi => ?_⟩
    · simp only [Compressor.copy, hdst, Nat.add_assoc]
    · rw [List.length_append, List.length_singleton]
      refine hspent.item hroom ?_ ?_ ?_
      all_goals split <;> omega
    · refine Eq.trans ?_ (hout i hi)
      simp only [Compressor.copy]
      split
      · exact storeLE_apply_outside (Or.inr (by omega))
      · exact storeLE_apply_outside (Or.inr (by omega))
  · refine ⟨⟨full, cur ++ [_], S, D, dst + 1, written_literal hw hroom (s c.src), ?_, ?_⟩,
      fun i hi => ?_⟩
    · simp only [Compressor.literal, hdst, Nat.add_assoc]
    · rw [List.length_append, List.length_singleton]
      exact hspent.item hroom (Nat.le_refl 1) (by decide) (by decide)
    · exact (memcpy_apply_outside (Or.inr (by rw [List.length_singleton]; omega))).trans (hout i hi)

/-- The first loop stays within its budget, whether it gives up or not. -/
theorem compressLoop_budget (hlimit : destination + n + 112 ≤ limit) (hscan : Scanning s n V c)
    (h : Budget n destination limit m c) :
    match compressLoop s n destination c with
    | .error c' => ∀ i, limit ≤ i → c'.mem i = m i
    | .ok c' => Budget n destination limit m c' ∧ c'.src ≤ n ∧ n ≤ c'.src + 10 := by
  induction c using compressLoop.induct s n destination generalizing V with
  | case1 c hround c₁ hrefill =>
    rw [compressLoop_error hround hrefill]
    exact h.outside
  | case2 c hround c₁ hrefill ih =>
    rw [compressLoop_ok hround hrefill]
    rw [UNCONDITIONAL_MATCHLEN, UNCOMPRESSED_END] at hround
    obtain ⟨hscan₁, hsrc, -⟩ := hscan.refill hrefill
    have hround₁ : c₁.src + 10 < n := by omega
    have hhash : hashFunc c₁.fetch = hashat s c₁.src := by
      rw [hscan₁.fetch hround₁]
      rfl
    obtain ⟨V', hscan'⟩ := hscan₁.item hround₁
    exact ih hscan' (Budget.item (h.refill hlimit hscan.le hrefill) hlimit hscan₁.le hhash)
  | case3 c hround =>
    rw [compressLoop_end hround]
    rw [UNCONDITIONAL_MATCHLEN, UNCOMPRESSED_END] at hround
    exact ⟨h, hscan.le, by omega⟩

/-- What is left at the end of a group: a control word comes only when the group is complete. -/
def tailCost (k left : Nat) : Nat := left + if k + left ≤ GROUP then 0 else 4

/-- The second loop. -/
theorem literalLoop_budget {full : List (List Item)} {cur : List Item} (limit : Nat)
    (hw : Written destination c.toWriter full cur) (hsrc : c.src ≤ n) (hnear : n - c.src ≤ GROUP)
    (hlimit : c.dst + tailCost cur.length (n - c.src) ≤ limit)
    (hout : ∀ i, limit ≤ i → c.mem i = m i) :
    (literalLoop s n c).dst ≤ limit ∧ (literalLoop s n c).cwordPtr + 4 ≤ (literalLoop s n c).dst ∧
      ∀ i, limit ≤ i → (literalLoop s n c).mem i = m i := by
  induction c using literalLoop.induct s n generalizing full cur with
  | case1 c hlt ih =>
    rw [literalLoop, if_pos hlt]
    have hroom := hw.room
    have hdst := hw.dst
    unfold tailCost at hlimit ih
    by_cases hodd : c.cword &&& 1 = 1
    · have hlen := hw.complete_iff.mp hodd
      have hnext : c.toWriter.next = c.turn := if_pos hodd
      have hw' := hw.turn hlen
      rw [← hnext] at hw'
      have hdst' : c.toWriter.next.dst = c.dst + 4 := by
        rw [hnext]
        rfl
      rw [hlen, if_neg (by omega)] at hlimit
      have htail := Compressor.toWriter_tail (c := c) (s := s) (n := n)
      have hcdst : (c.tail s n).dst = c.dst + 4 + 1 := by
        rw [htail, hdst']
      refine ih (htail ▸ written_literal hw' (by decide) _) ?_ ?_ ?_ ?_
      · rw [Compressor.src_tail]
        omega
      · rw [Compressor.src_tail]
        omega
      · rw [Compressor.src_tail, hcdst, List.nil_append, List.length_singleton, if_pos (by omega)]
        omega
      · intro i hi
        rw [htail]
        refine (memcpy_apply_outside (Or.inr ?_)).trans ?_
        · rw [hdst', List.length_singleton]
          omega
        · rw [hnext]
          exact (storeLE_apply_outside (Or.inr (by omega))).trans (hout i hi)
    · have hlen : cur.length ≠ GROUP := fun hlen => hodd (hw.complete_iff.mpr hlen)
      have hnext : c.toWriter.next = c.toWriter := if_neg hodd
      have htail := Compressor.toWriter_tail (c := c) (s := s) (n := n)
      rw [hnext] at htail
      have hcdst : (c.tail s n).dst = c.dst + 1 := by rw [htail]
      refine ih (htail ▸ written_literal hw (Nat.lt_of_le_of_ne hroom hlen) _) ?_ ?_ ?_ ?_
      · rw [Compressor.src_tail]
        omega
      · rw [Compressor.src_tail]
        omega
      · rw [Compressor.src_tail, hcdst, List.length_append, List.length_singleton]
        split at hlimit
        · rw [if_pos (by omega)]
          omega
        · rw [if_neg (by omega)]
          omega
      · intro i hi
        rw [htail]
        refine (memcpy_apply_outside (Or.inr ?_)).trans (hout i hi)
        rw [List.length_singleton]
        split at hlimit <;> omega
  | case2 c hge =>
    rw [literalLoop, if_neg hge]
    have hdst := hw.dst
    unfold tailCost at hlimit
    exact ⟨by omega, by omega, hout⟩

/-- The output is at most 111 bytes longer than the source, and nothing is written behind it. -/
theorem compressCore_length (s m : Mem) (destination n : Nat) (state : StateCompress) :
    (qlzCompressCore s m destination n state.reset).1 ≤ n + 111 ∧
      (n < 216 → (qlzCompressCore s m destination n state.reset).1 < 250) ∧
      ∀ i, destination + n + 112 ≤ i → (qlzCompressCore s m destination n state.reset).2.1 i = m i := by
  have hloop := compressLoop_budget (Nat.le_refl _) (scanning_start s m destination n state)
    (budget_start (n := n) (destination + n + 112) m state.reset)
  unfold qlzCompressCore
  cases hc : compressLoop s n destination (Compressor.start s m destination n state.reset) with
  | error c =>
    rw [hc] at hloop
    exact ⟨Nat.zero_le _, fun _ => Nat.zero_lt_succ _, hloop⟩
  | ok c =>
    rw [hc] at hloop
    obtain ⟨⟨⟨full, cur, S, D, dst, hw, hdst, hspent⟩, hout⟩, hsrc, hnear⟩ := hloop
    obtain ⟨hfinal, hsmall⟩ := hspent.final hsrc hnear
    have hcost : tailCost cur.length (n - c.src) ≤ n - c.src + 4 := by
      unfold tailCost
      split <;> omega
    obtain ⟨hle, -, -⟩ := literalLoop_budget (s := s) _ hw hsrc (by rw [GROUP]; omega)
      (Nat.le_refl _) fun i _ => rfl
    obtain ⟨hle', hptr, hout'⟩ := literalLoop_budget (s := s) (destination + n + 112) hw hsrc
      (by rw [GROUP]; omega) (by omega) hout
    dsimp only
    refine ⟨by split <;> omega, fun hn => by split <;> omega, fun i hi => ?_⟩
    exact (storeLE_apply_outside (Or.inr (by omega))).trans (hout' i hi)

end Budget

end Solowan.QuickLz
