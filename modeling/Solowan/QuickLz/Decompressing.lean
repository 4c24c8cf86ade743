/-
What the decompressor makes of tokens.

* `Rebuilt`: the invariant of the loop; the bytes so far are there, and the table holds the places
  below `next`, which is at most two behind.
* `memcpyUp_spec`: a copy that overlaps its source repeats it.
* `decompressLoop_spec`: in as many rounds as there are bytes the loop restores the bytes the
  tokens stand for, and writes nothing behind them.
-/

import Solowan.QuickLz.Compressing

namespace Solowan.QuickLz

open Solowan.Memory

/-- The decompressor after the bytes of `s` before `d.dst`, where the places in `V` were visited.
Behind the `n` bytes the destination is as it was. -/
structure Rebuilt (s : Mem) (n : Nat) (m : Mem) (V : Set Nat) (d : Decompressor) : Prop where
  bytes : ∀ i, i < d.dst → d.mem i = s i
  outside : ∀ i, n ≤ i → d.mem i = m i
  visited : ∀ v ∈ V, v < d.dst
  lag : ∀ v, d.next ≤ v → v < d.dst → v ∈ V
  behind : ∀ v ∈ V, v < d.next → v + 3 ≤ d.dst
  next_le : d.next ≤ d.dst
  near : d.dst ≤ d.next + 2
  table : Indexes (hashat s) (Below V d.next) d.offset

/-- The decompressor is about to read these tokens. -/
def Facing (source : Mem) (d : Decompressor) (ts : List Token) : Prop :=
  ∃ left fl, d.cword = 2 ^ left + fl ∧ Reads source d.src left fl (ts.map Token.item)

/-! ### Copies and the table -/

section Steps

variable {s m : Mem} {n dst src f : Nat} {V : Set Nat}

/-- A word copied from behind `dst + f` restores the next three bytes. -/
theorem word_copied (hback : src + 3 ≤ dst) (hagree : Agree s src dst n)
    (hbytes : ∀ i, i < dst + f → m i = s i) {i : Nat} (hi : i < dst + (f + 3)) (hn : i < dst + n) :
    memmove m (dst + f) (src + f) 4 i = s i := by
  rcases Nat.lt_or_ge i (dst + f) with hlt | hge
  · rw [memmove_apply_outside (Or.inl hlt), hbytes i hlt]
  · obtain ⟨j, rfl⟩ := Nat.exists_eq_add_of_le hge
    rw [memmove_apply_inside (by omega : j < 4), hbytes _ (by omega), Nat.add_assoc, Nat.add_assoc]
    exact hagree (f + j) (by omega)

/-- Every word read was written before, up to the bytes that the next one overwrites. -/
theorem memcpyUp_spec (hback : src + 3 ≤ dst) (hagree : Agree s src dst n) (hf : f < n)
    (hbytes : ∀ i, i < dst + f → m i = s i) :
    (∀ i, i < dst + n → memcpyUp m dst src n f i = s i) ∧
      ∀ i, dst + n + 3 ≤ i → memcpyUp m dst src n f i = m i := by
  induction m, f using memcpyUp.induct dst src n with
  | case1 m f m' hmore ih =>
    have hnext : ∀ i, i < dst + (f + (MINOFFSET + 1)) → m' i = s i :=
      fun i hi => word_copied hback hagree hbytes hi (by omega)
    obtain ⟨hin, hout⟩ := ih hmore hnext
    rw [memcpyUp, if_pos hmore]
    refine ⟨hin, fun i hi => (hout i hi).trans ?_⟩
    exact memmove_apply_outside (by omega)
  | case2 m f hlast =>
    rw [memcpyUp, if_neg hlast]
    rw [MINOFFSET] at hlast
    refine ⟨fun i hi => ?_, fun i hi => memmove_apply_outside (by omega)⟩
    exact word_copied hback hagree hbytes (by omega) hi

/-- The table catches up with the places that were visited. -/
theorem updateHashUpto_indexes {next stop : Nat} {offset : Nat → Nat}
    (hvisited : ∀ v, next ≤ v → v < stop → v ∈ V)
    (hbytes : ∀ v, v < stop → hashat m v = hashat s v)
    (h : Indexes (hashat s) (Below V next) offset) :
    Indexes (hashat s) (Below V (max next stop)) (updateHashUpto m offset next stop) := by
  induction offset, next using updateHashUpto.induct m stop with
  | case1 offset next hlt ih =>
    have hmem : next ∈ V := hvisited next (Nat.le_refl _) hlt
    rw [updateHashUpto, if_pos hlt, show max next stop = max (next + 1) stop by omega]
    refine ih (fun v hv hvlt => hvisited v (by omega) hvlt) ?_
    rw [below_succ hmem, hbytes next hlt]
    exact h.insert fun u hu => hu.2
  | case2 offset next hge =>
    rw [updateHashUpto, if_neg hge, Nat.max_eq_left (by omega)]
    exact h

end Steps

/-! ### Reading tokens -/

section Tokens

variable {source s : Mem} {n src left fl : Nat} {V : Set Nat} {d : Decompressor} {t : Token}
  {ts : List Token}

/-- With a token to come there is a flag after the refill. -/
theorem Facing.refill (h : Facing source d (t :: ts)) :
    ∃ left fl, (d.refill source).cword = 2 ^ (left + 1) + (t.item.flag.toNat + 2 * fl) ∧
      slice source (d.refill source).src t.item.bytes.length = t.item.bytes ∧
      Reads source ((d.refill source).src + t.item.bytes.length) left fl (ts.map Token.item) := by
  obtain ⟨left, fl, hcword, hreads⟩ := h
  unfold Decompressor.refill
  rw [List.map_cons] at hreads
  cases hreads with
  | refill hlt hword hmore =>
    rw [if_pos (by rw [hcword]; rfl)]
    cases hmore with
    | item hbytes hrest => exact ⟨_, _, hword, hbytes, hrest⟩
  | item hbytes hrest =>
    rename_i left fl
    have hpos := Nat.two_pow_pos left
    rw [if_neg (by rw [hcword, Nat.pow_succ]; omega)]
    exact ⟨left, fl, hcword, hbytes, hrest⟩

/-- The lowest bit is the flag. -/
theorem flag_of_cword {cword b : Nat} (h : cword = 2 ^ (left + 1) + (b + 2 * fl)) (hb : b ≤ 1) :
    (cword &&& 1 = 1 ↔ b = 1) ∧ cword >>> 1 = 2 ^ left + fl := by
  rw [Nat.pow_succ] at h
  rw [Nat.and_one_is_mod, Nat.shiftRight_eq_div_pow]
  omega

/-- The bytes of a copy hold its hash and its length. -/
theorem copy_fields {hash len : Nat} (hhash : hash < 4096) (h3 : 3 ≤ len) (h255 : len ≤ 255)
    (h : slice source src (Token.copy hash len).item.bytes.length = (Token.copy hash len).item.bytes) :
    let fetch := fastRead source src 4
    (fetch >>> 4) &&& 0xfff = hash ∧
      (if fetch &&& 0xf ≠ 0 then (fetch &&& 0xf) + 2 else (source (src + 2)).toNat) = len ∧
      (if fetch &&& 0xf ≠ 0 then 2 else 3) = (Token.copy hash len).item.bytes.length := by
  have hshift : hash <<< 4 = 2 ^ 4 * hash := by rw [Nat.shiftLeft_eq, Nat.mul_comm]
  have hmask : ∀ x, x &&& 0xf = x % 16 := fun x => Nat.and_two_pow_sub_one_eq_mod x 4
  have hmask12 : ∀ x, x &&& 0xfff = x % 4096 := fun x => Nat.and_two_pow_sub_one_eq_mod x 12
  dsimp only
  rw [fastRead_four, hmask, hmask12, Nat.shiftRight_eq_div_pow]
  by_cases hlen : len < 18
  · simp only [Token.item, if_pos hlen, length_leBytes] at h ⊢
    have hlow := loadLE_mod_of_slice (by decide) h
    rw [hshift, Nat.or_comm, ← Nat.two_pow_add_eq_or_of_lt (by omega)] at hlow
    have hnonzero : loadLE source src 4 % 16 ≠ 0 := by omega
    rw [if_pos hnonzero, if_pos hnonzero]
    omega
  · simp only [Token.item, if_neg hlen, length_leBytes] at h ⊢
    have hlow := loadLE_mod_of_slice (by decide) h
    rw [hshift, Nat.shiftLeft_eq, Nat.mul_comm len, ← Nat.two_pow_add_eq_or_of_lt (by omega)] at hlow
    have hzero : ¬ loadLE source src 4 % 16 ≠ 0 := by omega
    have h0 := (source src).toNat_lt
    have h1 := (source (src + 1)).toNat_lt
    have h2 := (source (src + 2)).toNat_lt
    rw [if_neg hzero, if_neg hzero]
    rw [loadLE_four] at hlow ⊢
    omega

/-- As many literals are read as there are zeros. -/
theorem reads_literals {k : Nat} (h : Reads source src (left + k) fl (ts.map Token.item))
    (hfl : fl % 2 ^ k = 0) (hts : k ≤ ts.length) :
    ∃ bs ts', ts = bs.map Token.literal ++ ts' ∧ slice source src k = bs ∧
      Reads source (src + k) left (fl / 2 ^ k) (ts'.map Token.item) := by
  induction k generalizing src fl ts with
  | zero => exact ⟨[], ts, rfl, rfl, by simpa using h⟩
  | succ k ih =>
    cases ts with
    | nil => simp at hts
    | cons t ts =>
      rw [List.map_cons] at h
      cases h with
      | item hbytes hrest =>
        rename_i fl
        rw [Nat.pow_succ'] at hfl ⊢
        have hbit := Bool.toNat_le t.item.flag
        have hdvd := Nat.dvd_of_mod_eq_zero hfl
        have heven : (t.item.flag.toNat + 2 * fl) % 2 = 0 :=
          Nat.mod_eq_zero_of_dvd (Nat.dvd_trans (Nat.dvd_mul_right 2 _) hdvd)
        cases t with
        | copy hash len =>
          rw [Token.flag_item_copy, Bool.toNat_true] at heven
          omega
        | literal b =>
          simp only [Token.item, Bool.toNat_false, Nat.zero_add, List.length_singleton] at *
          have hhalf : fl % 2 ^ k = 0 := by
            rw [Nat.mul_mod_mul_left] at hfl
            omega
          obtain ⟨bs, ts', rfl, hbs, hreads⟩ := ih hrest hhalf (by simpa using hts)
          refine ⟨b :: bs, ts', rfl, ?_, ?_⟩
          · rw [Nat.add_comm k 1, slice_append, hbytes, hbs]
            rfl
          · rw [Nat.mul_div_mul_left _ _ (by decide)]
            rwa [Nat.add_assoc, Nat.add_comm 1 k] at hreads

/-- A stretch of literals stands for the bytes it holds. -/
theorem Emits.literals_inv {p : Nat} {bs : List UInt8} (h : Emits s n V p (bs.map Token.literal ++ ts)) :
    slice s p bs.length = bs ∧ Emits s n (V ∪ {v | p ≤ v ∧ v < p + bs.length}) (p + bs.length) ts := by
  induction bs generalizing p V with
  | nil =>
    have hset : V ∪ {v | p ≤ v ∧ v < p + ([] : List UInt8).length} = V := by
      ext v
      simp only [List.length_nil, Set.mem_union, Set.mem_ofPred_eq]
      exact ⟨fun hv => hv.elim id fun hv => by omega, Or.inl⟩
    rw [hset]
    exact ⟨rfl, h⟩
  | cons b bs ih =>
    obtain ⟨-, rfl, hrest⟩ := h.literal_inv
    obtain ⟨hbs, hemits⟩ := ih hrest
    have hset : V ∪ {v | p ≤ v ∧ v < p + (s p :: bs).length} =
        insert p V ∪ {v | p + 1 ≤ v ∧ v < p + 1 + bs.length} := by
      ext v
      simp only [List.length_cons, Set.mem_union, Set.mem_ofPred_eq, Set.mem_insert_iff]
      constructor
      · rintro (hv | hv)
        · exact Or.inl (Or.inr hv)
        · by_cases hp : v = p
          · exact Or.inl (Or.inl hp)
          · exact Or.inr (by omega)
      · rintro ((hv | hv) | hv)
        · exact Or.inr (by omega)
        · exact Or.inl hv
        · exact Or.inr (by omega)
    rw [hset, List.length_cons, show p + (bs.length + 1) = p + 1 + bs.length by omega]
    refine ⟨?_, hemits⟩
    rw [Nat.add_comm bs.length 1, slice_append, hbs]
    rfl

/-- The last four bytes are literals. -/
theorem Emits.four_le_length {p : Nat} (h : Emits s n V p ts) (hp : p + 4 ≤ n) : 4 ≤ ts.length := by
  induction h with
  | tail =>
    simp only [literals, List.length_map, length_slice]
    omega
  | literal hround _ ih =>
    have := ih (by omega)
    rw [List.length_cons]
    omega
  | copy _ _ _ _ _ hend _ _ ih =>
    have := ih hend
    rw [List.length_cons]
    omega

end Tokens

/-! ### The loop -/

section Rounds

variable {source s m : Mem} {n left fl : Nat} {V : Set Nat} {d : Decompressor} {ts : List Token}

@[simp] theorem Decompressor.dst_refill : (d.refill source).dst = d.dst := by
  unfold Decompressor.refill
  split <;> rfl

/-- A refill touches the reader only. -/
theorem Rebuilt.refill (h : Rebuilt s n m V d) : Rebuilt s n m V (d.refill source) := by
  unfold Decompressor.refill
  split
  · exact ⟨h.bytes, h.outside, h.visited, h.lag, h.behind, h.next_le, h.near, h.table⟩
  · exact h

/-- A round with a copy. -/
theorem Rebuilt.copy {o len : Nat} (h : Rebuilt s n m V d) (hlatest : Latest (hashat s) V (hashat s d.dst) o)
    (hcopyable : Copyable s V d.dst o) (h3 : 3 ≤ len) (h255 : len ≤ 255) (hend : d.dst + len + 4 ≤ n)
    (hagree : Agree s o d.dst len)
    (hbytes : slice source d.src (Token.copy (hashat s d.dst) len).item.bytes.length =
      (Token.copy (hashat s d.dst) len).item.bytes) :
    Rebuilt s n m (insert d.dst V) (d.copy source) ∧ (d.copy source).dst = d.dst + len ∧
      (d.copy source).src = d.src + (Token.copy (hashat s d.dst) len).item.bytes.length ∧
      (d.copy source).cword = d.cword >>> 1 := by
  obtain ⟨hhash, hlen, hwidth⟩ := copy_fields (hashFunc_lt _) h3 h255 hbytes
  obtain ⟨hback, hfrom⟩ := hcopyable.source hlatest hagree h3 h.table h.near h.behind
  obtain ⟨hin, hout⟩ := memcpyUp_spec hback hfrom (by omega : 0 < len) h.bytes
  have hnext := h.next_le
  unfold Decompressor.copy
  dsimp only
  rw [hhash, hlen, hwidth]
  refine ⟨⟨hin, fun i hi => ?_, ?_, fun v hv hlt => ?_, ?_, Nat.le_refl _, Nat.le_add_right _ _, ?_⟩,
    rfl, rfl, rfl⟩
  · exact (hout i (by omega)).trans (h.outside i hi)
  · rintro v (rfl | hv)
    · dsimp only
      omega
    · have := h.visited v hv
      dsimp only
      omega
  · dsimp only at hv hlt
    omega
  · rintro v (rfl | hv) -
    · dsimp only
      omega
    · have := h.visited v hv
      dsimp only
      omega
  · -- The places up to the copy are entered, and none inside it was visited.
    have hold : Below (insert d.dst V) d.next = Below V d.next :=
      below_of_subset (Set.subset_insert _ _) fun v hv hlt => hv.resolve_left (by omega)
    have hnew : Below (insert d.dst V) (d.dst + len) = Below (insert d.dst V) (max d.next (d.dst + 1)) :=
      below_congr fun v => by
        refine and_congr_right fun hv => ?_
        rcases hv with rfl | hv
        · omega
        · have := h.visited v hv
          omega
    rw [hnew]
    refine updateHashUpto_indexes (fun v hv hlt => ?_) (fun v hv => ?_) (by rw [hold]; exact h.table)
    · rcases Nat.lt_or_ge v d.dst with hless | hge
      · exact Or.inr (h.lag v hv hless)
      · exact Or.inl (by omega)
    · exact hashat_congr fun i hi => hin _ (by omega)

/-- The table of trailing zeros. -/
theorem bitlut_spec (c : Nat) :
    bitlut.getD (c &&& 0xf) 0 ≤ 4 ∧ c % 2 ^ bitlut.getD (c &&& 0xf) 0 = 0 ∧
      (c % 2 = 0 → 0 < bitlut.getD (c &&& 0xf) 0) := by
  have hall : ∀ x, x < 16 → bitlut.getD x 0 ≤ 4 ∧ x % 2 ^ bitlut.getD x 0 = 0 ∧
      2 ^ bitlut.getD x 0 ∣ 16 ∧ (x % 2 = 0 → 0 < bitlut.getD x 0) := by decide
  have hmask : c &&& 0xf = c % 16 := Nat.and_two_pow_sub_one_eq_mod c 4
  rw [hmask]
  obtain ⟨hle, hzero, hdvd, hpos⟩ := hall (c % 16) (Nat.mod_lt _ (by decide))
  refine ⟨hle, ?_, fun heven => hpos (by omega)⟩
  rwa [Nat.mod_mod_of_dvd _ hdvd] at hzero

/-- The zeros stand for literals: there are no more of them than flags, and no more than four. -/
theorem reads_zeros {src cword : Nat} (hcword : cword = 2 ^ left + fl)
    (hreads : Reads source src left fl (ts.map Token.item)) (hlen : 4 ≤ ts.length) :
    ∃ bs ts', ts = bs.map Token.literal ++ ts' ∧
      slice source src (bitlut.getD (cword &&& 0xf) 0) = bs ∧
      ∃ left' fl', cword >>> bitlut.getD (cword &&& 0xf) 0 = 2 ^ left' + fl' ∧
        Reads source (src + bitlut.getD (cword &&& 0xf) 0) left' fl' (ts'.map Token.item) := by
  obtain ⟨h4, hzeros, -⟩ := bitlut_spec cword
  generalize bitlut.getD (cword &&& 0xf) 0 = k at *
  have hfl := hreads.flags_lt
  have hk : k ≤ left := by
    by_contra hmore
    have hbig : 2 ^ (left + 1) ≤ 2 ^ k := Nat.pow_le_pow_right (by decide) (by omega)
    have hpos := Nat.two_pow_pos left
    rw [Nat.pow_succ] at hbig
    rw [Nat.mod_eq_of_lt (by omega)] at hzeros
    omega
  obtain ⟨left', rfl⟩ := Nat.exists_eq_add_of_le' hk
  have hpow : 2 ^ (left' + k) = 2 ^ k * 2 ^ left' := by rw [Nat.pow_add, Nat.mul_comm]
  rw [hcword, hpow, Nat.mul_add_mod] at hzeros
  obtain ⟨bs, ts', hts, hbs, hrest⟩ := reads_literals hreads hzeros (by omega)
  refine ⟨bs, ts', hts, hbs, left', fl / 2 ^ k, ?_, hrest⟩
  rw [hcword, hpow, Nat.shiftRight_eq_div_pow, Nat.mul_add_div (Nat.two_pow_pos k)]

/-- A round with literals: up to four bytes are written that stand for none of them. -/
theorem Rebuilt.literals {k : Nat} (h : Rebuilt s n m V d) (hk : bitlut.getD (d.cword &&& 0xf) 0 = k)
    (hpos : 0 < k) (h4 : k ≤ 4) (hround : d.dst + 4 ≤ n)
    (hslice : slice source d.src k = slice s d.dst k) :
    Rebuilt s n m (V ∪ {v | d.dst ≤ v ∧ v < d.dst + k}) (d.literals source) ∧
      (d.literals source).dst = d.dst + k ∧ (d.literals source).src = d.src + k ∧
      (d.literals source).cword = d.cword >>> k := by
  have hnext := h.next_le
  have hnear := h.near
  have hin : ∀ i, i < d.dst + k → memcpy d.mem d.dst (slice source d.src 4) i = s i := by
    intro i hi
    rcases Nat.lt_or_ge i d.dst with hlt | hge
    · rw [memcpy_apply_outside (Or.inl hlt), h.bytes i hlt]
    · obtain ⟨j, rfl⟩ := Nat.exists_eq_add_of_le hge
      rw [memcpy_apply_inside (by rw [length_slice]; omega), getD_slice (by omega)]
      exact slice_eq_apply hslice (by omega)
  unfold Decompressor.literals
  dsimp only
  rw [hk]
  refine ⟨⟨hin, fun i hi => ?_, ?_, fun v hv hlt => ?_, ?_, by dsimp only; omega, by dsimp only; omega, ?_⟩,
    rfl, rfl, rfl⟩
  · refine (memcpy_apply_outside (Or.inr ?_)).trans (h.outside i hi)
    rw [length_slice]
    omega
  · rintro v (hv | hv)
    · have := h.visited v hv
      dsimp only
      omega
    · exact hv.2
  · dsimp only at hv hlt
    rcases Nat.lt_or_ge v d.dst with hless | hge
    · exact Or.inl (h.lag v (by omega) hless)
    · exact Or.inr ⟨hge, hlt⟩
  · dsimp only
    rintro v (hv | hv) hlt
    · have := h.visited v hv
      rcases Nat.lt_or_ge v d.next with hless | hge
      · have := h.behind v hv hless
        omega
      · omega
    · have := hv.1
      omega
  · dsimp only
    have hold : Below (V ∪ {v | d.dst ≤ v ∧ v < d.dst + k}) d.next = Below V d.next :=
      below_of_subset Set.subset_union_left fun v hv hlt =>
        hv.resolve_right fun hnew => absurd (Nat.lt_of_lt_of_le hlt hnext) (Nat.not_lt.mpr hnew.1)
    refine updateHashUpto_indexes (fun v hv hlt => ?_) (fun v hv => ?_) (by rw [hold]; exact h.table)
    · rcases Nat.lt_or_ge v d.dst with hless | hge
      · exact Or.inl (h.lag v hv hless)
      · exact Or.inr ⟨hge, by omega⟩
    · exact hashat_congr fun i hi => hin _ (by omega)

/-- Of the control words between the last literals only the places matter. -/
theorem skip_spec {x : Nat} {its : List Item} (hcword : d.cword = 2 ^ left + x) (hx : x < 2 ^ left)
    (hreads : Reads source d.src left fl its) (hne : its ≠ []) :
    ∃ left fl x, d.skip.cword = 2 ^ (left + 1) + x ∧ x < 2 ^ (left + 1) ∧
      Reads source d.skip.src (left + 1) fl its := by
  unfold Decompressor.skip
  cases left with
  | zero =>
    rw [if_pos (by omega)]
    cases hreads with
    | done => exact absurd rfl hne
    | refill _ _ hmore => exact ⟨30, _, 0, rfl, by decide, hmore⟩
  | succ left =>
    have hpos := Nat.two_pow_pos left
    rw [if_neg (by rw [hcword, Nat.pow_succ]; omega)]
    exact ⟨left, fl, x, hcword, hx, hreads⟩

/-- The last loop reads literals. -/
theorem rest_spec {x : Nat} (hcword : d.cword = 2 ^ left + x) (hx : x < 2 ^ left)
    (hreads : Reads source d.src left fl ((QuickLz.literals s d.dst (n - d.dst)).map Token.item))
    (hbytes : ∀ i, i < d.dst → d.mem i = s i) :
    (∀ i, i < n → (d.rest source n).mem i = s i) ∧ ∀ i, n ≤ i → (d.rest source n).mem i = d.mem i := by
  induction d using Decompressor.rest.induct source n generalizing left fl x with
  | case1 d hlt ih =>
    rw [show n - d.dst = n - (d.dst + 1) + 1 by omega, literals_succ, List.map_cons] at hreads
    obtain ⟨left, fl, x, hcword, hx, hreads⟩ := skip_spec hcword hx hreads (List.cons_ne_nil _ _)
    cases hreads with
    | item hbyte hrest =>
      have hbyte : source d.skip.src = s d.dst := List.singleton_inj.mp hbyte
      have hhalf : (d.skip.byte source).cword = 2 ^ left + x / 2 := by
        simp only [Decompressor.byte]
        rw [hcword, Nat.pow_succ, Nat.shiftRight_eq_div_pow]
        omega
      have hbytes' : ∀ i, i < (d.skip.byte source).dst → (d.skip.byte source).mem i = s i := by
        simp only [Decompressor.byte, Decompressor.dst_skip, Decompressor.mem_skip, hbyte]
        intro i hi
        rcases Nat.lt_or_ge i d.dst with hless | hge
        · rw [memcpy_apply_outside (Or.inl hless), hbytes i hless]
        · rw [show i = d.dst + 0 by omega, memcpy_apply_inside (by simp)]
          rfl
      have hdst : (d.skip.byte source).dst = d.dst + 1 := by simp [Decompressor.byte]
      rw [Nat.pow_succ] at hx
      obtain ⟨hin, hout⟩ := ih hhalf (by omega) (by rw [hdst]; exact hrest) hbytes'
      rw [Decompressor.rest, if_pos hlt]
      refine ⟨hin, fun i hi => (hout i hi).trans ?_⟩
      simp only [Decompressor.byte, Decompressor.dst_skip, Decompressor.mem_skip]
      exact memcpy_apply_outside (Or.inr (Nat.le_trans hlt hi))
  | case2 d hge =>
    rw [Decompressor.rest, if_neg hge]
    exact ⟨fun i hi => hbytes i (by omega), fun _ _ => rfl⟩

/-- Near the end the tokens are literals, the first of them being one. -/
theorem Emits.literals_of_literal {p : Nat} {b : UInt8} (h : Emits s n V p (.literal b :: ts))
    (hend : n ≤ p + 11) : Token.literal b :: ts = QuickLz.literals s p (n - p) := by
  obtain ⟨hlt, rfl, hrest⟩ := h.literal_inv
  rw [show n - p = n - (p + 1) + 1 by omega, literals_succ, hrest.literals_of_end (by omega)]

/-- In as many rounds as there are bytes the loop restores the bytes the tokens stand for, and
writes nothing behind them. -/
theorem decompressLoop_spec {fuel : Nat} (hfuel : n - d.dst < fuel) (h : Rebuilt s n m V d)
    (hemits : Emits s n V d.dst ts) (hlt : d.dst < n) (hfacing : Facing source d ts) :
    ∃ d', decompressLoop source n fuel d = some d' ∧ (∀ i, i < n → d'.mem i = s i) ∧
      ∀ i, n ≤ i → d'.mem i = m i := by
  induction fuel generalizing d V ts with
  | zero => omega
  | succ fuel ih =>
    obtain ⟨t, ts, rfl⟩ := List.exists_cons_of_ne_nil (hemits.ne_nil hlt)
    obtain ⟨left, fl, hcword, hbytes, hreads⟩ := hfacing.refill
    have hr : Rebuilt s n m V (d.refill source) := h.refill
    have hdst : (d.refill source).dst = d.dst := Decompressor.dst_refill
    rw [decompressLoop]
    unfold Decompressor.round
    generalize d.refill source = e at *
    rw [← hdst] at hemits hlt hfuel
    obtain ⟨hflag, hshift⟩ := flag_of_cword hcword (Bool.toNat_le t.item.flag)
    dsimp only
    cases t with
    | copy hash len =>
      rw [if_pos (hflag.mpr (by rw [Token.flag_item_copy, Bool.toNat_true]))]
      obtain ⟨o, rfl, hlatest, hcopyable, h3, h255, hend, hagree, hrest⟩ := hemits.copy_inv
      obtain ⟨h', hdst', hsrc', hcword'⟩ := hr.copy hlatest hcopyable h3 h255 hend hagree hbytes
      rw [← hdst'] at hrest
      refine ih (by omega) h' hrest (by omega) ⟨left, fl, by rw [hcword', hshift], ?_⟩
      rwa [hsrc']
    | literal b =>
      have hreads' : Reads source e.src (left + 1) (0 + 2 * fl) ((.literal b :: ts).map Token.item) :=
        .item hbytes hreads
      have heven : e.cword % 2 = 0 := by
        rw [hcword, Nat.pow_succ]
        simp only [Token.item, Bool.toNat_false]
        omega
      rw [if_neg (by rw [Nat.and_one_is_mod]; omega)]
      by_cases hround : e.dst + UNCONDITIONAL_MATCHLEN + UNCOMPRESSED_END + 1 < n
      · rw [if_pos hround]
        rw [UNCONDITIONAL_MATCHLEN, UNCOMPRESSED_END] at hround
        obtain ⟨bs, ts', hts, hbs, left', fl', hcword', hrest⟩ :=
          reads_zeros hcword hreads' (hemits.four_le_length (by omega))
        obtain ⟨h4, -, hpos⟩ := bitlut_spec e.cword
        have hpos := hpos heven
        generalize hk : bitlut.getD (e.cword &&& 0xf) 0 = k at *
        rw [hts] at hemits
        obtain ⟨hslice, hemits'⟩ := hemits.literals_inv
        rw [show bs.length = k by rw [← hbs, length_slice]] at hslice hemits'
        obtain ⟨h', hdst', hsrc', hshift'⟩ :=
          hr.literals hk hpos h4 (by omega) (hbs.trans hslice.symm)
        refine ih (by omega) h' (by rw [hdst']; exact hemits') (by omega) ⟨left', fl', hshift'.trans hcword', ?_⟩
        rwa [hsrc']
      · rw [if_neg hround]
        rw [UNCONDITIONAL_MATCHLEN, UNCOMPRESSED_END] at hround
        rw [hemits.literals_of_literal (by omega)] at hreads'
        obtain ⟨hin, hout⟩ := rest_spec hcword hreads'.flags_lt hreads' hr.bytes
        exact ⟨_, rfl, hin, fun i hi => (hout i hi).trans (hr.outside i hi)⟩

end Rounds

end Solowan.QuickLz
