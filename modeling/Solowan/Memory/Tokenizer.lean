/-
`strtok` and `strtok_r`, on the buffers they cut.

A call skips the delimiters in front of a token, puts a null character over the one behind it,
and keeps a pointer to what follows; the next call goes on there.

* `strtokR_cases`: a call returns the first token of the string it goes on at, and the tokens of
  the string it leaves for the next call are the others.
-/

import Mathlib.Data.List.TakeWhile
import Solowan.Memory.CString

namespace Solowan.Memory

/-- The character that ends a string. -/
def NUL : Char := Char.ofNat 0

/-- The string at a position of a buffer. There is a null character behind a buffer. -/
def cString (buf : List Char) (pos : Nat) : List Char := (buf.drop pos).takeWhile (· != NUL)

/-- A call of `strtok_r` that goes on at `pos`: the token, if there is one, the buffer, and where
the next call goes on. -/
def strtokR (delimiter : Char → Bool) (buf : List Char) (pos : Nat) :
    Option (List Char) × List Char × Nat :=
  let start := pos + ((cString buf pos).takeWhile delimiter).length
  let token := (cString buf start).takeWhile fun c => !delimiter c
  let stop := start + token.length
  if token = [] then (none, buf, start)
  else if cString buf stop = [] then (some token, buf, stop)
  else (some token, buf.set stop NUL, stop + 1)

/-! ### Tokens -/

section Tokens

variable {delimiter : Char → Bool} {s w token : List Char}

theorem tokensFrom_append (hw : ∀ c ∈ w, delimiter c = false) :
    tokensFrom delimiter token (w ++ s) = tokensFrom delimiter (token ++ w) s := by
  induction w generalizing token with
  | nil => rw [List.nil_append, List.append_nil]
  | cons c w ih =>
    obtain ⟨hc, hw⟩ := List.forall_mem_cons.mp hw
    rw [List.cons_append, tokensFrom, if_neg (by simp [hc]), ih hw, List.append_assoc,
      List.singleton_append]

/-- Delimiters in front of a string are skipped. -/
theorem tokens_skip (hw : ∀ c ∈ w, delimiter c = true) :
    tokens delimiter (w ++ s) = tokens delimiter s := by
  induction w with
  | nil => rfl
  | cons c w ih =>
    obtain ⟨hc, hw⟩ := List.forall_mem_cons.mp hw
    rw [List.cons_append, tokens, tokensFrom, if_pos hc, if_pos rfl]
    exact ih hw

/-- The string ends in a token. -/
theorem tokens_last (hne : w ≠ []) (hw : ∀ c ∈ w, delimiter c = false) :
    tokens delimiter w = [w] := by
  have h : tokensFrom delimiter [] (w ++ []) = tokensFrom delimiter ([] ++ w) [] :=
    tokensFrom_append hw
  rw [List.append_nil, List.nil_append] at h
  rw [tokens, h, tokensFrom, if_neg hne]

/-- A token, the delimiter behind it, and the rest. -/
theorem tokens_cut {c : Char} (hne : w ≠ []) (hw : ∀ c ∈ w, delimiter c = false)
    (hc : delimiter c = true) :
    tokens delimiter (w ++ c :: s) = w :: tokens delimiter s := by
  rw [tokens, tokensFrom_append hw, List.nil_append, tokensFrom, if_pos hc, if_neg hne]
  rfl

/-- A token is not empty, and has no delimiter. -/
theorem mem_tokensFrom (hw : ∀ c ∈ w, delimiter c = false)
    (h : token ∈ tokensFrom delimiter w s) : token ≠ [] ∧ ∀ c ∈ token, delimiter c = false := by
  induction s generalizing w with
  | nil =>
    rw [tokensFrom] at h
    split at h
    · exact absurd h List.not_mem_nil
    · rename_i hne
      rw [List.mem_singleton.mp h]
      exact ⟨hne, hw⟩
  | cons c s ih =>
    rw [tokensFrom] at h
    split at h
    · split at h
      · exact ih (fun _ hc => absurd hc List.not_mem_nil) h
      · rename_i hne
        rcases List.mem_cons.mp h with rfl | h
        · exact ⟨hne, hw⟩
        · exact ih (fun _ hc => absurd hc List.not_mem_nil) h
    · rename_i hc
      refine ih ?_ h
      intro c' hc'
      rcases List.mem_append.mp hc' with hc' | hc'
      · exact hw c' hc'
      · rw [List.mem_singleton.mp hc']
        exact Bool.eq_false_iff.mpr hc

theorem mem_tokens (h : token ∈ tokens delimiter s) :
    token ≠ [] ∧ ∀ c ∈ token, delimiter c = false :=
  mem_tokensFrom (fun _ hc => absurd hc List.not_mem_nil) h

theorem length_tokensFrom_le (w s : List Char) :
    (tokensFrom delimiter w s).length ≤ w.length + s.length := by
  induction s generalizing w with
  | nil =>
    rw [tokensFrom]
    split
    · exact Nat.zero_le _
    · rename_i hne
      exact List.length_pos_iff.mpr hne
  | cons c s ih =>
    rw [tokensFrom, List.length_cons]
    split
    · have hrest := ih []
      rw [List.length_nil] at hrest
      split
      · omega
      · rename_i hne
        have hpos := List.length_pos_iff.mpr hne
        rw [List.length_cons]
        omega
    · have hrest := ih (w ++ [c])
      rw [List.length_append, List.length_singleton] at hrest
      omega

/-- There are no more tokens than characters. -/
theorem length_tokens_le (s : List Char) : (tokens delimiter s).length ≤ s.length := by
  have h : (tokensFrom delimiter [] s).length ≤ [].length + s.length := length_tokensFrom_le [] s
  rw [List.length_nil, Nat.zero_add] at h
  exact h

end Tokens

/-! ### Strings in a buffer -/

section Buffer

variable {delimiter : Char → Bool} {buf : List Char} {pos : Nat} {s w : List Char}

/-- A copy of a string. -/
theorem cString_copy (buf : List Char) (pos : Nat) : cString (cString buf pos) 0 = cString buf pos :=
  List.takeWhile_idem

theorem length_cString_le (buf : List Char) (pos : Nat) : (cString buf pos).length ≤ buf.length :=
  (List.takeWhile_prefix _).length_le.trans (by rw [List.length_drop]; exact Nat.sub_le ..)

/-- A string further on in a string. -/
theorem cString_add {i : Nat} (hi : i ≤ (cString buf pos).length) :
    cString buf (pos + i) = (cString buf pos).drop i := by
  unfold cString at hi ⊢
  rw [← List.drop_drop]
  generalize buf.drop pos = l at hi ⊢
  induction i generalizing l with
  | zero => rfl
  | succ i ih =>
    cases l with
    | nil => rfl
    | cons c l =>
      rw [List.takeWhile_cons] at hi ⊢
      split
      · rename_i hc
        rw [if_pos hc, List.length_cons] at hi
        exact ih l (Nat.le_of_succ_le_succ hi)
      · rename_i hc
        rw [if_neg hc] at hi
        exact absurd hi (Nat.not_succ_le_zero i)

/-- The string behind a character that is overwritten. -/
theorem cString_set {c : Char} (h : cString buf pos = c :: s) :
    cString (buf.set pos NUL) (pos + 1) = s := by
  have hone : 1 ≤ (cString buf pos).length := by
    rw [h, List.length_cons]
    exact Nat.le_add_left 1 _
  have hnext := cString_add hone
  rw [h, List.drop_one, List.tail_cons] at hnext
  rw [← hnext, cString, List.drop_set_of_lt (Nat.lt_succ_self pos), cString]

/-- The first character that is not skipped. -/
theorem head_dropWhile {p : Char → Bool} {c : Char} (h : s.dropWhile p = c :: w) :
    p c = false := by
  have hhead := List.head?_dropWhile_not p s
  rw [h] at hhead
  exact hhead

theorem drop_length_takeWhile (p : Char → Bool) (s : List Char) :
    s.drop (s.takeWhile p).length = s.dropWhile p := by
  have h : (s.takeWhile p ++ s.dropWhile p).drop (s.takeWhile p).length = s.dropWhile p :=
    List.drop_left
  rw [List.takeWhile_append_dropWhile] at h
  exact h

/-- **A call of `strtok_r`** returns the first token, and leaves a string with the others. -/
theorem strtokR_cases (delimiter : Char → Bool) (buf : List Char) (pos : Nat) :
    tokens delimiter (cString buf pos) = [] ∧ strtokR delimiter buf pos =
        (none, buf, pos + ((cString buf pos).takeWhile delimiter).length) ∨
      ∃ token buf' pos', strtokR delimiter buf pos = (some token, buf', pos') ∧
        tokens delimiter (cString buf pos) = token :: tokens delimiter (cString buf' pos') := by
  have hstart : cString buf (pos + ((cString buf pos).takeWhile delimiter).length) =
      (cString buf pos).dropWhile delimiter := by
    rw [cString_add (List.takeWhile_prefix delimiter).length_le, drop_length_takeWhile]
  have htokens : tokens delimiter (cString buf pos) =
      tokens delimiter ((cString buf pos).dropWhile delimiter) := by
    have hskip : tokens delimiter ((cString buf pos).takeWhile delimiter ++
        (cString buf pos).dropWhile delimiter) = _ :=
      tokens_skip fun c hc => List.mem_takeWhile_imp hc
    rw [List.takeWhile_append_dropWhile] at hskip
    exact hskip
  rw [htokens, strtokR, hstart]
  generalize hrest : (cString buf pos).dropWhile delimiter = rest at hstart ⊢
  have hsplit := List.takeWhile_append_dropWhile (p := fun c => !delimiter c) (l := rest)
  have htoken : ∀ c ∈ rest.takeWhile fun c => !delimiter c, delimiter c = false := by
    intro c hc
    have := List.mem_takeWhile_imp hc
    simpa using this
  by_cases hnone : (rest.takeWhile fun c => !delimiter c) = []
  · refine Or.inl ⟨?_, if_pos hnone⟩
    cases rest with
    | nil => rfl
    | cons c rest =>
      rw [List.takeWhile_cons, head_dropWhile hrest] at hnone
      cases hnone
  · rw [if_neg hnone]
    have hstop : cString buf (pos + ((cString buf pos).takeWhile delimiter).length +
        (rest.takeWhile fun c => !delimiter c).length) =
        rest.dropWhile fun c => !delimiter c := by
      rw [cString_add, hstart, drop_length_takeWhile]
      · rw [hstart]
        exact (List.takeWhile_prefix _).length_le
    rw [hstop]
    cases hbehind : rest.dropWhile fun c => !delimiter c with
    | nil =>
      rw [hbehind, List.append_nil] at hsplit
      refine Or.inr ⟨_, _, _, if_pos rfl, ?_⟩
      rw [hstop, hbehind]
      have hlast := tokens_last hnone htoken
      rw [hsplit] at hlast
      rw [hsplit]
      exact hlast
    | cons c behind =>
      refine Or.inr ⟨_, _, _, if_neg (List.cons_ne_nil c behind), ?_⟩
      rw [hbehind] at hstop hsplit
      rw [cString_set hstop]
      have hcut := tokens_cut (s := behind) hnone htoken (c := c)
        (by simpa using head_dropWhile hbehind)
      rw [hsplit] at hcut
      exact hcut

end Buffer

end Solowan.Memory
