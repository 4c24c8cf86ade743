/-
Tokens and numbers in C strings.

A string is cut into tokens at the characters of a set; runs of them count as one. `atoi` and
the conversions of `sscanf` read white space, a sign and digits, and stop at the first character
that is none. They are given as the GNU library has them: a number that does not fit is the
largest one that does, and is then cut to the width of the variable.
-/

namespace Solowan.Memory

/-- The tokens of a string, `token` being the one that has begun. -/
def tokensFrom (delimiter : Char → Bool) (token : List Char) : List Char → List (List Char)
  | [] => if token = [] then [] else [token]
  | c :: s =>
    if delimiter c then
      if token = [] then tokensFrom delimiter [] s else token :: tokensFrom delimiter [] s
    else tokensFrom delimiter (token ++ [c]) s

/-- What `strtok` cuts out of a string, call after call. -/
def tokens (delimiter : Char → Bool) (s : List Char) : List (List Char) :=
  tokensFrom delimiter [] s

/-- `isspace`, in the C locale. -/
def isspace (c : Char) : Bool := c.toNat == 32 || decide (9 ≤ c.toNat ∧ c.toNat ≤ 13)

/-- The value of a digit. -/
def digitValue (base : Nat) (c : Char) : Option Nat :=
  let n := c.toNat
  let value :=
    if 48 ≤ n ∧ n ≤ 57 then n - 48
    else if 97 ≤ n ∧ n ≤ 122 then n - 87
    else if 65 ≤ n ∧ n ≤ 90 then n - 55
    else base
  if value < base then some value else none

/-- The digits up to the first character that is none. -/
def digits (base : Nat) : List Char → List Nat
  | [] => []
  | c :: s =>
    match digitValue base c with
    | none => []
    | some n => n :: digits base s

/-- In base 16 a prefix `0x` is skipped when a digit follows it. -/
def skipPrefix (base : Nat) : List Char → List Char
  | '0' :: x :: c :: s =>
    if base = 16 ∧ (x = 'x' ∨ x = 'X') ∧ (digitValue base c).isSome then c :: s
    else '0' :: x :: c :: s
  | s => s

/-- The number a string starts with, `none` when there are no digits. -/
def scanNumber (base : Nat) (s : List Char) : Option Int :=
  let s := s.dropWhile isspace
  let negative := decide (s.head? = some '-')
  let s := if s.head? = some '-' ∨ s.head? = some '+' then s.tail else s
  let ds := digits base (skipPrefix base s)
  let value : Nat := ds.foldl (fun n d => base * n + d) 0
  if ds = [] then none else some (if negative then -(value : Int) else value)

/-- `strtol`. -/
def strtol (s : String) : Int :=
  max (-9223372036854775808) (min ((scanNumber 10 s.toList).getD 0) 9223372036854775807)

/-- `atoi`, which is `strtol` cut to an `int`. -/
def atoi (s : String) : Int := (strtol s).bmod 4294967296

/-- A number as an `unsigned long`. -/
def unsignedLong (n : Int) : Nat :=
  if n.natAbs < 18446744073709551616 then (n % 18446744073709551616).toNat
  else 18446744073709551615

/-- `sscanf(s, "%u", &x)`: what is stored in `x`, if anything is. -/
def sscanfUnsigned (s : String) : Option UInt32 :=
  (scanNumber 10 s.toList).map fun n => UInt32.ofNat (unsignedLong n)

/-- `sscanf(s, "%" SCNx64, &x)`. -/
def sscanfHex (s : String) : Option (BitVec 64) :=
  (scanNumber 16 s.toList).map fun n => BitVec.ofNat 64 (unsignedLong n)

example : atoi "  -12ab" = -12 ∧ atoi "4294967297" = 1 ∧ sscanfHex "0x3fF" = some 1023 := by
  decide

end Solowan.Memory
