/-!
Magnitudes of the binary64 format in exact integer arithmetic: the value nearest to a decimal, and
the encoding of a value in 64 bits.
-/

set_option autoImplicit false
set_option relaxedAutoImplicit false

namespace Lockstep

/-- A non-negative binary64 value. `finite m q` stands for `m * 2 ^ q`. -/
inductive Binary64 where
  | finite (m : Nat) (q : Int)
  | infinite
deriving DecidableEq, Repr

/-- A decimal `digits * 10 ^ exponent`. -/
structure Decimal where
  digits : Nat
  exponent : Int
deriving DecidableEq, Repr

/-- The number of decimal digits of `n`; zero has none. -/
def digitCount (n : Nat) : Nat :=
  if n = 0 then 0 else (Nat.toDigits 10 n).length

/-- `base ^ e` for a positive `e`, else `1`. -/
def powUp (base : Nat) (e : Int) : Nat := Nat.pow base e.toNat

/-- `num / den` rounded to an integer, a half going to the even neighbour. -/
def roundHalfEven (num den : Nat) : Nat :=
  let q := num / den
  let r := num % den
  if 2 * r < den then q
  else if den < 2 * r then q + 1
  else if q % 2 = 0 then q
  else q + 1

namespace Binary64

/-- The least exponent: subnormal values are multiples of `2 ^ leastExponent`. -/
def leastExponent : Int := -1074

def greatestExponent : Int := 971

def zero : Binary64 := finite 0 leastExponent

/-- The greatest `e` with `2 ^ e ≤ num / den`, for positive `num` and `den`. -/
def floorLog2 (num den : Nat) : Int :=
  let e : Int := (num.log2 : Int) - (den.log2 : Int)
  if den * powUp 2 e ≤ num * powUp 2 (-e) then e else e - 1

/-- The value nearest to `num / den`; of two equally near the one with an even significand. -/
def nearest (num den : Nat) : Binary64 :=
  if num = 0 then zero
  else
    let q := max (floorLog2 num den - 52) leastExponent
    let m := roundHalfEven (num * powUp 2 (-q)) (den * powUp 2 q)
    let (m, q) := if m = Nat.pow 2 53 then (Nat.pow 2 52, q + 1) else (m, q)
    if greatestExponent < q then infinite else finite m q

/--
The value nearest to a decimal. Beyond `10 ^ 310` all decimals round to infinity and below
`10 ^ (-330)` all round to zero, so the powers computed stay small.
-/
def ofDecimal (d : Decimal) : Binary64 :=
  let top : Int := digitCount d.digits + d.exponent
  if d.digits = 0 || top < -330 then zero
  else if 310 < top then infinite
  else nearest (d.digits * powUp 10 d.exponent) (powUp 10 (-d.exponent))

def bits : Binary64 → Nat
  | finite m q => (q - leastExponent).toNat * Nat.pow 2 52 + m
  | infinite => 2047 * Nat.pow 2 52

end Binary64

end Lockstep
