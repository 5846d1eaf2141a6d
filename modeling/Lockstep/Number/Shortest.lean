import Lockstep.Number.Binary64
/-!
The shortest decimal that reads back as a given binary64 value, and the two layouts in which the
program writes it.
-/

set_option autoImplicit false
set_option relaxedAutoImplicit false

namespace Lockstep

/-- Which of two equally near decimals of the same length is taken. -/
inductive Tie where
  | up
  | toEven
deriving DecidableEq, Repr

/-- Does a tie between the last digit of `digits` and the next one leave the digit as it is? -/
def Tie.goesDown (tie : Tie) (digits : Nat) : Bool := tie = .toEven && digits % 2 = 0

/--
A positive value `mid` with the ends `low` and `high` of the reals that round to it, all three over
the denominator `den`; the ends belong to the interval when `closed` holds.
-/
structure Rounding where
  low : Nat
  mid : Nat
  high : Nat
  den : Nat
  closed : Bool

namespace Rounding

/-- The reals that round to `m * 2 ^ q`: the gap below a power of two is half the gap above. -/
def of (m : Nat) (q : Int) : Rounding :=
  let up := powUp 2 (q - 2)
  let below := if m = Nat.pow 2 52 && Binary64.leastExponent < q then 1 else 2
  ⟨(4 * m - below) * up, 4 * m * up, (4 * m + 2) * up, powUp 2 (2 - q), m % 2 = 0⟩

def contains (r : Rounding) (d : Decimal) : Bool :=
  let x := d.digits * powUp 10 d.exponent * r.den
  let scale := powUp 10 (-d.exponent)
  if r.closed then r.low * scale ≤ x && x ≤ r.high * scale
  else r.low * scale < x && x < r.high * scale

/-- The decimal exponent of the leading digit: the greatest `e` with `10 ^ e ≤ mid / den`. -/
def leading (r : Rounding) : Int :=
  if r.den ≤ r.mid then (digitCount (r.mid / r.den) : Int) - 1
  else -(digitCount ((r.den + r.mid - 1) / r.mid - 1) : Int)

/-- The decimal with `n` digits nearest to the value, if one of that length rounds to it. -/
def withDigits (tie : Tie) (r : Rounding) (n : Nat) : Option Decimal :=
  let e := r.leading + 1 - n
  let num := r.mid * powUp 10 (-e)
  let den := r.den * powUp 10 e
  let down : Decimal := ⟨num / den, e⟩
  let up : Decimal := ⟨num / den + 1, e⟩
  match r.contains down, r.contains up with
  | true, true =>
    if 2 * (num % den) < den || (2 * (num % den) = den && tie.goesDown (num / den)) then some down
    else some up
  | true, false => some down
  | false, true => some up
  | false, false => none

/-- The decimal of fewest digits that rounds to the value; seventeen digits always suffice. -/
def shortest (tie : Tie) (r : Rounding) : Decimal :=
  ((List.range 17).findSome? fun n => r.withDigits tie (n + 1)).getD ⟨0, 0⟩

end Rounding

def Decimal.strip (d : Decimal) : Decimal :=
  let ds := Nat.toDigits 10 d.digits
  let zeros := (ds.reverse.takeWhile (· == '0')).length
  if d.digits = 0 then ⟨0, 0⟩ else ⟨d.digits / Nat.pow 10 zeros, d.exponent + zeros⟩

namespace Binary64

/-- The shortest decimal that reads back as the value; `none` for infinity. -/
def shortest (tie : Tie) : Binary64 → Option Decimal
  | infinite => none
  | finite 0 _ => some ⟨0, 0⟩
  | finite m q => some ((Rounding.of m q).shortest tie).strip

end Binary64

def zeros (n : Nat) : String := String.ofList (List.replicate n '0')

/-- Positional digits, without a point for whole numbers. -/
def Decimal.positional (d : Decimal) : String :=
  let ds := Nat.toDigits 10 d.digits
  if 0 ≤ d.exponent then String.ofList ds ++ zeros d.exponent.toNat
  else
    let places := (-d.exponent).toNat
    if places < ds.length then
      String.ofList (ds.take (ds.length - places)) ++ "." ++
        String.ofList (ds.drop (ds.length - places))
    else "0." ++ zeros (places - ds.length) ++ String.ofList ds

/--
Positional digits with at least one place after the point when the leading digit stands between
`10 ^ (-5)` and `10 ^ 15`, else one digit before the point and a signed exponent.
-/
def Decimal.scientific (d : Decimal) : String :=
  let ds := Nat.toDigits 10 d.digits
  let lead : Int := d.exponent + ds.length - 1
  if d.digits = 0 then "0.0"
  else if -5 ≤ lead && lead ≤ 15 then
    if 0 ≤ d.exponent then d.positional ++ ".0" else d.positional
  else
    let fraction := if ds.length ≤ 1 then "" else "." ++ String.ofList (ds.drop 1)
    let sign := if lead < 0 then "-" else "+"
    String.ofList (ds.take 1) ++ fraction ++ "e" ++ sign ++ toString lead.natAbs

/-- A floating literal as a token shows it: all digits, never an exponent, and ties go up. -/
def Binary64.plainText (v : Binary64) : String :=
  match v.shortest .up with
  | none => "inf"
  | some d => d.positional

end Lockstep
