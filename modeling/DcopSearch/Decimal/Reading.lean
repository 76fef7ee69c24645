/-! Reading numbers.  A decimal number is an optional sign, digits with at most one point among or
around them, and an optional exponent; the double it stands for is the nearest one.  A word is read
from digits alone and must fit into 64 bits. -/

namespace DcopSearch.Decimal

def spanDigits (cs : List Char) : List Char × List Char := cs.span Char.isDigit

def digitsValue (ds : List Char) : Nat := ds.foldl (fun n c => 10 * n + (c.toNat - '0'.toNat)) 0

def takeSign : List Char → Bool × List Char
  | '-' :: cs => (true, cs)
  | '+' :: cs => (false, cs)
  | cs => (false, cs)

/-- The number `mantissa * 10 ^ exponent`. -/
structure Scientific where
  negative : Bool
  mantissa : Nat
  exponent : Int
deriving DecidableEq, Repr

def readExponent? : List Char → Option Int
  | [] => some 0
  | c :: cs =>
    if c = 'e' ∨ c = 'E' then
      let (negative, cs) := takeSign cs
      match spanDigits cs with
      | ([], _) => none
      | (ds, []) => some (if negative then -(digitsValue ds : Int) else digitsValue ds)
      | (_, _ :: _) => none
    else none

/-- A number without a sign: digits, which may stand on both sides of a point but not be missing on
both, and an exponent. -/
def readUnsigned? (negative : Bool) (cs : List Char) : Option Scientific :=
  let (whole, rest) := spanDigits cs
  let (fraction, rest) := match rest with
    | '.' :: cs => spanDigits cs
    | cs => ([], cs)
  if whole.isEmpty && fraction.isEmpty then none
  else (readExponent? rest).map fun e =>
    { negative, mantissa := digitsValue (whole ++ fraction), exponent := e - fraction.length }

/-- The double nearest to a number.  A number far above the largest or far below the least double is
settled by the place of its first digit. -/
def Scientific.toFloat (n : Scientific) : Float :=
  let place : Int := (Nat.toDigits 10 n.mantissa).length + n.exponent
  let size : Float :=
    if n.mantissa = 0 ∨ place < -400 then 0
    else if 400 < place then 1.0 / 0.0
    else Float.ofScientific n.mantissa (decide (n.exponent < 0)) n.exponent.natAbs
  if n.negative then -size else size

def float? (s : String) : Option Float :=
  let (negative, cs) := takeSign s.toList
  let name := String.ofList (cs.map Char.toLower)
  if name = "inf" ∨ name = "infinity" then
    some (if negative then -1.0 / 0.0 else 1.0 / 0.0)
  else if name = "nan" then some (0.0 / 0.0)
  else (readUnsigned? negative cs).map Scientific.toFloat

def word? (s : String) : Option UInt64 :=
  let ds := match s.toList with
    | '+' :: cs => cs
    | cs => cs
  if ds.isEmpty || !ds.all Char.isDigit then none
  else
    let n := digitsValue ds
    if n < UInt64.size then some (UInt64.ofNat n) else none

end DcopSearch.Decimal
