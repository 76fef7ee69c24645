/-! The finite doubles as whole numbers times powers of two, and the interval of the numbers that
round to one of them.  Texts of a double are computed from these in exact arithmetic. -/

namespace DcopSearch.Decimal

/-- The value `mantissa * 2 ^ exponent`, with a sign of its own so that zero has one too. -/
structure Dyadic where
  negative : Bool
  mantissa : Nat
  exponent : Int
deriving DecidableEq, Repr

def hiddenBit : Nat := 1 <<< 52

/-- The fields of a double: the sign bit, eleven bits of exponent and fifty-two of fraction.  The
value of an infinity or of what is not a number is of no meaning here. -/
def Dyadic.ofBits (bits : UInt64) : Dyadic :=
  let n : Nat := bits.toNat
  let field : Nat := (n >>> 52) % 2048
  let fraction : Nat := n % hiddenBit
  { negative := n >>> 63 == 1
    mantissa := if field = 0 then fraction else hiddenBit + fraction
    exponent := if field = 0 then -1074 else (field : Int) - 1075 }

def Dyadic.ofFloat (x : Float) : Dyadic := Dyadic.ofBits x.toBits

/-- A quotient of whole numbers, with a positive denominator. -/
structure Ratio where
  numerator : Nat
  denominator : Nat

def Ratio.ofBinary (n : Nat) (e : Int) : Ratio :=
  if 0 ≤ e then ⟨n <<< e.toNat, 1⟩ else ⟨n, 1 <<< (-e).toNat⟩

def Ratio.timesTen (r : Ratio) (k : Int) : Ratio :=
  if 0 ≤ k then ⟨r.numerator * Nat.pow 10 k.toNat, r.denominator⟩
  else ⟨r.numerator, r.denominator * Nat.pow 10 (-k).toNat⟩

def Ratio.floor (r : Ratio) : Nat := r.numerator / r.denominator

def Dyadic.magnitude (d : Dyadic) : Ratio := Ratio.ofBinary d.mantissa d.exponent

/-- The interval of the numbers that round to a double, around four times its mantissa and at a
quarter of its scale: half a step to either side, except that the step below the least mantissa of a
binade is half as wide.  The ends belong to it when the mantissa is even. -/
structure Rounding where
  low : Nat
  high : Nat
  scale : Int
  closed : Bool

def Dyadic.rounding (d : Dyadic) : Rounding :=
  { low := if d.mantissa = hiddenBit ∧ -1074 < d.exponent then 4 * d.mantissa - 1
           else 4 * d.mantissa - 2
    high := 4 * d.mantissa + 2
    scale := d.exponent - 2
    closed := d.mantissa % 2 == 0 }

end DcopSearch.Decimal
