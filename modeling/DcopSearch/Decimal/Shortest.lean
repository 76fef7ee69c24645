import DcopSearch.Decimal.Dyadic

/-! The shortest digits of a double: the fewest that read back as the same double and, of those, the
ones nearest to its value.  Grids of one, two, … significant digits are tried in turn; on each, only
the two neighbours of the value can be nearest, so that it is enough to test these. -/

namespace DcopSearch.Decimal

/-- The number `0.d₁d₂…dₙ * 10 ^ point` where `d₁…dₙ` are the digits of `digits`. -/
structure Digits where
  digits : Nat
  point : Int
deriving DecidableEq, Repr

/-- The least `p` with `r < 10 ^ p`, from a first guess that is at most `steps` too small. -/
def raisePoint (r : Ratio) : Nat → Int → Int
  | 0, p => p
  | steps + 1, p =>
    let scaled := r.timesTen (-p)
    if scaled.numerator < scaled.denominator then p else raisePoint r steps (p + 1)

/-- The least `p` with `m * 2 ^ e < 10 ^ p`.  The first guess takes `1233 / 4096` for the decimal
logarithm of two, and over the exponents of doubles it falls short by three at most. -/
def Dyadic.point (d : Dyadic) : Int :=
  let bits : Int := d.mantissa.log2 + d.exponent
  raisePoint d.magnitude 4 (bits * 1233 / 4096 - 1)

def Rounding.contains (i : Rounding) (n : Nat) (k : Int) : Bool :=
  let low := (Ratio.ofBinary i.low i.scale).timesTen (-k)
  let high := (Ratio.ofBinary i.high i.scale).timesTen (-k)
  let above := compare low.numerator (n * low.denominator)
  let below := compare (n * high.denominator) high.numerator
  if i.closed then above != .gt && below != .gt else above == .lt && below == .lt

/-- The neighbour of the value on the grid of the multiples of `10 ^ k` that rounds to the double,
if one does; of two the nearer, and the upper one of two that are equally near. -/
def Dyadic.onGrid (d : Dyadic) (k : Int) : Option Nat :=
  let r := d.magnitude.timesTen (-k)
  let low := r.floor
  let nearLow := 2 * r.numerator < (2 * low + 1) * r.denominator
  match d.rounding.contains low k, d.rounding.contains (low + 1) k with
  | true, true => some (if nearLow then low else low + 1)
  | true, false => some low
  | false, true => some (low + 1)
  | false, false => none

def Dyadic.fewest (d : Dyadic) (point : Int) : Nat → Nat → Digits
  | 0, count =>
    { digits := (d.magnitude.timesTen ((count : Int) - point)).floor, point }
  | tries + 1, count =>
    match d.onGrid (point - count) with
    | some n => if n = Nat.pow 10 count then ⟨1, point + 1⟩ else ⟨n, point⟩
    | none => d.fewest point tries (count + 1)

def Dyadic.shortest (d : Dyadic) : Digits := d.fewest d.point 17 1

def Digits.chars (n : Digits) : List Char := Nat.toDigits 10 n.digits

/-- The digits around a point where they belong, without an exponent: `0.0012`, `1.5`, `1200`. -/
def Digits.positional (n : Digits) : String :=
  let ds := n.chars
  let whole := n.point.toNat
  if n.point ≤ 0 then
    String.ofList ("0.".toList ++ List.replicate (-n.point).toNat '0' ++ ds)
  else if ds.length ≤ whole then
    String.ofList (ds ++ List.replicate (whole - ds.length) '0')
  else
    String.ofList (ds.take whole ++ '.' :: ds.drop whole)

def Digits.scientific (n : Digits) : String :=
  let fraction := match n.chars.drop 1 with
    | [] => "0"
    | ds => String.ofList ds
  String.ofList (n.chars.take 1) ++ "." ++ fraction ++ "e" ++ toString (n.point - 1)

/-- The text of a double: its shortest digits without an exponent, after the sign that also a zero
has; `inf`, `-inf` and `NaN` for the rest. -/
def text (x : Float) : String :=
  if x.isNaN then "NaN"
  else
    let d := Dyadic.ofFloat x
    let sign := if d.negative then "-" else ""
    if x.isInf then sign ++ "inf"
    else if d.mantissa = 0 then sign ++ "0"
    else sign ++ d.shortest.positional

end DcopSearch.Decimal
