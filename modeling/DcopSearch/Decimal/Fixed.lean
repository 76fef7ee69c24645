import DcopSearch.Decimal.Dyadic

/-! Numbers with a fixed count of places after the point.  The exact value is rounded to the nearest
number with so many places, and a half goes to the even one. -/

namespace DcopSearch.Decimal

/-- The whole number nearest to `r`; of two equally near the even one. -/
def Ratio.nearest (r : Ratio) : Nat :=
  let low := r.floor
  match compare (2 * (r.numerator - low * r.denominator)) r.denominator with
  | .lt => low
  | .gt => low + 1
  | .eq => if low % 2 = 0 then low else low + 1

def padded (width n : Nat) : List Char :=
  let ds := Nat.toDigits 10 n
  List.replicate (width - ds.length) '0' ++ ds

def placed (places n : Nat) : String :=
  let ds := padded (places + 1) n
  let whole := ds.length - places
  if places = 0 then String.ofList ds
  else String.ofList (ds.take whole ++ '.' :: ds.drop whole)

/-- A double with `places` places; the sign stays even if all digits are zero. -/
def fixed (places : Nat) (x : Float) : String :=
  if x.isNaN then "NaN"
  else
    let d := Dyadic.ofFloat x
    let sign := if d.negative then "-" else ""
    if x.isInf then sign ++ "inf"
    else sign ++ placed places (d.magnitude.timesTen places).nearest

end DcopSearch.Decimal
