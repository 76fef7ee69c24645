/-! Costs.  `CostArithmetic` lists what the search does with a cost: it adds, scales and compares
costs, takes a logarithm and a square root of them, and marks what is infeasible by an infinite one.
All else is written for every such type of costs, so that a statement can read them as exact numbers
while a run reads them as doubles, of which the instance is at the end. -/

namespace DcopSearch

/-- The operations on costs.  The order is given as two tests, since a cost need not compare with
itself. -/
class CostArithmetic (K : Type) extends Add K, Sub K, Mul K, Div K, Neg K where
  ofNat : Nat → K
  /-- The cost beyond every other; its negation lies below every other. -/
  infinity : K
  lt : K → K → Bool
  le : K → K → Bool
  ln : K → K
  sqrt : K → K

namespace CostArithmetic

variable {K : Type} [CostArithmetic K]

/-- Two costs are equal when neither comes before the other.  A cost that is not a number differs
from itself. -/
def eq (x y : K) : Bool := le x y && le y x

def isInfinite (x : K) : Bool := eq x infinity || eq x (-infinity)

def isFinite (x : K) : Bool := eq x x && !isInfinite x

def isZero (x : K) : Bool := eq x (ofNat 0)

def abs (x : K) : K := if lt x (ofNat 0) then -x else x

/-- The smaller of two costs; the other one when one is not a number. -/
def least (x y : K) : K := if lt y x || !eq x x then y else x

def greatest (x y : K) : K := if lt x y || !eq x x then y else x

def total (xs : List K) : K := xs.foldl (· + ·) (ofNat 0)

end CostArithmetic

/-- Doubles: the order is the one of the hardware, for which a value that is not a number is
neither before nor after any value. -/
instance : CostArithmetic Float where
  ofNat := Float.ofNat
  infinity := 1.0 / 0.0
  lt x y := decide (x < y)
  le x y := decide (x ≤ y)
  ln := Float.log
  sqrt := Float.sqrt

end DcopSearch
