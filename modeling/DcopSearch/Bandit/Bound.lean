import DcopSearch.Cost.Arithmetic
import DcopSearch.Text.Blank

/-! Optimism bounds.  What a value may still gain is taken to grow with the visits of its node and to
shrink with its own; the size of the subtree below may widen it. -/

namespace DcopSearch

open CostArithmetic

inductive BoundKind where
  | log
  | logSize
deriving DecidableEq, Repr

namespace BoundKind

def name : BoundKind → String
  | log => "log"
  | logSize => "log-size"

def words : List (String × BoundKind) :=
  [("log", log), ("log-size", logSize), ("logsize", logSize), ("log_size", logSize)]

def named? (text : String) : Option BoundKind := words.lookup (Text.keyword text)

end BoundKind

/-- A formula for a variable; the second one knows the size measure of the variable's subtree. -/
inductive BoundFormula where
  | log
  | logSize (size : Nat)
deriving DecidableEq, Repr

def BoundKind.forSize : BoundKind → Nat → BoundFormula
  | log, _ => .log
  | logSize, size => .logSize size

/-- The bound of a value with `visits` visits in a node with `frequency` visits:
`sqrt (ln (2 frequency) / visits)`, with `size + 1` before the logarithm if the size counts.  A value
that was never visited has an infinite bound. -/
def BoundFormula.value {K : Type} [CostArithmetic K] (formula : BoundFormula)
    (visits frequency : Nat) : K :=
  if visits = 0 then infinity
  else
    match formula with
    | log => sqrt (ln (ofNat 2 * ofNat frequency) / ofNat visits)
    | logSize size =>
      sqrt (ofNat (size + 1) * ln (ofNat 2 * ofNat frequency) / ofNat visits)

end DcopSearch
