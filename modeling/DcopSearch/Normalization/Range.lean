import DcopSearch.Protocol.Address

/-! The range of the costs of a variable's subtree.  `Range` is what one variable gathers, from its
own spaces and from the reports of its children, until it knows enough to report itself; at the root
the range of the whole component gives the divisor, which then goes down again. -/

namespace DcopSearch

open CostArithmetic

/-- What a variable takes along into sampling: the divisor, its rescaled spaces, the ancestors that
matter to its subtree in the order of their names, and the size measure of the subtree. -/
structure Normalized (K : Type) where
  name : String
  scalingFactor : K
  spaces : List (CostSpace K)
  separator : List String
  size : Nat

structure NormalizationStep (K : Type) where
  messages : List (Outgoing K) := []
  completed : List (Normalized K) := []

def NormalizationStep.append {K : Type} (first second : NormalizationStep K) :
    NormalizationStep K :=
  { messages := first.messages ++ second.messages
    completed := first.completed ++ second.completed }

structure Extent (K : Type) where
  low : K
  high : K

/-- What a variable has gathered.  The view is missing until it arrives, `received` counts it and the
reports of the children, and each space stands beside the shift that will move its smallest cost to
zero. -/
structure Range (K : Type) where
  view : Option View
  received : Nat
  lower : K
  upper : K
  spaceCount : Nat
  size : Nat
  separator : NameSet
  spaces : List (CostSpace K × K)
  reported : Bool
  done : Bool

namespace Range

variable {K : Type} [CostArithmetic K]

def empty : Range K where
  view := none
  received := 0
  lower := ofNat 0
  upper := ofNat 0
  spaceCount := 0
  size := 0
  separator := ∅
  spaces := []
  reported := false
  done := false

/-- An extremum, or the substitute in place of one that is missing or not finite. -/
def finiteOr (substitute : K) (extremum : Option K) : K :=
  match extremum with
  | some u => if isFinite u then u else substitute
  | none => substitute

/-- The extent of a space.  With a substitute for infeasible costs it is the one of the extrema after
substitution; without, it is the one of the feasible costs, if there are any. -/
def extent? (substitute : Option K) (space : CostSpace K) : Option (Extent K) :=
  match substitute with
  | some penalty =>
    let a := finiteOr penalty (space.extremum false false)
    let b := finiteOr penalty (space.extremum true false)
    some { low := least a b, high := greatest a b }
  | none =>
    match space.extremum false true, space.extremum true true with
    | some low, some high => some { low, high }
    | _, _ => none

/-- Takes in one space.  A space without an extent is not shifted and adds nothing. -/
def addSpace (substitute : Option K) (range : Range K) (space : CostSpace K) : Range K :=
  match extent? substitute space with
  | none => { range with spaces := range.spaces ++ [(space, ofNat 0)] }
  | some extent =>
    { range with
      lower := range.lower + extent.low
      upper := range.upper + extent.high
      spaces := range.spaces ++ [(space, extent.low)] }

def addView (substitute : Option K) (view : View) (spaces : List (CostSpace K)) (values : Nat)
    (range : Range K) : Range K :=
  let range := spaces.foldl (addSpace substitute) range
  { range with
    view := some view
    received := range.received + 1
    spaceCount := range.spaceCount + spaces.length
    size := max range.size values
    separator := range.separator ∪ view.separator }

def addReport (report : RangeReport K) (range : Range K) : Range K :=
  { range with
    received := range.received + 1
    lower := range.lower + report.lower
    upper := range.upper + report.upper
    spaceCount := range.spaceCount + report.spaceCount
    size := max range.size report.size
    separator := range.separator ∪ report.separator }

/-- Whether the view and a report per child have arrived and nothing was reported yet. -/
def isComplete (range : Range K) (view : View) : Bool :=
  !range.reported && view.children.length + 1 ≤ range.received

/-- The range as it is reported: one level higher than the largest subtree of a child, and without
the variable itself among the ancestors. -/
def close (name : String) (view : View) (range : Range K) : Range K :=
  { range with
    reported := true
    size := if view.isLeaf then range.size else range.size + 1
    separator := range.separator.erase name }

/-- The divisor of a component: the width of its range or, if there is none, the size of its lower
end; one, if that is of no use either. -/
def divisor (range : Range K) : K :=
  let width := range.upper - range.lower
  let divisor := if isZero width then abs range.lower else width
  if isZero divisor || !isFinite divisor then ofNat 1 else divisor

def rescale (substitute : Option K) (divisor : K) (range : Range K) : Range K :=
  { range with
    done := true
    spaces := range.spaces.map fun entry =>
      (entry.1.rescale entry.2 divisor substitute, entry.2) }

def normalized (name : String) (divisor : K) (range : Range K) : Normalized K where
  name := name
  scalingFactor := divisor
  spaces := range.spaces.map (·.1)
  separator := range.separator.toList
  size := range.size

end Range

end DcopSearch
