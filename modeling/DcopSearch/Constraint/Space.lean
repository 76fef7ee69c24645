import DcopSearch.Cost.Objective
import DcopSearch.Constraint.Error
import Std.Data.ExtTreeMap

/-! Cost spaces.  A space gives every joint value of its variables a cost, from a table in which the
last variable varies fastest.  All look-ups go through `CostSpace.lookup?`, which takes the values of
the variables from any source. -/

namespace DcopSearch

open CostArithmetic

abbrev Value := Int

abbrev Assignment := Std.ExtTreeMap String Value

structure Axis where
  name : String
  domain : List Value
deriving DecidableEq, Repr

/-- A table of costs over the joint values of its axes. -/
structure CostSpace (K : Type) where
  name : String
  axes : List Axis
  table : Array K

def jointSize (domains : List (List Value)) : Nat :=
  (domains.map List.length).foldr (· * ·) 1

/-- The joint values of the domains, the last one varying fastest.  An empty domain leaves none,
however many values the domains after it have. -/
def jointValues : List (List Value) → List (List Value)
  | [] => [[]]
  | [] :: _ => []
  | domain :: rest =>
    let tails := jointValues rest
    domain.flatMap fun value => tails.map (value :: ·)

theorem jointValues_cons (domain : List Value) (rest : List (List Value)) :
    jointValues (domain :: rest)
      = domain.flatMap fun value => (jointValues rest).map (value :: ·) := by
  cases domain <;> rfl

theorem length_jointValues (domains : List (List Value)) :
    (jointValues domains).length = jointSize domains := by
  induction domains with
  | nil => rfl
  | cons domain rest ih =>
    have hsize : jointSize (domain :: rest) = domain.length * jointSize rest := rfl
    simp only [jointValues_cons, List.length_flatMap, List.length_map]
    rw [ih, List.map_const', List.sum_replicate_nat, hsize]

namespace CostSpace

variable {K : Type}

/-- The space of a table.  The variables and the domains must be of one number, the table of the
size that the domains ask for, and no variable may be named twice; the first of these that does not
hold is the error. -/
def ofTable (name : String) (scope : List String) (domains : List (List Value))
    (table : Array K) : Except ProblemError (CostSpace K) :=
  if scope.length ≠ domains.length then
    .error (.axisCount name scope.length domains.length)
  else if jointSize domains ≠ table.size then
    .error (.tableSize name (jointSize domains) table.size)
  else if scope.Nodup then
    .ok { name, axes := scope.zipWith Axis.mk domains, table }
  else
    .error (.repeatedAxis name)

def tabulate (name : String) (scope : List String) (domains : List (List Value))
    (cost : List Value → K) : Except ProblemError (CostSpace K) :=
  ofTable name scope domains ((jointValues domains).map cost).toArray

def scope (space : CostSpace K) : List String := space.axes.map Axis.name

def involves (space : CostSpace K) (name : String) : Bool := space.scope.contains name

/-- The index of a joint value among those of the axes, counted on from `index`.  There is none when
a variable has no value or one outside its domain; of a value that a domain lists twice the first
place counts. -/
def position? (value? : String → Option Value) : List Axis → Nat → Option Nat
  | [], index => some index
  | axis :: rest, index =>
    match (value? axis.name).bind (axis.domain.idxOf? ·) with
    | none => none
    | some i => position? value? rest (index * axis.domain.length + i)

def lookup? (space : CostSpace K) (value? : String → Option Value) : Option K :=
  (position? value? space.axes 0).bind (space.table[·]?)

/-- The value that two parallel lists give to a name: the one beside its first occurrence. -/
def pairedValue? (names : List String) (values : List Value) (name : String) : Option Value :=
  (names.idxOf? name).bind (values[·]?)

/-- The entry at the values of two parallel lists, which may name other variables too. -/
def utility? (space : CostSpace K) (names : List String) (values : List Value) : Option K :=
  space.lookup? (pairedValue? names values)

def utilityOf? (space : CostSpace K) (assignment : Assignment) : Option K :=
  space.lookup? (assignment[·]?)

variable [CostArithmetic K]

def keepExtreme (largest : Bool) (held : Option K) (entry : K) : Option K :=
  match held with
  | none => some entry
  | some best =>
    if (if largest then lt best entry else lt entry best) then some entry else some best

/-- The largest or the smallest entry of the table.  With `feasibleOnly` the infinite entries are
passed over, and a table without others has no extremum. -/
def extremum (space : CostSpace K) (largest feasibleOnly : Bool) : Option K :=
  (space.table.toList.filter fun u => !feasibleOnly || !isInfinite u).foldl
    (keepExtreme largest) none

/-- An entry moved by `shift` and divided by `divisor`.  An infinite entry is replaced by the
substitute first, and stays as it is if there is none. -/
def rescaleEntry (shift divisor : K) (substitute : Option K) (entry : K) : K :=
  if isInfinite entry then
    match substitute with
    | none => entry
    | some penalty => (penalty - shift) / divisor
  else (entry - shift) / divisor

def rescale (space : CostSpace K) (shift divisor : K) (substitute : Option K) : CostSpace K :=
  { space with table := space.table.map (rescaleEntry shift divisor substitute) }

@[simp] theorem axes_rescale (space : CostSpace K) (shift divisor : K) (substitute : Option K) :
    (space.rescale shift divisor substitute).axes = space.axes := rfl

theorem lookup?_rescale (space : CostSpace K) (shift divisor : K) (substitute : Option K)
    (value? : String → Option Value) :
    (space.rescale shift divisor substitute).lookup? value?
      = (space.lookup? value?).map (rescaleEntry shift divisor substitute) := by
  cases h : position? value? space.axes 0 with
  | none => simp [lookup?, h]
  | some i => simp [lookup?, h, rescale]

end CostSpace

end DcopSearch
