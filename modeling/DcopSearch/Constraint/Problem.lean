import DcopSearch.Constraint.Space
import Std.Data.ExtTreeSet

/-! Problems.  A problem declares variables, each with the agent that owns it, and cost spaces over
declared variables.  It is put together step by step; a step that fails leaves nothing behind, since
it returns no problem. -/

namespace DcopSearch

open CostArithmetic

structure Variable where
  name : String
  owner : String
  domain : List Value
deriving DecidableEq, Repr

/-- Names, in order and each once. -/
abbrev NameSet := Std.ExtTreeSet String

/-- Variables by name, and spaces in the order in which they were added. -/
structure Problem (K : Type) where
  objective : Objective
  declarations : Std.ExtTreeMap String Variable
  spaces : List (CostSpace K)

namespace Problem

variable {K : Type}

def empty (objective : Objective) : Problem K := { objective, declarations := ∅, spaces := [] }

def addVariable (problem : Problem K) (name owner : String) (domain : List Value) :
    Except ProblemError (Problem K) :=
  if domain.isEmpty then .error (.emptyDomain name)
  else if problem.declarations.contains name then .error (.declaredTwice name)
  else .ok { problem with declarations := problem.declarations.insert name { name, owner, domain } }

/-- What is wrong with an axis that does not agree with a declaration. -/
def axisError? (problem : Problem K) (space : String) (axis : Axis) : Option ProblemError :=
  match problem.declarations[axis.name]? with
  | none => some (.unknownVariable axis.name)
  | some declared =>
    if declared.domain = axis.domain then none else some (.foreignDomain space axis.name)

def addSpace (problem : Problem K) (space : CostSpace K) : Except ProblemError (Problem K) :=
  match space.axes.findSome? (problem.axisError? space.name) with
  | some error => .error error
  | none => .ok { problem with spaces := problem.spaces ++ [space] }

def declared? (problem : Problem K) (name : String) : Option Variable := problem.declarations[name]?

def domain? (problem : Problem K) (name : String) : Option (List Value) :=
  (problem.declared? name).map Variable.domain

def owner? (problem : Problem K) (name : String) : Option String :=
  (problem.declared? name).map Variable.owner

/-- Declared domains of a list of names; the first name without one is the error. -/
def domainsOf (problem : Problem K) : List String → Except ProblemError (List (List Value))
  | [] => .ok []
  | name :: rest =>
    match problem.domain? name with
    | none => .error (.unknownVariable name)
    | some domain => (problem.domainsOf rest).map (domain :: ·)

/-- Adds the space that `cost` describes over declared variables. -/
def addFunction (problem : Problem K) (name : String) (scope : List String)
    (cost : List Value → K) : Except ProblemError (Problem K) :=
  match problem.domainsOf scope with
  | .error error => .error error
  | .ok domains =>
    match CostSpace.tabulate name scope domains cost with
    | .error error => .error error
    | .ok space => problem.addSpace space

def addUnary (problem : Problem K) (name x : String) (cost : Value → K) :
    Except ProblemError (Problem K) :=
  problem.addFunction name [x] fun values => cost (values.headD 0)

def addBinary (problem : Problem K) (name x y : String) (cost : Value → Value → K) :
    Except ProblemError (Problem K) :=
  problem.addFunction name [x, y] fun values => cost (values.headD 0) (values.tail.headD 0)

def names (problem : Problem K) : List String := problem.declarations.keys

/-- The owners, in order and each once. -/
def agents (problem : Problem K) : List String :=
  (Std.ExtTreeSet.ofList (problem.declarations.values.map Variable.owner) : NameSet).toList

def variablesOf (problem : Problem K) (agent : String) : List String :=
  (problem.declarations.values.filter (·.owner == agent)).map Variable.name

def neighbours (problem : Problem K) (name : String) : NameSet :=
  .ofList (((problem.spaces.filter (·.involves name)).flatMap CostSpace.scope).filter (· != name))

theorem mem_neighbours {problem : Problem K} {name other : String} :
    other ∈ problem.neighbours name ↔
      other ≠ name ∧ ∃ space ∈ problem.spaces, name ∈ space.scope ∧ other ∈ space.scope := by
  simp only [neighbours, Std.ExtTreeSet.mem_ofList, List.contains_iff_mem, List.mem_filter,
    List.mem_flatMap, CostSpace.involves, bne_iff_ne]
  grind

theorem mem_neighbours_comm {problem : Problem K} {name other : String} :
    other ∈ problem.neighbours name ↔ name ∈ problem.neighbours other := by
  simp only [mem_neighbours]
  grind

/-- The spaces that involve a variable and none of those below it in the tree. -/
def spacesEnforcedBy (problem : Problem K) (name : String) (below : NameSet) :
    List (CostSpace K) :=
  problem.spaces.filter fun space => space.involves name && !space.scope.any below.contains

/-- The total over the spaces at an assignment; there is none unless every space has an entry. -/
def evaluate? [CostArithmetic K] (problem : Problem K) (assignment : Assignment) : Option K :=
  if problem.spaces.all fun space => (space.utilityOf? assignment).isSome then
    some (total (problem.spaces.filterMap (·.utilityOf? assignment)))
  else none

end Problem

end DcopSearch
