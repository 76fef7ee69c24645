import DcopSearch.Constraint.Problem

/-! The place of one variable in a pseudo-tree: the neighbours above and below it.  Tree neighbours
exchange messages; a pseudo-parent and a pseudo-child share a space without being tree neighbours. -/

namespace DcopSearch

/-- The neighbourhood of a variable.  The root of a component has no parent. -/
structure View where
  parent : Option String := none
  children : List String := []
  pseudoParents : List String := []
  pseudoChildren : List String := []
deriving DecidableEq, Repr

namespace View

def isRoot (view : View) : Bool := view.parent.isNone

def isLeaf (view : View) : Bool := view.children.isEmpty

def separator (view : View) : NameSet := .ofList (view.pseudoParents ++ view.parent.toList)

theorem mem_separator {view : View} {name : String} :
    name ∈ view.separator ↔ view.parent = some name ∨ name ∈ view.pseudoParents := by
  simp [separator, or_comm]

def below (view : View) : NameSet := .ofList (view.children ++ view.pseudoChildren)

theorem mem_below {view : View} {name : String} :
    name ∈ view.below ↔ name ∈ view.children ∨ name ∈ view.pseudoChildren := by
  simp [below]

end View

end DcopSearch
