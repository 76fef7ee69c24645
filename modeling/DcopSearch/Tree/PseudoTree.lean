import DcopSearch.Text.Quoted
import DcopSearch.Tree.DepthFirst
import DcopSearch.Tree.View

/-! Pseudo-trees.  A pseudo-tree is given by the views of its variables, either as they are stated
from outside, provided that the children agree, or as a depth-first search of the constraint graph
finds them. -/

namespace DcopSearch

inductive TreeError where
  | unknownVariable (name : String)
  /-- A child names another parent than the variable that lists it, or none. -/
  | foreignParent (name child : String) (parent : Option String)
deriving DecidableEq, Repr

def TreeError.message : TreeError → String
  | unknownVariable name => "Unknown variable: " ++ name
  | foreignParent name child parent =>
    "Invalid problem: " ++ name ++ " lists " ++ child ++ " as a child but its parent is "
      ++ Text.quoteOption parent

structure PseudoTree where
  views : Std.ExtTreeMap String View

/-- The part of the links that concerns one variable. -/
def View.ofLinks (links : List Link) (name : String) : View where
  parent := links.findSome? fun
    | .tree parent child => if child = name then some parent else none
    | _ => none
  children := links.filterMap fun
    | .tree parent child => if parent = name then some child else none
    | _ => none
  pseudoParents := links.filterMap fun
    | .back descendant ancestor => if descendant = name then some ancestor else none
    | _ => none
  pseudoChildren := links.filterMap fun
    | .back descendant ancestor => if ancestor = name then some descendant else none
    | _ => none

namespace PseudoTree

def childError? (views : Std.ExtTreeMap String View) (name child : String) : Option TreeError :=
  match views[child]? with
  | none => some (.unknownVariable child)
  | some view =>
    if view.parent = some name then none else some (.foreignParent name child view.parent)

/-- The first error among the listed children, by name of the variable and then in the order of its
list. -/
def error? (views : Std.ExtTreeMap String View) : Option TreeError :=
  views.toList.findSome? fun entry => entry.2.children.findSome? (childError? views entry.1)

/-- The tree of views each of whose listed children is there and names the lister as its parent. -/
def ofViews (views : Std.ExtTreeMap String View) : Except TreeError PseudoTree :=
  match error? views with
  | some error => .error error
  | none => .ok { views }

/-- The depth-first tree of the constraint graph.  Roots are taken and neighbours explored in the
order of their names. -/
def generate {K : Type} (problem : Problem K) : PseudoTree :=
  let links := Search.explore (fun name => (problem.neighbours name).toList) problem.names
  { views := .ofList (problem.names.map fun name => (name, View.ofLinks links name)) }

def view? (tree : PseudoTree) (name : String) : Option View := tree.views[name]?

def roots (tree : PseudoTree) : List String :=
  (tree.views.toList.filter (·.2.isRoot)).map (·.1)

/-- A variable and those below it within `depth` links, the last child's part first. -/
def descend (tree : PseudoTree) : Nat → String → List String
  | 0, name => [name]
  | depth + 1, name =>
    name :: (((tree.view? name).elim [] View.children).reverse.flatMap (tree.descend depth))

/-- The variables of each component, from its root on.  A chain of child links from a root meets no
variable twice, so it is no longer than there are views. -/
def components (tree : PseudoTree) : List (List String) :=
  tree.roots.map (tree.descend tree.views.size)

end PseudoTree

end DcopSearch
