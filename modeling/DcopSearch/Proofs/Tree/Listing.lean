import DcopSearch.Proofs.Tree.DepthFirst
import DcopSearch.Proofs.Tree.Linked

/-! The components of views that are stated from outside.  A loop lists each of them, from its root on,
and does not look whether it has listed a variable before.  Accepted views may go round in circles, and
a child may be listed repeatedly.  But each child names the one variable that lists it and a root names
none, so no chain of links from a root comes upon a circle, and the loop ends. -/

namespace DcopSearch

namespace PseudoTree

/-- The variables that the loop has still to list, the next one first, and those that it has listed. -/
structure Listing where
  stack : List String
  listed : List String := []
deriving DecidableEq, Repr

/-- One turn of the loop: the next variable is listed, and its children take its place, the last one
first.  When no variable is left the loop is over. -/
def turn (tree : PseudoTree) (listing : Listing) : Option Listing :=
  match listing.stack with
  | [] => none
  | name :: rest =>
    some { stack := (tree.view name).children.reverse ++ rest, listed := listing.listed ++ [name] }

/-- A number of turns, if the loop is not over before. -/
def turns (tree : PseudoTree) : Nat → Listing → Option Listing
  | 0, listing => some listing
  | count + 1, listing => (tree.turn listing).bind (tree.turns count)

variable {tree : PseudoTree} {views : Std.ExtTreeMap String View} {name root other : String}

/-- The loop lists one variable in each turn, and ends with all that its stack gives. -/
theorem Walks.turns {stack listed : List String} (h : tree.Walks stack listed)
    (before : List String) :
    tree.turns listed.length ⟨stack, before⟩ = some ⟨[], before ++ listed⟩ := by
  induction h generalizing before with
  | done => simp [PseudoTree.turns]
  | @take name stack listed _ ih =>
    show tree.turns listed.length ⟨(tree.view name).children.reverse ++ stack, before ++ [name]⟩ = _
    rw [ih, List.append_assoc]
    rfl

/-- In accepted views a child names the variable that lists it. -/
theorem parent_of_ofViews (h : ofViews views = .ok tree) {child : String}
    (hc : child ∈ (tree.view name).children) : (tree.view child).parent = some name := by
  obtain ⟨rfl, hagree⟩ := ofViews_eq_ok_iff.mp h
  cases hview : tree.view? name with
  | none =>
    rw [view, hview] at hc
    cases hc
  | some above =>
    rw [view, hview] at hc
    obtain ⟨below, hbelow, hparent⟩ := hagree name above hview child hc
    rw [view, view?, hbelow]
    exact hparent

theorem mem_keys_of_child {child : String} (hc : child ∈ (tree.view name).children) :
    name ∈ tree.views.keys := by
  rw [Std.ExtTreeMap.mem_keys, ← Std.ExtTreeMap.isSome_getElem?_iff_mem, Option.isSome_iff_ne_none]
  intro hnone
  rw [view, view?, hnone] at hc
  cases hc

section Answered

variable (answered : ∀ name, ∀ child ∈ (tree.view name).children,
  (tree.view child).parent = some name)
include answered

/-- No variable that a root leads to is above itself. -/
theorem not_above_of_leads (hroot : (tree.view root).parent = none) (h : tree.Leads root name) :
    ¬tree.Above name name := by
  induction h with
  | refl => exact not_above_root hroot
  | @tail name child _ hc ih =>
    intro ha
    have hlink := answered name child hc
    -- a circle through the child goes through its parent too
    rcases above_parent hlink ha with rfl | ha
    · exact ih ha
    · exact ih (.head hlink ha)

/-- Two roots lead to no common variable. -/
theorem eq_of_leads (hroot : (tree.view root).parent = none)
    (hother : (tree.view other).parent = none) (h : tree.Leads root name)
    (h' : tree.Leads other name) : root = other := by
  have hnone : ∀ {root name : String}, (tree.view root).parent = none →
      root ∉ (tree.view name).children := by
    intro root name hp hc
    rw [answered name root hc] at hp
    cases hp
  induction h with
  | refl =>
    rcases Relation.ReflTransGen.cases_tail h' with he | ⟨last, -, hc⟩
    · exact he
    · exact absurd hc (hnone hroot)
  | @tail name child _ hc ih =>
    rcases Relation.ReflTransGen.cases_tail h' with rfl | ⟨last, hlast, hc'⟩
    · exact absurd hc (hnone hother)
    · have hsame := (answered name child hc).symm.trans (answered last child hc')
      obtain rfl := Option.some.inj hsame
      exact ih hlast

theorem graded_of_answered (hroot : (tree.view root).parent = none) :
    tree.Graded (tree.level tree.views.keys) tree.views.size root := by
  refine graded_level (Nat.le_of_eq Std.ExtTreeMap.length_keys) fun other ho child hc => ?_
  exact ⟨mem_keys_of_child hc, not_above_of_leads answered hroot ho,
    .single (answered other child hc)⟩

end Answered

/-- How the components are listed. -/
structure Lists (tree : PseudoTree) : Prop where
  roots : ∀ root, root ∈ tree.roots ↔ (tree.view? root).isSome ∧ (tree.view root).parent = none
  rootsOnce : tree.roots.Nodup
  /-- The loop that starts from a root ends, with the variables that the root leads to. -/
  components : List.Forall₂ (fun root component =>
    tree.turns component.length { stack := [root] } = some { stack := [], listed := component } ∧
      ∀ name, name ∈ component ↔ tree.Leads root name) tree.roots tree.components
  /-- No variable is listed in two components. -/
  apart : tree.components.Pairwise List.Disjoint
  /-- What lies on a circle of parents is not listed. -/
  circles : ∀ name, tree.Above name name → ∀ component ∈ tree.components, name ∉ component

/-- The loop ends in all accepted views, whether or not they go round in circles or list a child
repeatedly. -/
theorem lists_components (h : ofViews views = .ok tree) : tree.Lists := by
  have answered : ∀ name, ∀ child ∈ (tree.view name).children,
      (tree.view child).parent = some name := fun name child hc => parent_of_ofViews h hc
  have hroot : ∀ root ∈ tree.roots, (tree.view root).parent = none :=
    fun root hr => (mem_roots.mp hr).2
  have hleads : ∀ root ∈ tree.roots, ∀ name,
      name ∈ tree.descend tree.views.size root ↔ tree.Leads root name :=
    fun root hr name => (graded_of_answered answered (hroot root hr)).mem_descend
  refine ⟨fun _ => mem_roots, tree.sorted_roots.imp ne_of_lt, ?_, ?_, ?_⟩
  · rw [components, List.forall₂_map_right_iff, List.forall₂_same]
    intro root hr
    have hwalks := (graded_of_answered answered (hroot root hr)).walks_descend .done
    rw [List.append_nil] at hwalks
    exact ⟨hwalks.turns [], hleads root hr⟩
  · rw [components, List.pairwise_map]
    refine tree.sorted_roots.imp_of_mem fun {root other} hr ho hlt => ?_
    intro name hm hm'
    have he := eq_of_leads answered (hroot root hr) (hroot other ho) ((hleads root hr name).mp hm)
      ((hleads other ho name).mp hm')
    exact hlt.ne he
  · intro name ha component hc hm
    obtain ⟨root, hr, rfl⟩ := List.mem_map.mp hc
    exact not_above_of_leads answered (hroot root hr) ((hleads root hr name).mp hm) ha

/-- A root that lists its child twice, a circle, and a variable that its parent does not list. -/
def circling : List (String × View) :=
  [("p", { children := ["q", "q"] }), ("q", { parent := some "p", children := ["r"] }),
    ("r", { parent := some "q" }), ("s", { parent := some "p" }),
    ("x", { parent := some "y", children := ["y"] }), ("y", { parent := some "x", children := ["x"] })]

/-- The child is listed twice with all that is below it, and the circle not at all. -/
theorem lists_circling : ∃ tree, ofViews (.ofList circling) = .ok tree ∧ tree.Lists ∧
    tree.roots = ["p"] ∧ tree.components = [["p", "q", "r", "q", "r"]] := by
  have hnone : error? (.ofList circling) = none := by decide +kernel
  have haccepted : ofViews (.ofList circling) = .ok ⟨.ofList circling⟩ := by rw [ofViews, hnone]
  exact ⟨_, haccepted, lists_components haccepted, by decide +kernel, by decide +kernel⟩

end PseudoTree

end DcopSearch
