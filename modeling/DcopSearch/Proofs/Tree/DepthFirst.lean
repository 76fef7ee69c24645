import DcopSearch.Proofs.Cost.Exact
import DcopSearch.Proofs.Tree.Descend
import DcopSearch.Proofs.Tree.Recorded
import Mathlib.Data.List.Sort

/-! What is generated for a problem is a depth-first tree of its constraint graph.  The search that
finds it comes to an end, neighbours are one above the other and listed once, and the roots are the
least variables of the components. -/

namespace DcopSearch

/-- The keys of a map come in their order. -/
theorem sorted_keys {A : Type} (entries : Std.ExtTreeMap String A) :
    entries.keys.Pairwise (· < ·) :=
  Std.ExtTreeMap.ordered_keys.imp compare_lt_iff_lt.mp

namespace View

variable {links : List Link} (once : (Link.ends links).Nodup) (name : String)
include once

/-- Nothing is listed twice among what is above a variable. -/
theorem nodup_above_ofLinks (hn : (Link.found links).Nodup) :
    ((ofLinks links name).parent.toList ++ (ofLinks links name).pseudoParents).Nodup := by
  refine List.nodup_append.mpr ⟨by cases (ofLinks links name).parent <;> simp, ?_, ?_⟩
  · refine Link.nodup_of_determines once (·, name) fun link x hx => ?_
    cases link <;> simp_all [Link.ends?]
  · intro x hx y hy he
    have htree := (parent_ofLinks hn).mp (Option.mem_toList.mp hx)
    have hback := mem_pseudoParents_ofLinks.mp (he ▸ hy)
    cases Link.eq_of_nodup once htree hback rfl rfl

/-- Nothing is listed twice among what is below a variable. -/
theorem nodup_below_ofLinks :
    ((ofLinks links name).children ++ (ofLinks links name).pseudoChildren).Nodup := by
  refine List.nodup_append.mpr ⟨?_, ?_, ?_⟩
  · refine Link.nodup_of_determines once (name, ·) fun link x hx => ?_
    cases link <;> simp_all [Link.ends?]
  · refine Link.nodup_of_determines once (name, ·) fun link x hx => ?_
    cases link <;> simp_all [Link.ends?]
  · intro x hx y hy he
    have htree := mem_children_ofLinks.mp hx
    have hback := mem_pseudoChildren_ofLinks.mp (he ▸ hy)
    cases Link.eq_of_nodup once htree hback rfl rfl

end View

namespace PseudoTree

variable {K : Type} {problem : Problem K} {tree : PseudoTree} {name other root : String}

/-- A depth-first tree of the constraint graph of a problem. -/
structure DepthFirst (tree : PseudoTree) (problem : Problem K) : Prop where
  /-- There is one view for each variable. -/
  views : tree.views.keys = problem.names
  agree : ∀ parent child,
    child ∈ (tree.view parent).children ↔ (tree.view child).parent = some parent
  pseudoAgree : ∀ upper lower,
    lower ∈ (tree.view upper).pseudoChildren ↔ upper ∈ (tree.view lower).pseudoParents
  acyclic : ∀ name, ¬tree.Above name name
  /-- Two variables of one space are one above the other. -/
  comparable : ∀ space ∈ problem.spaces, ∀ first ∈ space.scope, ∀ second ∈ space.scope,
    first ≠ second → tree.Above first second ∨ tree.Above second first
  /-- Those of one space, and no others, are listed by each other. -/
  listed : ∀ upper lower,
    lower ∈ (tree.view upper).children ∨ lower ∈ (tree.view upper).pseudoChildren
      ↔ tree.Above upper lower ∧ ∃ space ∈ problem.spaces, upper ∈ space.scope ∧ lower ∈ space.scope
  aboveOnce : ∀ name, ((tree.view name).parent.toList ++ (tree.view name).pseudoParents).Nodup
  belowOnce : ∀ name, ((tree.view name).children ++ (tree.view name).pseudoChildren).Nodup
  rootsOnce : tree.roots.Nodup
  /-- The roots are the least variables of the components. -/
  roots : ∀ root, root ∈ tree.roots
    ↔ root ∈ problem.names ∧ ∀ other, problem.Connected root other → root ≤ other
  /-- What is listed from a root on are the variables of its component, each once. -/
  components : List.Forall₂ (fun root component => tree.Walks [root] component ∧ component.Nodup ∧
    ∀ other, other ∈ component ↔ problem.Connected root other) tree.roots tree.components
  /-- Each variable is in one component. -/
  covers : tree.components.flatten.Perm problem.names

theorem mem_roots : root ∈ tree.roots
    ↔ (tree.view? root).isSome ∧ (tree.view root).parent = none := by
  rw [roots, List.mem_map]
  constructor
  · rintro ⟨⟨name, view⟩, hm, rfl⟩
    obtain ⟨hm, hroot⟩ := List.mem_filter.mp hm
    have hview : tree.view? name = some view := Std.ExtTreeMap.mem_toList_iff_getElem?_eq_some.mp hm
    refine ⟨by simp [hview], ?_⟩
    rw [PseudoTree.view, hview]
    exact Option.isNone_iff_eq_none.mp hroot
  · rintro ⟨hsome, hroot⟩
    obtain ⟨view, hview⟩ := Option.isSome_iff_exists.mp hsome
    rw [PseudoTree.view, hview] at hroot
    exact ⟨(root, view), List.mem_filter.mpr
      ⟨Std.ExtTreeMap.mem_toList_iff_getElem?_eq_some.mpr hview,
        Option.isNone_iff_eq_none.mpr hroot⟩, rfl⟩

theorem Spans.mem_roots (spans : tree.Spans problem) :
    root ∈ tree.roots ↔ root ∈ problem.names ∧ (tree.view root).parent = none := by
  rw [PseudoTree.mem_roots, spans.views]

/-- The roots come in their order. -/
theorem sorted_roots (tree : PseudoTree) : tree.roots.Pairwise (· < ·) := by
  have hkeys := sorted_keys tree.views
  rw [← Std.ExtTreeMap.map_fst_toList_eq_keys] at hkeys
  exact hkeys.sublist (List.filter_sublist.map _)

theorem Spans.keys_eq (spans : tree.Spans problem) : tree.views.keys = problem.names := by
  refine (sorted_keys tree.views).eq_of_mem_iff (sorted_keys problem.declarations) fun name => ?_
  rw [Std.ExtTreeMap.mem_keys, ← Std.ExtTreeMap.isSome_getElem?_iff_mem]
  exact (spans.views name).symm

/-- What lies below a root is connected with it, and with no other root. -/
theorem Spans.nodup_components (spans : tree.Spans problem) : tree.components.flatten.Nodup := by
  rw [components, List.nodup_flatten, List.pairwise_map]
  refine ⟨fun component hc => ?_, tree.sorted_roots.imp_of_mem fun hf hs hlt other hm hm' => ?_⟩
  · obtain ⟨root, -, rfl⟩ := List.mem_map.mp hc
    exact spans.nodup_descend _ root
  · have hfirst := (spans.mem_roots.mp hf).2
    have hsecond := (spans.mem_roots.mp hs).2
    rcases spans.of_mem_descend hm with rfl | ha <;>
      rcases spans.of_mem_descend hm' with he | hb
    · exact absurd he hlt.ne
    · exact not_above_root hfirst hb
    · exact not_above_root hsecond (he ▸ ha)
    · rcases spans.above_total ha hb with he | hab | hba
      · exact absurd he hlt.ne
      · exact not_above_root hsecond hab
      · exact not_above_root hfirst hba

section Generated

variable (wf : problem.WellFormed)
include wf

theorem nodup_found : (Link.found (links problem)).Nodup :=
  (explored_links wf).found.nodup_iff.mpr problem.nodup_names

omit wf in
theorem nodup_neighbours (name : String) : (problem.neighbours name).toList.Nodup :=
  Std.ExtTreeSet.distinct_toList.imp fun hne he => hne (by simp [he])

theorem recorded_links : Search.Recorded (links problem) :=
  Search.recorded (graph_neighbours wf) nodup_neighbours (sorted_keys problem.declarations)

/-- Above by links is found earlier. -/
theorem idxOf_lt_of_above (h : (generate problem).Above name other) :
    (Link.found (links problem)).idxOf name < (Link.found (links problem)).idxOf other := by
  induction h with
  | single hp => exact idxOf_lt_of_tree wf ((parent_generate wf).mp hp)
  | tail _ hp ih => exact ih.trans (idxOf_lt_of_tree wf ((parent_generate wf).mp hp))

/-- A root comes before all that is below it. -/
theorem root_lt_of_above (hr : root ∈ problem.names)
    (hp : ((generate problem).view root).parent = none)
    (h : (generate problem).Above root other) : root < other := by
  have spans := spans_generate wf
  have hex := explored_links wf
  obtain ⟨link, hl, hfound⟩ := List.mem_filterMap.mp (hex.found.mem_iff.mpr hr)
  have hlink : link = .root root := by
    cases link with
    | root name => exact congrArg Link.root (Option.some.inj hfound)
    | tree parent child =>
      obtain rfl : child = root := Option.some.inj hfound
      rw [(parent_generate wf).mpr hl] at hp
      cases hp
    | back descendant ancestor => cases hfound
  subst hlink
  obtain ⟨before, after, hsplit⟩ := List.append_of_mem hl
  have hfound : Link.found (links problem) = Link.found before ++ (root :: Link.found after) := by
    rw [hsplit, Link.found_append]
    rfl
  have hfresh : root ∉ Link.found before := by
    intro hm
    have hn := nodup_found wf
    rw [hfound] at hn
    exact (List.nodup_append.mp hn).2.2 root hm root List.mem_cons_self rfl
  -- what is below the root is found later than it
  have hlt := idxOf_lt_of_above wf h
  have hm : other ∈ Link.found before ++ (root :: Link.found after) :=
    hfound ▸ hex.found.mem_iff.mpr (spans.mem_names_of_above h).2
  rw [hfound, List.idxOf_append_of_notMem hfresh, List.idxOf_cons_self] at hlt
  refine (recorded_links wf).roots before after root hsplit other ?_
  rcases List.mem_append.mp hm with hm | hm
  · rw [List.idxOf_append_of_mem hm] at hlt
    have := List.idxOf_lt_length_of_mem hm
    omega
  · rcases List.mem_cons.mp hm with rfl | hm
    · exact absurd h (spans.above_irrefl other)
    · exact hm

/-- The roots are the least variables of the components. -/
theorem mem_roots_generate : root ∈ (generate problem).roots
    ↔ root ∈ problem.names ∧ ∀ other, problem.Connected root other → root ≤ other := by
  have spans := spans_generate wf
  have traces := traces_generate wf
  rw [spans.mem_roots]
  refine and_congr_right fun hr => ⟨fun hp other hc => ?_, fun hleast => ?_⟩
  · rcases (traces.connected_root spans hp).mp hc with rfl | ha
    · exact le_rfl
    · exact (root_lt_of_above wf hr hp ha).le
  · obtain ⟨first, hf, hp, rfl | ha⟩ := spans.exists_root hr
    · exact hp
    · have hlt := root_lt_of_above wf hf hp ha
      have hle := hleast first (traces.connected_of_above spans ha).symm
      exact absurd hlt hle.not_gt

theorem views_once (name : String) :
    (((generate problem).view name).parent.toList
        ++ ((generate problem).view name).pseudoParents).Nodup ∧
      (((generate problem).view name).children
        ++ ((generate problem).view name).pseudoChildren).Nodup := by
  by_cases hn : name ∈ problem.names
  · rw [view_generate hn]
    exact ⟨View.nodup_above_ofLinks (recorded_links wf).once name (nodup_found wf),
      View.nodup_below_ofLinks (recorded_links wf).once name⟩
  · rw [view_generate_of_not_mem hn]
    exact ⟨List.nodup_nil, List.nodup_nil⟩

theorem depthFirst_generate : (generate problem).DepthFirst problem := by
  have spans := spans_generate wf
  have traces := traces_generate wf
  have hdepth : problem.names.length ≤ (generate problem).views.size := by
    rw [← Std.ExtTreeMap.length_keys, spans.keys_eq]
  have hcomponent : ∀ root ∈ (generate problem).roots, ∀ other,
      other ∈ (generate problem).descend (generate problem).views.size root
        ↔ problem.Connected root other := by
    intro root hr other
    rw [spans.mem_descend hdepth, traces.connected_root spans (spans.mem_roots.mp hr).2]
  exact {
    views := spans.keys_eq
    agree := spans.child_iff
    pseudoAgree := fun upper lower => by
      rw [mem_pseudoChildren_generate wf, mem_pseudoParents_generate wf]
    acyclic := spans.above_irrefl
    comparable := fun space hs first hf second hm hne =>
      traces.comparable second first (Problem.mem_neighbours.mpr ⟨hne, space, hs, hm, hf⟩)
    listed := fun upper lower => by
      rw [← View.mem_below, traces.below, Problem.mem_neighbours]
      refine and_congr_right fun ha => and_iff_right ?_
      rintro rfl
      exact spans.above_irrefl _ ha
    aboveOnce := fun name => (views_once wf name).1
    belowOnce := fun name => (views_once wf name).2
    rootsOnce := (generate problem).sorted_roots.imp ne_of_lt
    roots := fun _ => mem_roots_generate wf
    components := by
      rw [components, List.forall₂_map_right_iff, List.forall₂_same]
      exact fun root hr => ⟨spans.walks_component hdepth root, spans.nodup_descend _ root,
        hcomponent root hr⟩
    covers := by
      refine (List.perm_ext_iff_of_nodup spans.nodup_components problem.nodup_names).mpr
        fun name => ?_
      rw [components, List.mem_flatten]
      constructor
      · rintro ⟨component, hc, hm⟩
        obtain ⟨root, hr, rfl⟩ := List.mem_map.mp hc
        rcases spans.of_mem_descend hm with rfl | ha
        · exact (spans.mem_roots.mp hr).1
        · exact (spans.mem_names_of_above ha).2
      · intro hn
        obtain ⟨root, hr, hp, hbelow⟩ := spans.exists_root hn
        exact ⟨_, List.mem_map_of_mem (spans.mem_roots.mpr ⟨hr, hp⟩),
          (spans.mem_descend hdepth).mpr hbelow⟩ }

end Generated

/-- For every problem the search for a tree comes to an end, after no more steps than the variables
and their neighbours can cause, and the views that are read off its links make up a depth-first
tree. -/
theorem depthFirst_of_built (built : problem.Built) :
    (∃ n last, n ≤ (problem.names.map fun name => 2 + (problem.neighbours name).toList.length).sum ∧
      Search.Takes (fun name => (problem.neighbours name).toList) n { unvisited := problem.names }
        last ∧
      last.step (fun name => (problem.neighbours name).toList) = none ∧
      ∀ name ∈ problem.names,
        (generate problem).view? name = some (View.ofLinks last.links name)) ∧
    (generate problem).DepthFirst problem := by
  obtain ⟨n, hle, htakes⟩ := Search.takes_finish
    (fun name => (problem.neighbours name).toList) { unvisited := problem.names }
  refine ⟨⟨n, _, hle, htakes, Search.step_finish _, fun name hn => ?_⟩,
    depthFirst_generate built.wellFormed⟩
  rw [view?_generate, if_pos hn]
  rfl

end PseudoTree

section Braided

open Exact

/-- Three variables share a space, a fourth one shares a space with one of them, and a fifth one
none; one space has no variables. -/
def Problem.braided : Problem (Exact ℚ) where
  objective := .minimize
  declarations := (((((∅ : Std.ExtTreeMap String Variable).insert "a" ⟨"a", "x", [0, 1]⟩).insert
    "b" ⟨"b", "x", [0, 1]⟩).insert "c" ⟨"c", "y", [0]⟩).insert "d" ⟨"d", "y", [0, 1]⟩).insert
    "e" ⟨"e", "z", [0, 1]⟩
  spaces := [
    ⟨"dac", [⟨"d", [0, 1]⟩, ⟨"a", [0, 1]⟩, ⟨"c", [0]⟩],
      #[number 1, number 2, number 4, number 8]⟩,
    ⟨"none", [], #[number 16]⟩,
    ⟨"ce", [⟨"c", [0]⟩, ⟨"e", [0, 1]⟩], #[number 32, number 64]⟩]

theorem Problem.built_braided : Problem.braided.Built := by
  have hempty : Problem.Built (.empty .minimize : Problem (Exact ℚ)) := .empty .minimize
  have ha := hempty.declare "a" "x" [0, 1] rfl (by decide +kernel)
  have hb := ha.declare "b" "x" [0, 1] rfl (by decide +kernel)
  have hc := hb.declare "c" "y" [0] rfl (by decide +kernel)
  have hd := hc.declare "d" "y" [0, 1] rfl (by decide +kernel)
  have he := hd.declare "e" "z" [0, 1] rfl (by decide +kernel)
  exact ((he.enforce (by decide) rfl (by decide +kernel)).enforce (by decide) rfl
    (by decide +kernel)).enforce (by decide) rfl (by decide +kernel)

/-- The least variable of the triangle is the root, and the one that is entered last has the root as
a pseudo-parent. -/
theorem PseudoTree.depthFirst_braided : (generate .braided).DepthFirst .braided ∧
    (generate .braided).components = [["a", "c", "e", "d"], ["b"]] ∧
    (generate .braided).view "d" = { parent := some "c", pseudoParents := ["a"] } :=
  ⟨(depthFirst_of_built Problem.built_braided).2, by decide +kernel, by decide +kernel⟩

end Braided

end DcopSearch
