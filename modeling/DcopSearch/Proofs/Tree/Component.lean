import DcopSearch.Proofs.Tree.Neighbours
import Mathlib.Data.Finset.Max

/-! Components of the constraint graph.  Over a tree that follows the graph a component is a root
with all that is below it, and a space is enforced by the lowest variable of its scope. -/

namespace DcopSearch

variable {K : Type}

/-- What is filtered key by key is what some key lets through, if no two let through the same. -/
theorem flatMap_filter_perm {α : Type} {p : String → α → Bool} {entries : List α}
    {keys : List String}
    (h : keys.Pairwise fun x y => ∀ entry ∈ entries, p x entry = true → p y entry = false) :
    (keys.flatMap fun key => entries.filter (p key)).Perm
      (entries.filter fun entry => keys.any (p · entry)) := by
  induction keys with
  | nil => simp
  | cons key rest ih =>
    obtain ⟨hkey, hrest⟩ := List.pairwise_cons.mp h
    have hown : entries.filter (p key)
        = (entries.filter fun entry => (key :: rest).any (p · entry)).filter (p key) := by
      rw [List.filter_filter]
      exact List.filter_congr fun entry _ => by cases hp : p key entry <;> simp [hp]
    have hothers : (entries.filter fun entry => rest.any (p · entry))
        = (entries.filter fun entry => (key :: rest).any (p · entry)).filter (!p key ·) := by
      rw [List.filter_filter]
      refine List.filter_congr fun entry he => ?_
      cases hp : p key entry with
      | false => simp [hp]
      | true => simpa [hp] using fun other ho => hkey other ho entry he hp
    rw [List.flatMap_cons]
    refine ((ih hrest).append_left _).trans ?_
    rw [hown, hothers]
    exact List.filter_append_perm _ _

namespace Problem

/-- The variables are joined by a chain of spaces. -/
def Connected (problem : Problem K) : String → String → Prop :=
  Relation.ReflTransGen fun x y => y ∈ problem.neighbours x

theorem Connected.symm {problem : Problem K} {x y : String} (h : problem.Connected x y) :
    problem.Connected y x := by
  induction h with
  | refl => exact .refl
  | tail _ hy ih => exact .head (Problem.mem_neighbours_comm.mp hy) ih

open Classical in
/-- The variables that are connected with a variable. -/
noncomputable def component (problem : Problem K) (name : String) : Finset String :=
  problem.names.toFinset.filter (problem.Connected name)

/-- The spaces over at least one of the variables. -/
def spacesOver (problem : Problem K) (names : Finset String) : List (CostSpace K) :=
  problem.spaces.filter fun space => space.scope.any fun other => decide (other ∈ names)

variable {problem : Problem K} {name other : String}

theorem mem_component : other ∈ problem.component name
    ↔ other ∈ problem.names ∧ problem.Connected name other := by
  simp [component]

theorem component_eq_of_mem (h : other ∈ problem.component name) :
    problem.component other = problem.component name := by
  have hc := (mem_component.mp h).2
  ext x
  rw [mem_component, mem_component]
  exact and_congr_right fun _ => ⟨hc.trans, hc.symm.trans⟩

end Problem

namespace PseudoTree

variable {problem : Problem K} {tree : PseudoTree} {name other : String} {space : CostSpace K}

/-- Of two variables above a third one, one is above the other. -/
theorem Spans.above_total (spans : tree.Spans problem) {x y z : String} (hx : tree.Above x z)
    (hy : tree.Above y z) : x = y ∨ tree.Above x y ∨ tree.Above y x := by
  revert hx hy
  induction z using spans.induction_down with
  | step z ih =>
    intro hx hy
    cases hp : (tree.view z).parent with
    | none => exact absurd hx (not_above_root hp)
    | some parent =>
      rcases above_parent hp hx with rfl | hx <;> rcases above_parent hp hy with rfl | hy
      · exact .inl rfl
      · exact .inr (.inr hy)
      · exact .inr (.inl hx)
      · exact ih parent hp hx hy

/-- Every variable is a root or below one. -/
theorem Spans.exists_root (spans : tree.Spans problem) (hn : name ∈ problem.names) :
    ∃ root ∈ problem.names, (tree.view root).parent = none ∧
      (name = root ∨ tree.Above root name) := by
  revert hn
  induction name using spans.induction_down with
  | step name ih =>
    intro hn
    cases hp : (tree.view name).parent with
    | none => exact ⟨name, hn, hp, .inl rfl⟩
    | some parent =>
      obtain ⟨root, hr, hnone, he⟩ := ih parent hp (spans.mem_names_of_parent hp).1
      refine ⟨root, hr, hnone, .inr ?_⟩
      rcases he with rfl | ha
      · exact .single hp
      · exact ha.tail hp

variable (spans : tree.Spans problem) (traces : tree.Traces problem)
include spans traces

/-- What is below a variable is connected with it. -/
theorem Traces.connected_of_above (h : tree.Above name other) : problem.Connected name other := by
  refine (Relation.TransGen.mono (fun x y hxy => ?_) _ _ h).to_reflTransGen
  exact ((traces.below x y).mp (View.mem_below.mpr (.inl ((spans.child_iff x y).mpr hxy)))).2

/-- What is connected with a root is below it. -/
theorem Traces.connected_root (hp : (tree.view name).parent = none) :
    problem.Connected name other ↔ other = name ∨ tree.Above name other := by
  refine ⟨fun h => ?_, ?_⟩
  · -- a neighbour of a variable of the tree is above or below it, and the root has none above
    induction h with
    | refl => exact .inl rfl
    | @tail x y _ hy ih =>
      rcases ih with rfl | ih
      · rcases traces.comparable x y hy with ha | ha
        · exact absurd ha (not_above_root hp)
        · exact .inr ha
      · rcases traces.comparable x y hy with ha | ha
        · rcases spans.above_total ih ha with rfl | hb | hb
          · exact .inl rfl
          · exact .inr hb
          · exact absurd hb (not_above_root hp)
        · exact .inr (ih.trans ha)
  · rintro (rfl | ha)
    · exact .refl
    · exact traces.connected_of_above spans ha

/-- A space is enforced by the lowest variable of its scope. -/
theorem Traces.mem_enforced_iff : space ∈ problem.spacesEnforcedBy name (tree.view name).below
    ↔ space ∈ problem.spaces ∧ name ∈ space.scope ∧
      ∀ other ∈ space.scope, other = name ∨ tree.Above other name := by
  rw [Problem.spacesEnforcedBy, List.mem_filter]
  simp only [CostSpace.involves, Bool.and_eq_true, List.contains_iff_mem, Bool.not_eq_true',
    List.any_eq_false, Std.ExtTreeSet.contains_iff_mem]
  refine and_congr_right fun hs => and_congr_right fun hn => forall₂_congr fun other ho => ?_
  rw [traces.below]
  by_cases he : other = name
  · subst he
    exact iff_of_true (fun h => spans.above_irrefl other h.1) (.inl rfl)
  · have hm : other ∈ problem.neighbours name := Problem.mem_neighbours.mpr ⟨he, space, hs, hn, ho⟩
    have hasymm : tree.Above other name → ¬tree.Above name other :=
      fun ha hb => spans.above_irrefl name (hb.trans ha)
    have := traces.comparable name other hm
    tauto

/-- A space is enforced by one variable. -/
theorem Traces.enforced_unique (hn : space ∈ problem.spacesEnforcedBy name (tree.view name).below)
    (ho : space ∈ problem.spacesEnforcedBy other (tree.view other).below) : name = other := by
  obtain ⟨-, hname, habove⟩ := (traces.mem_enforced_iff spans).mp hn
  obtain ⟨-, hother, habove'⟩ := (traces.mem_enforced_iff spans).mp ho
  rcases habove other hother with rfl | ha
  · rfl
  rcases habove' name hname with rfl | hb
  · rfl
  · exact absurd (ha.trans hb) (spans.above_irrefl other)

/-- A space over some variable is enforced by one of its variables. -/
theorem Traces.exists_enforcer (hs : space ∈ problem.spaces) (hne : space.scope ≠ []) :
    ∃ name ∈ space.scope, space ∈ problem.spacesEnforcedBy name (tree.view name).below := by
  obtain ⟨rank, hrank⟩ := spans.rank
  have habove : ∀ x y, tree.Above x y → rank x < rank y := by
    intro x y hxy
    induction hxy with
    | single hp => exact hrank _ _ hp
    | tail _ hp ih => exact ih.trans (hrank _ _ hp)
  obtain ⟨lowest, hm, hmax⟩ := space.scope.toFinset.exists_max_image rank
    (List.toFinset_nonempty_iff _ |>.mpr hne)
  have hm := List.mem_toFinset.mp hm
  refine ⟨lowest, hm, (traces.mem_enforced_iff spans).mpr ⟨hs, hm, fun other ho => ?_⟩⟩
  by_cases he : other = lowest
  · exact .inl he
  · refine .inr ((traces.comparable lowest other
      (Problem.mem_neighbours.mpr ⟨he, space, hs, hm, ho⟩)).resolve_right ?_)
    exact fun ha => absurd (habove lowest other ha) (hmax other (List.mem_toFinset.mpr ho)).not_gt

/-- What variables enforce are the spaces with an enforcer among them. -/
theorem Traces.enforced_perm {names : List String} (hnodup : names.Nodup)
    {keep : CostSpace K → Bool} (hkeep : ∀ space ∈ problem.spaces, keep space = true
      ↔ ∃ name ∈ names, space ∈ problem.spacesEnforcedBy name (tree.view name).below) :
    (names.flatMap fun name => problem.spacesEnforcedBy name (tree.view name).below).Perm
      (problem.spaces.filter keep) := by
  refine (flatMap_filter_perm ?_).trans (.of_eq ?_)
  · refine hnodup.imp fun hne space hs hx => Bool.eq_false_of_not_eq_true fun hy => hne ?_
    exact traces.enforced_unique spans (List.mem_filter.mpr ⟨hs, hx⟩)
      (List.mem_filter.mpr ⟨hs, hy⟩)
  · refine List.filter_congr fun space hs => ?_
    rw [Bool.eq_iff_iff, List.any_eq_true, hkeep space hs]
    simp only [Problem.spacesEnforcedBy, List.mem_filter, hs, true_and]

end PseudoTree

end DcopSearch
