import DcopSearch.Proofs.Protocol.Subtree
import DcopSearch.Proofs.Tree.Component

/-! Components under a search.  A component is the subtree of its root, the ancestors that matter to a
subtree are found child by child, and what the variables of a subtree enforce are the spaces over
it. -/

namespace DcopSearch

variable {K : Type}

namespace Setup

variable {setup : Setup K} {name other child : String}

/-- A proper ancestor of a variable that shares a space with a variable of its subtree. -/
def Depends (setup : Setup K) (name other : String) : Prop :=
  setup.tree.Above other name ∧ ∃ below ∈ setup.subtree name,
    ∃ space ∈ setup.problem.spaces, below ∈ space.scope ∧ other ∈ space.scope

/-- The tree follows the constraint graph. -/
def Traced (setup : Setup K) : Prop := setup.tree.Traces setup.problem

theorem traced_generated {problem : Problem K} (built : problem.Built) (config : Config K) :
    (generated problem config).Traced :=
  PseudoTree.traces_generate built.wellFormed

theorem mem_neighbours_of_ne (h : other ≠ name) :
    other ∈ setup.problem.neighbours name
      ↔ ∃ space ∈ setup.problem.spaces, name ∈ space.scope ∧ other ∈ space.scope := by
  rw [Problem.mem_neighbours]
  exact and_iff_right h

/-- The ancestors that matter to a subtree are those that matter to the variable itself and to the
subtrees of its children. -/
theorem Valid.depends_iff (valid : setup.Valid) (traced : setup.Traced)
    (hn : name ∈ setup.problem.names) : setup.Depends name other
      ↔ (other ∈ (setup.view name).separator ∨
          ∃ child ∈ setup.children name, setup.Depends child other) ∧ other ≠ name := by
  constructor
  · rintro ⟨ha, below, hbelow, hshared⟩
    have hne : ∀ x ∈ setup.subtree name, other ≠ x := by
      rintro x hx rfl
      exact valid.not_above_of_mem hx ha
    refine ⟨?_, hne name (mem_subtree_self hn)⟩
    rcases (valid.mem_subtree_iff hn).mp hbelow with rfl | ⟨child, hc, hm⟩
    · exact .inl ((traced.separator below other).mpr
        ⟨ha, (mem_neighbours_of_ne (hne below hbelow)).mpr hshared⟩)
    · exact .inr ⟨child, hc, ha.tail (valid.mem_children.mp hc), below, hm, hshared⟩
  · rintro ⟨hs | ⟨child, hc, ha, below, hbelow, hshared⟩, hne⟩
    · obtain ⟨ha, hm⟩ := (traced.separator name other).mp hs
      exact ⟨ha, name, mem_subtree_self hn, (mem_neighbours_of_ne hne).mp hm⟩
    · refine ⟨?_, below, (valid.subtree_child hc hbelow).1, hshared⟩
      exact (above_parent (valid.mem_children.mp hc) ha).resolve_left hne

theorem Depends.mem_names (valid : setup.Valid) (h : setup.Depends name other) :
    other ∈ setup.problem.names := by
  obtain ⟨-, below, -, space, hs, -, ho⟩ := h
  exact PseudoTree.mem_scope_names valid.wellFormed hs ho

open Classical in
/-- The ancestors that matter to a subtree, in the order of their names. -/
noncomputable def separator (setup : Setup K) (name : String) : List String :=
  setup.problem.names.filter fun other => setup.Depends name other

theorem Valid.mem_separator (valid : setup.Valid) :
    other ∈ setup.separator name ↔ setup.Depends name other := by
  simp only [separator, List.mem_filter, decide_eq_true_eq]
  exact ⟨And.right, fun h => ⟨h.mem_names valid, h⟩⟩

/-- A set of names has one order. -/
theorem Valid.toList_eq_separator (valid : setup.Valid) {names : NameSet}
    (h : ∀ other, other ∈ names ↔ setup.Depends name other) :
    names.toList = setup.separator name := by
  have hnodup : names.toList.Nodup :=
    Std.ExtTreeSet.distinct_toList.imp fun hne he => hne (by simp [he])
  have hsorted : (setup.separator name).Pairwise fun x y => compare x y = .lt :=
    Std.ExtTreeMap.ordered_keys.filter _
  refine @List.Perm.eq_of_pairwise _ (fun x y => compare x y = .lt) _ _ (fun x y _ _ hxy hyx => ?_)
    Std.ExtTreeSet.ordered_toList hsorted ?_
  · have hgt := Std.OrientedCmp.gt_of_lt hxy
    rw [hgt] at hyx
    cases hyx
  · refine (List.perm_ext_iff_of_nodup hnodup (setup.problem.nodup_names.filter _)).mpr
      fun other => ?_
    rw [Std.ExtTreeSet.mem_toList, h, ← valid.mem_separator]
    rfl

/-- A component is the subtree of its root. -/
theorem Valid.component_root (valid : setup.Valid) (traced : setup.Traced)
    (hp : setup.parent name = none) :
    setup.problem.component name = setup.subtree name := by
  ext other
  rw [Problem.mem_component, mem_subtree]
  exact and_congr_right fun _ => PseudoTree.Traces.connected_root valid.spans traced hp

/-- A space is enforced by the lowest variable of its scope. -/
theorem Valid.mem_enforced_iff (valid : setup.Valid) (traced : setup.Traced)
    {space : CostSpace K} : space ∈ setup.enforced name
      ↔ space ∈ setup.problem.spaces ∧ name ∈ space.scope ∧
        ∀ other ∈ space.scope, other = name ∨ setup.tree.Above other name :=
  PseudoTree.Traces.mem_enforced_iff valid.spans traced

/-- A space over a variable of a subtree is enforced in the subtree. -/
theorem Valid.exists_enforced (valid : setup.Valid) (traced : setup.Traced) {space : CostSpace K}
    (hs : space ∈ setup.problem.spaces) {below : String} (hb : below ∈ setup.subtree name)
    (hscope : below ∈ space.scope) :
    ∃ enforcer ∈ setup.subtree name, space ∈ setup.enforced enforcer := by
  obtain ⟨enforcer, hm, he⟩ := PseudoTree.Traces.exists_enforcer valid.spans traced hs
    (List.ne_nil_of_mem hscope)
  refine ⟨enforcer, ?_, he⟩
  obtain ⟨-, -, hall⟩ := (valid.mem_enforced_iff traced).mp he
  rcases hall below hscope with rfl | ha
  · exact hb
  · refine mem_subtree.mpr ⟨PseudoTree.mem_scope_names valid.wellFormed hs hm, .inr ?_⟩
    rcases (mem_subtree.mp hb).2 with rfl | hbelow
    · exact ha
    · exact hbelow.trans ha

/-- Every component has a root. -/
theorem Valid.exists_root (valid : setup.Valid) (traced : setup.Traced)
    (hn : name ∈ setup.problem.names) : ∃ root, setup.parent root = none ∧
      setup.problem.component name = setup.problem.component root := by
  obtain ⟨root, hroot, hp, hbelow⟩ := valid.spans.exists_root hn
  refine ⟨root, hp, Problem.component_eq_of_mem (Problem.mem_component.mpr ⟨hn, ?_⟩)⟩
  exact (PseudoTree.Traces.connected_root valid.spans traced hp).mpr hbelow

/-- What the variables of a component enforce are the spaces over the component. -/
theorem Valid.enforced_perm (valid : setup.Valid) (traced : setup.Traced)
    (hn : name ∈ setup.problem.names) {names : List String} (hnodup : names.Nodup)
    (hnames : ∀ other, other ∈ names ↔ other ∈ setup.problem.component name) :
    (names.flatMap setup.enforced).Perm
      (setup.problem.spacesOver (setup.problem.component name)) := by
  obtain ⟨root, hp, hroot⟩ := valid.exists_root traced hn
  rw [hroot, valid.component_root traced hp] at hnames ⊢
  refine PseudoTree.Traces.enforced_perm valid.spans traced hnodup fun space hs => ?_
  rw [List.any_eq_true]
  constructor
  · rintro ⟨below, hb, hm⟩
    obtain ⟨enforcer, he, hspace⟩ := valid.exists_enforced traced hs (of_decide_eq_true hm) hb
    exact ⟨enforcer, (hnames enforcer).mpr he, hspace⟩
  · rintro ⟨enforcer, hm, he⟩
    refine ⟨enforcer, ?_, decide_eq_true ((hnames enforcer).mp hm)⟩
    exact ((valid.mem_enforced_iff traced).mp he).2.1

end Setup

end DcopSearch
