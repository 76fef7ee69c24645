import DcopSearch.Proofs.Tree.Component
import Mathlib.Data.Finset.Card

/-! What is listed from a variable on down.  A variable has more variables above it than its parent,
so a depth of as many links as there are variables reaches all that is below a variable, and a
listing with this bound is the one that a stack of the variables still to be listed gives without
any. -/

namespace DcopSearch

namespace PseudoTree

variable {K : Type} {tree : PseudoTree} {problem : Problem K} {names : List String}
  {name other : String} {depth : Nat}

/-- Variables are taken from a stack, the children of each put on top of what is left, until there
is none. -/
inductive Walks (tree : PseudoTree) : List String → List String → Prop where
  | done : Walks tree [] []
  | take {name : String} {stack listed : List String} :
      Walks tree ((tree.view name).children.reverse ++ stack) listed →
      Walks tree (name :: stack) (name :: listed)

open Classical in
/-- Those of the names that are above a variable. -/
noncomputable def ancestors (tree : PseudoTree) (names : List String) (name : String) :
    Finset String :=
  names.toFinset.filter (tree.Above · name)

theorem mem_ancestors : other ∈ tree.ancestors names name
    ↔ other ∈ names ∧ tree.Above other name := by
  simp [ancestors]

/-- The number of variables above a variable. -/
noncomputable def level (tree : PseudoTree) (names : List String) (name : String) : Nat :=
  (tree.ancestors names name).card

theorem level_le (tree : PseudoTree) (names : List String) (name : String) :
    tree.level names name ≤ names.length := by
  refine (Finset.card_le_card (t := names.toFinset) fun x hx => ?_).trans
    (List.toFinset_card_le _)
  exact List.mem_toFinset.mpr (mem_ancestors.mp hx).1

theorem level_lt (hn : name ∈ names) (hirrefl : ¬tree.Above name name)
    (h : tree.Above name other) : tree.level names name < tree.level names other := by
  refine Finset.card_lt_card ((Finset.ssubset_iff_of_subset fun x hx => ?_).mpr ⟨name, ?_, ?_⟩)
  · obtain ⟨hx, ha⟩ := mem_ancestors.mp hx
    exact mem_ancestors.mpr ⟨hx, ha.trans h⟩
  · exact mem_ancestors.mpr ⟨hn, h⟩
  · exact fun hm => hirrefl (mem_ancestors.mp hm).2

theorem descend_succ (tree : PseudoTree) (depth : Nat) (name : String) :
    tree.descend (depth + 1) name
      = name :: (tree.view name).children.reverse.flatMap (tree.descend depth) := by
  rw [descend, view]
  cases tree.view? name <;> rfl

/-- The links to the children lead from the first variable down to the second one. -/
def Leads (tree : PseudoTree) : String → String → Prop :=
  Relation.ReflTransGen fun name child => child ∈ (tree.view name).children

/-- Below a variable the rank grows with each link, and by no more than `depth` in all. -/
structure Graded (tree : PseudoTree) (rank : String → Nat) (depth : Nat) (name : String) :
    Prop where
  grows : ∀ other, tree.Leads name other → ∀ child ∈ (tree.view other).children,
    rank other < rank child
  le : ∀ other, tree.Leads name other → rank other ≤ rank name + depth

/-- What is listed from a variable on is below it or the variable itself. -/
theorem leads_of_mem_descend (h : other ∈ tree.descend depth name) : tree.Leads name other := by
  induction depth generalizing name with
  | zero => exact List.mem_singleton.mp h ▸ .refl
  | succ depth ih =>
    rw [descend_succ] at h
    rcases List.mem_cons.mp h with rfl | h
    · exact .refl
    · obtain ⟨child, hc, hm⟩ := List.mem_flatMap.mp h
      exact .head (List.mem_reverse.mp hc) (ih hm)

namespace Graded

variable {rank : String → Nat}

theorem child (h : tree.Graded rank (depth + 1) name) {below : String}
    (hc : below ∈ (tree.view name).children) : tree.Graded rank depth below := by
  refine ⟨fun other ho => h.grows other (.head hc ho), fun other ho => ?_⟩
  have hlt := h.grows name .refl below hc
  have hle := h.le other (.head hc ho)
  omega

theorem children_eq_nil (h : tree.Graded rank 0 name) : (tree.view name).children = [] := by
  refine List.eq_nil_iff_forall_not_mem.mpr fun child hc => ?_
  have hlt := h.grows name .refl child hc
  have hle := h.le child (.single hc)
  omega

theorem mem_descend (h : tree.Graded rank depth name) :
    other ∈ tree.descend depth name ↔ tree.Leads name other := by
  refine ⟨leads_of_mem_descend, fun hl => ?_⟩
  induction depth generalizing name with
  | zero =>
    rcases Relation.ReflTransGen.cases_head hl with rfl | ⟨child, hc, -⟩
    · exact List.mem_singleton.mpr rfl
    · rw [h.children_eq_nil] at hc
      cases hc
  | succ depth ih =>
    rw [descend_succ]
    rcases Relation.ReflTransGen.cases_head hl with rfl | ⟨child, hc, hl⟩
    · exact List.mem_cons_self
    · exact List.mem_cons_of_mem _
        (List.mem_flatMap.mpr ⟨child, List.mem_reverse.mpr hc, ih (h.child hc) hl⟩)

/-- A listing that reaches all that is below a variable is the one that a stack gives. -/
theorem walks_descend {stack listed : List String} (hgraded : tree.Graded rank depth name)
    (h : tree.Walks stack listed) :
    tree.Walks (name :: stack) (tree.descend depth name ++ listed) := by
  induction depth generalizing name stack listed with
  | zero => exact .take (by simpa [hgraded.children_eq_nil] using h)
  | succ depth ih =>
    rw [descend_succ, List.cons_append]
    refine .take ?_
    -- the children are taken one after the other, each with all that is below it
    have hbranches : ∀ branches : List String, branches ⊆ (tree.view name).children →
        tree.Walks (branches ++ stack) (branches.flatMap (tree.descend depth) ++ listed) := by
      intro branches
      induction branches with
      | nil => exact fun _ => h
      | cons child rest ihr =>
        intro hsub
        obtain ⟨hc, hrest⟩ := List.cons_subset.mp hsub
        rw [List.flatMap_cons, List.append_assoc]
        exact ih (hgraded.child hc) (ihr hrest)
    exact hbranches _ (List.reverse_subset.mpr (List.Subset.refl _))

end Graded

/-- The level grows with each link from a variable that is not above itself up to its child. -/
theorem graded_level (hdepth : names.length ≤ depth)
    (h : ∀ other, tree.Leads name other → ∀ child ∈ (tree.view other).children,
      other ∈ names ∧ ¬tree.Above other other ∧ tree.Above other child) :
    tree.Graded (tree.level names) depth name where
  grows other ho child hc := by
    obtain ⟨hn, hirrefl, ha⟩ := h other ho child hc
    exact level_lt hn hirrefl ha
  le other _ := by
    have hle := level_le tree names other
    omega

namespace Spans

variable (spans : tree.Spans problem)
include spans

theorem mem_names_of_above (h : tree.Above name other) :
    name ∈ problem.names ∧ other ∈ problem.names := by
  obtain ⟨_, hfirst, _⟩ := Relation.TransGen.head'_iff.mp h
  obtain ⟨_, _, hlast⟩ := Relation.TransGen.tail'_iff.mp h
  exact ⟨(spans.mem_names_of_parent hfirst).1, (spans.mem_names_of_parent hlast).2⟩

theorem leads_iff : tree.Leads name other ↔ other = name ∨ tree.Above name other := by
  have hlinks : (fun name child => child ∈ (tree.view name).children)
      = fun parent child => (tree.view child).parent = some parent := by
    funext parent child
    exact propext (spans.child_iff parent child)
  rw [Leads, hlinks]
  exact Relation.reflTransGen_iff_eq_or_transGen

/-- What is listed from a variable on is the variable or below it. -/
theorem of_mem_descend (h : other ∈ tree.descend depth name) :
    other = name ∨ tree.Above name other :=
  spans.leads_iff.mp (leads_of_mem_descend h)

/-- What is below two children of a variable is below one child. -/
theorem eq_of_children {first second : String} (hf : first ∈ (tree.view name).children)
    (hs : second ∈ (tree.view name).children) (h : other = first ∨ tree.Above first other)
    (h' : other = second ∨ tree.Above second other) : first = second := by
  have hfirst := (spans.child_iff name first).mp hf
  have hsecond := (spans.child_iff name second).mp hs
  have hapart : ∀ {x y : String}, (tree.view x).parent = some name →
      (tree.view y).parent = some name → ¬tree.Above x y := by
    intro x y hx hy ha
    rcases above_parent hy ha with rfl | ha
    · exact spans.above_irrefl x (.single hx)
    · exact spans.above_irrefl x (ha.tail hx)
  rcases h with rfl | ha <;> rcases h' with he | hb
  · exact he
  · exact absurd hb (hapart hsecond hfirst)
  · exact absurd (he ▸ ha) (hapart hfirst hsecond)
  · rcases spans.above_total ha hb with he | hab | hba
    · exact he
    · exact absurd hab (hapart hfirst hsecond)
    · exact absurd hba (hapart hsecond hfirst)

theorem nodup_descend (depth : Nat) (name : String) : (tree.descend depth name).Nodup := by
  induction depth generalizing name with
  | zero => exact List.nodup_singleton name
  | succ depth ih =>
    rw [descend_succ]
    refine List.nodup_cons.mpr ⟨fun h => ?_, List.nodup_flatMap.mpr ⟨fun child _ => ih child, ?_⟩⟩
    · obtain ⟨child, hc, hm⟩ := List.mem_flatMap.mp h
      have hlink := (spans.child_iff name child).mp (List.mem_reverse.mp hc)
      rcases spans.of_mem_descend hm with rfl | ha
      · exact spans.above_irrefl name (.single hlink)
      · exact spans.above_irrefl name (.head hlink ha)
    · refine (List.nodup_reverse.mpr (spans.nodup_children name)).imp_of_mem ?_
      intro first second hf hs hne other hm hm'
      exact hne (spans.eq_of_children (List.mem_reverse.mp hf) (List.mem_reverse.mp hs)
        (spans.of_mem_descend hm) (spans.of_mem_descend hm'))

variable (hdepth : problem.names.length ≤ depth)
include hdepth

theorem graded (name : String) : tree.Graded (tree.level problem.names) depth name := by
  refine graded_level hdepth fun other _ child hc => ?_
  have hlink := (spans.child_iff other child).mp hc
  exact ⟨(spans.mem_names_of_parent hlink).1, spans.above_irrefl other, .single hlink⟩

theorem mem_descend : other ∈ tree.descend depth name ↔ other = name ∨ tree.Above name other :=
  (spans.graded hdepth name).mem_descend.trans spans.leads_iff

theorem walks_component (name : String) : tree.Walks [name] (tree.descend depth name) := by
  simpa using (spans.graded hdepth name).walks_descend .done

end Spans

end PseudoTree

end DcopSearch
