import DcopSearch.Proofs.Constraint.WellFormed
import DcopSearch.Proofs.Tree.Search
import DcopSearch.Tree.PseudoTree

/-! The depth-first tree of a problem.  Parents and children agree, a parent comes before its
children, and the separator of a view holds ancestors only.  Since no space reaches across two
branches, the lowest variable of a space has all others of its scope above it, as parent or
pseudo-parents. -/

namespace DcopSearch

/-- A map from names to what a function makes of them. -/
theorem getElem?_ofList_map {A : Type} {names : List String} (hnodup : names.Nodup)
    (f : String → A) (name : String) :
    (Std.ExtTreeMap.ofList (names.map fun name => (name, f name)))[name]?
      = if name ∈ names then some (f name) else none := by
  have hpair : (names.map fun name => (name, f name)).Pairwise
      fun a b => ¬compare a.1 b.1 = .eq := by
    rw [List.pairwise_map]
    exact hnodup.imp fun h he => h (Std.LawfulEqCmp.eq_of_compare he)
  split
  next h =>
    exact Std.ExtTreeMap.getElem?_ofList_of_mem (k := name) (by simp) hpair
      (List.mem_map.mpr ⟨name, h, rfl⟩)
  next h =>
    refine Std.ExtTreeMap.getElem?_ofList_of_contains_eq_false ?_
    simpa using h

namespace PseudoTree

/-- The view of a variable; other names have an empty one. -/
def view (tree : PseudoTree) (name : String) : View := (tree.view? name).getD {}

/-- The first variable is a proper ancestor of the second one. -/
def Above (tree : PseudoTree) : String → String → Prop :=
  Relation.TransGen fun parent child => (tree.view child).parent = some parent

theorem above_parent {tree : PseudoTree} {parent name other : String}
    (h : (tree.view name).parent = some parent) (ha : tree.Above other name) :
    other = parent ∨ tree.Above other parent := by
  obtain ⟨last, hlast, hp⟩ := Relation.TransGen.tail'_iff.mp ha
  obtain rfl : parent = last := Option.some.inj (h.symm.trans hp)
  exact Relation.reflTransGen_iff_eq_or_transGen.mp hlast |>.imp Eq.symm id

theorem not_above_root {tree : PseudoTree} {name other : String}
    (h : (tree.view name).parent = none) : ¬tree.Above other name := by
  intro ha
  obtain ⟨last, _, hp⟩ := Relation.TransGen.tail'_iff.mp ha
  simp [h] at hp

/-- What the search relies on in a tree for a problem. -/
structure Spans {K : Type} (tree : PseudoTree) (problem : Problem K) : Prop where
  /-- There is one view for each variable. -/
  views : ∀ name, name ∈ problem.names ↔ (tree.view? name).isSome
  child_iff : ∀ parent child,
    child ∈ (tree.view parent).children ↔ (tree.view child).parent = some parent
  nodup_children : ∀ name, (tree.view name).children.Nodup
  /-- Parents come before their children in some order, so that no chain of links is a cycle. -/
  rank : ∃ rank : String → Nat, ∀ parent child,
    (tree.view child).parent = some parent → rank parent < rank child
  separator_above : ∀ name, ∀ other ∈ (tree.view name).separator, tree.Above other name
  /-- A variable can evaluate the spaces that it enforces with the values of its separator. -/
  scope : ∀ name, ∀ space ∈ problem.spacesEnforcedBy name (tree.view name).below,
    ∀ other ∈ space.scope, other = name ∨ other ∈ (tree.view name).separator

namespace Spans

variable {K : Type} {tree : PseudoTree} {problem : Problem K}

theorem mem_names_of_view_ne (h : tree.Spans problem) {name : String}
    (hv : tree.view name ≠ {}) : name ∈ problem.names := by
  rw [h.views, Option.isSome_iff_ne_none]
  intro hn
  exact hv (by simp [view, hn])

theorem mem_names_of_parent (h : tree.Spans problem) {parent child : String}
    (hp : (tree.view child).parent = some parent) :
    parent ∈ problem.names ∧ child ∈ problem.names := by
  refine ⟨h.mem_names_of_view_ne fun he => ?_, h.mem_names_of_view_ne fun he => ?_⟩
  · have := (h.child_iff parent child).mpr hp
    simp [he] at this
  · simp [he] at hp

theorem above_irrefl (h : tree.Spans problem) (name : String) : ¬tree.Above name name := by
  obtain ⟨rank, hrank⟩ := h.rank
  have hlt : ∀ x y, tree.Above x y → rank x < rank y := by
    intro x y hxy
    induction hxy with
    | single hp => exact hrank _ _ hp
    | tail _ hp ih => exact Nat.lt_trans ih (hrank _ _ hp)
  exact fun hn => Nat.lt_irrefl _ (hlt name name hn)

theorem induction_down (h : tree.Spans problem) {P : String → Prop}
    (step : ∀ name, (∀ parent, (tree.view name).parent = some parent → P parent) → P name)
    (name : String) : P name := by
  obtain ⟨rank, hrank⟩ := h.rank
  have hall : ∀ k name, rank name < k → P name := by
    intro k
    induction k with
    | zero => exact fun name hk => absurd hk (Nat.not_lt_zero _)
    | succ k ih =>
      intro name hk
      exact step name fun parent hp => ih parent (by have := hrank parent name hp; omega)
  exact hall (rank name + 1) name (Nat.lt_succ_self _)

theorem exists_bound (names : List String) (rank : String → Nat) :
    ∃ bound, ∀ name ∈ names, rank name ≤ bound := by
  induction names with
  | nil => exact ⟨0, by simp⟩
  | cons name rest ih =>
    obtain ⟨bound, hb⟩ := ih
    refine ⟨max (rank name) bound, fun other ho => ?_⟩
    rcases List.mem_cons.mp ho with rfl | ho
    · exact Nat.le_max_left _ _
    · exact Nat.le_trans (hb other ho) (Nat.le_max_right _ _)

theorem induction_up (h : tree.Spans problem) {P : String → Prop}
    (step : ∀ name ∈ problem.names, (∀ child ∈ (tree.view name).children, P child) → P name)
    (name : String) (hn : name ∈ problem.names) : P name := by
  obtain ⟨rank, hrank⟩ := h.rank
  obtain ⟨bound, hbound⟩ := exists_bound problem.names rank
  have hall : ∀ k, ∀ name ∈ problem.names, bound < rank name + k → P name := by
    intro k
    induction k with
    | zero => exact fun name hn hk => absurd hk (Nat.not_lt.mpr (hbound name hn))
    | succ k ih =>
      intro name hn hk
      refine step name hn fun child hc => ?_
      have hp := (h.child_iff name child).mp hc
      exact ih child (h.mem_names_of_parent hp).2 (by have := hrank name child hp; omega)
  exact hall (bound + 1) name hn (by omega)

end Spans

end PseudoTree

namespace View

variable {links : List Link}

/-- Links with each vertex found once give a child one parent. -/
theorem parent_ofLinks (hn : (Link.found links).Nodup) {parent child : String} :
    (ofLinks links child).parent = some parent ↔ Link.tree parent child ∈ links := by
  constructor
  · intro h
    obtain ⟨link, hl, he⟩ := List.exists_of_findSome?_eq_some h
    split at he
    next first second =>
      split at he
      next hc =>
        obtain rfl := Option.some.inj he
        exact hc ▸ hl
      next => cases he
    next => cases he
  · intro h
    obtain ⟨before, after, rfl⟩ := List.append_of_mem h
    have hfresh : child ∉ Link.found before := by
      intro hm
      rw [Link.found_append, List.nodup_append] at hn
      exact hn.2.2 child hm child (by simp [Link.found, Link.found?]) rfl
    simp only [ofLinks, List.findSome?_eq_some_iff]
    refine ⟨before, _, after, rfl, by simp, fun link hl => ?_⟩
    split
    next first second =>
      rw [if_neg]
      rintro rfl
      exact hfresh (Link.mem_found_of_tree hl)
    next => rfl

theorem mem_children_ofLinks {parent child : String} :
    child ∈ (ofLinks links parent).children ↔ Link.tree parent child ∈ links := by
  simp only [ofLinks, List.mem_filterMap]
  constructor
  · rintro ⟨link, hl, he⟩
    split at he
    next first second =>
      split at he
      next hp =>
        obtain rfl := Option.some.inj he
        exact hp ▸ hl
      next => cases he
    next => cases he
  · exact fun h => ⟨_, h, by simp⟩

theorem mem_pseudoParents_ofLinks {name other : String} :
    other ∈ (ofLinks links name).pseudoParents ↔ Link.back name other ∈ links := by
  simp only [ofLinks, List.mem_filterMap]
  constructor
  · rintro ⟨link, hl, he⟩
    split at he
    next first second =>
      split at he
      next hp =>
        obtain rfl := Option.some.inj he
        exact hp ▸ hl
      next => cases he
    next => cases he
  · exact fun h => ⟨_, h, by simp⟩

theorem mem_pseudoChildren_ofLinks {name other : String} :
    other ∈ (ofLinks links name).pseudoChildren ↔ Link.back other name ∈ links := by
  simp only [ofLinks, List.mem_filterMap]
  constructor
  · rintro ⟨link, hl, he⟩
    split at he
    next first second =>
      split at he
      next hp =>
        obtain rfl := Option.some.inj he
        exact hp ▸ hl
      next => cases he
    next => cases he
  · exact fun h => ⟨_, h, by simp⟩

theorem nodup_children_ofLinks (hn : (Link.found links).Nodup) (name : String) :
    (ofLinks links name).children.Nodup := by
  refine Link.nodup_of_determines hn id fun link child hc => ?_
  cases link <;> simp_all [Link.found?]

end View

namespace PseudoTree

variable {K : Type} {problem : Problem K}

/-- The links of the constraint graph. -/
def links (problem : Problem K) : List Link :=
  Search.explore (fun name => (problem.neighbours name).toList) problem.names

theorem mem_scope_names (wf : problem.WellFormed) {space : CostSpace K}
    (hs : space ∈ problem.spaces) {name : String} (hn : name ∈ space.scope) :
    name ∈ problem.names := by
  obtain ⟨axis, ha, rfl⟩ := List.mem_map.mp hn
  exact Problem.mem_names_of_domain ((wf.fits space hs).declared axis ha)

theorem graph_neighbours (wf : problem.WellFormed) :
    Search.Graph (fun name => (problem.neighbours name).toList) problem.names where
  irrefl x := by simp [Problem.mem_neighbours]
  symm x y h := by
    rw [Std.ExtTreeSet.mem_toList] at h ⊢
    exact Problem.mem_neighbours_comm.mp h
  closed x y h := by
    rw [Std.ExtTreeSet.mem_toList, Problem.mem_neighbours] at h
    obtain ⟨_, space, hs, _, hy⟩ := h
    exact mem_scope_names wf hs hy

theorem explored_links (wf : problem.WellFormed) :
    Search.Explored (fun name => (problem.neighbours name).toList) problem.names
      (links problem) :=
  Search.explored (graph_neighbours wf)

theorem view?_generate (problem : Problem K) (name : String) :
    (generate problem).view? name
      = if name ∈ problem.names then some (View.ofLinks (links problem) name) else none :=
  getElem?_ofList_map problem.nodup_names (View.ofLinks (links problem)) name

theorem view_generate {name : String} (h : name ∈ problem.names) :
    (generate problem).view name = View.ofLinks (links problem) name := by
  simp [view, view?_generate, h]

theorem view_generate_of_not_mem {name : String} (h : name ∉ problem.names) :
    (generate problem).view name = {} := by
  simp [view, view?_generate, h]

/-- Tree links lead from a variable to a variable that is found later. -/
theorem idxOf_lt_of_tree (wf : problem.WellFormed) {parent child : String}
    (h : Link.tree parent child ∈ links problem) :
    (Link.found (links problem)).idxOf parent < (Link.found (links problem)).idxOf child := by
  have hex := explored_links wf
  obtain ⟨before, after, he⟩ := List.append_of_mem h
  have hparent := hex.early before after parent child he
  have hnodup : (Link.found (links problem)).Nodup := hex.found.nodup_iff.mpr problem.nodup_names
  have hsplit : Link.found (links problem)
      = Link.found before ++ (child :: Link.found after) := by
    rw [he, Link.found_append]
    rfl
  have hfresh : child ∉ Link.found before := by
    intro hm
    rw [hsplit, List.nodup_append] at hnodup
    exact hnodup.2.2 child hm child (by simp) rfl
  rw [hsplit, List.idxOf_append_of_mem hparent, List.idxOf_append_of_notMem hfresh]
  have := List.idxOf_lt_length_of_mem hparent
  omega

theorem mem_names_of_tree (wf : problem.WellFormed) {parent child : String}
    (h : Link.tree parent child ∈ links problem) :
    parent ∈ problem.names ∧ child ∈ problem.names := by
  have hex := explored_links wf
  obtain ⟨before, after, he⟩ := List.append_of_mem h
  have hparent := hex.early before after parent child he
  refine ⟨hex.found.mem_iff.mp ?_, hex.found.mem_iff.mp (Link.mem_found_of_tree h)⟩
  rw [he, Link.found_append]
  exact List.mem_append_left _ hparent

theorem parent_generate (wf : problem.WellFormed) {parent child : String} :
    ((generate problem).view child).parent = some parent
      ↔ Link.tree parent child ∈ links problem := by
  have hnodup : (Link.found (links problem)).Nodup :=
    (explored_links wf).found.nodup_iff.mpr problem.nodup_names
  by_cases hc : child ∈ problem.names
  · rw [view_generate hc, View.parent_ofLinks hnodup]
  · rw [view_generate_of_not_mem hc]
    exact ⟨fun h => by simp at h, fun h => absurd (mem_names_of_tree wf h).2 hc⟩

theorem mem_children_generate (wf : problem.WellFormed) {parent child : String} :
    child ∈ ((generate problem).view parent).children
      ↔ Link.tree parent child ∈ links problem := by
  by_cases hp : parent ∈ problem.names
  · rw [view_generate hp, View.mem_children_ofLinks]
  · rw [view_generate_of_not_mem hp]
    exact ⟨fun h => by simp at h, fun h => absurd (mem_names_of_tree wf h).1 hp⟩

/-- Above by links is above in the tree. -/
theorem above_generate (wf : problem.WellFormed) {x y : String} :
    (generate problem).Above x y ↔ Link.Above (links problem) x y := by
  have hrel : (fun parent child => ((generate problem).view child).parent = some parent)
      = fun parent child => Link.tree parent child ∈ links problem := by
    funext parent child
    rw [parent_generate wf]
  rw [Above, hrel, Link.Above]

/-- The depth-first tree of a well-formed problem is one that the search can rely on. -/
theorem spans_generate (wf : problem.WellFormed) : (generate problem).Spans problem where
  views name := by
    by_cases h : name ∈ problem.names <;> simp [view?_generate, h]
  child_iff parent child := by rw [mem_children_generate wf, parent_generate wf]
  nodup_children name := by
    by_cases h : name ∈ problem.names
    · rw [view_generate h]
      exact View.nodup_children_ofLinks
        ((explored_links wf).found.nodup_iff.mpr problem.nodup_names) name
    · simp [view_generate_of_not_mem h]
  rank := ⟨(Link.found (links problem)).idxOf, fun parent child hp =>
    idxOf_lt_of_tree wf ((parent_generate wf).mp hp)⟩
  separator_above name other h := by
    rw [View.mem_separator] at h
    rw [above_generate wf]
    rcases h with h | h
    · exact .single ((parent_generate wf).mp h)
    · by_cases hn : name ∈ problem.names
      · rw [view_generate hn, View.mem_pseudoParents_ofLinks] at h
        exact (explored_links wf).backs name other h
      · simp [view_generate_of_not_mem hn] at h
  scope name space hs other ho := by
    obtain ⟨hmem, hinv⟩ := List.mem_filter.mp hs
    simp only [Bool.and_eq_true, CostSpace.involves, List.contains_iff_mem, Bool.not_eq_true',
      List.any_eq_false, Std.ExtTreeSet.contains_iff_mem] at hinv
    obtain ⟨hname, hbelow⟩ := hinv
    by_cases he : other = name
    · exact .inl he
    have hn := mem_scope_names wf hmem hname
    have hbelow : other ∉ ((generate problem).view name).below := by simpa using hbelow other ho
    have hneighbour : other ∈ (problem.neighbours name).toList := by
      rw [Std.ExtTreeSet.mem_toList, Problem.mem_neighbours]
      exact ⟨he, space, hmem, hname, ho⟩
    rw [View.mem_below, view_generate hn, View.mem_children_ofLinks,
      View.mem_pseudoChildren_ofLinks] at hbelow
    rw [View.mem_separator, parent_generate wf, view_generate hn, View.mem_pseudoParents_ofLinks]
    have hjoined := (explored_links wf).joined name hn other hneighbour
    unfold Link.Joined at hjoined
    tauto

end PseudoTree

end DcopSearch
