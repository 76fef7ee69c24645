import DcopSearch.Tree.PseudoTree
import Mathlib.Data.List.Nodup

/-! Views that are stated from outside.  They are accepted when every listed child is there and names
the variable that lists it, and otherwise refused for the first child that does not.  The links from
the children up are not looked at: a variable may name a parent that does not list it, or that lists
it more than once. -/

namespace DcopSearch

namespace PseudoTree

variable {views : Std.ExtTreeMap String View}

/-- The child is there and names the lister as its parent. -/
def Answers (views : Std.ExtTreeMap String View) (name child : String) : Prop :=
  ∃ view, views[child]? = some view ∧ view.parent = some name

/-- Every listed child answers to the variable that lists it. -/
def ChildrenAgree (views : Std.ExtTreeMap String View) : Prop :=
  ∀ (name : String) (view : View), views[name]? = some view →
    ∀ child ∈ view.children, Answers views name child

/-- Every variable that names a parent is listed by it, and once only. -/
def ParentsAgree (views : Std.ExtTreeMap String View) : Prop :=
  ∀ (name : String) (view : View) (parent : String), views[name]? = some view →
    view.parent = some parent →
      ∃ above, views[parent]? = some above ∧ above.children.count name = 1

/-- What there is to say against a child that a variable lists. -/
def Fault (views : Std.ExtTreeMap String View) (name child : String) (error : TreeError) : Prop :=
  views[child]? = none ∧ error = .unknownVariable child ∨
    ∃ view, views[child]? = some view ∧ view.parent ≠ some name ∧
      error = .foreignParent name child view.parent

/-- The error is what there is to say against the first child that does not answer, in the order of
the names of the variables and of their lists. -/
def FirstFault (views : Std.ExtTreeMap String View) (error : TreeError) : Prop :=
  ∃ name view before child after, views[name]? = some view ∧
    view.children = before ++ child :: after ∧ Fault views name child error ∧
    (∀ other ∈ before, Answers views name other) ∧
    ∀ (other : String) (view : View), views[other]? = some view → compare other name = .lt →
      ∀ child ∈ view.children, Answers views other child

theorem childError?_eq_none_iff {name child : String} :
    childError? views name child = none ↔ Answers views name child := by
  unfold childError? Answers
  cases views[child]? with
  | none => simp
  | some view => by_cases h : view.parent = some name <;> simp [h]

theorem childError?_eq_some_iff {name child : String} {error : TreeError} :
    childError? views name child = some error ↔ Fault views name child error := by
  unfold childError? Fault
  cases views[child]? with
  | none => simp [eq_comm]
  | some view => by_cases h : view.parent = some name <;> simp [h, eq_comm]

theorem error?_eq_none_iff : error? views = none ↔ ChildrenAgree views := by
  simp only [error?, List.findSome?_eq_none_iff, childError?_eq_none_iff, ChildrenAgree, Prod.forall,
    Std.ExtTreeMap.mem_toList_iff_getElem?_eq_some]

theorem error?_eq_some_iff {error : TreeError} :
    error? views = some error ↔ FirstFault views error := by
  have hordered := Std.ExtTreeMap.ordered_keys_toList (t := views)
  have hmem : ∀ {name : String} {view : View},
      (name, view) ∈ views.toList ↔ views[name]? = some view :=
    Std.ExtTreeMap.mem_toList_iff_getElem?_eq_some
  rw [error?, List.findSome?_eq_some_iff]
  constructor
  · rintro ⟨earlier, ⟨name, view⟩, later, hlist, hfirst, hearlier⟩
    obtain ⟨before, child, after, hchildren, hfault, hbefore⟩ :=
      List.findSome?_eq_some_iff.mp hfirst
    simp only [hlist, List.mem_append, List.mem_cons] at hmem
    rw [hlist, List.pairwise_append, List.pairwise_cons] at hordered
    refine ⟨name, view, before, child, after, hmem.mp (by simp), hchildren,
      childError?_eq_some_iff.mp hfault,
      fun other ho => childError?_eq_none_iff.mp (hbefore other ho), fun other above habove hlt => ?_⟩
    rcases hmem.mpr habove with hm | he | hm
    · have hnone := List.findSome?_eq_none_iff.mp (hearlier _ hm)
      exact fun child hc => childError?_eq_none_iff.mp (hnone child hc)
    · obtain ⟨rfl, -⟩ := Prod.mk.inj he
      have hself : compare other other = .eq := Std.ReflCmp.compare_self
      rw [hself] at hlt
      cases hlt
    · exact absurd hlt (Std.OrientedCmp.not_lt_of_lt (hordered.2.1.1 _ hm))
  · rintro ⟨name, view, before, child, after, hview, hchildren, hfault, hbefore, hearlier⟩
    obtain ⟨earlier, later, hlist⟩ := List.append_of_mem (hmem.mpr hview)
    refine ⟨earlier, (name, view), later, hlist, List.findSome?_eq_some_iff.mpr
      ⟨before, child, after, hchildren, childError?_eq_some_iff.mpr hfault,
        fun other ho => childError?_eq_none_iff.mpr (hbefore other ho)⟩, fun entry he => ?_⟩
    rw [hlist, List.pairwise_append] at hordered
    have hm : entry ∈ views.toList := by rw [hlist]; exact List.mem_append_left _ he
    exact List.findSome?_eq_none_iff.mpr fun child hc => childError?_eq_none_iff.mpr
      (hearlier entry.1 entry.2 (hmem.mp hm) (hordered.2.2 entry he _ List.mem_cons_self) child hc)

theorem ofViews_eq_ok_iff {tree : PseudoTree} :
    ofViews views = .ok tree ↔ tree.views = views ∧ ChildrenAgree views := by
  rw [← error?_eq_none_iff, ofViews]
  cases error? views with
  | none =>
    constructor
    · rintro ⟨⟩
      exact ⟨rfl, rfl⟩
    · rintro ⟨rfl, -⟩
      rfl
  | some error => simp

theorem ofViews_eq_error_iff {error : TreeError} :
    ofViews views = .error error ↔ FirstFault views error := by
  rw [← error?_eq_some_iff, ofViews]
  cases error? views <;> simp

theorem exists_ofViews_iff : (∃ tree, ofViews views = .ok tree) ↔ ChildrenAgree views := by
  simp only [ofViews_eq_ok_iff]
  exact ⟨fun ⟨_, _, h⟩ => h, fun h => ⟨⟨views⟩, rfl, h⟩⟩

/-- The children go on answering when the view of a variable is changed, if it keeps its parent or
nobody lists it, and if it lists no others than before. -/
theorem ChildrenAgree.insert (h : ChildrenAgree views) {name : String} {view changed : View}
    (hview : views[name]? = some view)
    (hparent : changed.parent = view.parent ∨
      ∀ (other : String) (above : View), views[other]? = some above → name ∉ above.children)
    (hchildren : changed.children ⊆ view.children) :
    ChildrenAgree (views.insert name changed) := by
  have hanswers : ∀ {lister child : String} {above : View}, views[lister]? = some above →
      child ∈ above.children → Answers (views.insert name changed) lister child := by
    intro lister child above habove hc
    obtain ⟨below, hbelow, hp⟩ := h lister above habove child hc
    by_cases he : name = child
    · subst he
      obtain rfl := Option.some.inj (hview.symm.trans hbelow)
      have hsame := hparent.resolve_right fun hnot => hnot lister above habove hc
      exact ⟨changed, by simp, hsame.trans hp⟩
    · exact ⟨below, by simp [Std.ExtTreeMap.getElem?_insert, he, hbelow], hp⟩
  intro lister above habove child hc
  rw [Std.ExtTreeMap.getElem?_insert] at habove
  split at habove
  next he =>
    obtain rfl := Std.LawfulEqCmp.eq_of_compare he
    obtain rfl := Option.some.inj habove
    exact hanswers hview (hchildren hc)
  next => exact hanswers habove hc

/-- A variable that nobody lists has no link from the parent that it is made to name. -/
theorem not_parentsAgree_of_unlisted {name : String} {view : View} (hview : views[name]? = some view)
    (hnot : ∀ (other : String) (above : View), views[other]? = some above → name ∉ above.children)
    (parent : String) : ¬ParentsAgree (views.insert name { view with parent := some parent }) := by
  intro hagree
  obtain ⟨above, habove, hcount⟩ := hagree name _ parent Std.ExtTreeMap.getElem?_insert_self rfl
  have hm : name ∈ above.children := List.count_pos_iff.mp (by omega)
  rw [Std.ExtTreeMap.getElem?_insert] at habove
  split at habove
  · obtain rfl := Option.some.inj habove
    exact hnot name view hview hm
  · exact hnot parent above habove hm

/-- A child that is made to be listed repeatedly is not listed once only. -/
theorem ChildrenAgree.not_parentsAgree_of_repeated (h : ChildrenAgree views) {name : String}
    {view : View} (hview : views[name]? = some view) {children : List String}
    (hsub : children ⊆ view.children) (hrepeated : ¬children.Nodup) :
    ¬ParentsAgree (views.insert name { view with children }) := by
  intro hagree
  obtain ⟨child, hmany⟩ : ∃ child, ¬children.count child ≤ 1 :=
    not_forall.mp fun hall => hrepeated (List.nodup_iff_count_le_one.mpr hall)
  have hm : child ∈ children := List.count_pos_iff.mp (by omega)
  obtain ⟨below, hbelow, hparent⟩ := h name view hview child (hsub hm)
  obtain ⟨changed, hchanged, hsame⟩ : ∃ changed,
      (views.insert name { view with children })[child]? = some changed ∧
        changed.parent = below.parent := by
    rw [Std.ExtTreeMap.getElem?_insert]
    split
    next he =>
      obtain rfl := Std.LawfulEqCmp.eq_of_compare he
      obtain rfl := Option.some.inj (hview.symm.trans hbelow)
      exact ⟨_, rfl, rfl⟩
    next => exact ⟨below, hbelow, rfl⟩
  obtain ⟨above, habove, hcount⟩ := hagree child changed name hchanged (hsame.trans hparent)
  rw [Std.ExtTreeMap.getElem?_insert_self] at habove
  obtain rfl := Option.some.inj habove
  exact hmany (Nat.le_of_eq hcount)

/-- What is asked of views that are stated from outside, and what is not. -/
structure Judges (views : Std.ExtTreeMap String View) : Prop where
  /-- They are accepted as they are just if every listed child is there and names the lister. -/
  accepted : ∀ tree, ofViews views = .ok tree ↔ tree.views = views ∧ ChildrenAgree views
  /-- They are refused for the first child that does not. -/
  refused : ∀ error, ofViews views = .error error ↔ FirstFault views error
  /-- So a variable is listed by no other than the one it names. -/
  listed : ChildrenAgree views → ∀ (name parent : String) (view above : View),
    views[name]? = some view → views[parent]? = some above → name ∈ above.children →
      view.parent = some parent
  /-- A variable that nobody lists may name any parent, though there is no link down to it. -/
  unlisted : ChildrenAgree views → ∀ (name : String) (view : View), views[name]? = some view →
    (∀ (other : String) (above : View), views[other]? = some above → name ∉ above.children) →
      ∀ parent : String, let changed := views.insert name { view with parent := some parent }
        (∃ tree, ofViews changed = .ok tree) ∧ ¬ParentsAgree changed
  /-- A child may be listed any number of times. -/
  repeated : ChildrenAgree views → ∀ (name : String) (view : View), views[name]? = some view →
    ∀ children ⊆ view.children, let changed := views.insert name { view with children }
      (∃ tree, ofViews changed = .ok tree) ∧ (¬children.Nodup → ¬ParentsAgree changed)

/-- Views are accepted if the links agree from the parents down; of those from the children up nothing
is asked. -/
theorem judges_views (views : Std.ExtTreeMap String View) : Judges views where
  accepted _ := ofViews_eq_ok_iff
  refused _ := ofViews_eq_error_iff
  listed h name parent view above hview habove hm := by
    obtain ⟨below, hbelow, hparent⟩ := h parent above habove name hm
    obtain rfl := Option.some.inj (hview.symm.trans hbelow)
    exact hparent
  unlisted h name view hview hnot parent :=
    ⟨exists_ofViews_iff.mpr (h.insert hview (.inr hnot) (List.Subset.refl _)),
      not_parentsAgree_of_unlisted hview hnot parent⟩
  repeated h name view hview children hsub :=
    ⟨exists_ofViews_iff.mpr (h.insert hview (.inl rfl) hsub),
      h.not_parentsAgree_of_repeated hview hsub⟩

/-- A variable may name a parent that does not list it, or be listed twice by the one it names. -/
example : ∀ children ∈ [[], ["q", "q"]],
    let views : List (String × View) := [("p", { children }), ("q", { parent := some "p" })]
    (ofViews (.ofList views)).toOption.isSome := by
  decide +kernel

end PseudoTree

end DcopSearch
