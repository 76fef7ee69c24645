import DcopSearch.Proofs.Normalization.Shape
import DcopSearch.Proofs.Protocol.Component

/-! What the subtrees of a tree add up to.  The spaces enforced in a subtree give its ends and their
number, the domains and the height of the subtree its size, and the ancestors that share a space with
it its separator; all of it can be found child by child. -/

namespace DcopSearch

open CostArithmetic

namespace Setup

section

variable {K : Type} {setup : Setup K} {name other child below : String}

theorem subtree_trans (h : other ∈ setup.subtree name) (h' : below ∈ setup.subtree other) :
    below ∈ setup.subtree name := by
  obtain ⟨-, ho⟩ := mem_subtree.mp h
  obtain ⟨hb, h'⟩ := mem_subtree.mp h'
  refine mem_subtree.mpr ⟨hb, ?_⟩
  rcases ho with rfl | ho <;> rcases h' with rfl | h'
  · exact .inl rfl
  · exact .inr h'
  · exact .inr ho
  · exact .inr (ho.trans h')

/-- The variables with children on the way down to a variable. -/
noncomputable def levels (setup : Setup K) (name below : String) : Finset String :=
  (setup.subtree name).filter fun other => setup.children other ≠ [] ∧ below ∈ setup.subtree other

/-- The size measure of a subtree: the largest domain in it, a level counting as one value more. -/
noncomputable def size (setup : Setup K) (name : String) : Nat :=
  (setup.subtree name).sup fun below => (setup.domain below).length + (setup.levels name below).card

theorem Valid.subtree_leaf (valid : setup.Valid) (hn : name ∈ setup.problem.names)
    (hleaf : setup.children name = []) : setup.subtree name = {name} := by
  ext other
  simp [valid.mem_subtree_iff hn, hleaf]

theorem Valid.levels_self (valid : setup.Valid) (hn : name ∈ setup.problem.names)
    (hc : setup.children name ≠ []) : setup.levels name name = {name} := by
  ext other
  rw [levels, Finset.mem_filter, Finset.mem_singleton]
  constructor
  · rintro ⟨ho, -, h⟩
    rcases (mem_subtree.mp ho).2 with rfl | ha
    · rfl
    · exact absurd ha (valid.not_above_of_mem h)
  · rintro rfl
    exact ⟨mem_subtree_self hn, hc, mem_subtree_self hn⟩

/-- A variable with children is one level more on the way down from it. -/
theorem Valid.card_levels_child (valid : setup.Valid) (hc : child ∈ setup.children name)
    (hb : below ∈ setup.subtree child) :
    (setup.levels name below).card = (setup.levels child below).card + 1 := by
  have hlink := valid.mem_children.mp hc
  have hn := (valid.mem_names hlink).1
  have hsplit : setup.levels name below = insert name (setup.levels child below) := by
    ext other
    simp only [levels, Finset.mem_insert, Finset.mem_filter]
    constructor
    · rintro ⟨ho, hne, h⟩
      rcases (valid.mem_subtree_iff hn).mp ho with rfl | ⟨branch, hbranch, hm⟩
      · exact .inl rfl
      · obtain rfl := valid.eq_of_mem_subtrees hbranch hc (subtree_trans hm h) hb
        exact .inr ⟨hm, hne, h⟩
    · rintro (rfl | ⟨ho, hne, h⟩)
      · exact ⟨mem_subtree_self hn, List.ne_nil_of_mem hc, (valid.subtree_child hc hb).1⟩
      · exact ⟨(valid.subtree_child hc ho).1, hne, h⟩
  have hself : name ∉ setup.levels child below := by
    intro hm
    exact (valid.subtree_child hc (Finset.mem_filter.mp hm).1).2 rfl
  rw [hsplit, Finset.card_insert_of_notMem hself]

theorem Valid.size_eq (valid : setup.Valid) (hn : name ∈ setup.problem.names) :
    setup.size name = max (setup.domain name).length ((setup.children name).toFinset.sup setup.size)
      + if setup.children name = [] then 0 else 1 := by
  split
  next hleaf =>
    have hnone : setup.levels name name = ∅ := by
      refine Finset.filter_eq_empty_iff.mpr fun other ho => ?_
      rw [valid.subtree_leaf hn hleaf, Finset.mem_singleton] at ho
      simp [ho, hleaf]
    simp [size, valid.subtree_leaf hn hleaf, hnone, hleaf]
  next hc =>
    have hself := valid.levels_self hn hc
    refine le_antisymm (Finset.sup_le fun below hb => ?_) ?_
    · rcases (valid.mem_subtree_iff hn).mp hb with rfl | ⟨child, hchild, hm⟩
      · rw [hself]
        exact Nat.add_le_add_right (le_max_left _ _) 1
      · rw [valid.card_levels_child hchild hm, ← Nat.add_assoc]
        refine Nat.add_le_add_right (le_max_of_le_right ?_) 1
        exact (Finset.le_sup (f := fun below =>
            (setup.domain below).length + (setup.levels child below).card) hm).trans
          (Finset.le_sup (f := setup.size) (List.mem_toFinset.mpr hchild))
    · have hle : ∀ below ∈ setup.subtree name,
          (setup.domain below).length + (setup.levels name below).card ≤ setup.size name :=
        fun below hb => Finset.le_sup (f := fun below =>
          (setup.domain below).length + (setup.levels name below).card) hb
      have hown := hle name (mem_subtree_self hn)
      rw [hself, Finset.card_singleton] at hown
      have hchildren : (setup.children name).toFinset.sup setup.size + 1 ≤ setup.size name := by
        have hpos : ⊥ < setup.size name := by rw [Nat.bot_eq_zero]; omega
        refine Nat.succ_le_of_lt ((Finset.sup_lt_iff hpos).mpr fun child hchild => ?_)
        refine (Finset.sup_lt_iff hpos).mpr fun below hb => ?_
        have hchild := List.mem_toFinset.mp hchild
        have h := hle below (valid.subtree_child hchild hb).1
        rw [valid.card_levels_child hchild hb] at h
        omega
      omega

/-- What a variable itself adds. -/
def ownShape (setup : Setup K) (name : String) : Shape where
  spaceCount := (setup.enforced name).length
  size := (setup.domain name).length
  separator := (setup.view name).separator

/-- The number of spaces, the size and the separator of a subtree. -/
noncomputable def shape (setup : Setup K) (name : String) : Shape where
  spaceCount := ∑ below ∈ setup.subtree name, (setup.enforced below).length
  size := setup.size name
  separator := .ofList (setup.separator name)

theorem mem_separator_shape (valid : setup.Valid) :
    other ∈ (setup.shape name).separator ↔ setup.Depends name other := by
  rw [← valid.mem_separator]
  simp [shape]

/-- The shape of a subtree, child by child. -/
theorem Valid.shape_eq (valid : setup.Valid) (traced : setup.Traced)
    (hn : name ∈ setup.problem.names) : setup.shape name = (setup.ownShape name
      + ∑ child ∈ (setup.children name).toFinset, setup.shape child).close name
        (setup.view name).isLeaf := by
  have hseparator : (setup.shape name).separator = (setup.ownShape name
      + ∑ child ∈ (setup.children name).toFinset, setup.shape child).separator.erase name := by
    refine NameSet.ext fun other => ?_
    rw [mem_separator_shape valid, valid.depends_iff traced hn, Std.ExtTreeSet.mem_erase]
    have hne : compare name other ≠ .eq ↔ other ≠ name := by
      rw [ne_eq, Std.LawfulEqCmp.compare_eq_iff_eq, eq_comm]
    simp only [Shape.add_def, Std.ExtTreeSet.mem_union_iff, Shape.mem_separator_sum,
      mem_separator_shape valid, List.mem_toFinset, hne,
      show (setup.ownShape name).separator = (setup.view name).separator from rfl]
    exact and_comm
  have hsize : (setup.shape name).size = if (setup.view name).isLeaf then
        max (setup.domain name).length ((setup.children name).toFinset.sup setup.size)
      else max (setup.domain name).length ((setup.children name).toFinset.sup setup.size) + 1 := by
    refine (valid.size_eq hn).trans ?_
    have hleaf : (setup.view name).isLeaf = true ↔ setup.children name = [] := by
      simp [View.isLeaf, Setup.children]
    simp only [hleaf]
    split <;> rfl
  unfold Shape.close
  rw [← hseparator]
  simp only [Shape.add_def, Shape.spaceCount_sum, Shape.size_sum]
  rw [show (setup.ownShape name).size = (setup.domain name).length from rfl,
    show (fun child => (setup.shape child).size) = setup.size from rfl, ← hsize]
  simp only [shape, valid.sum_subtree hn]
  rfl

end

variable {F : Type} [Field F] [LinearOrder F] [LnSqrt F] {setup : Setup (Exact F)} {name : String}

/-- What a variable itself adds to the ends of the range. -/
def ownEnds (setup : Setup (Exact F)) (name : String) : Exact F × Exact F :=
  (((setup.enforced name).map (Range.shift setup.substitute)).sum,
    ((setup.enforced name).map (Range.crest setup.substitute)).sum)

/-- The sums of the least and of the largest costs of a subtree. -/
noncomputable def ends (setup : Setup (Exact F)) (name : String) : Exact F × Exact F :=
  ∑ below ∈ setup.subtree name, setup.ownEnds below

end Setup

end DcopSearch
