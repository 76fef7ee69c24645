import DcopSearch.Proofs.Protocol.Totals

/-! Width and height of a subtree, and its size measure beside them.  The width is the largest domain and
the height the number of levels below the variable.  The size measure counts with each domain only the
levels down to it, so it is the sum of width and height if a domain of full width lies at the bottom of
the subtree or just above it, and is less otherwise. -/

namespace DcopSearch

namespace Setup

variable {K : Type} {setup : Setup K} {name child below other : String}

open Classical in
/-- The variables of a subtree that are above one of them. -/
noncomputable def passed (setup : Setup K) (name below : String) : Finset String :=
  (setup.subtree name).filter fun other => setup.tree.Above other below

/-- By how many links a variable of a subtree is below its root. -/
noncomputable def depth (setup : Setup K) (name below : String) : Nat :=
  (setup.passed name below).card

/-- The number of levels below a variable. -/
noncomputable def height (setup : Setup K) (name : String) : Nat :=
  (setup.subtree name).sup (setup.depth name)

/-- The largest domain of a subtree. -/
noncomputable def width (setup : Setup K) (name : String) : Nat :=
  (setup.subtree name).sup fun below => (setup.domain below).length

theorem mem_passed : other ∈ setup.passed name below
    ↔ other ∈ setup.subtree name ∧ setup.tree.Above other below := by
  simp [passed]

theorem depth_le_height (hb : below ∈ setup.subtree name) :
    setup.depth name below ≤ setup.height name :=
  Finset.le_sup (f := setup.depth name) hb

theorem domain_le_width (hb : below ∈ setup.subtree name) :
    (setup.domain below).length ≤ setup.width name :=
  Finset.le_sup (f := fun below => (setup.domain below).length) hb

namespace Valid

variable (valid : setup.Valid)
include valid

theorem mem_subtree_of_child (hb : below ∈ setup.subtree name) (hc : child ∈ setup.children below) :
    child ∈ setup.subtree name := by
  have hlink := valid.mem_children.mp hc
  exact subtree_trans hb (mem_subtree.mpr ⟨(valid.mem_names hlink).2, .inr (.single hlink)⟩)

/-- What is above a variable has children. -/
theorem children_ne_nil (h : setup.tree.Above other below) : setup.children other ≠ [] := by
  obtain ⟨next, hn, -⟩ := Relation.TransGen.head'_iff.mp h
  exact List.ne_nil_of_mem (valid.mem_children.mpr hn)

theorem depth_self (name : String) : setup.depth name name = 0 := by
  refine Finset.card_eq_zero.mpr (Finset.eq_empty_of_forall_notMem fun other ho => ?_)
  obtain ⟨ho, ha⟩ := mem_passed.mp ho
  exact valid.not_above_of_mem ho ha

/-- A child is one link further down. -/
theorem depth_child (hb : below ∈ setup.subtree name) (hc : child ∈ setup.children below) :
    setup.depth name child = setup.depth name below + 1 := by
  have hlink := valid.mem_children.mp hc
  have hsplit : setup.passed name child = insert below (setup.passed name below) := by
    ext other
    rw [Finset.mem_insert, mem_passed, mem_passed]
    constructor
    · rintro ⟨ho, ha⟩
      exact (above_parent hlink ha).imp_right fun ha => ⟨ho, ha⟩
    · rintro (rfl | ⟨ho, ha⟩)
      · exact ⟨hb, .single hlink⟩
      · exact ⟨ho, ha.tail hlink⟩
  have hself : below ∉ setup.passed name below :=
    fun hm => valid.spans.above_irrefl below (mem_passed.mp hm).2
  rw [depth, hsplit, Finset.card_insert_of_notMem hself, depth]

/-- The levels that count with a variable are those above it, and its own if it has children. -/
theorem card_levels (hb : below ∈ setup.subtree name) : (setup.levels name below).card
    = setup.depth name below + if setup.children below = [] then 0 else 1 := by
  have hmem : ∀ other, other ∈ setup.levels name below ↔ other ∈ setup.subtree name ∧
      setup.children other ≠ [] ∧ (below = other ∨ setup.tree.Above other below) := by
    intro other
    have hother : below ∈ setup.subtree other ↔ below = other ∨ setup.tree.Above other below :=
      mem_subtree.trans (and_iff_right (mem_subtree.mp hb).1)
    rw [levels, Finset.mem_filter, hother]
  split
  next hleaf =>
    have hsame : setup.levels name below = setup.passed name below := by
      ext other
      rw [hmem, mem_passed]
      refine and_congr_right fun _ => ⟨?_, fun ha => ⟨valid.children_ne_nil ha, .inr ha⟩⟩
      rintro ⟨hne, rfl | ha⟩
      · exact absurd hleaf hne
      · exact ha
    rw [hsame, depth, Nat.add_zero]
  next hc =>
    have hsplit : setup.levels name below = insert below (setup.passed name below) := by
      ext other
      rw [hmem, Finset.mem_insert, mem_passed]
      constructor
      · rintro ⟨ho, -, rfl | ha⟩
        · exact .inl rfl
        · exact .inr ⟨ho, ha⟩
      · rintro (rfl | ⟨ho, ha⟩)
        · exact ⟨hb, hc, .inl rfl⟩
        · exact ⟨ho, valid.children_ne_nil ha, .inr ha⟩
    have hself : below ∉ setup.passed name below :=
      fun hm => valid.spans.above_irrefl below (mem_passed.mp hm).2
    rw [hsplit, Finset.card_insert_of_notMem hself, depth]

/-- No more levels count with a variable than there are, and all of them only at the bottom. -/
theorem card_levels_le (hb : below ∈ setup.subtree name) :
    (setup.levels name below).card ≤ setup.height name ∧
      ((setup.levels name below).card = setup.height name ↔ setup.depth name below = setup.height name ∨
        ∃ child ∈ setup.children below, setup.depth name child = setup.height name) := by
  have hdepth := depth_le_height hb
  rw [valid.card_levels hb]
  split
  next hleaf => simpa [hleaf] using hdepth
  next hc =>
    obtain ⟨first, hfirst⟩ := List.exists_mem_of_ne_nil _ hc
    have hnext : ∀ child ∈ setup.children below,
        setup.depth name child = setup.depth name below + 1 := fun child => valid.depth_child hb
    have hle := depth_le_height (valid.mem_subtree_of_child hb hfirst)
    rw [hnext first hfirst] at hle
    refine ⟨hle, fun he => .inr ⟨first, hfirst, (hnext first hfirst).trans he⟩, ?_⟩
    rintro (he | ⟨child, hchild, he⟩)
    · omega
    · rw [← he, hnext child hchild]

/-- The size of a subtree is at most its width and its height together. -/
theorem size_le (name : String) : setup.size name ≤ setup.width name + setup.height name :=
  Finset.sup_le fun _ hb => Nat.add_le_add (domain_le_width hb) (valid.card_levels_le hb).1

/-- The size is width and height together just if a variable with a domain of full width is on the lowest
level or has a child there. -/
theorem size_eq_iff (hn : name ∈ setup.problem.names) :
    setup.size name = setup.width name + setup.height name ↔ ∃ below ∈ setup.subtree name,
      (setup.domain below).length = setup.width name ∧ (setup.depth name below = setup.height name ∨
        ∃ child ∈ setup.children below, setup.depth name child = setup.height name) := by
  constructor
  · intro hsize
    obtain ⟨below, hb, he⟩ := Finset.exists_mem_eq_sup (setup.subtree name)
      ⟨name, mem_subtree_self hn⟩
      fun below => (setup.domain below).length + (setup.levels name below).card
    have hwidth := domain_le_width hb
    obtain ⟨hheight, hlowest⟩ := valid.card_levels_le hb
    have hsum : (setup.domain below).length + (setup.levels name below).card
        = setup.width name + setup.height name := he.symm.trans hsize
    exact ⟨below, hb, by omega, hlowest.mp (by omega)⟩
  · rintro ⟨below, hb, hwidth, hlowest⟩
    have hheight := (valid.card_levels_le hb).2.mpr hlowest
    have hle : (setup.domain below).length + (setup.levels name below).card ≤ setup.size name :=
      Finset.le_sup (f := fun below =>
        (setup.domain below).length + (setup.levels name below).card) hb
    have hsize := valid.size_le name
    omega

/-- The largest value in a subtree, child by child. -/
theorem sup_subtree (hn : name ∈ setup.problem.names) (f : String → Nat) :
    (setup.subtree name).sup f
      = max (f name) ((setup.children name).toFinset.sup fun child => (setup.subtree child).sup f) := by
  have hsplit : setup.subtree name
      = insert name ((setup.children name).toFinset.biUnion setup.subtree) := by
    ext other
    simp [valid.mem_subtree_iff hn]
  rw [hsplit, Finset.sup_insert, Finset.sup_biUnion]

/-- The size of a subtree with at most one level below its root. -/
theorem size_of_flat (hn : name ∈ setup.problem.names)
    (hflat : ∀ child ∈ setup.children name, setup.children child = []) :
    setup.size name = setup.width name + setup.height name := by
  have hself := mem_subtree_self hn
  have hchild : ∀ child ∈ setup.children name,
      setup.subtree child = {child} ∧ setup.depth name child = 1 := by
    intro child hc
    have hnext := valid.depth_child hself hc
    rw [valid.depth_self] at hnext
    exact ⟨valid.subtree_leaf (valid.mem_names (valid.mem_children.mp hc)).2 (hflat child hc), hnext⟩
  have hlevels : setup.height name = if setup.children name = [] then 0 else 1 := by
    rw [height, valid.sup_subtree hn, valid.depth_self, Nat.zero_max]
    split
    next hleaf => simp [hleaf]
    next hc =>
      rw [Finset.sup_congr rfl (g := fun _ => 1) fun child hm => ?_, Finset.sup_const]
      · simpa using hc
      · obtain ⟨hsub, hdepth⟩ := hchild child (List.mem_toFinset.mp hm)
        rw [hsub, Finset.sup_singleton, hdepth]
  obtain ⟨below, hb, hwidth⟩ := Finset.exists_mem_eq_sup (setup.subtree name) ⟨name, hself⟩
    fun below => (setup.domain below).length
  refine (valid.size_eq_iff hn).mpr ⟨below, hb, hwidth.symm, ?_⟩
  rcases (valid.mem_subtree_iff hn).mp hb with rfl | ⟨child, hc, hm⟩
  · by_cases hleaf : setup.children below = []
    · exact .inl (by rw [valid.depth_self, hlevels, if_pos hleaf])
    · obtain ⟨first, hfirst⟩ := List.exists_mem_of_ne_nil _ hleaf
      exact .inr ⟨first, hfirst, by rw [(hchild first hfirst).2, hlevels, if_neg hleaf]⟩
  · obtain ⟨hsub, hdepth⟩ := hchild child hc
    obtain rfl := Finset.mem_singleton.mp (hsub ▸ hm)
    exact .inl (by rw [hdepth, hlevels, if_neg (List.ne_nil_of_mem hc)])

end Valid

end Setup

end DcopSearch
