import DcopSearch.Proofs.Protocol.Invariant
import Mathlib.Algebra.BigOperators.Group.Finset.Basic

/-! Subtrees.  A variable's subtree is the variable and the disjoint subtrees of its children, so that
what is summed over a subtree can be summed child by child. -/

namespace DcopSearch

variable {K : Type}

namespace Setup

open Classical in
/-- A variable and all below it. -/
noncomputable def subtree (setup : Setup K) (name : String) : Finset String :=
  setup.problem.names.toFinset.filter fun other => other = name ∨ setup.tree.Above name other

variable {setup : Setup K} {name other child : String}

theorem mem_subtree :
    other ∈ setup.subtree name
      ↔ other ∈ setup.problem.names ∧ (other = name ∨ setup.tree.Above name other) := by
  simp [subtree]

theorem mem_subtree_self (hn : name ∈ setup.problem.names) : name ∈ setup.subtree name :=
  mem_subtree.mpr ⟨hn, .inl rfl⟩

theorem Valid.not_above_of_mem (valid : setup.Valid) (h : other ∈ setup.subtree name) :
    ¬setup.tree.Above other name := by
  intro ha
  rcases (mem_subtree.mp h).2 with rfl | hb
  · exact valid.spans.above_irrefl other ha
  · exact valid.spans.above_irrefl name (hb.trans ha)

theorem Valid.mem_subtree_iff (valid : setup.Valid) (hn : name ∈ setup.problem.names) :
    other ∈ setup.subtree name
      ↔ other = name ∨ ∃ child ∈ setup.children name, other ∈ setup.subtree child := by
  constructor
  · intro h
    obtain ⟨ho, rfl | ha⟩ := mem_subtree.mp h
    · exact .inl rfl
    · obtain ⟨child, hc, hrest⟩ := Relation.TransGen.head'_iff.mp ha
      refine .inr ⟨child, valid.mem_children.mpr hc, mem_subtree.mpr ⟨ho, ?_⟩⟩
      exact (Relation.reflTransGen_iff_eq_or_transGen.mp hrest).imp_left id
  · rintro (rfl | ⟨child, hc, h⟩)
    · exact mem_subtree_self hn
    · obtain ⟨ho, he⟩ := mem_subtree.mp h
      have hlink : setup.tree.Above name child := .single (valid.mem_children.mp hc)
      refine mem_subtree.mpr ⟨ho, .inr ?_⟩
      rcases he with rfl | ha
      · exact hlink
      · exact hlink.trans ha

theorem Valid.subtree_child (valid : setup.Valid) (hc : child ∈ setup.children name)
    (h : other ∈ setup.subtree child) : other ∈ setup.subtree name ∧ other ≠ name := by
  have hlink := valid.mem_children.mp hc
  refine ⟨(valid.mem_subtree_iff (valid.mem_names hlink).1).mpr (.inr ⟨child, hc, h⟩), ?_⟩
  rintro rfl
  exact valid.not_above_of_mem h (.single hlink)

/-- The subtrees of two children have nothing in common. -/
theorem Valid.eq_of_mem_subtrees (valid : setup.Valid) {first second : String}
    (hf : first ∈ setup.children name) (hs : second ∈ setup.children name)
    (h : other ∈ setup.subtree first) (h' : other ∈ setup.subtree second) : first = second := by
  have hunique : Relator.RightUnique fun x y => (setup.tree.view x).parent = some y :=
    fun _ _ _ hy hz => Option.some.inj (hy.symm.trans hz)
  have hchain : ∀ {child}, other ∈ setup.subtree child →
      Relation.ReflTransGen (fun x y => (setup.tree.view x).parent = some y) other child := by
    intro child hm
    rcases (mem_subtree.mp hm).2 with rfl | ha
    · exact .refl
    · exact (Relation.transGen_swap.mpr ha).to_reflTransGen
  -- one of the two chains to the root goes through both, and so through their parent twice
  have habove : ∀ {x y}, x ∈ setup.children name → y ∈ setup.children name →
      Relation.ReflTransGen (fun x y => (setup.tree.view x).parent = some y) x y → x = y := by
    intro x y hx hy hxy
    rcases Relation.ReflTransGen.cases_head hxy with he | ⟨parent, hp, hrest⟩
    · exact he
    · obtain rfl : name = parent := hunique (valid.mem_children.mp hx) hp
      refine absurd ?_ (valid.spans.above_irrefl name)
      refine .head' (valid.mem_children.mp hy) ?_
      exact Relation.reflTransGen_swap.mp hrest
  rcases Relation.ReflTransGen.total_of_right_unique hunique (hchain h) (hchain h')
    with hxy | hxy
  · exact habove hf hs hxy
  · exact (habove hs hf hxy).symm

/-- A sum over a subtree, child by child. -/
theorem Valid.sum_subtree {M : Type} [AddCommMonoid M] (valid : setup.Valid)
    (hn : name ∈ setup.problem.names) (f : String → M) :
    ∑ other ∈ setup.subtree name, f other
      = f name + ∑ child ∈ (setup.children name).toFinset, ∑ other ∈ setup.subtree child, f other := by
  have hsplit : setup.subtree name
      = insert name ((setup.children name).toFinset.biUnion setup.subtree) := by
    ext other
    simp [valid.mem_subtree_iff hn]
  have hself : name ∉ (setup.children name).toFinset.biUnion setup.subtree := by
    intro hm
    obtain ⟨child, hc, h⟩ := Finset.mem_biUnion.mp hm
    exact (valid.subtree_child (List.mem_toFinset.mp hc) h).2 rfl
  rw [hsplit, Finset.sum_insert hself, Finset.sum_biUnion]
  intro first hf second hs hne
  rw [Finset.mem_coe, List.mem_toFinset] at hf hs
  exact Finset.disjoint_left.mpr fun other h h' => hne (valid.eq_of_mem_subtrees hf hs h h')

end Setup

end DcopSearch
