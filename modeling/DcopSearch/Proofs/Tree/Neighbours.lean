import DcopSearch.Proofs.Tree.Spanning

/-! The depth-first tree follows the constraint graph.  Its links join neighbours only, so that the
view of a variable names exactly the neighbours above and below it; what is connected in the graph is
one tree, and a space belongs to the lowest variable of its scope. -/

namespace DcopSearch

namespace Search

variable {adjacent : String → List String} {names : List String} {s t : Search}

/-- Links join neighbours. -/
def Close (adjacent : String → List String) (links : List Link) : Prop :=
  ∀ x y, .tree x y ∈ links ∨ .back x y ∈ links → y ∈ adjacent x

theorem Close.append {links : List Link} {link : Link} (h : Close adjacent links)
    (hl : ∀ x y, link = .tree x y ∨ link = .back x y → y ∈ adjacent x) :
    Close adjacent (links ++ [link]) := by
  intro x y hm
  simp only [List.mem_append, List.mem_singleton] at hm
  rcases hm with (hm | rfl) | (hm | rfl)
  · exact h x y (.inl hm)
  · exact hl x y (.inl rfl)
  · exact h x y (.inr hm)
  · exact hl x y (.inr rfl)

theorem Close.step (h : Close adjacent s.links) (hpend : Pending adjacent s)
    (hs : s.step adjacent = some t) : Close adjacent t.links := by
  unfold Search.step at hs
  split at hs
  next hp =>
    split at hs
    · cases hs
    · obtain rfl := Option.some.inj hs
      exact h.append (by simp)
  next hp =>
    obtain rfl := Option.some.inj hs
    exact h
  next name next pending below hp =>
    have hadj : next ∈ adjacent name := hpend ⟨name, next :: pending⟩ (by simp [hp]) next (by simp)
    split at hs <;> obtain rfl := Option.some.inj hs
    · refine h.append ?_
      rintro x y (he | he) <;> cases he
      exact hadj
    · simp only
      split
      · refine h.append ?_
        rintro x y (he | he) <;> cases he
        exact hadj
      · simpa using h

theorem close_explore : Close adjacent (explore adjacent names) :=
  (finish_keeps (P := fun s => Close adjacent s.links ∧ Pending adjacent s)
    (fun _ _ h hs => ⟨h.1.step h.2 hs, h.2.step hs⟩)
    ⟨by simp [Close], by simp [Pending]⟩).1

end Search

namespace PseudoTree

variable {K : Type} {problem : Problem K} {tree : PseudoTree} {name other : String}

/-- The views name the neighbours, and tell those above from those below. -/
structure Traces (tree : PseudoTree) (problem : Problem K) : Prop where
  separator : ∀ name other, other ∈ (tree.view name).separator
    ↔ tree.Above other name ∧ other ∈ problem.neighbours name
  below : ∀ name other, other ∈ (tree.view name).below
    ↔ tree.Above name other ∧ other ∈ problem.neighbours name
  comparable : ∀ name other, other ∈ problem.neighbours name →
    tree.Above other name ∨ tree.Above name other

theorem mem_names_of_neighbour (wf : problem.WellFormed) (h : other ∈ problem.neighbours name) :
    name ∈ problem.names := by
  obtain ⟨_, space, hs, hn, _⟩ := Problem.mem_neighbours.mp h
  exact mem_scope_names wf hs hn

theorem neighbour_of_link {x y : String}
    (hl : .tree x y ∈ links problem ∨ .back x y ∈ links problem) : y ∈ problem.neighbours x :=
  Std.ExtTreeSet.mem_toList.mp (Search.close_explore x y hl)

theorem mem_pseudoParents_generate (wf : problem.WellFormed) :
    other ∈ ((generate problem).view name).pseudoParents ↔ .back name other ∈ links problem := by
  by_cases hn : name ∈ problem.names
  · rw [view_generate hn, View.mem_pseudoParents_ofLinks]
  · rw [view_generate_of_not_mem hn]
    exact iff_of_false (by simp) fun hl =>
      hn (mem_names_of_neighbour wf (neighbour_of_link (.inr hl)))

theorem mem_pseudoChildren_generate (wf : problem.WellFormed) :
    other ∈ ((generate problem).view name).pseudoChildren ↔ .back other name ∈ links problem := by
  by_cases hn : name ∈ problem.names
  · rw [view_generate hn, View.mem_pseudoChildren_ofLinks]
  · rw [view_generate_of_not_mem hn]
    exact iff_of_false (by simp) fun hl => hn (mem_names_of_neighbour wf
      (Problem.mem_neighbours_comm.mp (neighbour_of_link (.inr hl))))

theorem mem_separator_generate (wf : problem.WellFormed) :
    other ∈ ((generate problem).view name).separator
      ↔ .tree other name ∈ links problem ∨ .back name other ∈ links problem := by
  rw [View.mem_separator, parent_generate wf, mem_pseudoParents_generate wf]

theorem mem_below_generate (wf : problem.WellFormed) :
    other ∈ ((generate problem).view name).below
      ↔ .tree name other ∈ links problem ∨ .back other name ∈ links problem := by
  rw [View.mem_below, mem_children_generate wf, mem_pseudoChildren_generate wf]

theorem traces_generate (wf : problem.WellFormed) : (generate problem).Traces problem := by
  have spans := spans_generate wf
  have hex := explored_links wf
  have hup : ∀ x y, .tree x y ∈ links problem ∨ .back y x ∈ links problem →
      (generate problem).Above x y ∧ x ∈ problem.neighbours y := by
    rintro x y (hl | hl)
    · exact ⟨.single ((parent_generate wf).mpr hl),
        Problem.mem_neighbours_comm.mp (neighbour_of_link (.inl hl))⟩
    · exact ⟨(above_generate wf).mpr (hex.backs y x hl), neighbour_of_link (.inr hl)⟩
  -- neighbours are joined by a link, and only one that leads up or down
  have hjoined : ∀ x y, y ∈ problem.neighbours x →
      (.tree x y ∈ links problem ∨ .back y x ∈ links problem) ∨
        (.tree y x ∈ links problem ∨ .back x y ∈ links problem) := by
    intro x y hy
    have hj := hex.joined x (mem_names_of_neighbour wf hy) y (Std.ExtTreeSet.mem_toList.mpr hy)
    unfold Link.Joined at hj
    tauto
  have hasymm : ∀ x y, (generate problem).Above x y → ¬(generate problem).Above y x :=
    fun x y hxy hyx => spans.above_irrefl x (hxy.trans hyx)
  refine ⟨fun name other => ?_, fun name other => ?_, fun name other h => ?_⟩
  · rw [mem_separator_generate wf]
    refine ⟨hup other name, fun ⟨ha, hm⟩ => (hjoined name other hm).resolve_left fun hl => ?_⟩
    exact hasymm name other (hup name other hl).1 ha
  · rw [mem_below_generate wf]
    refine ⟨fun hl => ?_, fun ⟨ha, hm⟩ => (hjoined name other hm).resolve_right fun hl => ?_⟩
    · obtain ⟨ha, hm⟩ := hup name other hl
      exact ⟨ha, Problem.mem_neighbours_comm.mp hm⟩
    · exact hasymm name other ha (hup other name hl).1
  · rcases hjoined name other h with hl | hl
    · exact .inr (hup name other hl).1
    · exact .inl (hup other name hl).1

end PseudoTree

end DcopSearch
