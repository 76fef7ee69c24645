import DcopSearch.Proofs.Bandit.Steady

/-! When a method is asked, and what a draw leaves.  As long as a value not yet drawn is found, chance
alone decides; the method is asked when none of them is left, and only about a node in which every value
was drawn or passed over.  A draw counts one visit of the value it chooses and does nothing else to the
statistics. -/

namespace DcopSearch

open CostArithmetic

variable {K G : Type} [CostArithmetic K] [Generator G]

namespace BanditNode

/-- The node about which the method is asked in a draw: for the value to sample and, if exploring has only
just come to its end, for leader and next value before that. -/
def asked? (node : BanditNode K) (generator : G) : Option (BanditNode K) :=
  if node.exploring then
    let explored := node.drawUnexplored generator
    if explored.chosen.isSome || explored.node.feasibleCount == 0 then none else some explored.node
  else if node.feasibleCount == 0 then none
  else some node

variable {n : Nat} {node asked : BanditNode K} {generator : G}

/-- The draw of a method that is asked. -/
theorem draw_of_asked (h : node.asked? generator = some asked) (method : SamplingMethod) :
    ∃ later : G, node.draw method generator
      = (if node.exploring then method.process asked else asked).drawSelected method later := by
  unfold asked? at h
  unfold BanditNode.draw
  split at h
  next hx =>
    simp only at h ⊢
    split at h
    · cases h
    next hgo =>
      cases h
      refine ⟨(node.drawUnexplored generator).generator, ?_⟩
      rw [if_pos hx, if_neg hgo, if_pos hx]
  next hx =>
    split at h
    · cases h
    next hgo =>
      cases h
      exact ⟨generator, by rw [if_neg hx, if_neg hgo, if_neg hx]⟩

/-- The draw does not depend on a method that is not asked. -/
theorem draw_of_not_asked (h : node.asked? generator = none) (method : SamplingMethod) :
    node.draw method generator
      = if node.exploring then node.drawUnexplored generator else { chosen := none, node, generator } := by
  unfold asked? at h
  unfold BanditNode.draw
  split at h
  next hx =>
    simp only at h ⊢
    split at h
    next hstop => rw [if_pos hx, if_pos hstop, if_pos hx]
    · cases h
  next hx =>
    split at h
    next hstop => rw [if_neg hx, if_pos hstop, if_neg hx]
    · cases h

/-- What a draw leaves. -/
structure DrawsOnce (node : BanditNode K) (draw : Draw K G) : Prop where
  frequency : draw.node.frequency = node.frequency
  /-- The visit of the value is counted, if there is one. -/
  arms : draw.node.arms = draw.chosen.elim node.arms fun index => (node.countVisit index).arms
  /-- A value not yet drawn is the one, still is not drawn, or has been passed over. -/
  left : ∀ i ∈ node.unexplored, draw.chosen = some i ∨ i ∈ draw.node.unexplored ∨
    node.ignoreInfeasible = true ∧ node.isFeasible i = false

omit [Generator G] in
theorem DrawsOnce.isFeasible {draw : Draw K G} (h : node.DrawsOnce draw) :
    draw.node.isFeasible = node.isFeasible := by
  refine isFeasible_congr ?_
  rw [costs, h.arms]
  cases draw.chosen with
  | none => rfl
  | some index => exact costs_countVisit node index

omit [Generator G] in
theorem DrawsOnce.visits {draw : Draw K G} (h : node.DrawsOnce draw) {i : Nat}
    (hi : i < node.arms.length) :
    draw.node.visits i = node.visits i + if draw.chosen = some i then 1 else 0 := by
  rw [BanditNode.visits, h.arms]
  cases draw.chosen with
  | none => simp [BanditNode.visits]
  | some index =>
    by_cases he : index = i
    · subst he
      simpa [BanditNode.visits] using visits_countVisit hi index
    · simp [BanditNode.visits, countVisit, he]

theorem drawsOnce_drawUnexplored (node : BanditNode K) (generator : G) :
    node.DrawsOnce (node.drawUnexplored generator) := by
  induction node, generator using drawUnexplored_induction with
  | passed node generator later index rest hperm hignore hinfeasible hdraw ih =>
    rw [hdraw]
    refine ⟨ih.frequency, ih.arms, fun i hi => ?_⟩
    rcases List.mem_cons.mp (hperm.mem_iff.mpr hi) with rfl | hi
    · exact .inr (.inr ⟨hignore, hinfeasible⟩)
    · exact ih.left i hi
  | taken node generator later index rest hperm _ hdraw =>
    rw [hdraw]
    refine ⟨rfl, rfl, fun i hi => ?_⟩
    rcases List.mem_cons.mp (hperm.mem_iff.mpr hi) with rfl | hi
    · exact .inl rfl
    · exact .inr (.inl hi)
  | spent node generator hnil hdraw =>
    rw [hdraw]
    exact ⟨rfl, rfl, fun i hi => .inr (.inl hi)⟩

theorem drawsOnce_drawSelected (node : BanditNode K) (method : SamplingMethod) (generator : G) :
    node.DrawsOnce (node.drawSelected method generator) ∧
      (node.drawSelected method generator).node.unexplored = node.unexplored := by
  unfold drawSelected
  split <;> exact ⟨⟨rfl, rfl, fun i hi => .inr (.inl hi)⟩, rfl⟩

omit [Generator G] in
/-- A draw that chooses no value is followed by another one. -/
theorem DrawsOnce.followed {draw later : Draw K G} {between : BanditNode K} (h : node.DrawsOnce draw)
    (hnone : draw.chosen = none) (hlater : between.DrawsOnce later)
    (harms : between.arms = draw.node.arms) (hfrequency : between.frequency = draw.node.frequency)
    (hleft : later.node.unexplored = draw.node.unexplored) : node.DrawsOnce later := by
  have hsame : between.arms = node.arms := by rw [harms, h.arms, hnone]; rfl
  refine ⟨hlater.frequency.trans (hfrequency.trans h.frequency), ?_, fun i hi => .inr ?_⟩
  · rw [hlater.arms]
    cases later.chosen with
    | none => exact hsame
    | some index =>
      show (between.countVisit index).arms = (node.countVisit index).arms
      rw [countVisit, countVisit, hsame]
  · rw [hleft]
    exact (h.left i hi).resolve_left (by simp [hnone])

/-- Whatever the node. -/
theorem drawsOnce_draw (node : BanditNode K) (method : SamplingMethod) (generator : G) :
    node.DrawsOnce (node.draw method generator) := by
  have hexplored := drawsOnce_drawUnexplored node generator
  rcases node.draw_cases method generator with
    ⟨-, -, hdraw⟩ | ⟨-, hnone, hdraw⟩ | ⟨-, -, hdraw⟩ | ⟨-, hdraw⟩ <;> rw [hdraw]
  · exact hexplored
  · obtain ⟨hselected, hleft⟩ := drawsOnce_drawSelected
      (method.process (node.drawUnexplored generator).node) method
      (node.drawUnexplored generator).generator
    exact hexplored.followed hnone hselected rfl rfl hleft
  · exact ⟨rfl, rfl, fun i hi => .inr (.inl hi)⟩
  · exact (drawsOnce_drawSelected node method generator).1

/-- What is known of a node about which the method is asked. -/
structure Explored (node asked : BanditNode K) : Prop where
  arms : asked.arms = node.arms
  unexplored : asked.unexplored = []
  /-- The values not yet drawn, if there were any, have all been passed over. -/
  passed : ∀ i ∈ node.unexplored, node.ignoreInfeasible = true ∧ node.isFeasible i = false

theorem Steady.explored_of_asked (h : node.Steady n) (hasked : node.asked? generator = some asked) :
    node.Explored asked := by
  unfold asked? at hasked
  split at hasked
  next hx =>
    simp only at hasked
    split at hasked
    · cases hasked
    next hgo =>
      cases hasked
      have hnone : (node.drawUnexplored generator).chosen = none := by
        simp only [Bool.or_eq_true, not_or] at hgo
        simpa using hgo.1
      have hfresh := h.drawUnexplored generator
      have honce := drawsOnce_drawUnexplored node generator
      have hnil : (node.drawUnexplored generator).node.unexplored = [] :=
        hfresh.steady.fair.explored (hfresh.none hnone).1
      refine ⟨by rw [honce.arms, hnone]; rfl, hnil, fun i hi => ?_⟩
      rcases honce.left i hi with hc | hm | hp
      · rw [hnone] at hc
        cases hc
      · rw [hnil] at hm
        cases hm
      · exact hp
  next hx =>
    split at hasked
    · cases hasked
    · cases hasked
      have hx : node.exploring = false := by simpa using hx
      have hnil : node.unexplored = [] := h.fair.explored hx
      exact ⟨rfl, hnil, by simp [hnil]⟩

/-- From a steady node a value that was drawn before is chosen only when none is left that was not
drawn. -/
theorem Steady.chosen_fresh (h : node.Steady n) (method : SamplingMethod) {index : Nat}
    (hchosen : (node.draw method generator).chosen = some index) :
    index ∈ node.unexplored ∨ (node.draw method generator).node.unexplored = [] := by
  cases hasked : node.asked? generator with
  | none =>
    rw [draw_of_not_asked hasked] at hchosen
    split at hchosen
    · exact .inl ((h.drawUnexplored generator).chosen index hchosen).2
    · cases hchosen
  | some asked =>
    obtain ⟨later, hdraw⟩ := draw_of_asked hasked method
    have hnil := (h.explored_of_asked hasked).unexplored
    rw [hdraw, (drawsOnce_drawSelected _ method later).2]
    split <;> exact .inr hnil

end BanditNode

end DcopSearch
