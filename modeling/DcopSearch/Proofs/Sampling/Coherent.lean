import DcopSearch.Proofs.Bandit.Fair
import DcopSearch.Proofs.Sampling.Acts

/-! The bandit nodes of a variable tell the truth about its contexts.  In the node of a context every
value costs what it costs there in the variable's own spaces, unless it was pruned, which takes a
reason; a node is chosen by the context, and what is drawn from it is feasible.  What can be a reason
is left open here. -/

namespace DcopSearch

open CostArithmetic

variable {K G : Type}

namespace SamplingState

/-- The context of a key: the values that it gives to the slots. -/
def contextOf (s : SamplingState K) (key : List Value) (name : String) : Option Value :=
  ((s.slots.map Slot.name).zip key).lookup name

/-- The context of a key with an own value. -/
def under (s : SamplingState K) (key : List Value) (own : Value) : String → Option Value :=
  Function.update (s.contextOf key) s.name (some own)

variable {problem : Problem K} {s t : SamplingState K}

theorem under_congr (hname : t.name = s.name)
    (hslots : t.slots.map Slot.name = s.slots.map Slot.name) : t.under = s.under := by
  have hcontext : t.contextOf = s.contextOf := by
    funext key name
    rw [contextOf, contextOf, hslots]
  funext key own
  rw [under, under, hname, hcontext]

/-- The context that is handed down gives each name the value it has under the key of the slots. -/
theorem Sound.lookup_entries (h : s.Sound problem) (own : Value) (name : String) :
    (s.entries own).lookup name = s.under s.contextKey own name := by
  have hzip : (s.slots.map Slot.name).zip s.contextKey
      = s.slots.map fun slot => (slot.name, slot.value.getD 0) := List.zip_map' ..
  rw [entries, List.lookup_append, under, Function.update_apply]
  by_cases hn : name = s.name
  · subst hn
    have hnone : (s.slots.map fun slot => (slot.name, slot.value.getD 0)).lookup s.name = none := by
      rw [List.lookup_eq_none_iff]
      intro entry hm
      obtain ⟨slot, hs, rfl⟩ := List.mem_map.mp hm
      simpa using fun he : s.name = slot.name => (List.nodup_append.mp h.names).2.2 slot.name
        (List.mem_map_of_mem hs) s.name (by simp) he.symm
    simp [hnone]
  · have hne : (name == s.name) = false := by simpa using hn
    simp [hn, List.lookup_cons, hne, contextOf, hzip]

variable [CostArithmetic K]

/-- What a value costs in the variable's own spaces under the context of a key. -/
def costAt (s : SamplingState K) (key : List Value) (own : Value) : K :=
  total (s.spaces.filterMap (·.lookup? (s.under key own)))

theorem Sound.ownCost_eq (h : s.Sound problem) (own : Value) :
    s.ownCost own = s.costAt s.contextKey own := by
  rw [ownCost, costAt, funext (h.lookup_entries own)]

/-- The node has the costs of the values under the context of the key.  A value that is infinite
without being so by itself is dead there. -/
def Prices (dead : (String → Option Value) → Prop) (s : SamplingState K) (key : List Value)
    (node : BanditNode K) : Prop :=
  ∀ (i : Nat) (own : Value), s.domain[i]? = some own → ∃ cost, node.costs[i]? = some cost ∧
    (cost = s.costAt key own ∨ isInfinite cost = true ∧ dead (s.under key own))

/-- The nodes are fair and belong to one context each, whose costs they have. -/
structure Coherent (settings : SamplingSettings K) (dead : (String → Option Value) → Prop)
    (s : SamplingState K) : Prop where
  nodes : ∀ node ∈ s.nodes, node.Fair ∧ node.objective = settings.objective ∧
    node.ignoreInfeasible = settings.ignoreInfeasible
  distinct : ∀ (key key' : List Value) (place : Nat), s.index[key]? = some place →
    s.index[key']? = some place → key = key'
  prices : ∀ (key : List Value) (place : Nat) (node : BanditNode K), s.index[key]? = some place →
    s.nodes[place]? = some node → s.Prices dead key node

/-- The active node is the one of the context. -/
def Opened (s : SamplingState K) : Prop :=
  ∃ place, s.active = some place ∧ s.index[s.contextKey]? = some place

/-- A feasible value of the active node is held, which counts as drawn. -/
structure Samples (s : SamplingState K) : Prop where
  opened : s.Opened
  held : ∃ node i, s.node? = some node ∧ s.current = some i ∧ node.isFeasible i = true ∧
    i ∉ node.unexplored

variable {settings : SamplingSettings K} {dead : (String → Option Value) → Prop}

theorem costAt_congr (hunder : t.under = s.under) (hspaces : t.spaces = s.spaces) :
    t.costAt = s.costAt := by
  funext key own
  rw [costAt, costAt, hunder, hspaces]

theorem Prices.congr {key : List Value} {node other : BanditNode K} (h : s.Prices dead key node)
    (hcosts : other.costs = node.costs) : s.Prices dead key other := by
  intro i own hi
  rw [hcosts]
  exact h i own hi

theorem Coherent.congr (h : s.Coherent settings dead) (hname : t.name = s.name)
    (hslots : t.slots.map Slot.name = s.slots.map Slot.name) (hdomain : t.domain = s.domain)
    (hspaces : t.spaces = s.spaces) (hnodes : t.nodes = s.nodes) (hindex : t.index = s.index) :
    t.Coherent settings dead := by
  have hunder := under_congr hname hslots
  have hcost := costAt_congr hunder hspaces
  refine ⟨hnodes ▸ h.nodes, hindex ▸ h.distinct, fun key place node hk hp i own hi => ?_⟩
  rw [hindex] at hk
  rw [hnodes] at hp
  rw [hdomain] at hi
  rw [hunder, hcost]
  exact h.prices key place node hk hp i own hi

omit [CostArithmetic K] in
theorem Opened.isSome (h : s.Opened) : s.active.isSome := by
  obtain ⟨place, ha, -⟩ := h
  rw [ha]
  rfl

omit [CostArithmetic K] in
theorem Opened.node_eq (h : s.Opened) {place : Nat}
    (hp : s.index[s.contextKey]? = some place) : s.node? = s.nodes[place]? := by
  obtain ⟨active, ha, hi⟩ := h
  obtain rfl := Option.some.inj (hi.symm.trans hp)
  simp [node?, ha]

theorem Coherent.prices_node (h : s.Coherent settings dead) (ho : s.Opened) {node : BanditNode K}
    (hn : s.node? = some node) : s.Prices dead s.contextKey node := by
  obtain ⟨place, ha, hp⟩ := id ho
  exact h.prices _ place node hp (ho.node_eq hp ▸ hn)

theorem Coherent.of_node (h : s.Coherent settings dead) {node : BanditNode K}
    (hn : s.node? = some node) : node.Fair ∧ node.objective = settings.objective ∧
      node.ignoreInfeasible = settings.ignoreInfeasible := by
  obtain ⟨place, _, hp⟩ := Option.bind_eq_some_iff.mp hn
  exact h.nodes node (List.mem_of_getElem? hp)

/-- The active node is replaced by another one for the same context. -/
theorem Coherent.setNode (h : s.Coherent settings dead) (ho : s.Opened) {node : BanditNode K}
    (hfair : node.Fair) (hobjective : node.objective = settings.objective)
    (hignore : node.ignoreInfeasible = settings.ignoreInfeasible)
    (hprices : s.Prices dead s.contextKey node) : (s.setNode node).Coherent settings dead := by
  obtain ⟨active, ha, hactive⟩ := ho
  refine ⟨fun other ho => ?_, h.distinct, fun key place other hk hp => ?_⟩
  · rw [nodes_setNode ha] at ho
    rcases List.mem_or_eq_of_mem_set ho with ho | rfl
    · exact h.nodes other ho
    · exact ⟨hfair, hobjective, hignore⟩
  · rw [nodes_setNode ha, List.getElem?_set] at hp
    split at hp
    next he =>
      subst he
      obtain rfl := h.distinct key s.contextKey active hk hactive
      split at hp
      · obtain rfl := Option.some.inj hp
        exact hprices
      · cases hp
    next => exact h.prices key place other hk hp

/-- A context that was not met before gets a node with its costs. -/
theorem Coherent.addNode (h : s.Coherent settings dead) (hs : s.Sound problem)
    (hfeasible : settings.ignoreInfeasible = true ∨
      ∀ own ∈ s.domain, isInfinite (s.ownCost own) = false) :
    (s.addNode s.contextKey (.ofCosts (s.domain.map s.ownCost) settings.objective
      settings.ignoreInfeasible)).Coherent settings dead := by
  have hfair : (BanditNode.ofCosts (s.domain.map s.ownCost) settings.objective
      settings.ignoreInfeasible).Fair :=
    BanditNode.fair_ofCosts _ (hfeasible.imp_right fun hall cost hc => by
      obtain ⟨own, hm, rfl⟩ := List.mem_map.mp hc
      exact hall own hm)
  refine ⟨fun node hn => ?_, fun key key' place hk hk' => ?_, fun key place node hk hp => ?_⟩
  · rcases mem_nodes_addNode.mp hn with hn | rfl
    · exact h.nodes node hn
    · exact ⟨hfair, rfl, rfl⟩
  · exact distinct_addNode hs.index h.distinct hk hk'
  · rcases found_addNode hs.index hk hp with ⟨rfl, rfl⟩ | ⟨hk, hp⟩
    · intro i own hi
      refine ⟨s.ownCost own, ?_, .inl (hs.ownCost_eq own)⟩
      rw [BanditNode.costs_ofCosts, List.getElem?_map, show s.domain[i]? = some own from hi]
      rfl
    · exact h.prices key place node hk hp

omit [CostArithmetic K] in
theorem opened_addNode (s : SamplingState K) (node : BanditNode K) :
    (s.addNode s.contextKey node).Opened :=
  ⟨s.nodes.length, rfl, by simp [SamplingState.addNode, contextKey]⟩

end SamplingState

end DcopSearch
