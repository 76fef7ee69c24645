import DcopSearch.Proofs.Sampling.Context

/-! What a variable does when it reacts.  It reports to its parent, hands a sample to its children or
ends, and nothing else: from a sound state that is informed no reaction fails.  The place of the
variable, its slots and its spaces stay as they are. -/

namespace DcopSearch

open CostArithmetic

variable {K G : Type}

theorem exists_of_map_eq_ok {E A B : Type} {f : A → B} {outcome : Except E A} {b : B}
    (h : outcome.map f = .ok b) : ∃ a, outcome = .ok a ∧ f a = b := by
  cases outcome with
  | error error => cases h
  | ok a => exact ⟨a, rfl, Except.ok.inj h⟩

theorem exists_of_any {E A : Type} {p : A → Bool} {outcome : Except E A}
    (h : outcome.toOption.any p = true) : ∃ a, outcome = .ok a ∧ p a = true := by
  cases outcome with
  | error error => cases h
  | ok a => exact ⟨a, rfl, h⟩

namespace Problem

variable {problem : Problem K}

/-- Where the messages for a variable go. -/
def address (problem : Problem K) (name : String) : Destination :=
  .agent ((problem.owner? name).getD "")

theorem toOwner_eq {name : String} (h : name ∈ problem.names) (message : Message K) :
    problem.toOwner name message = .ok { destination := problem.address name, message } := by
  obtain ⟨owner, ho⟩ := exists_owner h
  simp [toOwner, address, ho]

theorem toOwners_eq {names : List String} (h : ∀ name ∈ names, name ∈ problem.names)
    (message : String → Message K) :
    problem.toOwners message names
      = .ok (names.map fun name => ⟨problem.address name, message name⟩) := by
  induction names with
  | nil => rfl
  | cons name rest ih =>
    rw [toOwners, toOwner_eq (h name (by simp)), ih fun other ho => h other (by simp [ho])]
    rfl

end Problem

/-- What a variable does in a reaction. -/
inductive Act (K : Type) where
  /-- It reports the cost of its subtree. -/
  | report (cost : Option K)
  /-- It hands a sampled value down. -/
  | sample
  /-- It terminates. -/
  | finish

def Act.isFinish : Act K → Bool
  | finish => true
  | report _ | sample => false

namespace SamplingState

/-- The context for a child. -/
def contextTo (s : SamplingState K) (child : String) (final : Bool) : Context :=
  { sender := s.name, receiver := child, entries := s.handed, final }

/-- The contexts for all children. -/
def asks (s : SamplingState K) (problem : Problem K) (final : Bool) : List (Outgoing K) :=
  s.children.map fun child => ⟨problem.address child, .context (s.contextTo child final)⟩

/-- The place in the tree, the context and the spaces are the same in both states, and so is the
round. -/
structure Keeps (s t : SamplingState K) : Prop where
  name : t.name = s.name
  domain : t.domain = s.domain
  parent : t.parent = s.parent
  children : t.children = s.children
  slots : t.slots = s.slots
  spaces : t.spaces = s.spaces
  round : t.round = s.round
  scalingFactor : t.scalingFactor = s.scalingFactor

theorem Keeps.refl (s : SamplingState K) : s.Keeps s := ⟨rfl, rfl, rfl, rfl, rfl, rfl, rfl, rfl⟩

theorem Keeps.trans {s t u : SamplingState K} (h : s.Keeps t) (h' : t.Keeps u) : s.Keeps u :=
  ⟨h'.name.trans h.name, h'.domain.trans h.domain, h'.parent.trans h.parent,
    h'.children.trans h.children, h'.slots.trans h.slots, h'.spaces.trans h.spaces,
    h'.round.trans h.round, h'.scalingFactor.trans h.scalingFactor⟩

theorem Keeps.informed {s t : SamplingState K} (h : s.Keeps t) (hi : s.Informed) : t.Informed := by
  intro slot hs
  exact hi slot (h.slots ▸ hs)

variable {problem : Problem K} {s : SamplingState K}

theorem Informed.contextMessages (hi : s.Informed) (h : s.Sound problem) (final : Bool) :
    s.contextMessages problem final = .ok (s.asks problem final) := by
  rw [SamplingState.contextMessages, hi.contextEntries]
  exact Problem.toOwners_eq h.children _

theorem Sound.costMessage (h : s.Sound problem) {parent : String} (hp : s.parent = some parent)
    (cost : Option K) :
    s.costMessage problem cost = .ok ⟨problem.address parent, .cost parent cost⟩ := by
  rw [SamplingState.costMessage, hp]
  exact Problem.toOwner_eq (h.parent parent hp) _

theorem nodes_setNode {active : Nat} (ha : s.active = some active) (node : BanditNode K) :
    (s.setNode node).nodes = s.nodes.set active node := by
  rw [SamplingState.setNode, ha]
  rfl

theorem length_nodes_setNode (s : SamplingState K) (node : BanditNode K) :
    (s.setNode node).nodes.length = s.nodes.length := by
  cases ha : s.active <;> simp [SamplingState.setNode, ha]

theorem Sound.setNode (h : s.Sound problem) {node : BanditNode K} (hn : node.Over s.domain.length) :
    (s.setNode node).Sound problem := by
  have hl := length_nodes_setNode s node
  refine ⟨h.domain, h.current, h.names, h.slots, h.fits, h.scopes, fun other ho => ?_,
    fun key i hi => hl ▸ h.index key i hi, fun i hi => hl ▸ h.active i hi, h.parent, h.children⟩
  cases ha : s.active with
  | none => exact h.nodes other (by simpa [SamplingState.setNode, ha] using ho)
  | some place =>
    rw [nodes_setNode ha] at ho
    rcases List.mem_or_eq_of_mem_set ho with ho | rfl
    · exact h.nodes other ho
    · exact hn

theorem keeps_setNode (s : SamplingState K) (node : BanditNode K) : s.Keeps (s.setNode node) :=
  ⟨rfl, rfl, rfl, rfl, rfl, rfl, rfl, rfl⟩

section AddNode

variable {key other : List Value} {node entry : BanditNode K} {place : Nat}

theorem mem_nodes_addNode : entry ∈ (s.addNode key node).nodes ↔ entry ∈ s.nodes ∨ entry = node := by
  simp [SamplingState.addNode]

theorem length_nodes_addNode : (s.addNode key node).nodes.length = s.nodes.length + 1 := by
  simp [SamplingState.addNode]

theorem index_addNode : (s.addNode key node).index[other]? = some place ↔
    key = other ∧ place = s.nodes.length ∨ key ≠ other ∧ s.index[other]? = some place := by
  simp only [SamplingState.addNode, Std.ExtTreeMap.getElem?_insert]
  by_cases he : key = other
  · simp [he, eq_comm]
  · simp [he]

/-- Different keys keep different nodes. -/
theorem distinct_addNode
    (hplaces : ∀ (key : List Value) (place : Nat), s.index[key]? = some place → place < s.nodes.length)
    (hdistinct : ∀ (first second : List Value) (place : Nat), s.index[first]? = some place →
      s.index[second]? = some place → first = second)
    {first second : List Value} (hf : (s.addNode key node).index[first]? = some place)
    (hs : (s.addNode key node).index[second]? = some place) : first = second := by
  rcases index_addNode.mp hf with ⟨rfl, rfl⟩ | ⟨-, hf⟩ <;>
    rcases index_addNode.mp hs with ⟨rfl, hlast⟩ | ⟨-, hs⟩
  · rfl
  · exact absurd (hplaces _ _ hs) (Nat.lt_irrefl _)
  · exact absurd (hlast ▸ hplaces _ _ hf) (Nat.lt_irrefl _)
  · exact hdistinct first second place hf hs

/-- A key finds the new node if it is the new one, and else what it has found before. -/
theorem found_addNode
    (hplaces : ∀ (key : List Value) (place : Nat), s.index[key]? = some place → place < s.nodes.length)
    (ho : (s.addNode key node).index[other]? = some place)
    (hp : (s.addNode key node).nodes[place]? = some entry) :
    key = other ∧ node = entry ∨ s.index[other]? = some place ∧ s.nodes[place]? = some entry := by
  rcases index_addNode.mp ho with ⟨rfl, rfl⟩ | ⟨-, ho⟩
  · exact .inl ⟨rfl, by simpa [SamplingState.addNode] using hp⟩
  · refine .inr ⟨ho, ?_⟩
    rw [← hp]
    exact (List.getElem?_append_left (hplaces other place ho)).symm

end AddNode

theorem Sound.addNode (h : s.Sound problem) {node : BanditNode K} (hn : node.Over s.domain.length)
    (key : List Value) : (s.addNode key node).Sound problem := by
  refine ⟨h.domain, h.current, h.names, h.slots, h.fits, h.scopes, fun other ho => ?_,
    fun other i hi => ?_, fun i hi => ?_, h.parent, h.children⟩
  · rcases mem_nodes_addNode.mp ho with ho | rfl
    · exact h.nodes other ho
    · exact hn
  · rw [length_nodes_addNode]
    rcases index_addNode.mp hi with ⟨-, rfl⟩ | ⟨-, hi⟩
    · exact Nat.lt_succ_self _
    · exact Nat.lt_succ_of_lt (h.index other i hi)
  · obtain rfl := Option.some.inj hi
    rw [length_nodes_addNode]
    exact Nat.lt_succ_self _

theorem keeps_addNode (s : SamplingState K) (key : List Value) (node : BanditNode K) :
    s.Keeps (s.addNode key node) :=
  ⟨rfl, rfl, rfl, rfl, rfl, rfl, rfl, rfl⟩

theorem Sound.setCurrent (h : s.Sound problem) {i : Nat} (hi : i < s.domain.length) :
    Sound problem { s with current := some i } :=
  ⟨h.domain, fun j hj => by obtain rfl := Option.some.inj hj; exact hi, h.names, h.slots, h.fits,
    h.scopes, h.nodes, h.index, h.active, h.parent, h.children⟩

theorem Sound.setActive (h : s.Sound problem) {place : Nat} (hp : place < s.nodes.length) :
    Sound problem { s with active := some place } :=
  ⟨h.domain, h.current, h.names, h.slots, h.fits, h.scopes, h.nodes, h.index,
    fun i hi => by obtain rfl := Option.some.inj hi; exact hp, h.parent, h.children⟩

theorem Sound.setPhase (h : s.Sound problem) (phase : Phase) (parentFinished : Bool)
    (round : Round K) :
    Sound problem { s with phase := phase, parentFinished := parentFinished, round := round } :=
  ⟨h.domain, h.current, h.names, h.slots, h.fits, h.scopes, h.nodes, h.index, h.active, h.parent,
    h.children⟩

theorem Sound.exists_node (h : s.Sound problem) (ha : s.active.isSome) :
    ∃ node, s.node? = some node ∧ node.Over s.domain.length := by
  obtain ⟨place, hp⟩ := Option.isSome_iff_exists.mp ha
  have hlt := h.active place hp
  exact ⟨s.nodes[place], by simp [node?, hp, hlt], h.nodes _ (List.getElem_mem hlt)⟩

theorem Sound.over_of_node (h : s.Sound problem) {node : BanditNode K} (hn : s.node? = some node) :
    node.Over s.domain.length := by
  obtain ⟨place, _, hp⟩ := Option.bind_eq_some_iff.mp hn
  exact h.nodes node (List.mem_of_getElem? hp)

theorem Sound.adoptLeader (h : s.Sound problem) : s.adoptLeader.Sound problem := by
  unfold SamplingState.adoptLeader
  split
  · exact h
  next leader hl =>
    obtain ⟨node, hn, hleader⟩ := Option.bind_eq_some_iff.mp hl
    exact h.setCurrent ((h.over_of_node hn).leader leader hleader)

theorem keeps_adoptLeader (s : SamplingState K) : s.Keeps s.adoptLeader := by
  unfold SamplingState.adoptLeader
  split <;> exact ⟨rfl, rfl, rfl, rfl, rfl, rfl, rfl, rfl⟩

variable [CostArithmetic K]

/-- The key under which the node of the context is found. -/
def contextKey (s : SamplingState K) : List Value := s.slots.map fun slot => slot.value.getD 0

/-- The node of the context is found, or made of the costs of the values. -/
theorem Sound.activate (h : s.Sound problem) (hi : s.Informed) (settings : SamplingSettings K) :
    (∃ place, s.index[s.contextKey]? = some place ∧
      s.activate settings = .ok { s with active := some place }) ∨
    (s.index[s.contextKey]? = none ∧ s.activate settings = .ok (s.addNode s.contextKey
      (.ofCosts (s.domain.map s.ownCost) settings.objective settings.ignoreInfeasible))) := by
  rw [SamplingState.activate, hi.key]
  cases hp : s.index[s.contextKey]? with
  | some place =>
    rw [contextKey] at hp
    exact .inl ⟨place, rfl, by simp [hp]⟩
  | none =>
    rw [contextKey] at hp
    refine .inr ⟨rfl, ?_⟩
    simp only [hp]
    rw [h.localCosts hi]
    rfl

theorem over_ofCosts_domain (s : SamplingState K) (objective : Objective)
    (ignoreInfeasible : Bool) :
    (BanditNode.ofCosts (s.domain.map s.ownCost) objective ignoreInfeasible).Over
      s.domain.length := by
  simpa using BanditNode.over_ofCosts (s.domain.map s.ownCost) objective ignoreInfeasible

/-- What ends with the variable: its value, and the bound of a root with children. -/
def results (s : SamplingState K) (delta : K) : List (Outgoing K) :=
  ⟨.collector, .assignment s.name s.currentValue⟩ ::
    if s.isRoot && !s.isLeaf then
      (s.finalBound? delta).toList.map fun bound => ⟨.collector, .finalBound bound⟩
    else []

theorem Sound.finalMessages (h : s.Sound problem) (hi : s.Informed) (delta : K) :
    s.finalMessages problem delta = .ok (s.asks problem true ++ s.results delta) := by
  unfold SamplingState.finalMessages
  cases hl : s.isLeaf with
  | true =>
    have hnil : s.children = [] := by simpa [isLeaf] using hl
    simp [asks, results, hnil, hl]
  | false =>
    rw [hi.contextMessages h]
    simp only [Except.map, results, hl]
    cases s.isRoot <;> simp

end SamplingState

variable [CostArithmetic K]

/-- The messages of an act that leaves the state `t`. -/
def Act.messages (problem : Problem K) (delta : K) (t : SamplingState K) :
    Act K → List (Outgoing K)
  | report cost =>
    t.parent.toList.map fun parent => ⟨problem.address parent, .cost parent cost⟩
  | sample => t.asks problem false
  | finish => t.asks problem true ++ t.results delta

/-- How an act changes the state `s` into `t`.  After a `final` context the parent waits for no
report, so there is none; before, there is no end. -/
def Act.Leaves (final : Bool) (s t : SamplingState K) : Act K → Prop
  | report _ => final = false ∧ t.phase = s.phase ∧ t.parentFinished = s.parentFinished
  | sample =>
    t.isLeaf = false ∧ t.phase = s.phase ∧ t.parentFinished = (final || s.parentFinished) ∧
      t.current.isSome ∧ t.active.isSome
  | finish => final = true ∧ t.phase = .converged

/-- The reaction is an act of a variable in state `s`. -/
structure Reaction.Acts (problem : Problem K) (delta : K) (s : SamplingState K) (final : Bool)
    (reaction : Reaction K G) (act : Act K) : Prop where
  sound : reaction.state.Sound problem
  keeps : s.Keeps reaction.state
  leaves : act.Leaves final s reaction.state
  outcome : reaction.outcome
    = .ok { messages := act.messages problem delta reaction.state, terminated := act.isFinish }

theorem Reaction.Acts.of_keeps {problem : Problem K} {delta : K} {s s' : SamplingState K}
    {final : Bool} {reaction : Reaction K G} {act : Act K} (hk : s.Keeps s')
    (hphase : s'.phase = s.phase)
    (hp : act.isFinish = true ∨ s'.parentFinished = (final || s.parentFinished))
    (h : reaction.Acts problem delta s' final act) : reaction.Acts problem delta s final act := by
  refine ⟨h.sound, hk.trans h.keeps, ?_, h.outcome⟩
  have hl := h.leaves
  cases act with
  | report cost =>
    obtain ⟨rfl, ht, hf⟩ := hl
    exact ⟨rfl, ht.trans hphase, hf.trans (hp.resolve_left (by simp [Act.isFinish]))⟩
  | sample =>
    obtain ⟨hleaf, ht, hf, hc, ha⟩ := hl
    have hp := hp.resolve_left (by simp [Act.isFinish])
    exact ⟨hleaf, ht.trans hphase, by rw [hf, hp, ← Bool.or_assoc, Bool.or_self], hc, ha⟩
  | finish => exact hl

namespace SamplingState

variable {problem : Problem K} {s : SamplingState K}

theorem Sound.terminates (h : s.Sound problem) (hi : s.Informed) (delta : K) (generator : G) :
    (s.terminates problem delta generator).Acts problem delta s true .finish where
  sound := h.setPhase .converged s.parentFinished s.round
  keeps := ⟨rfl, rfl, rfl, rfl, rfl, rfl, rfl, rfl⟩
  leaves := ⟨rfl, rfl⟩
  outcome := by
    have hm := (h.setPhase .converged s.parentFinished s.round).finalMessages hi delta
    rw [SamplingState.terminates]
    simp only [hm]
    rfl

theorem Sound.reports (h : s.Sound problem) {parent : String} (hp : s.parent = some parent)
    (delta : K) (generator : G) (cost : Option K) :
    (s.reports problem generator cost).Acts problem delta s false (.report cost) where
  sound := h
  keeps := .refl s
  leaves := ⟨rfl, rfl, rfl⟩
  outcome := by
    rw [SamplingState.reports, SamplingState.sends, h.costMessage hp]
    simp [Except.map, Act.messages, Act.isFinish, hp]

theorem Sound.sends (h : s.Sound problem) (hi : s.Informed) (hl : s.isLeaf = false)
    (hc : s.current.isSome) (ha : s.active.isSome) (delta : K) (generator : G) {final : Bool}
    (hf : s.parentFinished = (final || s.parentFinished)) :
    (s.sends generator (s.contextMessages problem false)).Acts problem delta s final .sample where
  sound := h
  keeps := .refl s
  leaves := ⟨hl, rfl, hf, hc, ha⟩
  outcome := by
    rw [SamplingState.sends, hi.contextMessages h]
    rfl

/-- A leaf holds the earliest of the best values. -/
theorem Sound.solveLeaf (h : s.Sound problem) (wf : problem.WellFormed) (hi : s.Informed)
    (objective : Objective) :
    ∃ i u, objective.earliestBest
        ((List.range s.domain.length).zip (s.domain.map s.ownCost)) = some (i, u) ∧
      (s.domain.map s.ownCost)[i]? = some u ∧
      s.solveLeaf objective
        = .ok (if isInfinite u then none else some u, { s with current := some i }) := by
  have hlen : (s.domain.map s.ownCost).length = s.domain.length := List.length_map _
  obtain ⟨⟨i, u⟩, hbest⟩ : ∃ best, objective.earliestBest
      ((List.range s.domain.length).zip (s.domain.map s.ownCost)) = some best := by
    rw [← Option.isSome_iff_exists, Option.isSome_iff_ne_none, Ne,
      Objective.earliestBest_eq_none, ← List.length_eq_zero_iff]
    simpa using h.domain_ne_nil wf
  have hm := Objective.mem_of_earliestBest hbest
  obtain ⟨k, hk⟩ := List.mem_iff_getElem?.mp hm
  rw [List.getElem?_zip_eq_some] at hk
  obtain ⟨hrange, hu⟩ := hk
  obtain ⟨_, rfl⟩ := List.getElem?_eq_some_iff.mp hrange
  rw [List.getElem_range] at hbest
  refine ⟨k, u, hbest, hu, ?_⟩
  rw [SamplingState.solveLeaf, h.localCosts hi]
  simp only [Except.map, hlen, hbest, Option.getD_some]

/-- A leaf reports the best value or ends with it. -/
theorem Sound.solves (h : s.Sound problem) (wf : problem.WellFormed) (hi : s.Informed)
    (final : Bool) (hroot : s.parent = none → final = true) (settings : SamplingSettings K)
    (generator : G) :
    ∃ act, (s.solves settings problem generator final).Acts problem settings.delta s final act := by
  obtain ⟨i, u, _, hu, hs⟩ := h.solveLeaf wf hi settings.objective
  have hlt : i < s.domain.length := by
    simpa using (List.getElem?_eq_some_iff.mp hu).1
  have ht := h.setCurrent hlt
  have hk : s.Keeps { s with current := some i } := ⟨rfl, rfl, rfl, rfl, rfl, rfl, rfl, rfl⟩
  rw [SamplingState.solves, hs]
  cases final with
  | true =>
    exact ⟨.finish, (ht.terminates hi settings.delta generator).of_keeps hk rfl (.inl rfl)⟩
  | false =>
    obtain ⟨parent, hp⟩ : ∃ parent, s.parent = some parent := by
      cases hp : s.parent with
      | none => simpa using hroot hp
      | some parent => exact ⟨parent, rfl⟩
    exact ⟨_, (ht.reports hp settings.delta generator _).of_keeps hk rfl (.inr rfl)⟩

variable [Generator G]

/-- The state after a value was drawn in the active node. -/
def holds (s : SamplingState K) (node : BanditNode K) (i : Nat) : SamplingState K :=
  { s.setNode (node.recordVisit s.bound) with current := some i }

theorem samplesOr_of_some {settings : SamplingSettings K} {generator : G}
    {otherwise : SamplingState K → G → Reaction K G} {node : BanditNode K} {i : Nat}
    (hn : s.node? = some node) (hc : (node.draw settings.method generator).chosen = some i) :
    s.samplesOr settings problem generator otherwise
      = (s.holds (node.draw settings.method generator).node i).sends
          (node.draw settings.method generator).generator
          ((s.holds (node.draw settings.method generator).node i).contextMessages problem false) := by
  simp only [SamplingState.samplesOr, SamplingState.sample, hn, hc]
  rfl

theorem samplesOr_of_none {settings : SamplingSettings K} {generator : G}
    {otherwise : SamplingState K → G → Reaction K G} {node : BanditNode K}
    (hn : s.node? = some node) (hc : (node.draw settings.method generator).chosen = none) :
    s.samplesOr settings problem generator otherwise
      = otherwise (s.setNode (node.draw settings.method generator).node)
          (node.draw settings.method generator).generator := by
  simp only [SamplingState.samplesOr, SamplingState.sample, hn, hc]

/-- Sampling hands a sample down, or what follows is an act. -/
theorem Sound.samplesOr (h : s.Sound problem) (hi : s.Informed) (hl : s.isLeaf = false)
    (ha : s.active.isSome) (settings : SamplingSettings K) (generator : G) (final : Bool)
    (hf : final = true → s.parentFinished = true)
    (otherwise : SamplingState K → G → Reaction K G)
    (ho : ∀ (t : SamplingState K) (g : G), t.Sound problem → s.Keeps t → t.phase = s.phase →
      t.parentFinished = s.parentFinished →
      ∃ act, (otherwise t g).Acts problem settings.delta t final act) :
    ∃ act, (s.samplesOr settings problem generator otherwise).Acts problem settings.delta s final
      act := by
  obtain ⟨node, hn, hover⟩ := h.exists_node ha
  have hdraw := hover.draw settings.method generator
  have hparent : s.parentFinished = (final || s.parentFinished) := by
    cases final <;> simp at hf ⊢
    exact hf
  cases hc : (node.draw settings.method generator).chosen with
  | none =>
    rw [samplesOr_of_none hn hc]
    have ht := h.setNode hdraw.covers
    obtain ⟨act, hact⟩ := ho _ (node.draw settings.method generator).generator ht
      (keeps_setNode s _) rfl rfl
    exact ⟨act, hact.of_keeps (keeps_setNode s _) rfl (.inr hparent)⟩
  | some i =>
    rw [samplesOr_of_some hn hc]
    have ht : (s.holds (node.draw settings.method generator).node i).Sound problem :=
      (h.setNode (hdraw.covers.recordVisit s.bound)).setCurrent (hdraw.chosen i hc)
    have hacts := ht.sends hi hl rfl ha settings.delta
      (node.draw settings.method generator).generator hparent
    have hk : s.Keeps (s.holds (node.draw settings.method generator).node i) :=
      ⟨rfl, rfl, rfl, rfl, rfl, rfl, rfl, rfl⟩
    exact ⟨.sample, hacts.of_keeps hk rfl (.inr hparent)⟩

/-- Going on without a parent that waits, a variable samples or ends. -/
theorem Sound.proceeds (h : s.Sound problem) (hi : s.Informed) (hl : s.isLeaf = false)
    (ha : s.active.isSome) (hf : s.parentFinished = true) (settings : SamplingSettings K)
    (generator : G) :
    ∃ act, (s.proceeds settings problem generator).Acts problem settings.delta s true act := by
  unfold SamplingState.proceeds
  split
  · have hk := keeps_adoptLeader s
    have hacts := h.adoptLeader.terminates (hk.informed hi) settings.delta generator
    refine ⟨.finish, hacts.of_keeps hk ?_ (.inl rfl)⟩
    unfold SamplingState.adoptLeader
    split <;> rfl
  · refine h.samplesOr hi hl ha settings generator true (fun _ => hf) _ fun t g ht hk _ _ => ?_
    exact ⟨.finish, ht.terminates (hk.informed hi) settings.delta g⟩

/-- Reacting to a context, a variable reports, samples or ends. -/
theorem Sound.answers (h : s.Sound problem) (wf : problem.WellFormed) (hi : s.Informed)
    (final : Bool) (hroot : s.parent = none → final = true) (settings : SamplingSettings K)
    (generator : G) :
    ∃ act, (s.answers settings problem generator final).Acts problem settings.delta s final act := by
  unfold SamplingState.answers
  split
  · exact h.solves wf hi final hroot settings generator
  next hleaf =>
    have hleaf : s.isLeaf = false := by simpa using hleaf
    obtain ⟨t, hact, ht, hk, hphase, hpf, ha⟩ : ∃ t, s.activate settings = .ok t ∧
        t.Sound problem ∧ s.Keeps t ∧ t.phase = s.phase ∧ t.parentFinished = s.parentFinished ∧
        t.active.isSome := by
      rcases h.activate hi settings with ⟨place, hp, hact⟩ | ⟨_, hact⟩
      · exact ⟨_, hact, h.setActive (h.index _ _ hp), ⟨rfl, rfl, rfl, rfl, rfl, rfl, rfl, rfl⟩,
          rfl, rfl, rfl⟩
      · exact ⟨_, hact, h.addNode (over_ofCosts_domain s _ _) _, keeps_addNode s _ _, rfl, rfl, rfl⟩
    have hleaf : t.isLeaf = false := by rw [isLeaf, hk.children]; exact hleaf
    have hti := hk.informed hi
    rw [hact]
    cases final with
    | true =>
      have ht' := ht.setPhase t.phase true t.round
      have hk' : s.Keeps { t with parentFinished := true } :=
        hk.trans ⟨rfl, rfl, rfl, rfl, rfl, rfl, rfl, rfl⟩
      obtain ⟨act, hacts⟩ := ht'.proceeds hti hleaf ha rfl settings generator
      exact ⟨act, hacts.of_keeps hk' hphase (.inr rfl)⟩
    | false =>
      obtain ⟨parent, hp⟩ : ∃ parent, t.parent = some parent := by
        rw [hk.parent]
        cases hp : s.parent with
        | none => simpa using hroot hp
        | some parent => exact ⟨parent, rfl⟩
      obtain ⟨act, hacts⟩ := ht.samplesOr hti hleaf ha settings generator false (by simp)
        (fun state generator => state.reports problem generator none)
        fun u g hu hku _ _ => ⟨_, hu.reports (hku.parent.trans hp) settings.delta g none⟩
      exact ⟨act, hacts.of_keeps hk hphase (.inr hpf)⟩

/-- The node after a round was credited to one of its values. -/
def creditedNode (settings : SamplingSettings K) (round : Round K) (index : Nat)
    (node : BanditNode K) : BanditNode K :=
  let credited := (credit settings round index node).2
  if credited.exploring then credited else settings.method.process credited

theorem over_creditedNode {n : Nat} {node : BanditNode K} (h : node.Over n)
    (settings : SamplingSettings K) (round : Round K) (index : Nat) :
    (creditedNode settings round index node).Over n := by
  have hcredit : (credit settings round index node).2.Over n := by
    unfold credit
    split
    · exact h.prune index
    · exact h.storeCost index round.sum
  simp only [creditedNode]
  split
  · exact hcredit
  · exact hcredit.process _

theorem joins_eq {index : Nat} {node : BanditNode K} (hc : s.current = some index)
    (hn : s.node? = some node) (settings : SamplingSettings K) (generator : G) (round : Round K) :
    s.joins settings problem generator round
      = if s.parentFinished then
          (s.setNode (creditedNode settings round index node)).proceeds settings problem generator
        else
          (s.setNode (creditedNode settings round index node)).reports problem generator
            (credit settings round index node).1 := by
  simp only [SamplingState.joins, hc, hn]
  rfl

/-- Reacting to the last report of a round, a variable reports as well, or goes on if its parent has
terminated. -/
theorem Sound.joins (h : s.Sound problem) (hi : s.Informed) (hl : s.isLeaf = false)
    (hroot : s.parent = none → s.parentFinished = true) (hc : s.current.isSome)
    (ha : s.active.isSome) (settings : SamplingSettings K) (generator : G) (round : Round K) :
    ∃ act, (s.joins settings problem generator round).Acts problem settings.delta s
      s.parentFinished act := by
  obtain ⟨index, hindex⟩ := Option.isSome_iff_exists.mp hc
  obtain ⟨node, hn, hover⟩ := h.exists_node ha
  have ht := h.setNode (over_creditedNode hover settings round index)
  have hk := keeps_setNode s (creditedNode settings round index node)
  rw [joins_eq hindex hn]
  cases hf : s.parentFinished with
  | true =>
    obtain ⟨act, hacts⟩ := ht.proceeds hi hl ha hf settings generator
    exact ⟨act, hacts.of_keeps hk rfl (.inr hf)⟩
  | false =>
    obtain ⟨parent, hp⟩ : ∃ parent, s.parent = some parent := by
      cases hp : s.parent with
      | none => simp [hf, hp] at hroot
      | some parent => exact ⟨parent, rfl⟩
    exact ⟨_, (ht.reports hp settings.delta generator _).of_keeps hk rfl (.inr rfl)⟩

end SamplingState

end DcopSearch
