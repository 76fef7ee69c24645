import DcopSearch.Proofs.Bandit.Steady
import DcopSearch.Proofs.Sampling.Forward
import DcopSearch.Proofs.Sampling.Grounds

/-! How a variable files its bandit nodes.  Every joint value of its slots that it has met has a node of
its own, whose costs are the sums of the variable's spaces there, as far as no value was given up.  An
event opens the node of a context, which touches no other, or works on the active node, which may give a
value up. -/

namespace DcopSearch

open CostArithmetic

variable {K : Type}

namespace SamplingState

variable [CostArithmetic K]

/-- What a value costs in the variable's own spaces where the slots have the values `key`. -/
def priceAt (s : SamplingState K) (key : List Value) (own : Value) : Option K :=
  (s.spaces.mapM fun space : CostSpace K => space.utility? s.contextNames (key ++ [own])).map total

/-- The nodes are filed by the values of the slots.  `pruned` are the values that were given up, each
with the key of its node. -/
structure Filed (objective : Objective) (pruned : List Value → Nat → Prop) (s : SamplingState K) :
    Prop where
  /-- Different values of the slots have different nodes. -/
  distinct : ∀ (key other : List Value) (place : Nat),
    s.index[key]? = some place → s.index[other]? = some place → key = other
  /-- The nodes that are found are all that there are. -/
  places : ∀ place : Nat, (∃ key : List Value, s.index[key]? = some place) ↔ place < s.nodes.length
  /-- A key has a value for each slot. -/
  widths : ∀ (key : List Value) (place : Nat), s.index[key]? = some place → key.length = s.slots.length
  arms : ∀ node ∈ s.nodes, node.arms.length = s.domain.length
  /-- A value costs what its spaces come to under the key of the node, unless it was given up. -/
  costs : ∀ (key : List Value) (place : Nat) (node : BanditNode K) (i : Nat) (own : Value),
    s.index[key]? = some place → s.nodes[place]? = some node → s.domain[i]? = some own →
      (∃ cost, s.priceAt key own = some cost ∧ node.costs[i]? = some cost) ∨
        pruned key i ∧ node.costs[i]? = some objective.worst

/-- What the state of a variable keeps to, whatever it is told. -/
structure Ledger (objective : Objective) (pruned : List Value → Nat → Prop) (s : SamplingState K) :
    Prop extends Filed objective pruned s where
  steady : ∀ node ∈ s.nodes, node.Steady s.domain.length ∧ node.objective = objective
  active : ∀ place, s.active = some place → place < s.nodes.length
  unopened : s.phase.rank < Phase.sampling.rank → s.nodes = []

/-- What is done in the active node, in which the value `pruned` may be given up. -/
structure Works (pruned : Option Nat) (s t : SamplingState K) : Prop where
  frame : t = { s with
    phase := t.phase, parentFinished := t.parentFinished, current := t.current, nodes := t.nodes,
    round := t.round }
  forward : s.phase.rank ≤ t.phase.rank
  length : t.nodes.length = s.nodes.length
  others : ∀ place : Nat, s.active ≠ some place → t.nodes[place]? = s.nodes[place]?
  ages : ∀ node, s.node? = some node →
    ∃ later, t.node? = some later ∧ node.Ages s.domain.length pruned later

/-- The node of a context is opened, or none; the others stay as they are. -/
structure Opens (objective : Objective) (pruned : List Value → Nat → Prop) (s t : SamplingState K) :
    Prop where
  nodes : ∀ (place : Nat) (node : BanditNode K), s.nodes[place]? = some node → t.nodes[place]? = some node
  index : ∀ (key : List Value) (place : Nat), s.index[key]? = some place → t.index[key]? = some place
  domain : t.domain = s.domain
  phase : t.phase = s.phase
  ledger : t.Ledger objective pruned

/-- The values given up before, and the one given up in the active node now. -/
def prunedWith (s : SamplingState K) (before : List Value → Nat → Prop) (pruned : Option Nat)
    (key : List Value) (i : Nat) : Prop :=
  before key i ∨ pruned = some i ∧ ∃ place, s.active = some place ∧ s.index[key]? = some place

/-- What becomes of the nodes in an event: the active one alone changes. -/
structure Tends (objective : Objective) (before : List Value → Nat → Prop) (pruned : Option Nat)
    (s t : SamplingState K) : Prop where
  index : ∀ (key : List Value) (place : Nat), s.index[key]? = some place → t.index[key]? = some place
  others : ∀ (place : Nat) (node : BanditNode K), s.nodes[place]? = some node →
    t.active ≠ some place → t.nodes[place]? = some node
  ages : ∀ (place : Nat) (node : BanditNode K), s.nodes[place]? = some node →
    ∃ later, t.nodes[place]? = some later ∧
      node.Ages s.domain.length (if s.active = some place then pruned else none) later
  ledger : t.Ledger objective (s.prunedWith before pruned)

variable {objective : Objective} {before : List Value → Nat → Prop} {pruned : Option Nat}
  {s t u : SamplingState K}

theorem Ledger.mono {after : List Value → Nat → Prop} (h : s.Ledger objective before)
    (hle : ∀ key i, before key i → after key i) : s.Ledger objective after where
  toFiled := { h.toFiled with
    costs := fun key place node i own hk hp ho =>
      (h.costs key place node i own hk hp ho).imp_right fun hb => hb.imp_left (hle key i) }
  steady := h.steady
  active := h.active
  unopened := h.unopened

omit [CostArithmetic K] in
theorem mem_nodes_of_node {node : BanditNode K} (hn : s.node? = some node) : node ∈ s.nodes := by
  obtain ⟨place, -, hp⟩ := Option.bind_eq_some_iff.mp hn
  exact List.mem_of_getElem? hp

theorem Ledger.steady_of_node (h : s.Ledger objective before) {node : BanditNode K}
    (hn : s.node? = some node) : node.Steady s.domain.length :=
  (h.steady node (mem_nodes_of_node hn)).1

theorem Works.index (h : s.Works pruned t) : t.index = s.index := by
  rw [h.frame]

theorem Works.active (h : s.Works pruned t) : t.active = s.active := by
  rw [h.frame]

theorem Works.domain (h : s.Works pruned t) : t.domain = s.domain := by
  rw [h.frame]

theorem Works.slots (h : s.Works pruned t) : t.slots = s.slots := by
  rw [h.frame]

theorem Works.priceAt (h : s.Works pruned t) : t.priceAt = s.priceAt := by
  rw [h.frame]
  rfl

theorem Works.trans (h : s.Works pruned t) (h' : t.Works none u) : s.Works pruned u where
  frame := by
    have ht := h.frame
    have hu := h'.frame
    cases s
    cases t
    cases u
    simp_all
  forward := h.forward.trans h'.forward
  length := h'.length.trans h.length
  others := fun place hp => (h'.others place (h.active ▸ hp)).trans (h.others place hp)
  ages := fun node hn => by
    obtain ⟨later, hl, hages⟩ := h.ages node hn
    obtain ⟨last, hlast, hages'⟩ := h'.ages later hl
    exact ⟨last, hlast, hages.trans (h.domain ▸ hages')⟩

/-- A change that touches no node. -/
theorem Ledger.works_of_frame (h : s.Ledger objective before)
    (hframe : t = { s with
      phase := t.phase, parentFinished := t.parentFinished, current := t.current, round := t.round })
    (hforward : s.phase.rank ≤ t.phase.rank) : s.Works none t := by
  have hnodes : t.nodes = s.nodes := by rw [hframe]
  have hactive : t.active = s.active := by rw [hframe]
  refine ⟨?_, hforward, by rw [hnodes], fun place _ => by rw [hnodes], fun node hn => ?_⟩
  · rw [hnodes]
    exact hframe
  · refine ⟨node, ?_, .refl (h.steady_of_node hn)⟩
    rw [node?, hnodes, hactive]
    exact hn

theorem Ledger.works_refl (h : s.Ledger objective before) : s.Works none s :=
  h.works_of_frame rfl le_rfl

/-- A node that comes of the active one takes its place. -/
theorem works_setNode {node later : BanditNode K} (hn : s.node? = some node)
    (hages : node.Ages s.domain.length pruned later) : s.Works pruned (s.setNode later) := by
  obtain ⟨active, ha, hp⟩ := Option.bind_eq_some_iff.mp hn
  refine ⟨rfl, le_rfl, length_nodes_setNode s later, fun place hne => ?_, fun other ho => ?_⟩
  · have hne : active ≠ place := fun he => hne (he ▸ ha)
    rw [nodes_setNode ha, List.getElem?_set_ne hne]
  · obtain rfl : node = other := Option.some.inj (hn.symm.trans ho)
    exact ⟨later, node?_setNode hn later, hages⟩

/-- Each node comes of the one that was in its place. -/
theorem Works.ages_place (h : s.Works pruned t) (hs : s.Ledger objective before) {place : Nat}
    {node : BanditNode K} (hp : s.nodes[place]? = some node) :
    ∃ later, t.nodes[place]? = some later ∧
      node.Ages s.domain.length (if s.active = some place then pruned else none) later := by
  by_cases ha : s.active = some place
  · have hn : s.node? = some node := by rw [node?, ha]; exact hp
    obtain ⟨later, hl, hages⟩ := h.ages node hn
    rw [node?, h.active, ha] at hl
    exact ⟨later, hl, by rwa [if_pos ha]⟩
  · refine ⟨node, (h.others place ha).trans hp, ?_⟩
    rw [if_neg ha]
    exact .refl (hs.steady node (List.mem_of_getElem? hp)).1

theorem Works.exists_before (h : s.Works pruned t) (hs : s.Ledger objective before) {place : Nat}
    {later : BanditNode K} (hl : t.nodes[place]? = some later) :
    ∃ node, s.nodes[place]? = some node ∧
      node.Ages s.domain.length (if s.active = some place then pruned else none) later := by
  have hlt : place < s.nodes.length := h.length ▸ (List.getElem?_eq_some_iff.mp hl).1
  have hp : s.nodes[place]? = some s.nodes[place] := List.getElem?_eq_getElem hlt
  obtain ⟨last, hlast, hages⟩ := h.ages_place hs hp
  obtain rfl := Option.some.inj (hl.symm.trans hlast)
  exact ⟨_, hp, hages⟩

/-- Work on the active node keeps the files in order. -/
theorem Ledger.works (hs : s.Ledger objective before) (h : s.Works pruned t) :
    t.Ledger objective (s.prunedWith before pruned) := by
  have haged : ∀ later ∈ t.nodes, ∃ node ∈ s.nodes, ∃ value,
      node.Ages s.domain.length value later := by
    intro later hm
    obtain ⟨place, hl⟩ := List.mem_iff_getElem?.mp hm
    obtain ⟨node, hp, hages⟩ := h.exists_before hs hl
    exact ⟨node, List.mem_of_getElem? hp, _, hages⟩
  refine {
    distinct := fun key other place hk ho => ?_
    places := fun place => ?_
    widths := fun key place hk => ?_
    arms := fun later hm => ?_
    costs := fun key place later i own hk hl ho => ?_
    steady := fun later hm => ?_
    active := fun place ha => ?_
    unopened := fun hrank => ?_ }
  · rw [h.index] at hk ho
    exact hs.distinct key other place hk ho
  · rw [h.index, h.length]
    exact hs.places place
  · rw [h.index] at hk
    rw [hs.widths key place hk, h.slots]
  · obtain ⟨node, -, value, hages⟩ := haged later hm
    rw [h.domain]
    exact hages.steady.sized.arms
  · rw [h.index] at hk
    rw [h.domain] at ho
    rw [h.priceAt]
    obtain ⟨node, hp, hages⟩ := h.exists_before hs hl
    rcases hages.costs i with hsame | ⟨hpruned, hworst⟩
    · rw [hsame]
      exact (hs.costs key place node i own hk hp ho).imp_right fun hb => hb.imp_left .inl
    · split at hpruned
      next ha =>
        rw [(hs.steady node (List.mem_of_getElem? hp)).2] at hworst
        exact .inr ⟨.inr ⟨hpruned, place, ha, hk⟩, hworst⟩
      next => cases hpruned
  · obtain ⟨node, hm, value, hages⟩ := haged later hm
    rw [h.domain]
    exact ⟨hages.steady, hages.objective.trans (hs.steady node hm).2⟩
  · rw [h.length]
    exact hs.active place (h.active ▸ ha)
  · have hnil := hs.unopened (Nat.lt_of_le_of_lt h.forward hrank)
    rw [← List.length_eq_zero_iff, h.length, hnil, List.length_nil]

theorem Ledger.works_none (hs : s.Ledger objective before) (h : s.Works none t) :
    t.Ledger objective before :=
  (hs.works h).mono fun _ _ hb => hb.resolve_right (by simp)

theorem Works.tends (h : s.Works pruned t) (hs : s.Ledger objective before) :
    s.Tends objective before pruned t where
  index := fun key place hk => by rw [h.index]; exact hk
  others := fun place node hp ha => (h.others place (h.active ▸ ha)).trans hp
  ages := fun place node hp => h.ages_place hs hp
  ledger := hs.works h

/-- What is done in a node that has been opened does not touch the others either. -/
theorem Works.tends_of_opens (h : t.Works none u) (ho : s.Opens objective before t) :
    s.Tends objective before none u where
  index := fun key place hk => by
    rw [h.index]
    exact ho.index key place hk
  others := fun place node hp ha =>
    (h.others place (h.active ▸ ha)).trans (ho.nodes place node hp)
  ages := fun place node hp => by
    obtain ⟨later, hl, hages⟩ := h.ages_place ho.ledger (ho.nodes place node hp)
    refine ⟨later, hl, ?_⟩
    rw [ho.domain, ite_self] at hages
    rwa [ite_self]
  ledger := (ho.ledger.works_none h).mono fun _ _ => .inl

/-! The costs of a new node. -/

omit [CostArithmetic K] in
theorem length_slotValues {name : String} {slots : List Slot} {key : List Value}
    (h : slotValues name slots = .ok key) : key.length = slots.length := by
  induction slots generalizing key with
  | nil =>
    cases h
    rfl
  | cons slot rest ih =>
    unfold slotValues at h
    split at h
    · cases h
    · obtain ⟨values, hvalues, rfl⟩ := exists_of_map_eq_ok h
      rw [List.length_cons, ih hvalues, List.length_cons]

theorem exists_entries_of_addEntries {values : List Value} {spaces : List (CostSpace K)}
    {start cost : K} (h : s.addEntries values spaces start = .ok cost) :
    ∃ entries, spaces.mapM (fun space : CostSpace K => space.utility? s.contextNames values)
        = some entries ∧ cost = entries.foldl (· + ·) start := by
  induction spaces generalizing start with
  | nil =>
    cases h
    exact ⟨[], rfl, rfl⟩
  | cons space rest ih =>
    unfold addEntries at h
    split at h
    · cases h
    next entry hentry =>
      obtain ⟨entries, hentries, rfl⟩ := ih h
      refine ⟨entry :: entries, ?_, rfl⟩
      rw [List.mapM_cons, hentry, hentries]
      rfl

theorem priceAt_of_localCost {key : List Value} {own : Value} {cost : K} (hk : s.key = .ok key)
    (hc : s.localCost own = .ok cost) : s.priceAt key own = some cost := by
  rw [localCost, hk] at hc
  obtain ⟨entries, hentries, rfl⟩ := exists_entries_of_addEntries hc
  rw [SamplingState.priceAt, hentries]
  rfl

theorem localCost_of_localCosts {costs : List K} (h : s.localCosts = .ok costs) {i : Nat}
    {own : Value} (ho : s.domain[i]? = some own) :
    ∃ cost, costs[i]? = some cost ∧ s.localCost own = .ok cost := by
  have hall : ∀ (values : List Value) (costs : List K) (i : Nat),
      values.mapM s.localCost = .ok costs → values[i]? = some own →
        ∃ cost, costs[i]? = some cost ∧ s.localCost own = .ok cost := by
    intro values
    induction values with
    | nil => intro costs i _ ho; cases ho
    | cons value rest ih =>
      intro costs i h ho
      rw [List.mapM_cons] at h
      cases hcost : s.localCost value with
      | error error =>
        rw [hcost] at h
        cases h
      | ok cost =>
        rw [hcost] at h
        cases hothers : rest.mapM s.localCost with
        | error error =>
          rw [hothers] at h
          cases h
        | ok others =>
          rw [hothers] at h
          cases h
          cases i with
          | zero =>
            obtain rfl := Option.some.inj ho
            exact ⟨cost, rfl, hcost⟩
          | succ i => exact ih others i hothers ho
  exact hall s.domain costs i h ho

/-- The node of a context that was not met before is filed under its key. -/
theorem Ledger.addNode (hs : s.Ledger objective before) {key : List Value} {costs : List K}
    (hk : s.key = .ok key) (hnew : s.index[key]? = none) (hc : s.localCosts = .ok costs)
    (hrank : Phase.sampling.rank ≤ s.phase.rank) (ignoreInfeasible : Bool) :
    (s.addNode key (.ofCosts costs objective ignoreInfeasible)).Ledger objective before := by
  generalize hnode : BanditNode.ofCosts costs objective ignoreInfeasible = node
  have hsteady : node.Steady s.domain.length := by
    rw [← hnode, ← length_of_localCosts hc]
    exact BanditNode.steady_ofCosts costs objective ignoreInfeasible
  have hold : ∀ (other : List Value) (place : Nat), s.index[other]? = some place →
      place < s.nodes.length := fun other place ho => (hs.places place).mp ⟨other, ho⟩
  refine {
    distinct := fun first second place hf hg => distinct_addNode hold hs.distinct hf hg
    places := fun place => ?_
    widths := fun other place ho => ?_
    arms := fun other hm => ?_
    costs := fun other place entry i own ho hp hown => ?_
    steady := fun other hm => ?_
    active := fun place ha => ?_
    unopened := fun hlow => absurd hlow (Nat.not_lt.mpr hrank) }
  · rw [length_nodes_addNode]
    constructor
    · rintro ⟨other, ho⟩
      rcases index_addNode.mp ho with ⟨-, rfl⟩ | ⟨-, ho⟩
      · exact Nat.lt_succ_self _
      · exact Nat.lt_succ_of_lt (hold other place ho)
    · intro hlt
      by_cases hlast : place = s.nodes.length
      · exact ⟨key, index_addNode.mpr (.inl ⟨rfl, hlast⟩)⟩
      · obtain ⟨other, ho⟩ := (hs.places place).mpr (by omega)
        refine ⟨other, index_addNode.mpr (.inr ⟨?_, ho⟩)⟩
        rintro rfl
        rw [hnew] at ho
        cases ho
  · rcases index_addNode.mp ho with ⟨rfl, -⟩ | ⟨-, ho⟩
    · exact length_slotValues hk
    · exact hs.widths other place ho
  · rcases mem_nodes_addNode.mp hm with hm | rfl
    · exact hs.arms other hm
    · exact hsteady.sized.arms
  -- the new node has the costs of its own context, the old ones keep theirs
  · rcases found_addNode hold ho hp with ⟨rfl, rfl⟩ | ⟨ho, hp⟩
    · obtain ⟨cost, hi, hlocal⟩ := localCost_of_localCosts hc hown
      have hprice : s.priceAt key own = some cost := priceAt_of_localCost hk hlocal
      refine .inl ⟨cost, hprice, ?_⟩
      rw [← hnode, BanditNode.costs_ofCosts]
      exact hi
    · exact hs.costs other place entry i own ho hp hown
  · rcases mem_nodes_addNode.mp hm with hm | rfl
    · exact hs.steady other hm
    · refine ⟨hsteady, ?_⟩
      rw [← hnode]
      rfl
  · obtain rfl := Option.some.inj ha
    rw [length_nodes_addNode]
    exact Nat.lt_succ_self _

/-- Only the active node is another one. -/
theorem Ledger.setActive (hs : s.Ledger objective before) {place : Nat}
    (hp : place < s.nodes.length) : Ledger objective before { s with active := some place } :=
  ⟨⟨hs.distinct, hs.places, hs.widths, hs.arms, hs.costs⟩, hs.steady,
    fun _ ho => Option.some.inj ho ▸ hp, hs.unopened⟩

/-- The node of the context is found or made; the others stay as they are. -/
theorem Ledger.activate (hs : s.Ledger objective before) {settings : SamplingSettings K}
    (ho : settings.objective = objective) (hrank : Phase.sampling.rank ≤ s.phase.rank)
    (h : s.activate settings = .ok t) : s.Opens objective before t := by
  unfold SamplingState.activate at h
  split at h
  · cases h
  next key hk =>
    split at h
    next place hplace =>
      cases h
      exact ⟨fun _ _ hp => hp, fun _ _ hi => hi, rfl, rfl,
        hs.setActive ((hs.places place).mp ⟨key, hplace⟩)⟩
    next hnew =>
      obtain ⟨costs, hc, rfl⟩ := exists_of_map_eq_ok h
      subst ho
      refine ⟨fun place node hp => ?_, fun other place hi => ?_, rfl, rfl,
        hs.addNode hk hnew hc hrank settings.ignoreInfeasible⟩
      · rw [← hp]
        exact List.getElem?_append_left (List.getElem?_eq_some_iff.mp hp).1
      · have hne : key ≠ other := by
          rintro rfl
          rw [hnew] at hi
          cases hi
        exact index_addNode.mpr (.inr ⟨hne, hi⟩)

omit [CostArithmetic K] in
theorem map_name_slots_assign (s : SamplingState K) (entries : List (String × Value)) :
    (s.assign entries).slots.map Slot.name = s.slots.map Slot.name := by
  show (entries.foldl (fun slots entry => Slot.assign entry.1 entry.2 slots) s.slots).map Slot.name
    = s.slots.map Slot.name
  generalize s.slots = slots
  induction entries generalizing slots with
  | nil => rfl
  | cons entry rest ih => rw [List.foldl_cons, ih, Slot.map_name_assign]

/-- A context changes the values of the slots and no node. -/
theorem Ledger.assign (hs : s.Ledger objective before) (entries : List (String × Value))
    (phase : Phase) (hrank : s.phase.rank ≤ phase.rank) :
    Ledger objective before { s.assign entries with phase := phase } := by
  have hnames := map_name_slots_assign s entries
  have hlength : (s.assign entries).slots.length = s.slots.length := by
    rw [← List.length_map Slot.name, hnames, List.length_map]
  have hprice : ∀ key own,
      SamplingState.priceAt { s.assign entries with phase := phase } key own = s.priceAt key own := by
    intro key own
    have hcontext : contextNames { s.assign entries with phase := phase } = s.contextNames :=
      congrArg (· ++ [s.name]) hnames
    simp only [SamplingState.priceAt, hcontext]
    rfl
  refine ⟨⟨hs.distinct, hs.places, fun key place hk => ?_, hs.arms, fun key place node i own hk hp ho => ?_⟩,
    hs.steady, hs.active, fun hlow => hs.unopened (Nat.lt_of_le_of_lt hrank hlow)⟩
  · exact (hs.widths key place hk).trans hlength.symm
  · rw [hprice]
    exact hs.costs key place node i own hk hp ho

/-- A variable that has met no context has nothing on file. -/
theorem ledger_of_nil (hnodes : s.nodes = []) (hactive : s.active = none)
    (hempty : ∀ (key : List Value) (place : Nat), s.index[key]? ≠ some place) :
    s.Ledger objective before := by
  have hnone : ∀ node, node ∉ s.nodes := by simp [hnodes]
  refine ⟨⟨fun key _ place hk => absurd hk (hempty key place), fun place => ⟨?_, ?_⟩,
    fun key place hk => absurd hk (hempty key place), fun node hm => absurd hm (hnone node),
    fun key place _ _ _ hk => absurd hk (hempty key place)⟩, fun node hm => absurd hm (hnone node),
    fun place ha => ?_, fun _ => hnodes⟩
  · rintro ⟨key, hk⟩
    exact absurd hk (hempty key place)
  · intro hlt
    rw [hnodes] at hlt
    cases hlt
  · rw [hactive] at ha
    cases ha

theorem ledger_ofView (settings : SamplingSettings K) (name : String) (domain : List Value)
    (view : View) : (ofView settings name domain view).Ledger objective before :=
  ledger_of_nil rfl rfl (by simp [ofView])

/-- Before a variable has met a context, its slots and spaces may change. -/
theorem Ledger.of_unopened (hs : s.Ledger objective before) (hnil : s.nodes = [])
    (hnodes : t.nodes = s.nodes) (hindex : t.index = s.index) (hactive : t.active = s.active) :
    t.Ledger objective before := by
  refine ledger_of_nil (hnodes.trans hnil) ?_ fun key place hk => ?_
  · rw [hactive]
    cases ha : s.active with
    | none => rfl
    | some place =>
      have hlt := hs.active place ha
      rw [hnil] at hlt
      cases hlt
  · rw [hindex] at hk
    have hlt := (hs.places place).mp ⟨key, hk⟩
    rw [hnil] at hlt
    cases hlt

end SamplingState

end DcopSearch
