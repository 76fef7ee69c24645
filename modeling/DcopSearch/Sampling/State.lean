import DcopSearch.Config.Basic
import DcopSearch.Normalization.Range

/-! A variable while it samples.  It knows the values of the ancestors that matter to its subtree, as
far as its parent has told it, keeps one bandit node for every joint value of these that it has met,
and joins the reports of its children round by round.  The functions here read the state or change it
without sending anything. -/

namespace DcopSearch

open CostArithmetic

structure Slot where
  name : String
  value : Option Value
deriving DecidableEq, Repr

/-- Gives the slot of a name a value.  If a name has several slots the last one takes it, and a name
without a slot is passed over. -/
def Slot.assign (name : String) (value : Value) : List Slot → List Slot
  | [] => []
  | slot :: rest =>
    if slot.name = name ∧ ¬rest.any (·.name == name) then { name, value := some value } :: rest
    else slot :: Slot.assign name value rest

theorem Slot.map_name_assign (name : String) (value : Value) (slots : List Slot) :
    (Slot.assign name value slots).map Slot.name = slots.map Slot.name := by
  induction slots with
  | nil => rfl
  | cons slot rest ih =>
    unfold Slot.assign
    split
    next h => simp [h.1]
    next => simp [ih]

/-- What an agent's variables have in common while they sample. -/
structure SamplingSettings (K : Type) where
  agent : String
  objective : Objective
  ignoreInfeasible : Bool
  pruning : Bool
  error : K
  delta : K
  penalty : K
  boundKind : BoundKind
  method : SamplingMethod
  rule : StoppingRule

/-- The reports received for the current sample. -/
structure Round (K : Type) where
  sum : K
  received : Nat
  infeasible : Bool

/-- The state of a variable.  `slots` are the ancestors that matter; `nodes` the bandit nodes in the
order in which their contexts were first met, `index` finds the node of a context, and `active` is the
one being sampled; `current` is the index of the value held. -/
structure SamplingState (K : Type) where
  name : String
  domain : List Value
  parent : Option String
  children : List String
  phase : Phase
  parentFinished : Bool
  slots : List Slot
  current : Option Nat
  spaces : List (CostSpace K)
  nodes : List (BanditNode K)
  index : Std.ExtTreeMap (List Value) Nat
  active : Option Nat
  round : Round K
  penalty : K
  scalingFactor : K
  bound : BoundFormula

section

variable {K : Type} [CostArithmetic K]

def Round.empty : Round K := { sum := ofNat 0, received := 0, infeasible := false }

/-- One more report; one without a cost counts as the penalty. -/
def Round.add (penalty : K) (cost : Option K) (round : Round K) : Round K :=
  { sum := round.sum + cost.getD penalty
    received := round.received + 1
    infeasible := round.infeasible || cost.isNone }

def SamplingSettings.ofConfig (agent : String) (objective : Objective) (config : Config K) :
    SamplingSettings K where
  agent := agent
  objective := objective
  ignoreInfeasible := config.ignoreInfeasible
  pruning := config.pruning
  error := config.error
  delta := config.delta
  penalty := config.penaltyFor objective
  boundKind := config.bound
  method := config.method
  rule := config.rule

end

namespace SamplingState

variable {K : Type}

def isRoot (state : SamplingState K) : Bool := state.parent.isNone

def isLeaf (state : SamplingState K) : Bool := state.children.isEmpty

def contextNames (state : SamplingState K) : List String := state.slots.map Slot.name ++ [state.name]

/-- The values of slots of the named variable; the first slot without one is the error. -/
def slotValues (name : String) : List Slot → Except AgentError (List Value)
  | [] => .ok []
  | slot :: rest =>
    match slot.value with
    | none => .error (.missingValue name slot.name)
    | some value => (slotValues name rest).map (value :: ·)

def key (state : SamplingState K) : Except AgentError (List Value) :=
  slotValues state.name state.slots

def contextEntries (state : SamplingState K) (own : Value) :
    Except AgentError (List (String × Value)) :=
  state.key.map fun values => state.contextNames.zip (values ++ [own])

/-- The value held; the first one of the domain if none was chosen yet. -/
def currentValue (state : SamplingState K) : Value := state.domain[state.current.getD 0]?.getD 0

def node? (state : SamplingState K) : Option (BanditNode K) :=
  state.active.bind (state.nodes[·]?)

def setNode (state : SamplingState K) (node : BanditNode K) : SamplingState K :=
  { state with nodes := state.active.elim state.nodes (state.nodes.set · node) }

def addNode (state : SamplingState K) (key : List Value) (node : BanditNode K) :
    SamplingState K :=
  { state with
    nodes := state.nodes ++ [node]
    index := state.index.insert key state.nodes.length
    active := some state.nodes.length }

def assign (state : SamplingState K) (entries : List (String × Value)) : SamplingState K :=
  { state with
    slots := entries.foldl (fun slots entry => Slot.assign entry.1 entry.2 slots) state.slots }

def adoptLeader (state : SamplingState K) : SamplingState K :=
  match state.node?.bind BanditNode.leader with
  | none => state
  | some leader => { state with current := some leader.1 }

variable [CostArithmetic K]

def ofView (settings : SamplingSettings K) (name : String) (domain : List Value) (view : View) :
    SamplingState K where
  name := name
  domain := domain
  parent := view.parent
  children := view.children
  phase := .awaitingNormalization none
  parentFinished := view.isRoot
  slots := []
  current := none
  spaces := []
  nodes := []
  index := ∅
  active := none
  round := .empty
  penalty := settings.penalty
  scalingFactor := ofNat 1
  bound := settings.boundKind.forSize 1

def prepare (settings : SamplingSettings K) (normalized : Normalized K) (state : SamplingState K) :
    SamplingState K :=
  { state with
    slots := normalized.separator.map fun name => { name, value := none }
    spaces := normalized.spaces
    scalingFactor := normalized.scalingFactor
    -- the settings have the penalty in the units of the problem
    penalty := settings.penalty / normalized.scalingFactor
    bound := settings.boundKind.forSize normalized.size }

/-- The sum of the entries of spaces at the values of a context, added to `total`; the first space
without an entry is the error. -/
def addEntries (state : SamplingState K) (values : List Value) :
    List (CostSpace K) → K → Except AgentError K
  | [], total => .ok total
  | space :: rest, total =>
    match space.utility? state.contextNames values with
    | none => .error (.noEntry state.name space.name)
    | some entry => state.addEntries values rest (total + entry)

def localCost (state : SamplingState K) (own : Value) : Except AgentError K :=
  match state.key with
  | .error error => .error error
  | .ok values => state.addEntries (values ++ [own]) state.spaces (ofNat 0)

def localCosts (state : SamplingState K) : Except AgentError (List K) :=
  state.domain.mapM state.localCost

/-- Makes the node of the context active; a context that was not met before gets a new one. -/
def activate (state : SamplingState K) (settings : SamplingSettings K) :
    Except AgentError (SamplingState K) :=
  match state.key with
  | .error error => .error error
  | .ok key =>
    match state.index[key]? with
    | some place => .ok { state with active := some place }
    | none =>
      state.localCosts.map fun costs =>
        state.addNode key (.ofCosts costs settings.objective settings.ignoreInfeasible)

/-- Whether the active node has converged; without one there is nothing to sample. -/
def hasConverged (state : SamplingState K) (settings : SamplingSettings K) : Bool :=
  state.node?.all (·.hasConverged settings.rule settings.error settings.delta)

/-- Holds the best value under the context, the earliest of equal ones, and gives its cost; `none` if
no value is feasible. -/
def solveLeaf (state : SamplingState K) (objective : Objective) :
    Except AgentError (Option K × SamplingState K) :=
  state.localCosts.map fun costs =>
    let best := (objective.earliestBest ((List.range costs.length).zip costs)).getD
      (0, objective.worst)
    (if isInfinite best.2 then none else some best.2, { state with current := some best.1 })

/-- The radius of the leading value in the units of the problem. -/
def finalBound? (state : SamplingState K) (delta : K) : Option K :=
  state.node?.bind fun node =>
    node.leader.map fun leader => state.scalingFactor * node.radius leader.1 delta

end SamplingState

structure Sample (K G : Type) where
  chosen : Option Nat
  state : SamplingState K
  generator : G

/-- Samples a value in the active node and holds it; there is none if no value is feasible. -/
def SamplingState.sample {K G : Type} [CostArithmetic K] [Generator G] (state : SamplingState K)
    (settings : SamplingSettings K) (generator : G) : Except AgentError (Sample K G) :=
  match state.node? with
  | none => .error (.noActiveContext state.name)
  | some node =>
    let draw := node.draw settings.method generator
    match draw.chosen with
    | none =>
      .ok { chosen := none, state := state.setNode draw.node, generator := draw.generator }
    | some index =>
      .ok { chosen := some index
            state := { state.setNode (draw.node.recordVisit state.bound) with current := some index }
            generator := draw.generator }

end DcopSearch
