import DcopSearch.Sampling.State

/-! How a variable reacts while it samples.  A non-leaf samples a value and hands its context down; a
leaf holds the best value under its context.  When all children have reported the cost of a sample,
the variable reports to its parent or, once the parent has terminated, goes on by itself until it has
converged.  A reaction always has a state: what was changed before an error stays. -/

namespace DcopSearch

open CostArithmetic

/-- What a variable sends, and whether it has terminated by that. -/
structure Emission (K : Type) where
  messages : List (Outgoing K)
  terminated : Bool

/-- The state of a variable and the generator after an event, and what the variable sends. -/
structure Reaction (K G : Type) where
  state : SamplingState K
  generator : G
  outcome : Except AgentError (Emission K)

namespace SamplingState

variable {K G : Type}

def contextMessages (state : SamplingState K) (problem : Problem K) (final : Bool) :
    Except AgentError (List (Outgoing K)) :=
  match state.contextEntries state.currentValue with
  | .error error => .error error
  | .ok entries =>
    problem.toOwners (fun child => .context { sender := state.name, receiver := child, entries, final })
      state.children

def costMessage (state : SamplingState K) (problem : Problem K) (cost : Option K) :
    Except AgentError (Outgoing K) :=
  match state.parent with
  | none => .error (.costOfRoot state.name)
  | some parent => problem.toOwner parent (.cost parent cost)

def fails (state : SamplingState K) (generator : G) (error : AgentError) : Reaction K G :=
  { state, generator, outcome := .error error }

def sends (state : SamplingState K) (generator : G)
    (messages : Except AgentError (List (Outgoing K))) : Reaction K G :=
  { state, generator, outcome := messages.map fun messages => { messages, terminated := false } }

def reports (state : SamplingState K) (problem : Problem K) (generator : G) (cost : Option K) :
    Reaction K G :=
  state.sends generator ((state.costMessage problem cost).map fun outgoing => [outgoing])

variable [CostArithmetic K]

/-- The last messages: the final context to the children, the value, and from a root that has
children the bound of its leading value. -/
def finalMessages (state : SamplingState K) (problem : Problem K) (delta : K) :
    Except AgentError (List (Outgoing K)) :=
  let assignment : Outgoing K :=
    { destination := .collector, message := .assignment state.name state.currentValue }
  if state.isLeaf then .ok [assignment]
  else
    let bound : List (Outgoing K) :=
      if state.isRoot then
        (state.finalBound? delta).toList.map fun bound =>
          { destination := .collector, message := .finalBound bound }
      else []
    (state.contextMessages problem true).map fun contexts => contexts ++ assignment :: bound

def terminates (state : SamplingState K) (problem : Problem K) (delta : K) (generator : G) :
    Reaction K G :=
  -- the phase is kept even if the messages cannot be made
  let state := { state with phase := .converged }
  { state
    generator
    outcome := (state.finalMessages problem delta).map fun messages =>
      { messages, terminated := true } }

variable [Generator G]

/-- Samples on and hands the sample down; `otherwise` follows if no value is feasible. -/
def samplesOr (state : SamplingState K) (settings : SamplingSettings K) (problem : Problem K)
    (generator : G) (otherwise : SamplingState K → G → Reaction K G) : Reaction K G :=
  match state.sample settings generator with
  | .error error => state.fails generator error
  | .ok sample =>
    match sample.chosen with
    | some _ => sample.state.sends sample.generator (sample.state.contextMessages problem false)
    | none => otherwise sample.state sample.generator

/-- Goes on without a parent that waits: ends with the leading value if the statistics are good
enough, and with the value held if there is nothing to sample. -/
def proceeds (state : SamplingState K) (settings : SamplingSettings K) (problem : Problem K)
    (generator : G) : Reaction K G :=
  if state.hasConverged settings then
    state.adoptLeader.terminates problem settings.delta generator
  else
    state.samplesOr settings problem generator fun state generator =>
      state.terminates problem settings.delta generator

def solves (state : SamplingState K) (settings : SamplingSettings K) (problem : Problem K)
    (generator : G) (final : Bool) : Reaction K G :=
  match state.solveLeaf settings.objective with
  | .error error => state.fails generator error
  | .ok (cost, state) =>
    if final then state.terminates problem settings.delta generator
    else state.reports problem generator cost

/-- Reacts to a context that has been taken over, in the node that belongs to it. -/
def answers (state : SamplingState K) (settings : SamplingSettings K) (problem : Problem K)
    (generator : G) (final : Bool) : Reaction K G :=
  if state.isLeaf then state.solves settings problem generator final
  else
    match state.activate settings with
    | .error error => state.fails generator error
    | .ok state =>
      -- after a final context the parent waits for no report any more
      if final then { state with parentFinished := true }.proceeds settings problem generator
      else
        state.samplesOr settings problem generator fun state generator =>
          state.reports problem generator none

def takes (state : SamplingState K) (settings : SamplingSettings K) (problem : Problem K)
    (generator : G) (context : Context) : Reaction K G :=
  if state.parent = some context.sender then
    { state.assign context.entries with phase := .sampling }.answers settings problem generator
      context.final
  else state.fails generator (.foreignContext state.name context.sender)

/-- Reacts to a context.  One that comes before normalization is kept. -/
def onContext (state : SamplingState K) (settings : SamplingSettings K) (problem : Problem K)
    (generator : G) (context : Context) : Reaction K G :=
  match state.phase with
  | .awaitingNormalization none =>
    { state with phase := .awaitingNormalization (some context) }.sends generator (.ok [])
  | .awaitingNormalization (some _) => state.fails generator (.secondContext state.name)
  | .converged => state.fails generator (.contextAfterConverging state.name)
  | .awaitingParentValue | .sampling => state.takes settings problem generator context

/-- Reacts to the end of normalization.  A root starts to sample, or ends at once if it is a leaf; any
other variable waits for its parent. -/
def onNormalized (state : SamplingState K) (settings : SamplingSettings K) (problem : Problem K)
    (generator : G) (normalized : Normalized K) : Reaction K G :=
  match state.phase with
  | .awaitingNormalization buffered =>
    let state := state.prepare settings normalized
    if state.isRoot then
      { state with phase := .sampling }.answers settings problem generator true
    else
      let state := { state with phase := .awaitingParentValue }
      -- a context that came too early is answered now
      match buffered with
      | none => state.sends generator (.ok [])
      | some context => state.onContext settings problem generator context
  | phase => state.fails generator (.normalizedWhile state.name phase)

/-- Credits a round of reports to the value that was sampled.  With pruning, a report of infeasibility
takes the value out of play. -/
def credit (settings : SamplingSettings K) (round : Round K) (index : Nat) (node : BanditNode K) :
    Option K × BanditNode K :=
  if settings.pruning && round.infeasible then (none, node.prune index)
  else node.storeCost index round.sum

def joins (state : SamplingState K) (settings : SamplingSettings K) (problem : Problem K)
    (generator : G) (round : Round K) : Reaction K G :=
  match state.current with
  | none => state.fails generator (.costBeforeSampling state.name)
  | some index =>
    match state.node? with
    | none => state.fails generator (.noActiveContext state.name)
    | some node =>
      let credited := credit settings round index node
      -- while the node explores nobody asks for its leader
      let node :=
        if credited.2.exploring then credited.2 else settings.method.process credited.2
      let state := state.setNode node
      if state.parentFinished then state.proceeds settings problem generator
      else state.reports problem generator credited.1

def onCost (state : SamplingState K) (settings : SamplingSettings K) (problem : Problem K)
    (generator : G) (cost : Option K) : Reaction K G :=
  if state.phase ≠ .sampling ∨ state.isLeaf then
    state.fails generator (.costWhile state.name state.phase)
  else
    let round := state.round.add state.penalty cost
    if round.received < state.children.length then
      { state with round }.sends generator (.ok [])
    else { state with round := .empty }.joins settings problem generator round

end SamplingState

end DcopSearch
