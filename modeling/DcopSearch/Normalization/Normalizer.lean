import DcopSearch.Normalization.Range

/-! Normalization by the messages of one agent.  Ranges travel up the tree and the divisor down, so
that in the end the costs of every component lie within a unit.  The messages for a variable may come
in any order; a handler gives the state after the message even if it fails, since what it has taken in
by then stays. -/

namespace DcopSearch

/-- The normalization of the variables of an agent.  `substitute` replaces infeasible costs, which are
kept if there is none. -/
structure Normalizer (K : Type) where
  agent : String
  substitute : Option K
  ranges : Std.ExtTreeMap String (Range K)

namespace Normalizer

variable {K : Type} [CostArithmetic K]

def new (agent : String) (substitute : Option K) : Normalizer K :=
  { agent, substitute, ranges := ∅ }

def range (normalizer : Normalizer K) (name : String) : Range K :=
  normalizer.ranges[name]?.getD .empty

def setRange (normalizer : Normalizer K) (name : String) (range : Range K) : Normalizer K :=
  { normalizer with ranges := normalizer.ranges.insert name range }

/-- What speaks against a message for a variable: it is unknown or of another agent. -/
def ownershipError? (normalizer : Normalizer K) (problem : Problem K) (name : String) :
    Option AgentError :=
  match problem.owner? name with
  | none => some (.unknownVariable name)
  | some owner => if owner = normalizer.agent then none else some (.notOwned normalizer.agent name)

def divisorMessages (problem : Problem K) (view : View) (divisor : K) :
    Except AgentError (List (Outgoing K)) :=
  problem.toOwners (fun child => .divisor child divisor) view.children

/-- Rescales the spaces of a variable and passes the divisor on.  A variable is rescaled once. -/
def applyDivisor (normalizer : Normalizer K) (problem : Problem K) (name : String) (divisor : K)
    (range : Range K) : Normalizer K × Except AgentError (NormalizationStep K) :=
  match range.view with
  | none => (normalizer, .error (.divisorBeforeView normalizer.agent name))
  | some view =>
    if range.done then (normalizer, .error (.normalizedTwice normalizer.agent name))
    else
      let range := range.rescale normalizer.substitute divisor
      (normalizer.setRange name range,
        (divisorMessages problem view divisor).map fun messages =>
          { messages, completed := [range.normalized name divisor] })

def reportTo (parent : String) (range : Range K) : RangeReport K where
  receiver := parent
  lower := range.lower
  upper := range.upper
  spaceCount := range.spaceCount
  size := range.size
  separator := range.separator

/-- Stores the range of a variable and, when it is complete, reports it to the parent. -/
def advance (normalizer : Normalizer K) (problem : Problem K) (name : String) (range : Range K) :
    Normalizer K × Except AgentError (NormalizationStep K) :=
  match range.view with
  | none => (normalizer.setRange name range, .ok {})
  | some view =>
    if range.isComplete view then
      let range := range.close name view
      let normalizer := normalizer.setRange name range
      match view.parent with
      | some parent =>
        (normalizer,
          (problem.toOwner parent (.range (reportTo parent range))).map fun outgoing =>
            { messages := [outgoing] })
      -- the range of a root is that of its component
      | none => normalizer.applyDivisor problem name range.divisor range
    else (normalizer.setRange name range, .ok {})

def onView (normalizer : Normalizer K) (problem : Problem K) (name : String) (view : View) :
    Normalizer K × Except AgentError (NormalizationStep K) :=
  match normalizer.ownershipError? problem name with
  | some error => (normalizer, .error error)
  | none =>
    let range := normalizer.range name
    if range.view.isSome then (normalizer, .error (.secondView normalizer.agent name))
    else
      -- what involves a variable further down is enforced there
      let spaces := problem.spacesEnforcedBy name view.below
      let values := (problem.domain? name).elim 0 List.length
      normalizer.advance problem name (range.addView normalizer.substitute view spaces values)

def onRange (normalizer : Normalizer K) (problem : Problem K) (report : RangeReport K) :
    Normalizer K × Except AgentError (NormalizationStep K) :=
  match normalizer.ownershipError? problem report.receiver with
  | some error => (normalizer, .error error)
  | none =>
    normalizer.advance problem report.receiver
      ((normalizer.range report.receiver).addReport report)

def onDivisor (normalizer : Normalizer K) (problem : Problem K) (name : String) (divisor : K) :
    Normalizer K × Except AgentError (NormalizationStep K) :=
  match normalizer.ownershipError? problem name with
  | some error => (normalizer, .error error)
  | none =>
    match normalizer.ranges[name]? with
    | none => (normalizer, .error (.unknownVariable name))
    | some range => normalizer.applyDivisor problem name divisor range

def handle (normalizer : Normalizer K) (problem : Problem K) (message : Message K) :
    Normalizer K × Except AgentError (NormalizationStep K) :=
  match message with
  | .view name view => normalizer.onView problem name view
  | .range report => normalizer.onRange problem report
  | .divisor receiver divisor => normalizer.onDivisor problem receiver divisor
  | message => (normalizer, .error (.unexpectedMessage normalizer.agent message.kind))

/-- Handles messages in turn and joins their steps; the first error ends it. -/
def handleAll (normalizer : Normalizer K) (problem : Problem K) :
    List (Message K) → Normalizer K × Except AgentError (NormalizationStep K)
  | [] => (normalizer, .ok {})
  | message :: rest =>
    match normalizer.handle problem message with
    | (normalizer, .error error) => (normalizer, .error error)
    | (normalizer, .ok step) =>
      let (normalizer, outcome) := normalizer.handleAll problem rest
      (normalizer, outcome.map step.append)

def isDone (normalizer : Normalizer K) (problem : Problem K) : Bool :=
  (problem.variablesOf normalizer.agent).all fun name =>
    normalizer.ranges[name]?.any Range.done

end Normalizer

end DcopSearch
