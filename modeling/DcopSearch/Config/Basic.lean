import DcopSearch.Bandit.Selection
import DcopSearch.Bandit.Stopping

/-! The parameters of a run: how precise the result is to be, how infeasible assignments are treated,
by what methods is sampled, and what limits the run. -/

namespace DcopSearch

open CostArithmetic

/-- How the agents are run: one message at a time along simulated clocks, or side by side. -/
inductive Backend where
  | simulated
  | concurrent
deriving DecidableEq, Repr

namespace Backend

def words : List (String × Backend) :=
  [("threaded", concurrent), ("threads", concurrent), ("simulated", simulated),
   ("simulation", simulated)]

def named? (text : String) : Option Backend := words.lookup (Text.keyword text)

end Backend

/-- The causes for which parameters are refused; `K` is the type of costs. -/
inductive ConfigError (K : Type) where
  | errorNotPositive (error : K)
  | deltaOutOfRange (delta : K)
  | penaltyNotFinite
  | messageLimitZero
  | unknownMethod (word : String)
  | unknownRule (word : String)
  | unknownBound (word : String)
  | unknownBackend (word : String)
  | unknownOption (key : String)
  | invalidValue (key value : String)
deriving DecidableEq, Repr

def ConfigError.message {K : Type} (number : K → String) (cause : ConfigError K) : String :=
  "Invalid configuration: " ++
    match cause with
    | errorNotPositive error => "error must be positive, got " ++ number error
    | deltaOutOfRange delta => "delta must lie in (0, 1), got " ++ number delta
    | penaltyNotFinite => "penalty must be finite"
    | messageLimitZero => "maxMessages must be positive"
    | unknownMethod word => "unknown sampling method: " ++ word
    | unknownRule word => "unknown termination condition: " ++ word
    | unknownBound word => "unknown bound formula: " ++ word
    | unknownBackend word => "unknown backend: " ++ word
    | unknownOption key => "unknown option: " ++ key
    | invalidValue key value => "invalid value for " ++ key ++ ": " ++ value

/-- The parameters.  `delta` is the probability with which a bound may fail, `timeout` counts
milliseconds, and `maxMessages` limits the deliveries. -/
structure Config (K : Type) where
  error : K
  delta : K
  penalty : Option K
  ignoreInfeasible : Bool
  pruning : Bool
  method : SamplingMethod
  rule : StoppingRule
  bound : BoundKind
  seed : Option UInt64
  timeout : Option Nat
  maxMessages : Option Nat
  backend : Backend

namespace Config

variable {K : Type}

def readMethod (text : String) : Except (ConfigError K) SamplingMethod :=
  (SamplingMethod.named? text).elim (.error (.unknownMethod (Text.keyword text))) .ok

def readRule (text : String) : Except (ConfigError K) StoppingRule :=
  (StoppingRule.named? text).elim (.error (.unknownRule (Text.keyword text))) .ok

def readBound (text : String) : Except (ConfigError K) BoundKind :=
  (BoundKind.named? text).elim (.error (.unknownBound (Text.keyword text))) .ok

def readBackend (text : String) : Except (ConfigError K) Backend :=
  (Backend.named? text).elim (.error (.unknownBackend (Text.keyword text))) .ok

variable [CostArithmetic K]

def standard : Config K where
  error := ofNat 1 / ofNat 10
  delta := ofNat 1 / ofNat 10
  penalty := none
  ignoreInfeasible := false
  pruning := false
  method := .mean
  rule := .mean
  bound := .log
  seed := none
  timeout := none
  maxMessages := none
  backend := .simulated

/-- The cost that stands for an infeasible assignment: the chosen one or, on the bad side of the
objective, a thousand. -/
def penaltyFor (config : Config K) (objective : Objective) : K :=
  config.penalty.getD <|
    match objective with
    | .minimize => ofNat 1000
    | .maximize => -ofNat 1000

def validate (config : Config K) : Except (ConfigError K) (Config K) :=
  if !(lt (ofNat 0) config.error && isFinite config.error) then
    .error (.errorNotPositive config.error)
  else if !(lt (ofNat 0) config.delta && lt config.delta (ofNat 1)) then
    .error (.deltaOutOfRange config.delta)
  else if config.penalty.any (!isFinite ·) then .error .penaltyNotFinite
  else if config.maxMessages == some 0 then .error .messageLimitZero
  else .ok config

end Config

end DcopSearch
