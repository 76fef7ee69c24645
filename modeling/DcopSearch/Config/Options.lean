import DcopSearch.Config.Basic
import DcopSearch.Decimal.Reading

/-! Parameters as text.  Each option is a key and a value; the options are applied in their order to
the standard parameters, and the outcome must be usable. -/

namespace DcopSearch.Config

def readBool? : String → Option Bool
  | "true" => some true
  | "false" => some false
  | _ => none

/-- The value of an option as `read?` reads it, blanks around it aside. -/
def readWith {α : Type} (read? : String → Option α) (key value : String) :
    Except (ConfigError Float) α :=
  (read? (Text.trim value)).elim (.error (.invalidValue key value)) .ok

def setOption (config : Config Float) (key value : String) :
    Except (ConfigError Float) (Config Float) :=
  match key with
  | "error" => (readWith Decimal.float? key value).map fun x => { config with error := x }
  | "delta" => (readWith Decimal.float? key value).map fun x => { config with delta := x }
  | "penalty" => (readWith Decimal.float? key value).map fun x => { config with penalty := some x }
  | "ignoreInfeasible" =>
    (readWith readBool? key value).map fun b => { config with ignoreInfeasible := b }
  | "pruning" => (readWith readBool? key value).map fun b => { config with pruning := b }
  | "samplingMethod" => (readMethod value).map fun m => { config with method := m }
  | "terminationCondition" => (readRule value).map fun r => { config with rule := r }
  | "boundFormula" => (readBound value).map fun b => { config with bound := b }
  | "seed" => (readWith Decimal.word? key value).map fun w => { config with seed := some w }
  | "timeout" =>
    (readWith Decimal.word? key value).map fun w => { config with timeout := some w.toNat }
  | "maxMessages" =>
    (readWith Decimal.word? key value).map fun w => { config with maxMessages := some w.toNat }
  | "backend" => (readBackend value).map fun b => { config with backend := b }
  | _ => .error (.unknownOption key)

def ofOptions (options : List (String × String)) : Except (ConfigError Float) (Config Float) :=
  match options.foldlM (fun config option => setOption config option.1 option.2) standard with
  | .error error => .error error
  | .ok config => config.validate

end DcopSearch.Config
