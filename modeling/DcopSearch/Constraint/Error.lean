/-! What can be wrong with a problem while it is put together. -/

namespace DcopSearch

inductive ProblemError where
  | axisCount (space : String) (names domains : Nat)
  | tableSize (space : String) (expected actual : Nat)
  | repeatedAxis (space : String)
  | emptyDomain (name : String)
  | declaredTwice (name : String)
  | unknownVariable (name : String)
  /-- A space gives a variable a domain other than the one it was declared with. -/
  | foreignDomain (space name : String)
  | noVariables
deriving DecidableEq, Repr

def ProblemError.message : ProblemError → String
  | axisCount space names domains =>
    "Invalid problem: space " ++ space ++ " has " ++ toString names ++ " variables but "
      ++ toString domains ++ " domains"
  | tableSize space expected actual =>
    "Invalid problem: space " ++ space ++ " expects " ++ toString expected ++ " utilities, got "
      ++ toString actual
  | repeatedAxis space =>
    "Invalid problem: space " ++ space ++ " has a repeated variable in its scope"
  | emptyDomain name => "Invalid problem: variable " ++ name ++ " has an empty domain"
  | declaredTwice name => "Invalid problem: variable " ++ name ++ " declared twice"
  | unknownVariable name => "Unknown variable: " ++ name
  | foreignDomain space name =>
    "Invalid problem: space " ++ space ++ " uses a domain for " ++ name
      ++ " that differs from its declaration"
  | noVariables => "Invalid problem: problem has no variables"

end DcopSearch
