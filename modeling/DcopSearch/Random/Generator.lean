/-! Sources of chance.  The search asks a generator for nothing but an index below a positive
number, so that whatever is stated for every `Generator` holds of every run of luck. -/

namespace DcopSearch

class Generator (G : Type) where
  ofSeed : UInt64 → G
  /-- An index below `n`, and the generator after the draw. -/
  pick : (n : Nat) → 0 < n → G → Fin n × G

end DcopSearch
