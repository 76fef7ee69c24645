/-! Seeds.  Every agent of a run draws from a generator of its own, whose seed is mixed from the seed
of the run and the agent's name: the name is hashed byte by byte, joined with the run's seed, and the
outcome is scrambled. -/

namespace DcopSearch.Seed

/-- One byte of the hash of Fowler, Noll and Vo, 64 bits wide: the byte is joined to the low end and
the word multiplied by their prime. -/
def hashByte (hash : UInt64) (byte : UInt8) : UInt64 :=
  (hash ^^^ byte.toUInt64) * 1099511628211

def hashName (name : String) : UInt64 :=
  (name.toList.flatMap String.utf8EncodeChar).foldl hashByte 14695981039346656037

def fold (shift word : UInt64) : UInt64 := word ^^^ (word >>> shift)

/-- The output function of SplitMix64: an increment, then two rounds of folding and multiplying by an
odd number, then a last fold. -/
def scramble (word : UInt64) : UInt64 :=
  let z := word + 0x9E3779B97F4A7C15
  let z := fold 30 z * 0xBF58476D1CE4E5B9
  let z := fold 27 z * 0x94D049BB133111EB
  fold 31 z

def ofAgent (seed : UInt64) (agent : String) : UInt64 := scramble (seed ^^^ hashName agent)

end DcopSearch.Seed
