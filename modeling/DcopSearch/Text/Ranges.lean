/-! Sets of characters as ranges of code points.  The properties of characters that the library needs
are tables of such ranges, as version 17 of the Unicode standard assigns them. -/

namespace DcopSearch.Text

/-- Ranges of code points, each with its first and its last one. -/
abbrev CodeRanges := List (Nat × Nat)

namespace CodeRanges

def contains (ranges : CodeRanges) (c : Char) : Bool :=
  ranges.any fun r => r.1 ≤ c.toNat && c.toNat ≤ r.2

def isAscending : CodeRanges → Bool
  | [] => true
  | [r] => r.1 ≤ r.2
  | r :: s :: rest => r.1 ≤ r.2 && r.2 + 1 < s.1 && isAscending (s :: rest)

end CodeRanges

end DcopSearch.Text
