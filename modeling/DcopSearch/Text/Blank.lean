import DcopSearch.Text.Ranges

/-! Blank characters.  `isBlank` is the property White_Space of Unicode, and `trim` removes such
characters from both ends of a text.  A keyword is what remains, in small letters as far as they are
those of ASCII. -/

namespace DcopSearch.Text

/-- The characters with the property White_Space. -/
def blanks : CodeRanges :=
  [(0x9, 0xD), (0x20, 0x20), (0x85, 0x85), (0xA0, 0xA0), (0x1680, 0x1680), (0x2000, 0x200A),
   (0x2028, 0x2029), (0x202F, 0x202F), (0x205F, 0x205F), (0x3000, 0x3000)]

theorem isAscending_blanks : blanks.isAscending = true := by decide

def isBlank (c : Char) : Bool := blanks.contains c

theorem isBlank_of_isWhitespace {c : Char} (h : c.isWhitespace = true) : isBlank c = true := by
  simp only [Char.isWhitespace, Bool.or_eq_true, decide_eq_true_eq] at h
  rcases h with ((rfl | rfl) | rfl) | rfl <;> decide

def trim (s : String) : String :=
  String.ofList ((((s.toList.dropWhile isBlank).reverse).dropWhile isBlank).reverse)

/-- A text as a keyword: trimmed, and each capital of ASCII made small. -/
def keyword (s : String) : String := String.ofList ((trim s).toList.map Char.toLower)

end DcopSearch.Text
