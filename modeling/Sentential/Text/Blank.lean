/-!
# Blank characters

White space in a formula carries no meaning and is dropped when the text is read.
What counts as white space is the Unicode property `White_Space`.

## Main definitions

* `blankRanges` — the property as a table of ranges of code points.
* `isBlank` — whether a character is in one of them.
-/

namespace Sentential

/-- The code points with the property `White_Space`, as ranges with both ends
included. -/
def blankRanges : List (Nat × Nat) :=
  [(0x0009, 0x000D), (0x0020, 0x0020), (0x0085, 0x0085), (0x00A0, 0x00A0), (0x1680, 0x1680),
    (0x2000, 0x200A), (0x2028, 0x2029), (0x202F, 0x202F), (0x205F, 0x205F), (0x3000, 0x3000)]

/-- Whether a character is white space. -/
def isBlank (c : Char) : Bool :=
  blankRanges.any fun range => range.1 ≤ c.toNat && c.toNat ≤ range.2

end Sentential
