/-!
# Blank text

The characters with the Unicode property White_Space, and the texts that hold no others.

* `isBlank`: the property, as a table of ranges.
* `isBlankText`: a text that shows nothing.
-/

namespace Dataflow

/-- The ranges of the characters with the property White_Space, ends included. -/
def blankRanges : List (Nat × Nat) :=
  [(0x0009, 0x000D), (0x0020, 0x0020), (0x0085, 0x0085), (0x00A0, 0x00A0), (0x1680, 0x1680),
   (0x2000, 0x200A), (0x2028, 0x2029), (0x202F, 0x202F), (0x205F, 0x205F), (0x3000, 0x3000)]

/-- A character with the property White_Space. -/
def isBlank (c : Char) : Bool :=
  blankRanges.any fun (first, last) => first ≤ c.toNat && c.toNat ≤ last

/-- A text without a character that shows. -/
def isBlankText (s : String) : Bool := s.toList.all isBlank

end Dataflow
