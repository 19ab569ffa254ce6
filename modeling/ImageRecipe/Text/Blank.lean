/-!
# Blank characters

The characters that surround a word without belonging to it: the Unicode
property `White_Space`.  `trim` cuts them off both ends of a text.  Zero-width
characters and the separators `U+001C` to `U+001F` are not blank.
-/

namespace ImageRecipe.Text

/-- The ranges of the Unicode property `White_Space`, ends included. -/
def blankRanges : List (Nat × Nat) :=
  [(0x09, 0x0D), (0x20, 0x20), (0x85, 0x85), (0xA0, 0xA0), (0x1680, 0x1680), (0x2000, 0x200A),
    (0x2028, 0x2029), (0x202F, 0x202F), (0x205F, 0x205F), (0x3000, 0x3000)]

def inRanges (ranges : List (Nat × Nat)) (n : Nat) : Bool :=
  ranges.any fun r => decide (r.1 ≤ n) && decide (n ≤ r.2)

def isBlank (c : Char) : Bool :=
  inRanges blankRanges c.toNat

def trimRight (s : List Char) : List Char :=
  (s.reverse.dropWhile isBlank).reverse

/-- A text without the blanks at its two ends; those inside stay. -/
def trimChars (s : List Char) : List Char :=
  trimRight (s.dropWhile isBlank)

def trim (s : String) : String :=
  String.ofList (trimChars s.toList)

/-- A text of blanks only, the empty one included. -/
def allBlank (s : String) : Bool :=
  s.toList.all isBlank

end ImageRecipe.Text
