import WordC.Text.CodePoints
/-!
# Ignorable characters

The code points with the Unicode property Default_Ignorable_Code_Point: joiners,
fillers, variation selectors and the like. Nothing is displayed for them, though
some of them, such as the Hangul fillers, are letters and may stand in a name.
-/

namespace WordC

namespace Text

/-- Where the property Default_Ignorable_Code_Point changes. -/
def ignorableBounds : List Nat :=
  [0xAD, 0xAE, 0x34F, 0x350, 0x61C, 0x61D, 0x115F, 0x1161, 0x17B4, 0x17B6, 0x180B, 0x1810, 0x200B,
   0x2010, 0x202A, 0x202F, 0x2060, 0x2070, 0x3164, 0x3165, 0xFE00, 0xFE10, 0xFEFF, 0xFF00, 0xFFA0,
   0xFFA1, 0xFFF0, 0xFFF9, 0x1BCA0, 0x1BCA4, 0x1D173, 0x1D17B, 0xE0000, 0xE1000]

/-- A character for which nothing is displayed. -/
def isIgnorable (c : Char) : Bool :=
  within ignorableBounds c

end Text

end WordC
