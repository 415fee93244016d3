/-
  RubyPattern.Text.Blank

  White space of Unicode: what separates the parts of a pattern.
-/
import RubyPattern.Text.Ranges

namespace RubyPattern.Text

/-- The white space characters. -/
def blankRanges : List (Nat × Nat) :=
  [(0x9, 0xD), (0x1C, 0x20), (0x85, 0x85), (0xA0, 0xA0), (0x1680, 0x1680), (0x2000, 0x200A),
   (0x2028, 0x2029), (0x202F, 0x202F), (0x205F, 0x205F), (0x3000, 0x3000)]

/-- White space: the spaces and line ends of every script, and the ASCII separators. -/
def isBlank (c : Char) : Bool :=
  inRanges blankRanges c.toNat

/-- The white space that may surround the digits of a number. The four ASCII separators from
    U+001C to U+001F do not count. -/
def isNumberPadding (c : Char) : Bool :=
  isBlank c && !(Nat.ble 0x1C c.toNat && Nat.ble c.toNat 0x1F)

end RubyPattern.Text
