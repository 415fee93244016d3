/-
  RubyPattern.Ruby.SourceText

  Source text addressed by byte offsets of its UTF-8 form. A stretch of text begins and ends
  between characters; offsets beyond the end stand for the end.
-/
namespace RubyPattern.Ruby

/-- The characters from a byte offset on; `none` inside a character. -/
def dropBytes : List Char → Nat → Option (List Char)
  | cs, 0 => some cs
  | [], _ => some []
  | c :: cs, n + 1 => if c.utf8Size ≤ n + 1 then dropBytes cs (n + 1 - c.utf8Size) else none

/-- The characters in front of a byte offset; `none` inside a character. -/
def takeBytes : List Char → Nat → Option (List Char)
  | _, 0 => some []
  | [], _ => some []
  | c :: cs, n + 1 =>
    if c.utf8Size ≤ n + 1 then (takeBytes cs (n + 1 - c.utf8Size)).map (c :: ·) else none

/-- The characters between two byte offsets; nothing if the first is not below the second. -/
def slice? (cs : List Char) (start stop : Nat) : Option (List Char) :=
  if stop ≤ start then some []
  else (dropBytes cs start).bind (takeBytes · (stop - start))

/-- The line and column of a byte offset, both from zero on, given those of the front. Columns
    count bytes. -/
def pointFrom (line column : Nat) : List Char → Nat → Nat × Nat
  | _, 0 => (line, column)
  | [], n => (line, column + n)
  | c :: cs, n + 1 =>
    if n + 1 < c.utf8Size then (line, column + (n + 1))
    else if c == '\n' then pointFrom (line + 1) 0 cs n
    else pointFrom line (column + c.utf8Size) cs (n + 1 - c.utf8Size)

/-- The line and column of a byte offset, both from zero on. -/
def point (cs : List Char) (offset : Nat) : Nat × Nat :=
  pointFrom 0 0 cs offset

/-- Whether a hash arrow stands between two byte offsets, the first character at `offset`. -/
def hasArrowFrom (start stop : Nat) : Nat → List Char → Bool
  | offset, '=' :: '>' :: cs =>
    (Nat.ble start offset && Nat.ble (offset + 2) stop)
      || hasArrowFrom start stop (offset + 1) ('>' :: cs)
  | offset, c :: cs => hasArrowFrom start stop (offset + c.utf8Size) cs
  | _, [] => false

/-- Whether a hash arrow stands between two byte offsets. -/
def hasArrow (cs : List Char) (start stop : Nat) : Bool :=
  hasArrowFrom start stop 0 cs

end RubyPattern.Ruby
