/-
  RubyPattern.Text.Occurrence

  Texts to look for in other texts, anywhere or tied to the start and the end.
-/
namespace RubyPattern

/-- A text to look for, perhaps only at the start or only at the end of the searched text. The end
    is also before a final line end. -/
structure TextPattern where
  atStart : Bool
  text : List Char
  atEnd : Bool
  deriving DecidableEq, Repr, Inhabited

namespace TextPattern

/-- Reads a text pattern: a caret before and a dollar behind tie it to the start and the end. -/
def ofString (s : String) : TextPattern :=
  let cs := s.toList
  let atStart := cs.head? == some '^'
  let body := if atStart then cs.tail else cs
  let atEnd := body.getLast? == some '$'
  ⟨atStart, if atEnd then body.dropLast else body, atEnd⟩

/-- Writes a text pattern with its caret and dollar. -/
def toString (p : TextPattern) : String :=
  String.ofList ((if p.atStart then ['^'] else []) ++ p.text ++ (if p.atEnd then ['$'] else []))

/-- Whether the text stands at the front, and the end behind it if it has to. -/
def standsAt (p : TextPattern) (cs : List Char) : Bool :=
  p.text.isPrefixOf cs &&
    (!p.atEnd || cs.drop p.text.length == [] || cs.drop p.text.length == ['\n'])

/-- Whether the text stands somewhere. -/
def standsIn (p : TextPattern) : List Char → Bool
  | [] => p.standsAt []
  | c :: cs => p.standsAt (c :: cs) || p.standsIn cs

/-- Whether a text pattern occurs in a text. -/
def occursIn (p : TextPattern) (s : String) : Bool :=
  if p.atStart then p.standsAt s.toList else p.standsIn s.toList

end TextPattern

end RubyPattern
