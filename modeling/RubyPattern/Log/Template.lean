/-
  RubyPattern.Log.Template

  Message templates. A percent sign begins a field, which an argument fills: `%s` writes it as
  text, `%r` as messages show it and `%d` as a whole number. Flags, a width and a number of places
  may stand before the letter; `%%` is a percent sign.
-/
import RubyPattern.Detail.Basic
import RubyPattern.Error.Cause

namespace RubyPattern.Log

open RubyPattern.Number

/-- Data as a whole number; fractions are cut off. -/
def wholeNumber : Detail → Except Fault Int
  | .bool b => .ok (if b then 1 else 0)
  | .int n => .ok n
  | .float x =>
    match Exact.ofFloat x with
    | .finite quanta => .ok (quanta.tdiv Exact.quantaPerUnit)
    | _ => .error (.misuse .badFormat)
  | _ => .error (.misuse .wrongArguments)

/-- A field of a template: what its letter says, and how the text is set. -/
structure Field where
  letter : Char
  flags : List Char
  width : Nat
  places : Option Nat
  deriving DecidableEq, Repr

namespace Field

/-! ## Reading -/

/-- The flags of a field. -/
def isFlag (c : Char) : Bool :=
  c == '-' || c == '+' || c == ' ' || c == '0' || c == '#'

/-- The letters before a field's own letter that have no meaning. -/
def isSizeMark (c : Char) : Bool :=
  c == 'h' || c == 'l' || c == 'L'

/-- The number that a run of digits denotes; none denotes zero. -/
def count (digits : List Char) : Nat :=
  (natural? 10 digits).getD 0

/-- How many characters a point and the number of places take. -/
def placesReach : List Char → Nat
  | '.' :: cs => 1 + (cs.takeWhile Char.isDigit).length
  | _ => 0

/-- How many characters a size mark takes. -/
def sizeReach : List Char → Nat
  | c :: _ => if isSizeMark c then 1 else 0
  | [] => 0

/-- The field behind a percent sign, with the number of characters it takes there. -/
def read? (cs : List Char) : Option (Field × Nat) :=
  let flags := cs.takeWhile isFlag
  let width := (cs.drop flags.length).takeWhile Char.isDigit
  let front := flags.length + width.length
  let places := placesReach (cs.drop front)
  let size := sizeReach (cs.drop (front + places))
  match cs.drop (front + places + size) with
  | [] => none
  | letter :: _ =>
    let digits := (cs.drop (front + 1)).take (places - 1)
    some (⟨letter, flags, count width, if places = 0 then none else some (count digits)⟩,
      front + places + size + 1)

/-! ## Writing -/

/-- Fills a text up with blanks to the width: behind it if it is set left, else in front. -/
def aligned (f : Field) (text : List Char) : List Char :=
  let blanks := List.replicate (f.width - text.length) ' '
  if f.flags.contains '-' then text ++ blanks else blanks ++ text

/-- A text, cut to the number of places. -/
def writeText (f : Field) (text : String) : List Char :=
  f.aligned <| match f.places with
    | some places => text.toList.take places
    | none => text.toList

/-- The mark in front of a number: a minus below zero, else what the flags ask for. -/
def signMark (f : Field) (n : Int) : List Char :=
  if n < 0 then ['-']
  else if f.flags.contains '+' then ['+']
  else if f.flags.contains ' ' then [' ']
  else []

/-- A whole number with at least so many digits as there are places. Zeros that fill the width
    stand between sign and digits. -/
def writeWhole (f : Field) (n : Int) : List Char :=
  let mark := f.signMark n
  let digits := natDigits n.natAbs
  let least := match f.places with
    | some places => places
    | none => 0
  let least :=
    if f.flags.contains '0' && !f.flags.contains '-' then max least (f.width - mark.length)
    else least
  f.aligned (mark ++ List.replicate (least - digits.length) '0' ++ digits)

/-- An argument as its field writes it. -/
def write (f : Field) (d : Detail) : Except Fault (List Char) :=
  match f.letter with
  | 's' => .ok (f.writeText d.display)
  | 'r' => .ok (f.writeText d.diagnostic)
  | 'd' => (wholeNumber d).map f.writeWhole
  | 'i' => (wholeNumber d).map f.writeWhole
  | 'u' => (wholeNumber d).map f.writeWhole
  | _ => .error (.misuse .badFormat)

end Field

/-! ## Filling templates -/

/-- Fills the fields of a template with arguments in order, the first `skip` characters left out.
    Arguments may be left over only if `spare` says so. -/
def fillFrom (spare : Bool) : Nat → List Char → List Detail → Except Fault (List Char)
  | _, [], [] => .ok []
  | _, [], _ :: _ => if spare then .ok [] else .error (.misuse .wrongArguments)
  | skip + 1, _ :: cs, ds => fillFrom spare skip cs ds
  | 0, '%' :: '%' :: cs, ds => do
    let rest ← fillFrom spare 0 cs ds
    return '%' :: rest
  | 0, '%' :: cs, ds =>
    match Field.read? cs, ds with
    | none, _ => .error (.misuse .badFormat)
    | some _, [] => .error (.misuse .wrongArguments)
    | some (field, reach), d :: ds => do
      let text ← field.write d
      let rest ← fillFrom spare reach cs ds
      return text ++ rest
  | 0, c :: cs, ds => do
    let rest ← fillFrom spare 0 cs ds
    return c :: rest

/-- Whether arguments need not all be used: a single table may serve as a set of named ones. -/
def mayRemain : List Detail → Bool
  | [.table (_ :: _)] => true
  | _ => false

/-- A message with its arguments put in. Without arguments it is taken as it is. -/
def message (template : String) (arguments : List Detail) : Except Fault String :=
  if arguments.isEmpty then .ok template
  else (fillFrom (mayRemain arguments) 0 template.toList arguments).map String.ofList

end RubyPattern.Log
