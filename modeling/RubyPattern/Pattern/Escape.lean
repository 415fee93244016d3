/-
  RubyPattern.Pattern.Escape

  Backslash escapes of double-quoted Ruby text: how the characters between the quotes decode.
-/
import RubyPattern.Error.Cause
import RubyPattern.Text.Hex

namespace RubyPattern.Escape

open RubyPattern.Text

/-- The character that a letter stands for after a backslash; other characters stand for
    themselves. -/
def simple (c : Char) : Char :=
  match c with
  | 'n' => '\n'
  | 't' => '\t'
  | 'r' => '\r'
  | 'f' => '\x0c'
  | 'v' => '\x0b'
  | 'a' => '\x07'
  | 'b' => '\x08'
  | 'e' => '\x1b'
  | 's' => ' '
  | '0' => '\x00'
  | c => c

/-- The character of a code point. Halves of surrogate pairs, which are no characters, become the
    replacement character. -/
def codePoint (code : Nat) : Except Fault Char :=
  if 0x10FFFF < code then .error (.badCodePoint code)
  else if code.isValidChar then .ok (Char.ofNat code)
  else .ok '\ufffd'

/-- The code point that a numeric escape names, with the number of characters it takes behind the
    backslash: `u` and hexadecimal digits in curly brackets, `u` and four, or `x` and one or two. -/
def numeric? : List Char → Option (Nat × Nat)
  | 'u' :: '\x7b' :: cs =>
    let digits := cs.takeWhile isHex
    if !digits.isEmpty && cs[digits.length]? == some '\x7d' then
      some (ofHex digits, digits.length + 3)
    else none
  | 'u' :: cs =>
    let digits := (cs.take 4).takeWhile isHex
    if digits.length = 4 then some (ofHex digits, 5) else none
  | 'x' :: cs =>
    let digits := (cs.take 2).takeWhile isHex
    if digits.isEmpty then none else some (ofHex digits, digits.length + 1)
  | _ => none

/-- Decodes the characters, the first `skip` of them left out. A backslash at the very end stands
    for itself. -/
def decodeFrom : Nat → List Char → Except Fault (List Char)
  | _, [] => .ok []
  | skip + 1, _ :: cs => decodeFrom skip cs
  | 0, '\\' :: [] => .ok ['\\']
  | 0, '\\' :: c :: cs =>
    match numeric? (c :: cs) with
    | some (code, size) => do
      let d ← codePoint code
      let ds ← decodeFrom (size - 1) cs
      return d :: ds
    | none => do
      let ds ← decodeFrom 0 cs
      return simple c :: ds
  | 0, c :: cs => do
    let ds ← decodeFrom 0 cs
    return c :: ds

/-- The text that double-quoted characters denote. -/
def decode (cs : List Char) : Except Fault (List Char) :=
  decodeFrom 0 cs

/-- The text that a double-quoted body denotes. -/
def decodeString (s : String) : Except Fault String :=
  (decode s.toList).map String.ofList

end RubyPattern.Escape
