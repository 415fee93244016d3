/-
  RubyPattern.Detail.Json

  Plain data as JSON on one line, in ASCII.
-/
import RubyPattern.Detail.Basic

namespace RubyPattern.Detail

open RubyPattern.Number RubyPattern.Text

/-- A UTF-16 unit as an escape. -/
def unitEscape (unit : Nat) : List Char :=
  '\\' :: 'u' :: hexPadded 4 unit

/-- One character of a JSON string. Everything beyond printable ASCII is escaped, in two units
    where one is not enough. -/
def jsonChar (c : Char) : List Char :=
  if c == '"' || c == '\\' then ['\\', c]
  else if c == '\n' then ['\\', 'n']
  else if c == '\r' then ['\\', 'r']
  else if c == '\t' then ['\\', 't']
  else if c == '\x0c' then ['\\', 'f']
  else if c == '\x08' then ['\\', 'b']
  else if 0x20 ≤ c.toNat ∧ c.toNat ≤ 0x7E then [c]
  else if c.toNat ≤ 0xFFFF then unitEscape c.toNat
  else
    let offset := c.toNat - 0x10000
    unitEscape (0xD800 + offset / 0x400) ++ unitEscape (0xDC00 + offset % 0x400)

/-- A JSON string. -/
def jsonString (s : String) : String :=
  String.ofList ('"' :: s.toList.flatMap jsonChar ++ ['"'])

/-- An object from the texts of its entries. -/
def jsonObject (entries : List (String × String)) : String :=
  let fields := entries.map fun entry => jsonString entry.1 ++ ": " ++ entry.2
  "\x7b" ++ ", ".intercalate fields ++ "\x7d"

mutual

/-- Data as JSON on one line. -/
def json : Detail → String
  | .null => "null"
  | .bool b => if b then "true" else "false"
  | .int n => integerText n
  | .float x => Layout.literal.text x
  | .text s => jsonString s
  | .list items => "[" ++ ", ".intercalate (jsonItems items) ++ "]"
  | .table entries => jsonObject (jsonEntries entries)

/-- Each item as JSON. -/
def jsonItems : List Detail → List String
  | [] => []
  | d :: ds => json d :: jsonItems ds

/-- Each entry with its value as JSON. -/
def jsonEntries : List (String × Detail) → List (String × String)
  | [] => []
  | (key, d) :: rest => (key, json d) :: jsonEntries rest

end

end RubyPattern.Detail
