/-
  RubyPattern.Detail.Basic

  Plain data: what errors and log entries carry along, and its text in messages.
-/
import RubyPattern.Number.Layout
import RubyPattern.Text.Quoted

namespace RubyPattern

open RubyPattern.Number RubyPattern.Text

/-- Plain data. A table keeps the order of its entries. -/
inductive Detail where
  | null
  | bool (b : Bool)
  | int (n : Int)
  | float (x : Float)
  | text (s : String)
  | list (items : List Detail)
  | table (entries : List (String × Detail))
  deriving Inhabited

namespace Detail

/-- Absent, false, zero and empty data count as false; all other data as true. -/
def truthy : Detail → Bool
  | .null => false
  | .bool b => b
  | .int n => n != 0
  | .float x => x != 0.0
  | .text s => s != ""
  | .list items => !items.isEmpty
  | .table entries => !entries.isEmpty

mutual

/-- Data as messages show it. -/
def diagnostic : Detail → String
  | .null => "None"
  | .bool b => if b then "True" else "False"
  | .int n => integerText n
  | .float x => Layout.diagnostic.text x
  | .text s => quoted s
  | .list items => "[" ++ ", ".intercalate (diagnosticItems items) ++ "]"
  | .table entries => "\x7b" ++ ", ".intercalate (diagnosticEntries entries) ++ "\x7d"

/-- Each item as messages show it. -/
def diagnosticItems : List Detail → List String
  | [] => []
  | d :: ds => diagnostic d :: diagnosticItems ds

/-- Each entry as messages show it. -/
def diagnosticEntries : List (String × Detail) → List String
  | [] => []
  | (key, d) :: rest => (quoted key ++ ": " ++ diagnostic d) :: diagnosticEntries rest

end

/-- Data inside a message: text as it is. -/
def display : Detail → String
  | .text s => s
  | d => d.diagnostic

/-! ## Entries -/

/-- Sets an entry: in its place if its key is there, else at the end. -/
def put (key : String) (d : Detail) : List (String × Detail) → List (String × Detail)
  | [] => [(key, d)]
  | (other, e) :: rest =>
    if other == key then (key, d) :: rest else (other, e) :: put key d rest

/-- Entries set one after the other; the last one of a key counts. -/
def settle (entries : List (String × Detail)) : List (String × Detail) :=
  entries.foldl (fun settled entry => put entry.1 entry.2 settled) []

end Detail

end RubyPattern
