/-
  RubyPattern.Log.Structured

  Log records as JSON: time, level, logger and message first, then further fields and a failure.
-/
import RubyPattern.Detail.Json
import RubyPattern.Log.Entry
import RubyPattern.Log.Template

namespace RubyPattern.Log

open RubyPattern.Number RubyPattern.Text

/-! ## Time -/

/-- A number in decimal, filled up with zeros to a width. -/
def padded (width : Nat) (n : Nat) : String :=
  let digits := natDigits n
  String.ofList (List.replicate (width - digits.length) '0' ++ digits)

/-- A day of the calendar. -/
structure Day where
  year : Int
  month : Nat
  day : Nat
  deriving DecidableEq, Repr

/-- The day that lies a number of days after the first of January 1970. Years are counted from
    March here, so that the leap day is the last of its year; 146097 days make four centuries. -/
def Day.ofEpoch (days : Int) : Day :=
  let shifted := days + 719468
  let era := shifted / 146097
  let dayOfEra := (shifted % 146097).toNat
  let yearOfEra := (dayOfEra - dayOfEra / 1460 + dayOfEra / 36524 - dayOfEra / 146096) / 365
  let dayOfYear := dayOfEra - (365 * yearOfEra + yearOfEra / 4 - yearOfEra / 100)
  let shiftedMonth := (5 * dayOfYear + 2) / 153
  let day := dayOfYear - (153 * shiftedMonth + 2) / 5 + 1
  let month := if shiftedMonth < 10 then shiftedMonth + 3 else shiftedMonth - 9
  let year := era * 400 + yearOfEra
  ⟨if month ≤ 2 then year + 1 else year, month, day⟩

/-- A time in seconds as whole seconds and milliseconds; what is shorter is cut off. -/
def wholeSeconds (time : Float) : Int × Nat :=
  match Exact.ofFloat time with
  | .finite quanta =>
    let seconds := quanta / Exact.quantaPerUnit
    (seconds, ((time - Float.ofInt seconds) * 1000.0).toUInt64.toNat)
  | _ => (0, 0)

/-- A time in seconds since 1970, in UTC: date, time of day and milliseconds. -/
def timestamp (seconds : Int) (milliseconds : Nat) : String :=
  let day := Day.ofEpoch (seconds / 86400)
  let second := (seconds % 86400).toNat
  integerText day.year ++ "-" ++ padded 2 day.month ++ "-" ++ padded 2 day.day ++ " "
    ++ padded 2 (second / 3600) ++ ":" ++ padded 2 (second / 60 % 60) ++ ":"
    ++ padded 2 (second % 60) ++ "," ++ padded 3 milliseconds

/-! ## Records -/

/-- A failure that a record reports: its kind and its text. -/
structure Failure where
  kind : String
  text : String

/-- The line that tells a failure. A failed look-up shows its key in quotes; without a text the
    kind stands alone. -/
def Failure.line (f : Failure) : String :=
  if f.kind == "KeyError" then f.kind ++ ": " ++ quoted f.text
  else if f.text == "" then f.kind
  else f.kind ++ ": " ++ f.text

/-- A log record. -/
structure Record where
  logger : String
  level : Int
  template : String
  arguments : List Detail
  seconds : Int
  milliseconds : Nat
  extra : List (String × Detail)
  failure : Option Failure

/-- The fields of a record in order. Further fields may replace the first ones, and the failure
    replaces a field of its name. -/
def Record.fields (r : Record) : Except Fault (List (String × Detail)) := do
  let text ← message r.template r.arguments
  let first : List (String × Detail) :=
    [("timestamp", .text (timestamp r.seconds r.milliseconds)),
     ("level", .text (levelName r.level)),
     ("logger", .text r.logger),
     ("message", .text text)]
  let all := r.extra.foldl (fun fields entry => Detail.put entry.1 entry.2 fields) first
  return match r.failure with
    | some failure => Detail.put "exception" (.text failure.line) all
    | none => all

/-- A record as one line of JSON. -/
def Record.json (r : Record) : Except Fault String := do
  return (Detail.table (← r.fields)).json

end RubyPattern.Log
