/-
  RubyPattern.Log.Entry

  Loggers, levels and log entries.
-/
import RubyPattern.Number.Digits
import RubyPattern.Text.Quoted

namespace RubyPattern.Log

open RubyPattern.Number RubyPattern.Text

/-- The name of the logger that the library's others belong to. -/
def libraryName : String := "asta"

/-- The full name of a logger; without a name of its own it is the common one. -/
def loggerName : Option String → String
  | some name => libraryName ++ "." ++ name
  | none => libraryName

/-- The numeric level of entries that only debugging needs. -/
def debugLevel : Int := 10

/-- The name of a numeric level. -/
def levelName (level : Int) : String :=
  if level = 0 then "NOTSET"
  else if level = 10 then "DEBUG"
  else if level = 20 then "INFO"
  else if level = 30 then "WARNING"
  else if level = 40 then "ERROR"
  else if level = 50 then "CRITICAL"
  else "Level " ++ integerText level

/-- Something that the library did, reported by one of its loggers. -/
structure Entry where
  logger : String
  level : Int
  message : String
  deriving DecidableEq, Repr, Inhabited

namespace Entry

/-- A predicate was registered under a name. -/
def registered (name typeName : String) : Entry :=
  ⟨loggerName (some "predicates"), debugLevel,
    "Registered predicate #" ++ name ++ " for " ++ typeName⟩

/-- A pattern was compiled with a number of bound predicates. -/
def compiled (pattern : String) (predicates : Nat) : Entry :=
  ⟨loggerName (some "compiler"), debugLevel,
    "Compiled pattern " ++ quoted pattern ++ " with " ++ integerText predicates
      ++ " predicate(s)"⟩

/-- Source of a number of bytes was read as a tree. -/
def parsed (bytes : Nat) (type : String) : Entry :=
  ⟨loggerName (some "parsing"), debugLevel,
    "Parsed " ++ integerText bytes ++ " bytes into (" ++ type ++ " ...)"⟩

end Entry

/-! ## Setup -/

/-- The form in which a handler writes entries. -/
inductive Form where
  | plain
  | structured
  deriving DecidableEq, Repr

/-- The name of a form. -/
def Form.name : Form → String
  | .plain => "Formatter"
  | .structured => "StructuredFormatter"

/-- A handler and the level from which on it writes. -/
structure Handler where
  level : Int
  form : Form
  deriving DecidableEq, Repr

/-- A logger, its level and its handlers. -/
structure Logger where
  name : String
  level : Int
  handlers : List Handler
  deriving DecidableEq, Repr

/-- The name under which a logger is known. The logger without a name, which all others report to,
    is called the root. -/
def knownName (name : String) : String :=
  if name == "" then "root" else name

/-- Sets a logger up with one handler of its own level; earlier handlers go. -/
def setup (name : String) (level : Int) (structured : Bool) : Logger :=
  ⟨knownName name, level, [⟨level, if structured then .structured else .plain⟩]⟩

end RubyPattern.Log
