/-
  RubyPattern.Builder.Building

  Building patterns. While a pattern is built, values are registered as predicates and source is
  read; both are reported in the log. A step that fails leaves what was registered and reported
  before it.
-/
import RubyPattern.Builder.Assignment
import RubyPattern.Builder.Candidate
import RubyPattern.Log.Entry
import RubyPattern.Pattern.Compiled
import RubyPattern.Predicate.Registry
import RubyPattern.Ruby.Parser
import RubyPattern.Tree.Parts

namespace RubyPattern

/-- What building leaves behind: the predicates registered and the log so far. -/
structure Bench where
  registry : Registry
  log : List Log.Entry

/-- A bench with the default names and nothing done. -/
def Bench.empty : Bench :=
  ⟨.ofNames Predicate.defaultNames, []⟩

/-- A step of building. -/
abbrev Building := ExceptT Fault (StateM Bench)

namespace Builder

/-- Reports something in the log. -/
def report (entry : Log.Entry) : Building Unit :=
  modify fun bench => { bench with log := bench.log ++ [entry] }

/-- A result that does not touch the bench. -/
def settled {α : Type} (result : Except Fault α) : Building α :=
  match result with
  | .ok a => pure a
  | .error fault => throw fault

/-! ## Nodes and tokens -/

/-- The label that any value gives. That of a token is its own; of other values it is plain text,
    also of symbols. -/
def label : Value → Except Fault Label
  | .token t => .ok t
  | v => do return .plain (← v.display)

/-- A node of a type with children. -/
def node (type : Value) (children : List Value) : Except Fault Node := do
  return ⟨← label type, children, none⟩

/-- A raw token. One made from a symbol remembers it. -/
def token (v : Value) : Except Fault Token :=
  match v.symbol? with
  | some text => .ok ⟨text, true⟩
  | none => label v

/-- A symbol. -/
def symbol (name : Value) : Except Fault Value := do
  return .sym (← name.display)

/-- A node with another type, other children or both; the absent value leaves a part as it is. -/
def updated (n : Node) (type children : Value) : Except Fault Node := do
  let type ← match type with
    | .nil => pure none
    | v => some <$> label v
  let children ← match children with
    | .nil => pure none
    | v => some <$> v.items?
  return n.updated type children

/-- A token that captures what an item matches. -/
def capture (item : Value) : Except Fault Token := do
  return ⟨"$" ++ (← item.render), false⟩

/-- A token that captures any node. -/
def captureChildren : Token :=
  ⟨"$(...)", false⟩

/-- A method name: a plain string stands for the symbol. -/
def methodName : Value → Value
  | .str name => .sym name
  | v => v

/-- A call without a receiver. -/
def topLevelCall (name : Value) (arguments : List Value) : Node :=
  .bare "send" (.nil :: methodName name :: arguments)

/-- A call on a receiver; the first argument, if any, is the method's name. -/
def methodCall (receiver : Value) : List Value → Node
  | [] => .bare "send" [receiver]
  | name :: arguments => .bare "send" (receiver :: methodName name :: arguments)

/-! ## Source -/

/-- Reads source as a tree. -/
def parse (parser : Ruby.Parser) (source : String) : Building Node := do
  let n ← settled (parser.parse source)
  report (.parsed source.utf8ByteSize n.type.text)
  return n

/-- Reads the texts among some items as source. -/
def parseTexts (parser : Ruby.Parser) : List Value → Building (List Value)
  | [] => pure []
  | item :: items => do
    let item ← match item.text? with
      | some source => do
        let n ← parse parser source
        pure n.toValue
      | none => pure item
    let items ← parseTexts parser items
    return item :: items

/-- Reads the texts among some items as source, and gives the first item the others as further
    children. -/
def expand (parser : Ruby.Parser) (items : List Value) : Building Node := do
  if items.isEmpty then throw .nothingToExpand
  match ← parseTexts parser items with
  | [] => throw .nothingToExpand
  | base :: rest =>
    match base.node? with
    | some n => return n.concat rest
    | none => throw (.baseNotNode base.typeName)

/-! ## Predicates -/

/-- Registers a predicate; the token calls it by the name it was given. -/
def matching (datum : Datum) : Building Token := do
  let bench ← get
  let (name, registry) ← settled (bench.registry.register datum)
  set { bench with registry }
  report (.registered name datum.typeName)
  return ⟨"#" ++ name, false⟩

/-- Registers a predicate; the token captures what it holds of. -/
def captureMatching (datum : Datum) : Building Token := do
  let t ← matching datum
  settled (capture (.token t))

/-- The predicates registered so far. -/
def predicates : Building Functions := do
  return (← get).registry.entries

/-! ## The finished pattern -/

/-- Compiles a tree with the predicates registered so far. -/
def compile (tree : Value) : Building Compiled := do
  let functions ← predicates
  let p ← settled (Compiled.ofTree tree functions)
  report (.compiled p.pattern functions.length)
  return p

/-- The builder of a tree, as messages show it. -/
def diagnostic (tree : Value) : Except Fault String := do
  return "Builder(" ++ Text.quoted (← tree.render) ++ ")"

/-- Matches a candidate against a tree. The tree is compiled before the candidate is looked at. -/
def matchCandidate (parser : Ruby.Parser) (tree : Value) (candidate : Datum) : Building Value := do
  let p ← compile tree
  let n ← candidate.candidateNode (parse parser)
  settled (p.matchValue n.toValue)

/-- Every node of a candidate tree that the tree applies to, with its text. -/
def search (tree candidate : Value) : Building (List (Found × Summary)) := do
  let p ← compile tree
  let n ← settled candidate.requireNode
  settled (p.searchSummaries n)

/-- The tree that a builder starts from: that of its source if there is one, or else a construction
    of its own. -/
def start (parser : Ruby.Parser) (source : Option String) (construction : Option (Building Value)) :
    Building Value := do
  match source, construction with
  | some source, _ => return (← parse parser source).toValue
  | none, some construct => construct
  | none, none => throw .nothingToBuild

end Builder

end RubyPattern
