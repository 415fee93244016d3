/-
  RubyPattern.Tree.Equality

  When two values are the same. Numbers and booleans compare by exact numeric value, nodes by type
  and children, and values of different kinds differ. A NaN equals nothing, but as a part of a
  larger value it is the same part as itself. `literalEquals`, the equality of patterns, also keeps
  booleans apart from numbers, at the top of the two values.
-/
import RubyPattern.Number.Binary
import RubyPattern.Tree.Basic

namespace RubyPattern.Value

open RubyPattern.Number

/-- The number that a value stands for, if it is numeric; true is one and false is zero. -/
def number? : Value → Option Exact
  | .bool b => some (.ofInt (if b then 1 else 0))
  | .int n => some (.ofInt n)
  | .float x => some (.ofFloat x)
  | .nan _ => some .notANumber
  | _ => none

/-- Equality of plain values: of numbers by value, of texts by kind and characters. -/
def sameLeaf : Value → Value → Bool
  | .nil, .nil => true
  | .str a, .str b => a == b
  | .token a, .token b => a == b
  | .criterion a, .criterion b => a.same b
  | a, b => match a.symbol?, b.symbol?, a.number?, b.number? with
    | some x, some y, _, _ => x == y
    | _, _, some x, some y => x.eq y
    | _, _, _, _ => false

/-- Whether two values are one and the same NaN. -/
def sameNan : Value → Value → Bool
  | .nan a, .nan b => a == b
  | _, _ => false

mutual

/-- Equality of values; the location of a node does not count. -/
def same : Value → Value → Bool
  | .node t cs _, b => match b with
    | .node u ds _ => t == u && sameAll cs ds
    | _ => false
  | .tuple cs, b => match b with
    | .tuple ds => sameAll cs ds
    | _ => false
  | .list cs, b => match b with
    | .list ds => sameAll cs ds
    | _ => false
  | .set _ cs, b => match b with
    | .set _ ds => allAmong cs ds && ds.all (anySame cs)
    | _ => false
  | a, b => sameLeaf a b

/-- Equality of sequences, item by item. -/
def sameAll : List Value → List Value → Bool
  | [], [] => true
  | a :: as, b :: bs => (sameNan a b || same a b) && sameAll as bs
  | _, _ => false

/-- Whether every value of a sequence is among some members. -/
def allAmong : List Value → List Value → Bool
  | [], _ => true
  | a :: as, bs => (bs.any fun b => sameNan a b || same a b) && allAmong as bs

/-- Whether some value of a sequence is the same part as a member. -/
def anySame : List Value → Value → Bool
  | [], _ => false
  | a :: as, b => sameNan a b || same a b || anySame as b

end

/-- Whether two values count as the same part of larger values: they are equal, or one and the
    same NaN. -/
def samePart (a b : Value) : Bool :=
  sameNan a b || same a b

/-- Equality as patterns see it: a symbol equals symbols only, a boolean booleans only and a
    string strings only; everything else compares as values do. -/
def literalEquals (a b : Value) : Bool :=
  match a.symbol?, b.symbol? with
  | some x, some y => x == y
  | some _, none => false
  | none, some _ => false
  | none, none => match a, b with
    | .bool x, .bool y => x == y
    | .bool _, _ => false
    | _, .bool _ => false
    | .str x, .str y => x == y
    | .str _, _ => false
    | _, .str _ => false
    | a, b => same a b

mutual

/-- Whether a value can be a member of a set: it holds no list, nor a set that is not frozen, at
    any depth. -/
def hashable : Value → Bool
  | .node _ children _ => hashableAll children
  | .tuple items => hashableAll items
  | .list _ => false
  | .set frozen _ => frozen
  | _ => true

/-- Whether every value of a sequence can be a member of a set. -/
def hashableAll : List Value → Bool
  | [] => true
  | v :: vs => hashable v && hashableAll vs

end

/-- Whether a value is among the members of a set. One that cannot be a member is not, except that
    a set is looked up as a frozen one. -/
def isAmong (v : Value) (members : List Value) : Bool :=
  match v with
  | .set .. => members.any (samePart v)
  | v => v.hashable && members.any (samePart v)

/-- The values of a list without those that are the same as an earlier one. -/
def distinct (vs : List Value) : List Value :=
  vs.foldl (fun kept v => if kept.any (samePart v) then kept else kept ++ [v]) []

end RubyPattern.Value
