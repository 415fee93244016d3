/-
  RubyPattern.Pattern.AbsentChild

  Absent children in rendered trees. A rendered tree spells an absent child `nil`, which a pattern
  would read as a node of that type; `nil?` tests for the absent child. The scan adds the question
  mark and passes over quoted texts, symbols, and `nil` at the head of a sequence.
-/
import RubyPattern.Text.Word
import RubyPattern.Tree.Name

namespace RubyPattern.AbsentChild

open RubyPattern.Text

/-- The rest of a quoted text through its closing quote. A backslash takes the next character with
    it unless that is a line end, which leaves the text unquoted. -/
def closingReach : List Char → Nat
  | [] => 0
  | '"' :: _ => 1
  | '\\' :: [] => 0
  | '\\' :: c :: cs =>
    if c == '\n' then 0
    else match closingReach cs with
      | 0 => 0
      | reach => reach + 2
  | _ :: cs =>
    match closingReach cs with
    | 0 => 0
    | reach => reach + 1

/-- A quoted text with both its quotes; zero if there is none at the front. -/
def quotedReach : List Char → Nat
  | '"' :: cs =>
    match closingReach cs with
    | 0 => 0
    | reach => reach + 1
  | _ => 0

/-- The name of a symbol: sigils, word characters and one method mark. -/
def symbolNameReach (cs : List Char) : Nat :=
  let sigils := (cs.takeWhile fun c => c == '@' || c == '$').length
  let word := ((cs.drop sigils).takeWhile isWord).length
  if word = 0 then 0
  else match cs.drop (sigils + word) with
    | mark :: _ => sigils + word + (if Name.isMethodMark mark then 1 else 0)
    | [] => sigils + word

/-- A quoted text or a symbol, which the scan leaves as it is. -/
def shieldedReach : List Char → Nat
  | ':' :: cs =>
    match quotedReach cs, symbolNameReach cs with
    | 0, 0 => 0
    | 0, reach => reach + 1
    | reach, _ => reach + 1
  | cs => quotedReach cs

/-- Whether `nil` may stand behind a character: not inside a word, a variable, a function's name
    or at the head of a sequence. -/
def mayFollow : Option Char → Bool
  | none => true
  | some c => !(isWord c || c == '@' || c == '#' || c == '(')

/-- Whether `nil` may stand before these characters: not inside a word, nor marked already. -/
def mayPrecede : List Char → Bool
  | [] => true
  | c :: _ => !(isWord c || c == '?' || c == '!')

/-- Marks the absent children from a place on. The next `keep` characters are left as they are;
    `previous` is the character before the place. -/
def markFrom : Nat → Option Char → List Char → List Char
  | _, _, [] => []
  | keep + 1, _, c :: cs => c :: markFrom keep (some c) cs
  | 0, previous, 'n' :: 'i' :: 'l' :: cs =>
    if mayFollow previous && mayPrecede cs then
      'n' :: 'i' :: 'l' :: '?' :: markFrom 0 (some 'l') cs
    else 'n' :: markFrom 0 (some 'n') ('i' :: 'l' :: cs)
  | 0, _, c :: cs => c :: markFrom (shieldedReach (c :: cs) - 1) (some c) cs

/-- Writes every absent child of a rendered tree as `nil?`. -/
def mark (s : String) : String :=
  String.ofList (markFrom 0 none s.toList)

end RubyPattern.AbsentChild
