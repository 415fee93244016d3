/-
  RubyPattern.Predicate.Names

  The names that predicates are given: the words over the letters a to z, shorter ones first and
  words of one length in alphabetical order.
-/
import RubyPattern.Error.Cause

namespace RubyPattern.Predicate

/-- The letters of names, in order. -/
def letters : List Char :=
  "abcdefghijklmnopqrstuvwxyz".toList

/-- All words of a length, in alphabetical order. -/
def words : Nat → List (List Char)
  | 0 => [[]]
  | n + 1 => letters.flatMap fun c => (words n).map (c :: ·)

/-- The words of the same length as a word, up to and including it. -/
def wordsUpTo : List Char → List (List Char)
  | [] => [[]]
  | c :: cs =>
    (letters.takeWhile (· < c)).flatMap (fun d => (words cs.length).map (d :: ·))
      ++ (wordsUpTo cs).map (c :: ·)

/-- The names up to and including a last one, which has to be a word. -/
def letterNames (last : String) : Except Fault (List String) :=
  let cs := last.toList
  if cs.isEmpty || !cs.all letters.contains then .error (.badLastName last)
  else
    let shorter := (List.range (cs.length - 1)).flatMap fun n => words (n + 1)
    .ok ((shorter ++ wordsUpTo cs).map String.ofList)

/-- The names of one and two letters: seven hundred and two. -/
def defaultNames : List String :=
  (words 1 ++ words 2).map String.ofList

end RubyPattern.Predicate
