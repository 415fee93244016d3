/-
  RubyPattern.Proofs.Refusal

  Texts that no pattern can begin with or go on with: those that do not scan,
  and those with the name of an unknown predicate. A refused text stays refused
  behind brackets and behind elements that spell themselves.
-/
import RubyPattern.Proofs.Scanning

namespace RubyPattern

open RubyPattern.Text

namespace Grammar

/-- All predicates among the lexemes are known ones. -/
def Known (ls : List Lexeme) : Prop :=
  ∀ l ∈ ls, ∀ name, l.kind = .predicate name → (Builtin.ofName? name).isSome

theorem Known.cons {l : Lexeme} {ls : List Lexeme} (other : ∀ name, l.kind ≠ .predicate name)
    (h : Known ls) : Known (l :: ls) := by
  intro m hm name kind
  rcases List.mem_cons.mp hm with rfl | hm
  · exact absurd kind (other name)
  · exact h m hm name kind

theorem ReadsArguments.known {ls rest : List Lexeme} {values : List Scalar}
    (h : ReadsArguments ls values rest) (hrest : Known rest) : Known ls := by
  induction h with
  | close kind => exact hrest.cons (by simp [kind])
  | literal kind _ ih => exact (ih hrest).cons (by simp [kind])

mutual

/-- Whatever is read off holds known predicates only. -/
theorem Reads.known {b : Bool} {ls rest : List Lexeme} {e : Element} (h : Reads b ls e rest)
    (hrest : Known rest) : Known ls := by
  cases h with
  | wildcard kind => exact hrest.cons (by simp [kind])
  | unify kind => exact hrest.cons (by simp [kind])
  | scalar kind => exact hrest.cons (by simp [kind])
  | nodeType kind => exact hrest.cons (by simp [kind])
  | predicate kind known =>
    intro m hm name kind'
    rcases List.mem_cons.mp hm with rfl | hm
    · rw [kind] at kind'
      cases kind'
      exact known
    · exact hrest m hm name kind'
  | rest kind => exact hrest.cons (by simp [kind])
  | capturedRest kind dotsKind =>
    exact (hrest.cons (by simp [dotsKind])).cons (by simp [kind])
  | capture kind inner => exact (inner.known hrest).cons (by simp [kind])
  | negation kind inner => exact (inner.known hrest).cons (by simp [kind])
  | sequence kind inner => exact (inner.known hrest).cons (by simp [kind])
  | intersection kind inner => exact (inner.known hrest).cons (by simp [kind])
  | union kind inner => exact (inner.known hrest).cons (by simp [kind])
  | call kind => exact hrest.cons (by simp [kind])
  | callWith kind opening _ inner =>
    exact ((inner.known hrest).cons (by simp [opening])).cons (by simp [kind])

theorem ReadsGroup.known {bracket : Bracket} {ls rest : List Lexeme} {es : List Element}
    (h : ReadsGroup bracket ls es rest) (hrest : Known rest) : Known ls := by
  cases h with
  | close kind => exact hrest.cons (by simp [kind])
  | item first others => exact first.known (others.known hrest)

end

end Grammar

namespace Lexeme

open RubyPattern.Grammar

/-- A text that scans nowhere to known predicates only. -/
def Refused (cs : List Char) : Prop :=
  ∀ p pos ls, scan p 0 pos cs = .ok ls → ¬ Known ls

/-- No refused text parses. -/
theorem Refused.parse_ne_ok {text : String} (h : Refused text.toList) (e : Element) :
    parse text ≠ .ok e := by
  intro parsed
  obtain ⟨ls, tokens, read⟩ := parse_eq_ok_iff.mp parsed
  have none : Known [] := by simp [Known]
  exact h text 0 ls tokens (read.known none)

theorem refused_of_map {p : String} {pos : Nat} {cs after : List Char}
    {front : List Lexeme} {place : Nat} (h : Refused after)
    (scans : scan p 0 pos cs = (scan p 0 place after).map (front ++ ·)) {ls : List Lexeme}
    (ok : scan p 0 pos cs = .ok ls) : ¬ Known ls := by
  rw [scans] at ok
  cases rest : scan p 0 place after with
  | error fault => simp [rest, Except.map] at ok
  | ok ms =>
    simp only [rest, Except.map, Except.ok.injEq] at ok
    subst ok
    intro known
    exact h p place ms rest fun l hl => known l (by simp [hl])

theorem Refused.opening {cs : List Char} (h : Refused cs) : Refused ('(' :: cs) := by
  intro p pos ls ok
  have scans : scan p 0 pos ('(' :: cs) =
      (scan p 0 (pos + 1) cs).map ([⟨.opening .round, "(", pos⟩] ++ ·) := scan_opening p pos cs
  exact refused_of_map h scans ok

theorem Refused.blank {cs : List Char} (h : Refused cs) : Refused (' ' :: cs) := by
  intro p pos ls ok
  rw [scan_blank rfl] at ok
  exact h p (pos + 1) ls ok

/-- What is spelled in front does not help. -/
theorem Spells.refused {cs after : List Char} {es : List Element} (front : Spells cs es)
    (delimited : Delimited after) (h : Refused after) : Refused (cs ++ after) := by
  intro p pos ls ok
  obtain ⟨ms, -, -, scans⟩ := front pos
  exact refused_of_map h (scans p after delimited) ok

/-- A text that scans to an unknown predicate is refused whatever follows. -/
theorem refused_of_tokenize {text : String} {ls : List Lexeme} (tokens : tokenize text = .ok ls)
    (free : commentFree 0 text.toList = true) (unknown : ¬ Known ls) {after : List Char}
    (delimited : Delimited after) : Refused (text.toList ++ after) := by
  intro p pos ms ok known
  have start : tokenize text = scan text 0 0 text.toList := rfl
  rw [start] at tokens
  have scans := scan_append tokens free p pos delimited
  rw [Nat.add_zero] at scans
  rw [scans] at ok
  cases rest : scan p 0 (pos + text.toList.length) after with
  | error fault => simp [rest, Except.map] at ok
  | ok ns =>
    simp only [rest, Except.map, Except.ok.injEq] at ok
    subst ok
    refine unknown fun l hl name kind => known (l.shift pos) ?_ name kind
    exact List.mem_append_left _ (List.mem_map_of_mem hl)

/-- A character that begins no lexeme is refused. -/
theorem refused_of_classify {c : Char} {cs : List Char} (none : classify (c :: cs) = none) :
    Refused (c :: cs) := by
  intro p pos ls ok
  rw [scan, none] at ok
  cases ok

/-- A text refused before every delimiter, as one part of a sequence. -/
def RefusedPart (cs : List Char) : Prop :=
  ∀ after, Delimited after → Refused (cs ++ after)

/-- A lexeme without a value is refused. -/
theorem refusedPart_of_kind {cs : List Char} {entry : Class}
    (found : ∀ after, Delimited after → classify (cs ++ after) = some (entry, cs.length))
    (broken : ∀ p pos, ∃ fault, kind? p pos cs entry = .error fault) : RefusedPart cs := by
  intro after delimited p pos ls ok
  obtain ⟨fault, broken⟩ := broken p pos
  cases whole : cs ++ after with
  | nil =>
    rw [List.append_eq_nil_iff] at whole
    have nothing := found [] delimited_nil
    rw [whole.1] at nothing
    cases nothing
  | cons c ds =>
    have here := found after delimited
    rw [whole] at here ok
    rw [scan, here] at ok
    have front : (c :: ds).take cs.length = cs := by rw [← whole, List.take_left]
    simp [front, broken, bind, Except.bind] at ok

end Lexeme

end RubyPattern
