/-
  RubyPattern.Pattern.Grammar

  Patterns from lexemes, by recursive descent. Each function hands back the lexemes that it leaves
  over together with the proof that they are fewer, which is why the descent ends.
-/
import RubyPattern.Pattern.Element

namespace RubyPattern.Grammar

/-- A refused pattern text: the reason and the place. -/
abbrev Refusal := PatternFault × Nat

/-- Something read off the front of the lexemes, and the lexemes left over. -/
abbrev Reading (α : Type) (lexemes : List Lexeme) :=
  α × { rest : List Lexeme // rest.length < lexemes.length }

/-- The literals between a function's brackets, through the closing one. The text ends at `stop`. -/
def arguments (stop : Nat) : (lexemes : List Lexeme) →
    Except Refusal (Reading (List Scalar) lexemes)
  | [] => .error (.unexpectedEnd, stop)
  | l :: ls =>
    match l.kind with
    | .closing .round => .ok ([], ⟨ls, by simp⟩)
    | .scalar value =>
      match arguments stop ls with
      | .error refusal => .error refusal
      | .ok (values, ⟨rest, shorter⟩) =>
        .ok (value :: values, ⟨rest, by simp only [List.length_cons]; omega⟩)
    | _ => .error (.argumentNotLiteral l.text, l.position)

/-- Whether all elements capture the same number of values. -/
def evenlyCapturing : List Element → Bool
  | [] => true
  | e :: es => es.all fun d => d.captureCount == e.captureCount

/-- Closes a group: the elements inside a bracket make one element. -/
def closeGroup (opener : Lexeme) (bracket : Bracket) (elements : List Element) :
    Except Refusal Element :=
  if elements.isEmpty then .error (.emptyGroup bracket, opener.position)
  else match bracket with
    | .round => .ok (.sequence elements)
    | .square => .ok (.intersection elements)
    | .curly =>
      if evenlyCapturing elements then .ok (.union elements)
      else .error (.unevenUnion, opener.position)

mutual

/-- One element off the front. Rests are admitted directly inside a sequence only. -/
def element (stop : Nat) (inSequence : Bool) (lexemes : List Lexeme) :
    Except Refusal (Reading Element lexemes) :=
  match lexemes with
  | [] => .error (.unexpectedEnd, stop)
  | l :: ls =>
    match l.kind with
    | .wildcard => .ok (.wildcard, ⟨ls, by simp⟩)
    | .unify name => .ok (.unify name, ⟨ls, by simp⟩)
    | .scalar value => .ok (.scalar value, ⟨ls, by simp⟩)
    | .nodeType name => .ok (.nodeType name, ⟨ls, by simp⟩)
    | .predicate name =>
      if (Builtin.ofName? name).isSome then .ok (.predicate name, ⟨ls, by simp⟩)
      else .error (.unknownPredicate l.text, l.position)
    | .rest =>
      if inSequence then .ok (.rest false, ⟨ls, by simp⟩)
      else .error (.restOutsideSequence false, l.position)
    | .capture =>
      match ls with
      | ⟨.rest, _, _⟩ :: rest =>
        if inSequence then
          .ok (.rest true, ⟨rest, by simp only [List.length_cons]; omega⟩)
        else .error (.restOutsideSequence true, l.position)
      | ls =>
        match element stop false ls with
        | .error refusal => .error refusal
        | .ok (e, ⟨rest, shorter⟩) =>
          .ok (.capture e, ⟨rest, by simp only [List.length_cons]; omega⟩)
    | .negation =>
      match element stop false ls with
      | .error refusal => .error refusal
      | .ok (e, ⟨rest, shorter⟩) =>
        if e.captureCount = 0 then
          .ok (.negation e, ⟨rest, by simp only [List.length_cons]; omega⟩)
        else .error (.captureInNegation, l.position)
    | .opening bracket =>
      match group stop l bracket ls with
      | .error refusal => .error refusal
      | .ok (es, ⟨rest, shorter⟩) =>
        match closeGroup l bracket es with
        | .error refusal => .error refusal
        | .ok e => .ok (e, ⟨rest, by simp only [List.length_cons]; omega⟩)
    | .closing _ => .error (.unexpectedLexeme l.text, l.position)
    | .function name =>
      match ls with
      | ⟨.opening .round, text, position⟩ :: rest =>
        if position = l.stop then
          match arguments stop rest with
          | .error refusal => .error refusal
          | .ok (values, ⟨rest, shorter⟩) =>
            .ok (.call name values, ⟨rest, by simp only [List.length_cons]; omega⟩)
        else
          .ok (.call name [], ⟨⟨.opening .round, text, position⟩ :: rest, by simp⟩)
      | ls => .ok (.call name [], ⟨ls, by simp⟩)
termination_by (lexemes.length, 0)

/-- The elements up to the bracket that closes the opener's, through that bracket. -/
def group (stop : Nat) (opener : Lexeme) (bracket : Bracket) (lexemes : List Lexeme) :
    Except Refusal (Reading (List Element) lexemes) :=
  match lexemes with
  | [] => .error (.unclosedGroup opener.text, opener.position)
  | l :: ls =>
    match l.kind with
    | .closing other =>
      if other = bracket then .ok ([], ⟨ls, by simp⟩)
      else .error (.unexpectedLexeme l.text, l.position)
    | _ =>
      match element stop (bracket == .round) (l :: ls) with
      | .error refusal => .error refusal
      | .ok (e, ⟨rest, shorter⟩) =>
        match group stop opener bracket rest with
        | .error refusal => .error refusal
        | .ok (es, ⟨rest', shorter'⟩) => .ok (e :: es, ⟨rest', by omega⟩)
termination_by (lexemes.length, 1)

end

/-- The pattern that a whole list of lexemes makes. -/
def ofLexemes (stop : Nat) (lexemes : List Lexeme) : Except Refusal Element :=
  if lexemes.isEmpty then .error (.emptyPattern, 0)
  else match element stop false lexemes with
    | .error refusal => .error refusal
    | .ok (e, ⟨[], _⟩) => .ok e
    | .ok (_, ⟨l :: _, _⟩) => .error (.trailingLexeme l.text, l.position)

/-- The pattern that a text spells. -/
def parse (pattern : String) : Except Fault Element := do
  let lexemes ← Lexeme.tokenize pattern
  match ofLexemes pattern.length lexemes with
  | .ok e => .ok e
  | .error (reason, position) => .error (.pattern reason pattern position)

end RubyPattern.Grammar
