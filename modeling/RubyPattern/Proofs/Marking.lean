/-
  RubyPattern.Proofs.Marking

  What marking absent children can do to a rendered tree. Wherever the scan
  believes a quoted text to begin and end, it only ever puts question marks
  behind free-standing `nil`s. So it works on the parts of a node one by one:
  it leaves types and numbers alone, and turns the literal of a string into the
  literal of a string.
-/
import RubyPattern.Pattern.AbsentChild
import RubyPattern.Proofs.Spelling

namespace RubyPattern.AbsentChild

open RubyPattern.Text

-- ============================================================================
-- Insertions
-- ============================================================================

/-- The second text is the first one, behind some character, with some of its
    free-standing `nil`s marked. -/
inductive Marked : Option Char → List Char → List Char → Prop
  | nil {previous : Option Char} : Marked previous [] []
  | keep {previous : Option Char} {c : Char} {cs ds : List Char}
      (more : Marked (some c) cs ds) : Marked previous (c :: cs) (c :: ds)
  | mark {previous : Option Char} {cs ds : List Char} (before : mayFollow previous = true)
      (behind : mayPrecede cs = true) (more : Marked (some 'l') cs ds) :
      Marked previous ('n' :: 'i' :: 'l' :: cs) ('n' :: 'i' :: 'l' :: '?' :: ds)

theorem marked_markFrom (keep : Nat) (previous : Option Char) (cs : List Char) :
    Marked previous cs (markFrom keep previous cs) := by
  fun_induction markFrom with
  | case1 => exact .nil
  | case2 keep previous c cs ih => exact .keep ih
  | case3 previous cs free ih =>
    rw [Bool.and_eq_true] at free
    exact .mark free.1 free.2 ih
  | case4 previous cs bound ih => exact .keep ih
  | case5 previous c cs other ih => exact .keep ih

theorem Marked.cons_inv {previous : Option Char} {c : Char} {cs ds : List Char} (other : c ≠ 'n')
    (h : Marked previous (c :: cs) ds) : ∃ ds', ds = c :: ds' ∧ Marked (some c) cs ds' := by
  cases h with
  | keep more => exact ⟨_, rfl, more⟩
  | mark => exact absurd rfl other

/-- What stands before a delimiter is marked by itself. -/
theorem Marked.split {previous : Option Char} {cs after ms : List Char} {d : Char}
    (delimiter : d = ' ' ∨ d = ')') (h : Marked previous (cs ++ d :: after) ms) :
    ∃ cs' after', ms = cs' ++ d :: after' ∧ Marked previous cs cs' ∧
      Marked (some d) after after' := by
  have other : ∀ c ∈ ['n', 'i', 'l'], c ≠ d := by
    rcases delimiter with rfl | rfl <;> simp
  generalize text : cs ++ d :: after = whole at h
  induction h generalizing cs with
  | nil => simp at text
  | @keep previous c _ ds more ih =>
    cases cs with
    | nil =>
      cases text
      exact ⟨[], ds, rfl, .nil, more⟩
    | cons e cs =>
      cases text
      obtain ⟨cs', after', rfl, front, back⟩ := ih rfl
      exact ⟨c :: cs', after', rfl, .keep front, back⟩
  | @mark previous rest ds before behind more ih =>
    obtain ⟨cs, rfl⟩ : ∃ cs', cs = 'n' :: 'i' :: 'l' :: cs' := by
      rcases cs with _ | ⟨c₁, _ | ⟨c₂, _ | ⟨c₃, cs⟩⟩⟩ <;> simp at text <;> grind
    simp only [List.cons_append, List.cons.injEq, true_and] at text
    obtain ⟨cs', after', rfl, front, back⟩ := ih text
    refine ⟨'n' :: 'i' :: 'l' :: '?' :: cs', after', rfl, .mark before ?_ front, back⟩
    cases cs with
    | nil => rfl
    | cons c cs =>
      subst text
      exact behind

/-- The parts of a node are marked one by one. -/
theorem Marked.split_parts {previous : Option Char} {head ms : List Char}
    {parts : List (List Char)}
    (h : Marked previous (head ++ (parts.flatMap (' ' :: ·) ++ [')'])) ms) :
    ∃ head' parts', ms = head' ++ (parts'.flatMap (' ' :: ·) ++ [')']) ∧
      Marked previous head head' ∧ List.Forall₂ (Marked (some ' ')) parts parts' := by
  induction parts generalizing previous head ms with
  | nil =>
    obtain ⟨head', rest, rfl, front, back⟩ := h.split (.inr rfl)
    cases back
    exact ⟨head', [], rfl, front, .nil⟩
  | cons part parts ih =>
    rw [List.flatMap_cons, List.cons_append, List.cons_append, List.append_assoc] at h
    obtain ⟨head', rest, rfl, front, back⟩ := h.split (.inl rfl)
    obtain ⟨part', parts', rfl, first, others⟩ := ih back
    exact ⟨head', part' :: parts', by simp, front, .cons first others⟩

-- ============================================================================
-- Texts without free-standing nils
-- ============================================================================

theorem Marked.eq_of_letters {previous : Option Char} {cs ds : List Char}
    (h : Marked previous cs ds) (none : 'n' ∉ cs ∨ 'l' ∉ cs) : ds = cs := by
  induction h with
  | nil => rfl
  | keep more ih =>
    rw [ih (none.imp (fun h mem => h (by simp [mem])) fun h mem => h (by simp [mem]))]
  | mark => simp at none

theorem Marked.eq_of_length_lt {previous : Option Char} {cs ds : List Char}
    (h : Marked previous cs ds) (short : cs.length < 3) : ds = cs := by
  induction h with
  | nil => rfl
  | keep more ih => rw [ih (by simp at short; omega)]
  | mark =>
    simp only [List.length_cons] at short
    omega

/-- Inside a word nothing is marked, nor behind what `nil` may not follow. -/
theorem Marked.eq_of_isWord {previous : Option Char} {word tail ds : List Char}
    (h : Marked previous (word ++ tail) ds) (hword : ∀ c ∈ word, isWord c = true)
    (htail : 'l' ∉ tail) (bound : mayFollow previous = false) : ds = word ++ tail := by
  induction word generalizing previous ds with
  | nil => exact h.eq_of_letters (.inr htail)
  | cons c word ih =>
    have inside : mayFollow (some c) = false := by simp [mayFollow, hword c (by simp)]
    generalize text : c :: word ++ tail = whole at h
    cases h with
    | nil => cases text
    | keep more =>
      cases text
      rw [ih more (fun d hd => hword d (by simp [hd])) inside]
      rfl
    | mark before => simp [bound] at before

/-- A word is marked only if it is `nil`. -/
theorem Marked.eq_or_of_isWord {previous : Option Char} {word tail ds : List Char}
    (h : Marked previous (word ++ tail) ds) (hword : ∀ c ∈ word, isWord c = true)
    (htail : 'l' ∉ tail) : ds = word ++ tail ∨
      word = ['n', 'i', 'l'] ∧ mayPrecede tail = true ∧ ds = ['n', 'i', 'l', '?'] ++ tail := by
  cases word with
  | nil => exact .inl (h.eq_of_letters (.inr htail))
  | cons c word =>
    have inside : mayFollow (some c) = false := by simp [mayFollow, hword c (by simp)]
    generalize text : c :: word ++ tail = whole at h
    cases h with
    | nil => cases text
    | keep more =>
      cases text
      rw [more.eq_of_isWord (fun d hd => hword d (by simp [hd])) htail inside]
      exact .inl rfl
    | @mark _ cs ds before behind more =>
      obtain ⟨word, rfl⟩ : ∃ word', word = 'i' :: 'l' :: word' := by
        rcases word with _ | ⟨c₂, _ | ⟨c₃, word⟩⟩ <;> simp at text <;> grind
      simp only [List.cons_append, List.cons.injEq, true_and] at text
      obtain ⟨rfl, rfl⟩ := text
      cases word with
      | nil =>
        rw [List.nil_append] at more
        rw [more.eq_of_letters (.inr htail)]
        exact .inr ⟨rfl, behind, rfl⟩
      | cons d word => simp [mayPrecede, hword d (by simp)] at behind

-- ============================================================================
-- String bodies
-- ============================================================================

/-- The second text is the first one with question marks behind some letters. -/
inductive Grown : List Char → List Char → Prop
  | nil : Grown [] []
  | keep {c : Char} {cs ds : List Char} (more : Grown cs ds) : Grown (c :: cs) (c :: ds)
  | grow {cs ds : List Char} (more : Grown cs ds) : Grown ('l' :: cs) ('l' :: '?' :: ds)

theorem Marked.grown {previous : Option Char} {cs ds : List Char} (h : Marked previous cs ds) :
    Grown cs ds := by
  induction h with
  | nil => exact .nil
  | keep more ih => exact .keep ih
  | mark before behind more ih => exact .keep (.keep (.grow ih))

theorem Grown.append_inv {piece cs ms : List Char} (none : 'l' ∉ piece)
    (h : Grown (piece ++ cs) ms) : ∃ ds, ms = piece ++ ds ∧ Grown cs ds := by
  induction piece generalizing ms with
  | nil => exact ⟨ms, rfl, h⟩
  | cons c piece ih =>
    cases h with
    | keep more =>
      obtain ⟨ds, rfl, behind⟩ := ih (fun mem => none (by simp [mem])) more
      exact ⟨ds, rfl, behind⟩
    | grow => simp at none

theorem Grown.opensInterpolation {cs ds : List Char} (h : Grown cs ds) :
    Literal.opensInterpolation ds = Literal.opensInterpolation cs := by
  cases h <;> rfl

/-- What is written for a character holds escapes, hexadecimal digits and the
    character itself, but a control character only as an escape. -/
theorem not_mem_stringChar {c d : Char} (noHex : isHex d = false)
    (noEscape : d ∉ ['\\', '"', 'n', 't', 'r', 'f', 'v', 'a', 'b', 'e', 'u', '\x7b', '\x7d'])
    (other : d = c → (Literal.controlLetter? c).isSome) : d ∉ Literal.stringChar c := by
  have digits : ∀ width n, d ∉ hexPaddedUpper width n := by
    intro width n mem
    rw [isHex_of_mem_hexPaddedUpper mem] at noHex
    cases noHex
  simp only [List.mem_cons, List.not_mem_nil, or_false, not_or] at noEscape
  unfold Literal.stringChar
  split
  next special =>
    rw [Bool.or_eq_true, beq_iff_eq, beq_iff_eq] at special
    rcases special with rfl | rfl <;> simp [noEscape]
  next =>
    split
    next letter control =>
      unfold Literal.controlLetter? at control
      split at control
      all_goals first
        | cases control; simp [noEscape]
        | cases control
    next control =>
      have ne : d ≠ c := by
        intro same
        have found := other same
        rw [control] at found
        cases found
      split
      next => simpa using ne
      next =>
        split
        next => simp [noEscape, digits]
        next => simp [noEscape, digits]

/-- The body of a string's literal grows to the body of another literal. -/
theorem Grown.stringBody {cs ms after : List Char}
    (h : Grown (Literal.stringBody cs ++ after) ms) :
    ∃ ds after', ms = Literal.stringBody ds ++ after' ∧ Grown cs ds ∧ Grown after after' := by
  induction cs generalizing ms with
  | nil => exact ⟨[], ms, rfl, .nil, h⟩
  | cons c cs ih =>
    rw [Literal.stringBody, List.append_assoc] at h
    by_cases letter : c = 'l'
    · subst letter
      have letter : Literal.stringChar 'l' = ['l'] := rfl
      have mark : Literal.stringChar '?' = ['?'] := rfl
      have plain : (if 'l' == '#' && Literal.opensInterpolation cs then ['\\', '#']
          else Literal.stringChar 'l') = ['l'] := if_neg (by simp)
      rw [plain, List.singleton_append] at h
      cases h with
      | keep more =>
        obtain ⟨ds, after', rfl, body, behind⟩ := ih more
        exact ⟨'l' :: ds, after', by simp [Literal.stringBody, letter], .keep body, behind⟩
      | grow more =>
        obtain ⟨ds, after', rfl, body, behind⟩ := ih more
        refine ⟨'l' :: '?' :: ds, after', ?_, .grow body, behind⟩
        simp [Literal.stringBody, letter, mark]
    · have none : 'l' ∉ (if c == '#' && Literal.opensInterpolation cs then ['\\', '#']
          else Literal.stringChar c) := by
        split
        next => decide
        next => exact not_mem_stringChar (by decide) (by decide) fun same => absurd same.symm letter
      obtain ⟨rest, rfl, more⟩ := h.append_inv none
      obtain ⟨ds, after', rfl, body, behind⟩ := ih more
      refine ⟨c :: ds, after', ?_, .keep body, behind⟩
      rw [Literal.stringBody, body.opensInterpolation, List.append_assoc]

/-- A quoted text is marked to a quoted text. -/
theorem Marked.stringChars {previous : Option Char} {cs ms : List Char}
    (h : Marked previous (Literal.stringChars cs) ms) :
    ∃ ds, ms = Literal.stringChars ds := by
  obtain ⟨rest, rfl, more⟩ := h.cons_inv (by decide)
  obtain ⟨ds, after, rfl, -, closing⟩ := more.grown.stringBody
  cases closing with
  | keep behind =>
    cases behind
    exact ⟨ds, rfl⟩

-- ============================================================================
-- Symbols without quotes
-- ============================================================================

/-- The symbols without quotes that marking could change, with what it would
    make of them. -/
inductive Misread : List Char → List Char → Prop
  | word : Misread ['n', 'i', 'l'] ['n', 'i', 'l', '?']
  | global : Misread ['$', 'n', 'i', 'l'] ['$', 'n', 'i', 'l', '?']
  | setter : Misread ['n', 'i', 'l', '='] ['n', 'i', 'l', '?', '=']

open RubyPattern.Name RubyPattern.Lexeme

theorem isWord_of_isIdentifier {cs : List Char} (h : isIdentifier cs = true) :
    ∀ c ∈ cs, isWord c = true := by
  obtain ⟨c, rest, rfl, start, words⟩ := exists_of_isIdentifier h
  rw [isNameStart, Bool.and_eq_true] at start
  intro d hd
  rcases List.mem_cons.mp hd with rfl | hd
  · exact start.1
  · exact words d hd

theorem Marked.eq_of_word {previous : Option Char} {cs ds : List Char}
    (h : Marked previous cs ds) (word : ∀ c ∈ cs, isWord c = true)
    (bound : mayFollow previous = false) : ds = cs := by
  rw [← List.append_nil cs] at h
  rw [h.eq_of_isWord word (by simp) bound, List.append_nil]

theorem Marked.eq_or_of_word {previous : Option Char} {cs ds : List Char}
    (h : Marked previous cs ds) (word : ∀ c ∈ cs, isWord c = true) :
    ds = cs ∨ cs = ['n', 'i', 'l'] ∧ ds = ['n', 'i', 'l', '?'] := by
  rw [← List.append_nil cs] at h
  rcases h.eq_or_of_isWord word (by simp) with rfl | ⟨rfl, -, rfl⟩
  · exact .inl (List.append_nil cs)
  · exact .inr ⟨rfl, rfl⟩

theorem Marked.bareSymbol_of_identifier {previous : Option Char} {cs ds : List Char}
    (identifier : isIdentifier (cs.drop (sigilLength cs)) = true) (h : Marked previous cs ds) :
    ds = cs ∨ Misread cs ds := by
  have words := isWord_of_isIdentifier identifier
  unfold sigilLength at words
  split at words
  next rest =>
    obtain ⟨_, rfl, second⟩ := h.cons_inv (by decide)
    obtain ⟨ds, rfl, name⟩ := second.cons_inv (by decide)
    rw [name.eq_of_word words rfl]
    exact .inl rfl
  next rest _ =>
    obtain ⟨ds, rfl, more⟩ := h.cons_inv (by decide)
    rw [more.eq_of_word words rfl]
    exact .inl rfl
  next rest =>
    obtain ⟨ds, rfl, more⟩ := h.cons_inv (by decide)
    rcases more.eq_or_of_word words with rfl | ⟨rfl, rfl⟩
    · exact .inl rfl
    · exact .inr .global
  next =>
    rcases h.eq_or_of_word words with rfl | ⟨rfl, rfl⟩
    · exact .inl rfl
    · exact .inr .word

theorem Marked.bareSymbol_of_markedMethod {previous : Option Char} {cs ds : List Char}
    (method : isMarkedMethod cs = true) (h : Marked previous cs ds) :
    ds = cs ∨ Misread cs ds := by
  unfold isMarkedMethod at method
  split at method
  next mark body reversed =>
    rw [Bool.and_eq_true] at method
    obtain ⟨hmark, hbody⟩ := method
    have text : cs = body.reverse ++ [mark] := by
      rw [← List.reverse_reverse cs, reversed, List.reverse_cons]
    subst text
    simp only [isMethodMark, Bool.or_eq_true, beq_iff_eq] at hmark
    have noLetter : 'l' ∉ [mark] := by
      rcases hmark with (rfl | rfl) | rfl <;> decide
    rcases h.eq_or_of_isWord (isWord_of_isIdentifier hbody) noLetter with rfl | ⟨word, free, rfl⟩
    · exact .inl rfl
    · rw [word]
      rcases hmark with (rfl | rfl) | rfl
      · exact absurd free (by decide)
      · exact absurd free (by decide)
      · exact .inr .setter
  next => cases method

theorem Marked.eq_of_isSpecialGlobal {previous : Option Char} {cs ds : List Char}
    (special : isSpecialGlobal cs = true) (h : Marked previous cs ds) : ds = cs := by
  obtain ⟨rest, rfl, name⟩ := exists_of_isSpecialGlobal special
  obtain ⟨ds, rfl, more⟩ := h.cons_inv (by decide)
  cases name with
  | mark => rw [more.eq_of_length_lt (by simp)]
  | number digits =>
    have none : 'l' ∉ rest := fun mem => absurd (digits 'l' mem) (by decide)
    rw [more.eq_of_letters (.inr none)]
  | option => rw [more.eq_of_length_lt (by simp)]

/-- A symbol without quotes is one of the few that marking could change, or
    else is left as it is. -/
theorem Marked.bareSymbol {previous : Option Char} {cs ds : List Char}
    (bare : isBareSymbol cs = true) (h : Marked previous cs ds) : ds = cs ∨ Misread cs ds := by
  unfold isBareSymbol at bare
  rw [Bool.or_eq_true, Bool.or_eq_true, Bool.or_eq_true] at bare
  rcases bare with ((identifier | method) | special) | operator
  · exact h.bareSymbol_of_identifier identifier
  · exact h.bareSymbol_of_markedMethod method
  · exact .inl (h.eq_of_isSpecialGlobal special)
  · have none : ∀ op ∈ operators, 'l' ∉ op.toList := by decide
    have noLetter := none _ (List.contains_iff_mem.mp operator)
    rw [String.toList_ofList] at noLetter
    exact .inl (h.eq_of_letters (.inr noLetter))

end RubyPattern.AbsentChild
