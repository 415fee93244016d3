/-
  RubyPattern.Proofs.Quoting

  Strings and quoted symbols read back. What is written for a character
  decodes to that character, for every character, and the quotes close where
  the written text ends.
-/
import RubyPattern.Proofs.Scanning
import RubyPattern.Tree.Literal

namespace RubyPattern

open RubyPattern.Text

-- ============================================================================
-- Hexadecimal digits
-- ============================================================================

theorem Char.toNat_le (c : Char) : c.toNat ≤ 0x10FFFF := by
  have valid : c.toNat.isValidChar := c.valid
  rcases valid with low | high
  · omega
  · omega

/-- Hexadecimal digits are neither quotes nor backslashes nor brackets. -/
theorem Text.isHex_spec {c : Char} (h : isHex c = true) :
    c ≠ '"' ∧ c ≠ '\\' ∧ c ≠ '\x7b' ∧ c ≠ '\x7d' := by
  refine ⟨?_, ?_, ?_, ?_⟩ <;> rintro rfl <;> revert h <;> decide

-- ============================================================================
-- One character
-- ============================================================================

namespace Escape

theorem decodeFrom_skip (skip : Nat) (cs : List Char) :
    decodeFrom skip cs = decodeFrom 0 (cs.drop skip) := by
  induction skip generalizing cs with
  | zero => rfl
  | succ skip ih =>
    cases cs with
    | nil => simp [decodeFrom]
    | cons c cs => rw [decodeFrom, ih, List.drop_succ_cons]

/-- A piece of escaped text that stands for one character, whatever follows:
    it decodes to the character, and no quote closes inside it. -/
structure Encodes (piece : List Char) (c : Char) : Prop where
  decodes : ∀ rest, decodeFrom 0 (piece ++ rest) = (decodeFrom 0 rest).map (c :: ·)
  stays : ∀ rest, Lexeme.closingReach (piece ++ rest) =
    Lexeme.extend piece.length (Lexeme.closingReach rest)

/-- A character that is neither a quote nor a backslash stands for itself. -/
theorem encodes_plain {c : Char} (quote : c ≠ '"') (backslash : c ≠ '\\') : Encodes [c] c where
  decodes := by
    intro rest
    rw [List.singleton_append, decodeFrom]
    · cases decodeFrom 0 rest <;> rfl
    · intro same
      exact absurd same backslash
    · intro _ _ same
      exact absurd same backslash
  stays := fun rest => Lexeme.closingReach_cons quote backslash rest

/-- A backslash and a character that begins no numeric escape. -/
theorem encodes_simple {c : Char} (noU : c ≠ 'u') (noX : c ≠ 'x') :
    Encodes ['\\', c] (simple c) where
  decodes := by
    intro rest
    have none : numeric? (c :: rest) = none := by
      simp [numeric?, noU, noX]
    show decodeFrom 0 ('\\' :: c :: rest) = _
    rw [decodeFrom, none]
    cases decodeFrom 0 rest <;> rfl
  stays := fun rest => rfl

theorem closingReach_append_of_plain {piece : List Char}
    (plain : ∀ c ∈ piece, c ≠ '"' ∧ c ≠ '\\') (rest : List Char) :
    Lexeme.closingReach (piece ++ rest) =
      Lexeme.extend piece.length (Lexeme.closingReach rest) := by
  induction piece with
  | nil => simp [Lexeme.extend]
  | cons c piece ih =>
    obtain ⟨quote, backslash⟩ := plain c (by simp)
    rw [List.cons_append, Lexeme.closingReach_cons quote backslash,
      ih fun d hd => plain d (by simp [hd])]
    simp only [Lexeme.extend, List.length_cons]
    split
    next => rfl
    next => rw [if_neg (by omega)]; omega

/-- A numeric escape whose number is a character's code point. -/
theorem encodes_numeric {d : Char} {digits : List Char} {c : Char}
    (plain : ∀ c ∈ digits, c ≠ '"' ∧ c ≠ '\\')
    (number : ∀ rest, numeric? (d :: (digits ++ rest)) = some (c.toNat, digits.length + 1)) :
    Encodes ('\\' :: d :: digits) c where
  decodes := by
    intro rest
    have valid : codePoint c.toNat = .ok c := by
      have inRange := Char.toNat_le c
      unfold codePoint
      have valid : c.toNat.isValidChar := c.valid
      rw [if_neg (by omega), if_pos valid, Char.ofNat_toNat]
    show decodeFrom 0 ('\\' :: d :: (digits ++ rest)) = _
    rw [decodeFrom, number]
    simp only [valid, Nat.add_sub_cancel, decodeFrom_skip digits.length, List.drop_left]
    cases decodeFrom 0 rest <;> rfl
  stays := by
    intro rest
    show Lexeme.extend 2 (Lexeme.closingReach (digits ++ rest)) = _
    rw [closingReach_append_of_plain plain]
    simp only [Lexeme.extend, List.length_cons]
    split
    next => rfl
    next => rw [if_neg (by omega)]; omega

/-- The digits that are cut off in front of something that is no digit. -/
theorem takeWhile_isHex_append {digits after : List Char} {c : Char} (other : isHex c = false)
    (hex : ∀ d ∈ digits, isHex d = true) :
    (digits ++ c :: after).takeWhile isHex = digits := by
  rw [List.takeWhile_append_of_pos hex, List.takeWhile_cons, other]
  simp

/-- Any digits between curly brackets behind the letter. -/
theorem numeric?_bracket {digits : List Char} (nonempty : digits ≠ [])
    (hex : ∀ d ∈ digits, isHex d = true) (after : List Char) :
    numeric? ('u' :: '\x7b' :: (digits ++ '\x7d' :: after)) =
      some (ofHex digits, digits.length + 3) := by
  rw [numeric?, takeWhile_isHex_append (by decide) hex]
  simp [nonempty]

/-- Any four digits behind the letter. -/
theorem numeric?_fourDigits {digits : List Char} (hex : ∀ d ∈ digits, isHex d = true)
    (four : digits.length = 4) (rest : List Char) :
    numeric? ('u' :: (digits ++ rest)) = some (ofHex digits, 5) := by
  have front : ((digits ++ rest).take 4).takeWhile isHex = digits := by
    rw [List.take_append_of_le_length (Nat.le_of_eq four.symm),
      List.take_of_length_le (Nat.le_of_eq four), ← List.append_nil digits,
      List.takeWhile_append_of_pos hex]
    rfl
  have noBracket : ∀ cs, digits ++ rest ≠ '\x7b' :: cs := by
    intro cs same
    cases digits with
    | nil => cases four
    | cons d digits =>
      cases same
      have bracket : isHex '\x7b' = true := hex '\x7b' List.mem_cons_self
      exact absurd bracket (by decide)
  rw [numeric?]
  · simp only [front, four, if_true]
  · exact noBracket

/-- Four digits behind the letter. -/
theorem numeric?_four {n : Nat} (h : n < 65536) (rest : List Char) :
    numeric? ('u' :: (hexPaddedUpper 4 n ++ rest)) = some (n, 5) := by
  have fits : n < Nat.pow 16 4 := h
  rw [numeric?_fourDigits (fun c hc => isHex_of_mem_hexPaddedUpper hc)
    (length_hexPaddedUpper 4 n), ofHex_hexPaddedUpper fits]

/-- Digits between curly brackets behind the letter. -/
theorem numeric?_bracketed {width n : Nat} (positive : 0 < width) (h : n < Nat.pow 16 width)
    (rest : List Char) :
    numeric? ('u' :: ('\x7b' :: hexPaddedUpper width n ++ ['\x7d'] ++ rest)) =
      some (n, width + 3) := by
  have nonempty : hexPaddedUpper width n ≠ [] := by
    intro none
    have length := length_hexPaddedUpper width n
    rw [none, List.length_nil] at length
    omega
  have number := numeric?_bracket nonempty (fun c hc => isHex_of_mem_hexPaddedUpper hc) rest
  rw [ofHex_hexPaddedUpper h, length_hexPaddedUpper] at number
  simpa using number

/-- What is written for a control character decodes to it. -/
theorem encodes_controlLetter {c letter : Char} (h : Literal.controlLetter? c = some letter) :
    Encodes ['\\', letter] c := by
  unfold Literal.controlLetter? at h
  split at h
  all_goals first
    | cases h; exact encodes_simple (by decide) (by decide)
    | cases h

theorem plain_of_mem_hexPaddedUpper {width n : Nat} {d : Char} (h : d ∈ hexPaddedUpper width n) :
    d ≠ '"' ∧ d ≠ '\\' := by
  obtain ⟨quote, backslash, -⟩ := isHex_spec (isHex_of_mem_hexPaddedUpper h)
  exact ⟨quote, backslash⟩

/-- A character by its number in curly brackets. -/
theorem encodes_bracketed {width : Nat} {c : Char} (positive : 0 < width)
    (fits : c.toNat < Nat.pow 16 width) :
    Encodes ('\\' :: 'u' :: '\x7b' :: hexPaddedUpper width c.toNat ++ ['\x7d']) c := by
  have inner : ∀ d ∈ '\x7b' :: hexPaddedUpper width c.toNat ++ ['\x7d'],
      d ≠ '"' ∧ d ≠ '\\' := by
    intro d hd
    simp only [List.cons_append, List.mem_cons, List.mem_append, List.not_mem_nil,
      or_false] at hd
    rcases hd with rfl | hd | rfl
    · decide
    · exact plain_of_mem_hexPaddedUpper hd
    · decide
  have number : ∀ rest, numeric? ('u' ::
      (('\x7b' :: hexPaddedUpper width c.toNat ++ ['\x7d']) ++ rest)) =
        some (c.toNat, ('\x7b' :: hexPaddedUpper width c.toNat ++ ['\x7d']).length + 1) := by
    intro rest
    rw [numeric?_bracketed positive fits]
    simp [length_hexPaddedUpper]
  exact encodes_numeric inner number

/-- What is written for any character decodes to it. -/
theorem encodes_stringChar (c : Char) : Encodes (Literal.stringChar c) c := by
  have inRange := Char.toNat_le c
  unfold Literal.stringChar
  split
  next special =>
    rw [Bool.or_eq_true, beq_iff_eq, beq_iff_eq] at special
    rcases special with rfl | rfl
    · exact encodes_simple (by decide) (by decide)
    · exact encodes_simple (by decide) (by decide)
  next ordinary =>
    rw [Bool.or_eq_true, beq_iff_eq, beq_iff_eq, not_or] at ordinary
    split
    next letter control => exact encodes_controlLetter control
    next =>
      split
      next => exact encodes_plain ordinary.2 ordinary.1
      next =>
        split
        next small =>
          refine encodes_numeric (fun d => plain_of_mem_hexPaddedUpper) fun rest => ?_
          rw [numeric?_four (by omega), length_hexPaddedUpper]
        next large =>
          split
          next => exact encodes_bracketed (Nat.succ_pos 4) (show c.toNat < 1048576 by omega)
          next => exact encodes_bracketed (Nat.succ_pos 5) (show c.toNat < 16777216 by omega)

-- ============================================================================
-- Whole texts
-- ============================================================================

/-- A number sign is escaped in front of what would begin an interpolation. -/
theorem encodes_bodyChar (c : Char) (cs : List Char) :
    Encodes (if c == '#' && Literal.opensInterpolation cs then ['\\', '#']
      else Literal.stringChar c) c := by
  split
  next hash =>
    rw [Bool.and_eq_true, beq_iff_eq] at hash
    obtain ⟨rfl, -⟩ := hash
    exact encodes_simple (by decide) (by decide)
  next => exact encodes_stringChar c

/-- Every text decodes from what is written between its quotes. -/
theorem decode_stringBody (cs : List Char) : decode (Literal.stringBody cs) = .ok cs := by
  unfold decode
  induction cs with
  | nil => rfl
  | cons c cs ih =>
    rw [Literal.stringBody, (encodes_bodyChar c cs).decodes, ih]
    rfl

/-- The closing quote is the one that is written behind the text. -/
theorem closingReach_stringBody (cs rest : List Char) :
    Lexeme.closingReach (Literal.stringBody cs ++ '"' :: rest) =
      (Literal.stringBody cs).length + 1 := by
  induction cs with
  | nil => rfl
  | cons c cs ih =>
    rw [Literal.stringBody, List.append_assoc, (encodes_bodyChar c cs).stays, ih,
      List.length_append, Lexeme.extend, if_neg (by omega)]
    omega

theorem quotedReach_stringChars (cs rest : List Char) :
    Lexeme.quotedReach (Literal.stringChars cs ++ rest) = (Literal.stringChars cs).length := by
  have text : Literal.stringChars cs ++ rest =
      '"' :: (Literal.stringBody cs ++ '"' :: rest) := by simp [Literal.stringChars]
  rw [text, Lexeme.quotedReach, closingReach_stringBody, Lexeme.extend, if_neg (by omega)]
  simp only [Literal.stringChars, List.length_cons, List.length_append, List.length_nil]

/-- Between the quotes stands the body. -/
theorem dropLast_stringChars (cs : List Char) :
    ((Literal.stringChars cs).drop 1).dropLast = Literal.stringBody cs := by
  simp [Literal.stringChars]

end Escape

end RubyPattern
