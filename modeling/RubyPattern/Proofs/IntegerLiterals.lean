/-
  RubyPattern.Proofs.IntegerLiterals

  Integer literals of any length. A literal is written in base ten, or in
  another base behind a mark, or in base eight behind a bare zero; its digits
  may be grouped by underscores and stand in either case. The value that is
  read is the one that the digits have by their places.
-/
import Mathlib.Data.Nat.Digits.Defs
import RubyPattern.Proofs.Numerals
import RubyPattern.Ruby.IntegerLiteral

namespace RubyPattern

open RubyPattern.Text RubyPattern.Number

-- ============================================================================
-- Literals and their values
-- ============================================================================

namespace Ruby

/-- The value of digits by their places, the most significant digit first. -/
def positionalValue (base : Nat) (ds : List Nat) : Nat :=
  Nat.ofDigits base ds.reverse

/-- A digit of a base, in either case, and its value. -/
def IsDigit (base : Nat) (c : Char) (d : Nat) : Prop :=
  hexValue? c = some d ∧ d < base

/-- Digits of a base, at least one, with single underscores between some of
    them, and the values of the digits. -/
inductive Grouped (base : Nat) : List Char → List Nat → Prop
  | last {c : Char} {d : Nat} (digit : IsDigit base c d) : Grouped base [c] [d]
  | cons {c : Char} {d : Nat} {cs : List Char} {ds : List Nat} (digit : IsDigit base c d)
      (more : Grouped base cs ds) : Grouped base (c :: cs) (d :: ds)
  | group {c : Char} {d : Nat} {cs : List Char} {ds : List Nat} (digit : IsDigit base c d)
      (more : Grouped base cs ds) : Grouped base (c :: '_' :: cs) (d :: ds)

/-- The letters that stand behind a zero for a base. -/
def baseMarks : List (Char × Nat) :=
  [('d', 10), ('D', 10), ('x', 16), ('X', 16), ('b', 2), ('B', 2), ('o', 8), ('O', 8)]

/-- The literals without a sign, and their values. -/
inductive Magnitude : List Char → Nat → Prop
  | zero : Magnitude ['0'] 0
  | decimal {c : Char} {d : Nat} {cs : List Char} {ds : List Nat} (leading : d ≠ 0)
      (digits : Grouped 10 (c :: cs) (d :: ds)) :
      Magnitude (c :: cs) (positionalValue 10 (d :: ds))
  | marked {mark : Char} {base : Nat} {cs : List Char} {ds : List Nat}
      (known : (mark, base) ∈ baseMarks) (digits : Grouped base cs ds) :
      Magnitude ('0' :: mark :: cs) (positionalValue base ds)
  | octal {cs : List Char} {ds : List Nat} (digits : Grouped 8 cs ds) :
      Magnitude ('0' :: cs) (positionalValue 8 ds)
  | octalGroup {cs : List Char} {ds : List Nat} (digits : Grouped 8 cs ds) :
      Magnitude ('0' :: '_' :: cs) (positionalValue 8 ds)

/-- The literals with an optional sign, and their values. -/
inductive Denotes : List Char → Int → Prop
  | unsigned {cs : List Char} {n : Nat} (magnitude : Magnitude cs n) : Denotes cs n
  | plus {cs : List Char} {n : Nat} (magnitude : Magnitude cs n) : Denotes ('+' :: cs) n
  | minus {cs : List Char} {n : Nat} (magnitude : Magnitude cs n) : Denotes ('-' :: cs) (-n)

end Ruby

-- ============================================================================
-- Reading digits
-- ============================================================================

namespace Number

/-- A character that is read as a digit of a base, and its value. -/
structure DigitOf (base : Nat) (c : Char) (d : Nat) : Prop where
  value : digitValue? c = some d
  small : d < base
  visible : isNumberPadding c = false

/-- No digit of a base is another character that has no value, or one that is
    too large. -/
theorem DigitOf.ne {base : Nat} {c other : Char} {d : Nat} (h : DigitOf base c d)
    (noDigit : ∀ e ∈ digitValue? other, base ≤ e) : c ≠ other := by
  rintro rfl
  have large := noDigit d h.value
  have small := h.small
  omega

theorem DigitOf.ne_sign {base : Nat} {c : Char} {d : Nat} (h : DigitOf base c d) :
    c ≠ '-' ∧ c ≠ '+' := by
  have minus : digitValue? '-' = none := by decide
  have plus : digitValue? '+' = none := by decide
  exact ⟨h.ne (by simp [minus]), h.ne (by simp [plus])⟩

theorem natural?_of_digits {base : Nat} {cs : List Char} {ds : List Nat} (nonempty : cs ≠ [])
    (h : List.Forall₂ (DigitOf base) cs ds) :
    natural? base cs = some (Ruby.positionalValue base ds) := by
  have fold : ∀ total, cs.foldlM (pushDigit? base) total =
      some (ds.foldl (fun total d => d + base * total) total) := by
    clear nonempty
    induction h with
    | nil => exact fun _ => rfl
    | @cons c d cs ds digit _ ih =>
      intro total
      have push : pushDigit? base total c = some (d + base * total) := by
        simp only [pushDigit?, digit.value, if_pos digit.small]
        rw [Nat.mul_comm, Nat.add_comm]
      rw [List.foldlM_cons, push, List.foldl_cons]
      exact ih _
  have value : Ruby.positionalValue base ds = ds.foldl (fun total d => d + base * total) 0 := by
    rw [Ruby.positionalValue, Nat.ofDigits_eq_foldr, List.foldr_reverse]
    rfl
  rw [natural?, if_neg (by simpa using nonempty), fold, value]

theorem forall_visible {base : Nat} {cs : List Char} {ds : List Nat}
    (h : List.Forall₂ (DigitOf base) cs ds) : ∀ c ∈ cs, isNumberPadding c = false := by
  induction h with
  | nil => simp
  | cons digit _ ih => exact List.forall_mem_cons.mpr ⟨digit.visible, ih⟩

theorem splitSign_of_ne {c : Char} (other : c ≠ '-' ∧ c ≠ '+') (cs : List Char) :
    splitSign (c :: cs) = (false, c :: cs) := by
  rw [splitSign]
  · rintro _ ⟨⟩
    exact other.1 rfl
  · rintro _ ⟨⟩
    exact other.2 rfl

/-- A run of digits reads as its value, if its front is not taken for a mark. -/
theorem integer?_of_digits {base : Nat} {mark : Option Char} {cs : List Char} {ds : List Nat}
    (h : List.Forall₂ (DigitOf base) cs ds) (nonempty : cs ≠ [])
    (unmarked : dropMark mark cs = cs) :
    integer? base mark cs = some (Ruby.positionalValue base ds : Int) := by
  have unsigned : splitSign cs = (false, cs) := by
    cases h with
    | nil => exact absurd rfl nonempty
    | cons digit _ => exact splitSign_of_ne digit.ne_sign _
  rw [integer?, trimmed_eq_self (forall_visible h), unsigned]
  simp only [unmarked, natural?_of_digits nonempty h]
  rfl

/-- Behind its mark it reads as its value too. -/
theorem integer?_of_marked {base : Nat} {mark : Char} {cs : List Char} {ds : List Nat}
    (h : List.Forall₂ (DigitOf base) cs ds) (nonempty : cs ≠ [])
    (visible : isNumberPadding mark = false) :
    integer? base (some mark) ('0' :: mark :: cs) = some (Ruby.positionalValue base ds : Int) := by
  have zero : decimalValue? '0' = some 0 := by decide
  have shown : ∀ c ∈ '0' :: mark :: cs, isNumberPadding c = false :=
    List.forall_mem_cons.mpr ⟨not_isNumberPadding (.inl rfl),
      List.forall_mem_cons.mpr ⟨visible, forall_visible h⟩⟩
  have digits : dropMark (some mark) ('0' :: mark :: cs) = cs := by
    simp [dropMark, zero]
  rw [integer?, trimmed_eq_self shown, splitSign_of_ne ⟨by decide, by decide⟩]
  simp only [digits, natural?_of_digits nonempty h]
  rfl

end Number

namespace Ruby

-- ============================================================================
-- Texts in lower case without underscores
-- ============================================================================

/-- What is left of a literal before its base is looked for. -/
def normalized (cs : List Char) : List Char :=
  (cs.filter (· != '_')).map Char.toLower

theorem normalized_cons {c : Char} (other : c ≠ '_') (cs : List Char) :
    normalized (c :: cs) = c.toLower :: normalized cs := by
  simp [normalized, other]

theorem normalized_underscore (cs : List Char) : normalized ('_' :: cs) = normalized cs := by
  simp [normalized]

theorem toNat_lt_of_hexValue? {c : Char} {d : Nat} (h : hexValue? c = some d) :
    c.toNat < 128 := by
  have bound : ∀ {a b : Char}, b.toNat < 128 → a ≤ b → a.toNat < 128 := fun small less =>
    Nat.lt_of_le_of_lt (Char.le_def.mp less) small
  unfold hexValue? at h
  split at h
  next digit =>
    have range := Char.isDigit_iff_toNat.mp digit
    have nine : '9'.toNat = 57 := rfl
    omega
  next =>
    split at h
    next small => exact bound (by decide) small.2
    next =>
      split at h
      next large => exact bound (by decide) large.2
      next => cases h

/-- In lower case a digit has the same value. -/
theorem IsDigit.digitOf {base : Nat} {c : Char} {d : Nat} (h : IsDigit base c d) :
    c ≠ '_' ∧ DigitOf base c.toLower d := by
  obtain ⟨value, small⟩ := h
  have all : ∀ n ∈ List.range 128, hexValue? (Char.ofNat n) = none ∨
      Char.ofNat n ≠ '_' ∧ digitValue? (Char.ofNat n).toLower = hexValue? (Char.ofNat n) ∧
        isNumberPadding (Char.ofNat n).toLower = false := by decide +kernel
  have same := all c.toNat (List.mem_range.mpr (toNat_lt_of_hexValue? value))
  rw [Char.ofNat_toNat, value] at same
  rcases same with none | ⟨other, lowered, visible⟩
  · cases none
  · exact ⟨other, lowered, small, visible⟩

theorem Grouped.digits {base : Nat} {cs : List Char} {ds : List Nat} (h : Grouped base cs ds) :
    List.Forall₂ (DigitOf base) (normalized cs) ds := by
  induction h with
  | last digit =>
    obtain ⟨other, lowered⟩ := digit.digitOf
    rw [normalized_cons other]
    exact .cons lowered .nil
  | cons digit _ ih =>
    obtain ⟨other, lowered⟩ := digit.digitOf
    rw [normalized_cons other]
    exact .cons lowered ih
  | group digit _ ih =>
    obtain ⟨other, lowered⟩ := digit.digitOf
    rw [normalized_cons other, normalized_underscore]
    exact .cons lowered ih

theorem Grouped.ne_nil {base : Nat} {cs : List Char} {ds : List Nat} (h : Grouped base cs ds) :
    normalized cs ≠ [] := by
  intro none
  have digits := h.digits
  rw [none] at digits
  cases digits
  cases h

-- ============================================================================
-- Bases
-- ============================================================================

theorem dropMark_none (cs : List Char) : dropMark none cs = cs := by
  rcases cs with _ | ⟨c, _ | ⟨d, cs⟩⟩ <;> simp [dropMark]

/-- Digits of base eight behind a bare zero hold no mark of another base. -/
theorem markedInteger?_octal {cs : List Char} {ds : List Nat}
    (h : List.Forall₂ (DigitOf 8) cs ds) (nonempty : cs ≠ []) :
    markedInteger? ('0' :: cs) = some (positionalValue 8 ds : Int) := by
  have noMark : ∀ {c d}, DigitOf 8 c d → c ≠ 'd' ∧ c ≠ 'x' ∧ c ≠ 'b' ∧ c ≠ 'o' := fun digit =>
    ⟨digit.ne (by decide), digit.ne (by decide), digit.ne (by decide), digit.ne (by decide)⟩
  obtain ⟨c, rest, rfl⟩ := List.exists_cons_of_ne_nil nonempty
  cases h with
  | cons first more =>
    have unmarked : dropMark (some 'o') (c :: rest) = c :: rest := by
      cases more with
      | nil => rfl
      | cons second _ => simp [dropMark, Ne.symm (noMark second).2.2.2]
    have value := integer?_of_digits (.cons first more) nonempty unmarked
    obtain ⟨decimal, hexadecimal, binary, octal⟩ := noMark first
    rw [markedInteger?]
    · exact value
    all_goals
      intro same
      contradiction

/-- A first digit other than zero starts no mark. -/
theorem markedInteger?_decimal {c : Char} {d : Nat} {cs : List Char} {ds : List Nat}
    (h : List.Forall₂ (DigitOf 10) (c :: cs) (d :: ds)) (leading : d ≠ 0) :
    markedInteger? (c :: cs) = some (positionalValue 10 (d :: ds) : Int) := by
  have other : c ≠ '0' := by
    rintro rfl
    cases h with
    | cons first _ =>
      have zero : digitValue? '0' = some 0 := by decide
      exact leading (Option.some.inj (first.value.symm.trans zero))
  have value := integer?_of_digits h (List.cons_ne_nil _ _) (dropMark_none _)
  rw [markedInteger?]
  · exact value
  all_goals simp [other]

/-- Behind a mark, in lower case, the digits are of its base. -/
theorem markedInteger?_marked {mark : Char} {base : Nat} {cs : List Char} {ds : List Nat}
    (known : (mark, base) ∈ baseMarks) (h : List.Forall₂ (DigitOf base) cs ds)
    (nonempty : cs ≠ []) :
    mark ≠ '_' ∧
      markedInteger? ('0' :: mark.toLower :: cs) = some (positionalValue base ds : Int) := by
  have marks : ∀ entry ∈ baseMarks, entry.1 ≠ '_' ∧
      (entry.1.toLower, entry.2) ∈ [('d', 10), ('x', 16), ('b', 2), ('o', 8)] := by decide
  obtain ⟨other, lowered⟩ := marks _ known
  refine ⟨other, ?_⟩
  simp only [List.mem_cons, Prod.mk.injEq, List.not_mem_nil, or_false] at lowered
  rcases lowered with ⟨mark, rfl⟩ | ⟨mark, rfl⟩ | ⟨mark, rfl⟩ | ⟨mark, rfl⟩
  · rw [mark]
    exact integer?_of_digits h nonempty (dropMark_none cs)
  · rw [mark]
    exact integer?_of_marked h nonempty (by decide)
  · rw [mark]
    exact integer?_of_marked h nonempty (by decide)
  · rw [mark]
    exact integer?_of_marked h nonempty (by decide)

/-- What is left of a literal begins with a digit and reads as its value. -/
theorem Magnitude.markedInteger?_eq {cs : List Char} {n : Nat} (h : Magnitude cs n) :
    (∃ c rest, normalized cs = c :: rest ∧ c ≠ '-' ∧ c ≠ '+') ∧
      markedInteger? (normalized cs) = some (n : Int) := by
  have zero : ∀ cs, normalized ('0' :: cs) = '0' :: normalized cs :=
    normalized_cons (by decide)
  have unsigned : ∀ cs, ∃ c rest, normalized ('0' :: cs) = c :: rest ∧ c ≠ '-' ∧ c ≠ '+' :=
    fun cs => ⟨'0', _, zero cs, by decide, by decide⟩
  cases h with
  | zero => exact ⟨unsigned [], by decide⟩
  | @decimal c d cs ds leading digits =>
    have read := digits.digits
    obtain ⟨first, rest, digit, -, split⟩ := List.forall₂_cons_right_iff.mp read
    rw [split] at read ⊢
    exact ⟨⟨first, rest, rfl, digit.ne_sign⟩, markedInteger?_decimal read leading⟩
  | @marked mark base cs ds known digits =>
    obtain ⟨other, value⟩ := markedInteger?_marked known digits.digits digits.ne_nil
    refine ⟨unsigned _, ?_⟩
    rw [zero, normalized_cons other, value]
  | octal digits =>
    refine ⟨unsigned _, ?_⟩
    rw [zero, markedInteger?_octal digits.digits digits.ne_nil]
  | octalGroup digits =>
    refine ⟨unsigned _, ?_⟩
    rw [zero, normalized_underscore, markedInteger?_octal digits.digits digits.ne_nil]

-- ============================================================================
-- Literals
-- ============================================================================

/-- A literal behind signs, of which the first one counts. -/
theorem integerLiteral_of_magnitude {text : String} {sign cs : List Char} {n : Nat}
    (h : Magnitude cs n) (signs : ∀ c ∈ sign, c = '+' ∨ c = '-')
    (front : normalized text.toList = sign ++ normalized cs) :
    integerLiteral text = .ok (if sign.head? == some '-' then -(n : Int) else n) := by
  obtain ⟨⟨c, rest, split, noMinus, noPlus⟩, value⟩ := h.markedInteger?_eq
  have dropped : (normalized text.toList).dropWhile (fun c => c == '+' || c == '-') =
      normalized cs := by
    rw [front, List.dropWhile_append_of_pos (by simpa using signs), split]
    simp [noMinus, noPlus]
  have first : ((normalized text.toList).head? == some '-') = (sign.head? == some '-') := by
    rw [front, split]
    cases sign with
    | nil => simp [noMinus]
    | cons => rfl
  have folded : (text.toList.filter (· != '_')).map Char.toLower = normalized text.toList := rfl
  simp only [integerLiteral, folded, dropped, value, first]

/-- A literal of any length is read as the value of its digits by their places,
    in the base that it is marked for, with its sign. -/
theorem integerLiteral_of_denotes {text : String} {n : Int} (h : Denotes text.toList n) :
    integerLiteral text = .ok n := by
  generalize same : text.toList = cs at h
  cases h with
  | unsigned magnitude =>
    have front : normalized text.toList = [] ++ normalized cs := congrArg normalized same
    exact integerLiteral_of_magnitude magnitude (by simp) front
  | @plus cs n magnitude =>
    have front : normalized text.toList = ['+'] ++ normalized cs := by
      rw [same, normalized_cons (by decide)]
      rfl
    exact integerLiteral_of_magnitude magnitude (by simp) front
  | @minus cs n magnitude =>
    have front : normalized text.toList = ['-'] ++ normalized cs := by
      rw [same, normalized_cons (by decide)]
      rfl
    exact integerLiteral_of_magnitude magnitude (by simp) front

/-- So is a hexadecimal literal with a sign, digits in both cases and a group. -/
theorem integerLiteral_of_denotes_hexadecimal :
    Denotes "-0XfF_1b".toList (-65307) ∧ integerLiteral "-0XfF_1b" = .ok (-65307) := by
  have digits : Grouped 16 ['f', 'F', '_', '1', 'b'] [15, 15, 1, 11] :=
    .cons ⟨by decide, by decide⟩ (.group ⟨by decide, by decide⟩
      (.cons ⟨by decide, by decide⟩ (.last ⟨by decide, by decide⟩)))
  have literal : Denotes "-0XfF_1b".toList (-65307) :=
    .minus (.marked (by decide : ('X', 16) ∈ baseMarks) digits)
  exact ⟨literal, integerLiteral_of_denotes literal⟩

end Ruby

end RubyPattern
