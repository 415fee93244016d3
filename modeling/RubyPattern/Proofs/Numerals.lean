/-
  RubyPattern.Proofs.Numerals

  Integers and doubles spell themselves. The digits that are written for a
  natural number read back as it. A finite double is laid out as digits with a
  fraction, an exponent or both, whatever digits its shortest form has, so its
  text is one lexeme; that reading the text gives the double again is taken as
  given here.
-/
import Mathlib.Data.List.TakeWhile
import RubyPattern.Proofs.Spelling

namespace RubyPattern

open RubyPattern.Text RubyPattern.Number

-- ============================================================================
-- Digits
-- ============================================================================

namespace Number

theorem isDecimal_of_isDigit {c : Char} (h : c.isDigit = true) : isDecimal c = true := by
  have nine : '9'.toNat = 57 := rfl
  rw [Lexeme.isDecimal_iff_of_toNat_lt, h]
  have range := Char.isDigit_iff_toNat.mp h
  omega

theorem digitValue?_of_isDigit {c : Char} (h : c.isDigit = true) :
    digitValue? c = some (c.toNat - '0'.toNat) ∧ c.toNat - '0'.toNat < 10 := by
  have nine : '9'.toNat = 57 := rfl
  have zero : '0'.toNat = 48 := rfl
  have range := Char.isDigit_iff_toNat.mp h
  constructor
  · have small : c.toNat < 128 := by omega
    simp only [digitValue?, decimalValue?, if_pos small, if_pos h]
  · omega

/-- Decimal digits denote what they denote in the standard library. -/
theorem natural?_of_isDigit {digits : List Char} (nonempty : digits ≠ [])
    (h : ∀ c ∈ digits, c.isDigit = true) :
    natural? 10 digits = some (Nat.ofDigitChars 10 digits 0) := by
  have fold : ∀ total, digits.foldlM (pushDigit? 10) total =
      some (Nat.ofDigitChars 10 digits total) := by
    clear nonempty
    induction digits with
    | nil => intro total; rfl
    | cons c digits ih =>
      intro total
      obtain ⟨value, small⟩ := digitValue?_of_isDigit (h c (by simp))
      have push : pushDigit? 10 total c = some (10 * total + (c.toNat - '0'.toNat)) := by
        simp only [pushDigit?, value, if_pos small]
        rw [Nat.mul_comm]
      rw [List.foldlM_cons, push, Nat.ofDigitChars_cons]
      exact ih (fun d hd => h d (by simp [hd])) _
  rw [natural?, if_neg (by simpa using nonempty), fold]

theorem isDigit_of_mem_natDigits {n : Nat} {c : Char} (h : c ∈ natDigits n) :
    c.isDigit = true :=
  Nat.isDigit_of_mem_toDigits (by decide) (by decide) h

theorem natDigits_ne_nil (n : Nat) : natDigits n ≠ [] :=
  Nat.toDigits_ne_nil

/-- The digits of a number read back as the number. -/
theorem natural?_natDigits (n : Nat) : natural? 10 (natDigits n) = some n := by
  rw [natural?_of_isDigit (natDigits_ne_nil n) fun c => isDigit_of_mem_natDigits, natDigits,
    Nat.ofDigitChars_ten_toDigits]

theorem trimmed_eq_self {cs : List Char} (h : ∀ c ∈ cs, isNumberPadding c = false) :
    trimmed cs = cs := by
  have front : ∀ ds : List Char, (∀ c ∈ ds, isNumberPadding c = false) →
      ds.dropWhile isNumberPadding = ds := by
    intro ds hds
    cases ds with
    | nil => rfl
    | cons c ds => rw [List.dropWhile_cons, if_neg (by simp [hds c (by simp)])]
  rw [trimmed, front cs h, front cs.reverse (fun c hc => h c (by simpa using hc)),
    List.reverse_reverse]

theorem not_isNumberPadding {c : Char} (h : c.isDigit = true ∨ c = '-') :
    isNumberPadding c = false := by
  have range : 33 ≤ c.toNat ∧ c.toNat < 128 := by
    rcases h with digit | rfl
    · have bounds := Char.isDigit_iff_toNat.mp digit
      have nine : '9'.toNat = 57 := rfl
      have zero : '0'.toNat = 48 := rfl
      omega
    · decide
  rw [isNumberPadding, Lexeme.isBlank_eq_false range, Bool.false_and]

/-- The text of an integer reads back as the integer. -/
theorem integer?_integerText (n : Int) : integer? 10 none (integerText n).toList = some n := by
  have digits : ∀ c ∈ natDigits n.natAbs, c.isDigit = true := fun c => isDigit_of_mem_natDigits
  have noMark : ∀ cs : List Char, dropMark none cs = cs := by
    intro cs
    rcases cs with _ | ⟨c, _ | ⟨d, cs⟩⟩ <;> simp [dropMark]
  rw [integerText, String.toList_ofList]
  by_cases negative : n < 0
  · rw [if_pos negative, integer?, trimmed_eq_self]
    · simp only [splitSign, noMark, natural?_natDigits, if_true]
      show some (-(n.natAbs : Int)) = some n
      congr 1
      omega
    · intro c hc
      rcases List.mem_cons.mp hc with rfl | hc
      · exact not_isNumberPadding (.inr rfl)
      · exact not_isNumberPadding (.inl (digits c hc))
  · have unsigned : splitSign (natDigits n.natAbs) = (false, natDigits n.natAbs) := by
      cases text : natDigits n.natAbs with
      | nil => rfl
      | cons c cs =>
        have digit := digits c (by simp [text])
        rw [splitSign]
        · rintro _ ⟨⟩
          revert digit
          decide
        · rintro _ ⟨⟩
          revert digit
          decide
    rw [if_neg negative, integer?,
      trimmed_eq_self fun c hc => not_isNumberPadding (.inl (digits c hc)), unsigned]
    simp only [noMark, natural?_natDigits]
    show some (n.natAbs : Int) = some n
    congr 1
    omega

end Number

-- ============================================================================
-- How far numbers reach
-- ============================================================================

namespace Lexeme

/-- Decimal digits of ASCII, one at least. -/
structure Digits (ds : List Char) : Prop where
  nonempty : ds ≠ []
  isDigit : ∀ c ∈ ds, c.isDigit = true

theorem Digits.zero : Digits ['0'] :=
  ⟨by simp, by simp⟩

theorem Digits.length_ne_zero {ds : List Char} (h : Digits ds) : ds.length ≠ 0 := by
  simpa using h.nonempty

/-- A text in front of which a number ends. -/
def NoDigit (cs : List Char) : Prop :=
  ∀ c ∈ cs.head?, isDecimal c = false

theorem Digits.reach {ds : List Char} (h : Digits ds) {rest : List Char} (stop : NoDigit rest) :
    digitsReach (ds ++ rest) = ds.length := by
  rw [digitsReach, takeWhile_append_stop (fun c hc => isDecimal_of_isDigit (h.isDigit c hc)) stop]

/-- A minus sign or nothing. -/
def IsSign (sign : List Char) : Prop :=
  sign = [] ∨ sign = ['-']

theorem integerReach_append {sign ds rest : List Char} (hsign : IsSign sign) (h : Digits ds)
    (stop : NoDigit rest) : integerReach (sign ++ (ds ++ rest)) = sign.length + ds.length := by
  have mark : oneReach (· == '-') (sign ++ (ds ++ rest)) = sign.length := by
    rcases hsign with rfl | rfl
    · cases ds with
      | nil => exact absurd rfl h.nonempty
      | cons c ds =>
        have digit := h.isDigit c (by simp)
        have other : c ≠ '-' := by
          rintro rfl
          revert digit
          decide
        simp [oneReach, other]
    · rfl
  rw [integerReach, mark, List.drop_left, h.reach stop, extend, if_neg h.length_ne_zero,
    Nat.add_comm]

/-- Numbers are tried before everything else that begins with a digit or a
    minus sign. -/
theorem zero_of_sign_digits {sign ds : List Char} (hsign : IsSign sign) (h : Digits ds)
    (rest : List Char) : ∀ entry ∈ classes.take 14, entry.2 (sign ++ (ds ++ rest)) = 0 := by
  have digit : ∀ c : Char, c.isDigit = true → ∀ cs, ∀ entry ∈ classes.take 14,
      entry.2 (c :: cs) = 0 := by
    intro c hc cs
    have nine : '9'.toNat = 57 := rfl
    have zero : '0'.toNat = 48 := rfl
    have range := Char.isDigit_iff_toNat.mp hc
    refine zero_of_first (by omega) ?_ cs
    intro mem
    have outside : ∀ d ∈ ['#', '.', '(', ')', '\x7b', '\x7d', '[', ']', '$', '!', ':', '"'],
        d.isDigit = false := by simp
    rw [outside c mem] at hc
    cases hc
  rcases hsign with rfl | rfl
  · cases ds with
    | nil => exact absurd rfl h.nonempty
    | cons c ds => exact digit c (h.isDigit c (by simp)) _
  · exact zero_of_first (by decide) (by decide) _

/-- Every integer spells itself. -/
theorem spells_integer (n : Int) : Spells (integerText n).toList [.scalar (.integer n)] := by
  have digits : Digits (natDigits n.natAbs) :=
    ⟨natDigits_ne_nil _, fun c => isDigit_of_mem_natDigits⟩
  obtain ⟨sign, hsign, text⟩ : ∃ sign, IsSign sign ∧
      (integerText n).toList = sign ++ natDigits n.natAbs := by
    rw [integerText, String.toList_ofList]
    split
    next => exact ⟨['-'], .inr rfl, rfl⟩
    next => exact ⟨[], .inl rfl, rfl⟩
  have whole : integerReach (sign ++ natDigits n.natAbs) =
      (sign ++ natDigits n.natAbs).length := by
    have reach : integerReach (sign ++ (natDigits n.natAbs ++ [])) = _ :=
      integerReach_append hsign digits (by simp [NoDigit])
    rwa [List.append_nil, ← List.length_append] at reach
  have read := integer?_integerText n
  rw [text] at read ⊢
  refine spells_of_reach 15 rfl (by simp [digits.nonempty]) ?_ ?_ ?_ fun _ => .scalar
  · intro after delimited
    rw [local_integerReach.append _ delimited, whole]
  · intro after delimited
    have noReal : realReach (sign ++ natDigits n.natAbs ++ after) = 0 := by
      rw [local_realReach.append _ delimited]
      simp only [realReach, whole, List.drop_length, fractionReach, exponentReach, Nat.add_zero,
        if_true, ite_self]
    have split : classes.take 15 = classes.take 14 ++ [(.real, realReach)] := rfl
    rw [split, List.forall_mem_append, List.append_assoc]
    refine ⟨zero_of_sign_digits hsign digits after, ?_⟩
    rw [List.forall_mem_singleton, ← List.append_assoc]
    exact noReal
  · rw [kind?, read]

/-- A point and digits, or nothing. -/
inductive IsFraction : List Char → Prop
  | none : IsFraction []
  | digits {ds : List Char} : Digits ds → IsFraction ('.' :: ds)

/-- An exponent mark with a sign and digits, or nothing. -/
inductive IsExponent : List Char → Prop
  | none : IsExponent []
  | digits {mark : Char} {ds : List Char} : mark = '-' ∨ mark = '+' → Digits ds →
      IsExponent ('e' :: mark :: ds)

theorem IsExponent.noDigit {exponent : List Char} (h : IsExponent exponent) :
    NoDigit exponent := by
  cases h with
  | none => simp [NoDigit]
  | digits =>
    rintro c ⟨⟩
    decide

theorem IsFraction.noDigit {fraction exponent : List Char} (hf : IsFraction fraction)
    (he : IsExponent exponent) : NoDigit (fraction ++ exponent) := by
  cases hf with
  | none => exact he.noDigit
  | digits =>
    rintro c ⟨⟩
    decide

theorem IsFraction.reach {fraction exponent : List Char} (hf : IsFraction fraction)
    (he : IsExponent exponent) : fractionReach (fraction ++ exponent) = fraction.length := by
  cases hf with
  | none => cases he <;> rfl
  | digits digits =>
    rw [List.cons_append, fractionReach, digits.reach he.noDigit, extend,
      if_neg digits.length_ne_zero, List.length_cons]

theorem IsExponent.reach {exponent : List Char} (h : IsExponent exponent) :
    exponentReach exponent = exponent.length := by
  cases h with
  | none => rfl
  | digits hmark digits =>
    next mark ds =>
    have sign : oneReach (fun d => d == '-' || d == '+') (mark :: ds) = 1 := by
      rcases hmark with rfl | rfl <;> rfl
    have whole : digitsReach (ds ++ []) = ds.length := digits.reach (by simp [NoDigit])
    rw [List.append_nil] at whole
    rw [exponentReach, if_pos (by decide), sign]
    dsimp only
    rw [List.drop_succ_cons, List.drop_zero, whole, extend, if_neg digits.length_ne_zero,
      List.length_cons, List.length_cons]

/-- The text of a number that is not an integer, without its sign. -/
def IsReal (cs : List Char) : Prop :=
  ∃ ds fraction exponent, Digits ds ∧ IsFraction fraction ∧ IsExponent exponent ∧
    fraction ++ exponent ≠ [] ∧ cs = ds ++ (fraction ++ exponent)

theorem IsReal.of_fraction {ds fraction : List Char} (hds : Digits ds) (hf : Digits fraction) :
    IsReal (ds ++ '.' :: fraction) :=
  ⟨ds, '.' :: fraction, [], hds, .digits hf, .none, by simp, by simp⟩

theorem IsReal.reach {sign cs : List Char} (hsign : IsSign sign) (h : IsReal cs) :
    realReach (sign ++ cs) = (sign ++ cs).length := by
  obtain ⟨ds, fraction, exponent, hds, hf, he, nonempty, rfl⟩ := h
  have whole := integerReach_append hsign hds (hf.noDigit he)
  have positive : sign.length + ds.length ≠ 0 := by
    have := hds.length_ne_zero
    omega
  have behind : (sign ++ (ds ++ (fraction ++ exponent))).drop (sign.length + ds.length) =
      fraction ++ exponent := by
    rw [← List.drop_drop, List.drop_left, List.drop_left]
  have atEnd : (sign ++ (ds ++ (fraction ++ exponent))).drop
      (sign.length + ds.length + fraction.length) = exponent := by
    rw [← List.drop_drop, behind, List.drop_left]
  have both : fraction.length + exponent.length ≠ 0 := by
    rw [← List.length_append]
    simpa using nonempty
  unfold realReach
  dsimp only
  rw [whole, if_neg positive, behind, hf.reach he, atEnd, he.reach, if_neg both]
  simp only [List.length_append]
  omega

theorem IsReal.classify {sign cs : List Char} (hsign : IsSign sign) (h : IsReal cs)
    {after : List Char} (delimited : Delimited after) :
    classify (sign ++ cs ++ after) = some (.real, (sign ++ cs).length) := by
  have whole := h.reach hsign
  obtain ⟨ds, fraction, exponent, hds, hf, he, nonempty, rfl⟩ := h
  refine classify_of_reach 14 rfl (by simp [hds.nonempty]) ?_ ?_
  · rw [local_realReach.append _ delimited, whole]
  · rw [List.append_assoc, List.append_assoc]
    exact zero_of_sign_digits hsign hds _

end Lexeme

-- ============================================================================
-- The layout of doubles
-- ============================================================================

namespace Number

open RubyPattern.Lexeme

/-- Decimal digits that are laid out with a digit before the point or behind it. -/
structure Decimal.Plain (d : Decimal) : Prop where
  isDigit : ∀ c ∈ d.digits, c.isDigit = true
  nonempty : d.digits ≠ [] ∨ 0 < d.point

theorem isDigit_of_mem_replicate {n : Nat} {c : Char} (h : c ∈ List.replicate n '0') :
    c.isDigit = true := by
  rw [List.eq_of_mem_replicate h]
  rfl

theorem isReal_positional {d : Decimal} (h : d.Plain) : IsReal (positional d) := by
  unfold positional
  split
  next small =>
    have digits : d.digits ≠ [] := h.nonempty.resolve_right (by omega)
    refine .of_fraction .zero ⟨by simp [digits], fun c hc => ?_⟩
    rcases List.mem_append.mp hc with hc | hc
    · exact isDigit_of_mem_replicate hc
    · exact h.isDigit c hc
  next large =>
    have before : Digits (d.digits.take d.point.toNat ++
        List.replicate (d.point.toNat - d.digits.length) '0') := by
      refine ⟨?_, fun c hc => ?_⟩
      · rw [← List.length_pos_iff, List.length_append, List.length_take, List.length_replicate]
        omega
      · rcases List.mem_append.mp hc with hc | hc
        · exact h.isDigit c (List.mem_of_mem_take hc)
        · exact isDigit_of_mem_replicate hc
    dsimp only
    split
    next => exact .of_fraction before .zero
    next after nonempty =>
      exact .of_fraction before ⟨fun empty => nonempty empty, fun c hc =>
        h.isDigit c (List.mem_of_mem_drop hc)⟩

theorem isReal_exponential {d : Decimal} (h : d.Plain) : IsReal (exponential d) := by
  have power : ∀ n : Nat,
      Digits (List.replicate (2 - (natDigits n).length) '0' ++ natDigits n) := by
    intro n
    refine ⟨by simp [natDigits_ne_nil], fun c hc => ?_⟩
    rcases List.mem_append.mp hc with hc | hc
    · exact isDigit_of_mem_replicate hc
    · exact isDigit_of_mem_natDigits hc
  have mark : ∀ p : Prop, [Decidable p] → ((if p then '-' else '+') = '-' ∨
      (if p then '-' else '+') = '+') := by
    intro p _
    split <;> simp
  have exponent : IsExponent ('e' :: (if d.point - 1 < 0 then '-' else '+') ::
      (List.replicate (2 - (natDigits (d.point - 1).natAbs).length) '0' ++
        natDigits (d.point - 1).natAbs)) := .digits (mark _) (power _)
  unfold exponential
  dsimp only
  cases text : d.digits with
  | nil => exact ⟨['0'], [], _, .zero, .none, exponent, by simp, by simp⟩
  | cons c cs =>
    have digit : ∀ e ∈ c :: cs, e.isDigit = true := fun e he => h.isDigit e (by rwa [text])
    have first : Digits [c] := ⟨by simp, fun e he => digit e (by simp_all)⟩
    cases cs with
    | nil => exact ⟨[c], [], _, first, .none, exponent, by simp, by simp⟩
    | cons e cs =>
      have others : Digits (e :: cs) := ⟨by simp, fun f hf => digit f (List.mem_cons_of_mem _ hf)⟩
      exact ⟨[c], '.' :: e :: cs, _, first, .digits others, exponent, by simp, by simp⟩

theorem isReal_magnitude (layout : Layout) {d : Decimal} (h : d.Plain) :
    IsReal (layout.magnitude d) := by
  unfold Layout.magnitude
  split
  next => exact isReal_positional h
  next => exact isReal_exponential h

/-- Not all digits of a positive number are zero. -/
theorem exists_ne_zero_of_natDigits {n : Nat} (positive : 0 < n) :
    ∃ c ∈ natDigits n, c ≠ '0' := by
  by_contra none
  have zeros : ∀ c ∈ natDigits n, c = '0' := by
    intro c hc
    by_contra ne
    exact none ⟨c, hc, ne⟩
  have value : ∀ cs : List Char, (∀ c ∈ cs, c = '0') → Nat.ofDigitChars 10 cs 0 = 0 := by
    intro cs
    induction cs with
    | nil => intro _; rfl
    | cons c cs ih =>
      intro all
      rw [Nat.ofDigitChars_cons, all c (by simp)]
      exact ih fun d hd => all d (by simp [hd])
  have read := value _ zeros
  rw [natDigits, Nat.ofDigitChars_ten_toDigits] at read
  omega

/-- A grid point next to a positive double is positive itself. -/
theorem Grid.pos_of_nearest {g : Grid} (positive : 0 < g.low) {closed : Bool} {point : Nat}
    (h : g.nearest? closed = some point) : 0 < point := by
  have admitted : g.admits closed point = true := by
    unfold Grid.nearest? at h
    dsimp only at h
    split at h
    next => cases h
    next below _ => cases h; assumption
    next => cases h; assumption
    next => split_ifs at h <;> cases h <;> assumption
  by_contra zero
  obtain rfl : point = 0 := by omega
  unfold Grid.admits at admitted
  cases closed <;> simp only [Bool.false_eq_true, if_false, if_true, Bool.and_eq_true,
    Nat.blt_eq, Nat.ble_eq, Nat.zero_mul] at admitted
  · omega
  · omega

theorem Grid.low_pos {mantissa : Nat} (nonzero : mantissa ≠ 0) (exponent k : Int) :
    0 < (Grid.ofBinary mantissa exponent k).low := by
  have scale : 0 < Nat.pow 2 (exponent - 2).toNat * Nat.pow 10 (-k).toNat :=
    Nat.mul_pos (Nat.pow_pos (by decide)) (Nat.pow_pos (by decide))
  unfold Grid.ofBinary
  refine Nat.mul_pos ?_ scale
  split <;> omega

/-- The shortest digits of a double have one that is not zero. -/
theorem plain_shortest {mantissa : Nat} (nonzero : mantissa ≠ 0) (exponent : Int) :
    (shortest mantissa exponent).Plain := by
  have trimmed : ∀ ds : List Char, (∀ c ∈ ds, c.isDigit = true) →
      ∀ c ∈ (ds.reverse.dropWhile (· == '0')).reverse, c.isDigit = true := by
    intro ds digit c hc
    have mem := (List.dropWhile_sublist _).subset (List.mem_reverse.mp hc)
    exact digit c (List.mem_reverse.mp mem)
  unfold shortest
  dsimp only
  cases search : (List.range 17).findSome? (fun n : Nat => ((Grid.ofBinary mantissa exponent
      (decimalExponent mantissa exponent - n)).nearest? (mantissa % 2 == 0)).map fun point =>
        (natDigits point, decimalExponent mantissa exponent - (n : Int))) with
  | none => exact ⟨by simp, .inr (by decide)⟩
  | some found =>
    obtain ⟨n, _, here⟩ := List.exists_of_findSome?_eq_some search
    obtain ⟨point, near, rfl⟩ := Option.map_eq_some_iff.mp here
    obtain ⟨c, mem, nonzero⟩ :=
      exists_ne_zero_of_natDigits (Grid.pos_of_nearest (Grid.low_pos nonzero _ _) near)
    refine ⟨trimmed _ fun c => isDigit_of_mem_natDigits, .inl fun empty => nonzero ?_⟩
    have zeros := List.dropWhile_eq_nil_iff.mp (List.reverse_eq_nil_iff.mp empty)
    simpa using zeros c (List.mem_reverse.mpr mem)

/-- The text of a finite double is a sign and the text of a number. -/
theorem exists_isReal_text {x : Float} {negative : Bool} {mantissa : Nat} {exponent : Int}
    (finite : Binary.ofFloat x = .finite negative mantissa exponent) :
    ∃ sign cs, IsSign sign ∧ IsReal cs ∧
      Layout.literal.text x = String.ofList (sign ++ cs) := by
  have body : IsReal (if mantissa = 0 then ['0', '.', '0']
      else Layout.literal.magnitude (shortest mantissa exponent)) := by
    split
    next => exact .of_fraction .zero .zero
    next nonzero => exact isReal_magnitude _ (plain_shortest nonzero exponent)
  unfold Layout.text
  rw [finite]
  cases negative with
  | false => exact ⟨[], _, .inl rfl, body, rfl⟩
  | true => exact ⟨['-'], _, .inr rfl, body, rfl⟩

theorem classify_real {x : Float} {negative : Bool} {mantissa : Nat} {exponent : Int}
    (finite : Binary.ofFloat x = .finite negative mantissa exponent) {after : List Char}
    (delimited : Delimited after) : classify ((Layout.literal.text x).toList ++ after) =
      some (.real, (Layout.literal.text x).toList.length) := by
  obtain ⟨sign, cs, hsign, hcs, text⟩ := exists_isReal_text finite
  rw [text, String.toList_ofList]
  exact hcs.classify hsign delimited

/-- A finite double spells the double that its text reads as. -/
theorem spells_real {x y : Float} {negative : Bool} {mantissa : Nat} {exponent : Int}
    (finite : Binary.ofFloat x = .finite negative mantissa exponent)
    (read : float? (Layout.literal.text x) = some y) :
    Spells (Layout.literal.text x).toList [.scalar (.real y)] := by
  refine spells_of_classify (fun after delimited => classify_real finite delimited) ?_
    fun _ => .scalar
  rw [kind?, String.ofList_toList, read]

end Number

end RubyPattern
