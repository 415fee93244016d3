/-
  RubyPattern.Proofs.NumberLexemes

  What the scan takes for a number reads as a number. Its digits may come from
  any script; behind an optional minus sign they have at least one of them, and
  a fraction or an exponent holds digits too.
-/
import RubyPattern.Proofs.Numerals

namespace RubyPattern

open RubyPattern.Text RubyPattern.Number

namespace Number

-- ============================================================================
-- Digits of any script
-- ============================================================================

theorem decimalValue?_lt {c : Char} {d : Nat} (h : decimalValue? c = some d) : d < 10 := by
  unfold decimalValue? at h
  split at h
  next =>
    split at h
    next digit =>
      cases h
      exact (digitValue?_of_isDigit digit).2
    next => cases h
  next =>
    obtain ⟨first, found, rfl⟩ := Option.map_eq_some_iff.mp h
    have inside := List.find?_some found
    rw [Bool.and_eq_true, Nat.ble_eq, Nat.ble_eq] at inside
    omega

theorem pushDigit?_of_isDecimal {c : Char} (h : isDecimal c = true) (total : Nat) :
    (pushDigit? 10 total c).isSome := by
  obtain ⟨d, value⟩ := Option.isSome_iff_exists.mp h
  have digit : digitValue? c = some d := by rw [digitValue?, value]
  simp [pushDigit?, digit, decimalValue?_lt value]

theorem natural?_of_isDecimal {digits : List Char} (nonempty : digits ≠ [])
    (h : ∀ c ∈ digits, isDecimal c = true) : (natural? 10 digits).isSome := by
  have fold : ∀ total, (digits.foldlM (pushDigit? 10) total).isSome := by
    clear nonempty
    induction digits with
    | nil => exact fun _ => rfl
    | cons c digits ih =>
      intro total
      obtain ⟨next, pushed⟩ := Option.isSome_iff_exists.mp
        (pushDigit?_of_isDecimal (h c List.mem_cons_self) total)
      rw [List.foldlM_cons, pushed]
      exact ih (fun d hd => h d (List.mem_cons_of_mem c hd)) next
  rw [natural?, if_neg (by simpa using nonempty)]
  exact fold 0

/-- No digit is white space. -/
theorem isNumberPadding_of_isDecimal {c : Char} (h : isDecimal c = true) :
    isNumberPadding c = false := by
  rw [isDecimal, decimalValue?] at h
  split at h
  next =>
    split at h
    next digit => exact not_isNumberPadding (.inl digit)
    next => cases h
  next =>
    obtain ⟨_, found⟩ := Option.isSome_iff_exists.mp h
    obtain ⟨first, found, -⟩ := Option.map_eq_some_iff.mp found
    have inside := List.find?_some found
    rw [Bool.and_eq_true, Nat.ble_eq, Nat.ble_eq] at inside
    have apart : ∀ start ∈ zeros, ∀ range ∈ blankRanges, start + 9 < range.1 ∨ range.2 < start := by
      decide
    rw [isNumberPadding, isBlank, Bool.and_eq_false_iff]
    left
    rw [← Bool.not_eq_true, inRanges_eq_true_iff]
    rintro ⟨range, mem, low, high⟩
    rcases apart first (List.mem_of_find?_eq_some found) range mem with below | above <;> omega

end Number

namespace Lexeme

/-- Decimal digits of any script, one at least. -/
structure Decimals (ds : List Char) : Prop where
  nonempty : ds ≠ []
  isDecimal : ∀ c ∈ ds, isDecimal c = true

theorem Decimals.not_mem {ds : List Char} (h : Decimals ds) {c : Char}
    (other : Text.isDecimal c = false) : c ∉ ds := by
  intro mem
  rw [h.isDecimal c mem] at other
  cases other

theorem take_digitsReach (cs : List Char) : cs.take (digitsReach cs) = cs.takeWhile isDecimal :=
  (List.prefix_iff_eq_take.mp (List.takeWhile_prefix isDecimal)).symm

theorem decimals_of_digitsReach {cs : List Char} (h : digitsReach cs ≠ 0) :
    Decimals (cs.take (digitsReach cs)) := by
  rw [take_digitsReach]
  exact ⟨fun none => h (by rw [digitsReach, none]; rfl), fun c mem => List.mem_takeWhile_imp mem⟩

/-- A reach that was lengthened over a first part takes that part and what it
    reached behind it. -/
theorem take_extend (f : List Char → Nat) (cs : List Char) (count : Nat)
    (h : extend count (f (cs.drop count)) ≠ 0) :
    f (cs.drop count) ≠ 0 ∧ cs.take (extend count (f (cs.drop count))) =
      cs.take count ++ (cs.drop count).take (f (cs.drop count)) := by
  rw [extend_ne_zero] at h
  refine ⟨h, ?_⟩
  rw [extend, if_neg h, Nat.add_comm, List.take_add]

-- ============================================================================
-- Integers
-- ============================================================================

theorem isSign_take (cs : List Char) : IsSign (cs.take (oneReach (· == '-') cs)) := by
  cases cs with
  | nil => exact .inl rfl
  | cons c cs =>
    by_cases minus : c = '-'
    · exact .inr (by simp [oneReach, minus])
    · exact .inl (by simp [oneReach, minus])

/-- An integer is a sign and digits. -/
theorem take_integerReach {cs : List Char} (h : integerReach cs ≠ 0) :
    ∃ sign ds, IsSign sign ∧ Decimals ds ∧ cs.take (integerReach cs) = sign ++ ds := by
  obtain ⟨some, text⟩ := take_extend digitsReach cs _ h
  exact ⟨_, _, isSign_take cs, decimals_of_digitsReach some, text⟩

theorem splitSign_append {sign ds : List Char} (hsign : IsSign sign) (h : Decimals ds)
    (rest : List Char) : ∃ negative, splitSign (sign ++ (ds ++ rest)) = (negative, ds ++ rest) := by
  rcases hsign with rfl | rfl
  · refine ⟨false, ?_⟩
    obtain ⟨c, ds, rfl⟩ := List.exists_cons_of_ne_nil h.nonempty
    have minus : c ≠ '-' := fun same => h.not_mem (c := '-') (by decide) (by simp [same])
    have plus : c ≠ '+' := fun same => h.not_mem (c := '+') (by decide) (by simp [same])
    rw [List.nil_append, List.cons_append, splitSign]
    · rintro _ ⟨⟩
      exact minus rfl
    · rintro _ ⟨⟩
      exact plus rfl
  · exact ⟨true, rfl⟩

theorem isNumberPadding_of_sign {sign : List Char} (h : IsSign sign) :
    ∀ c ∈ sign, isNumberPadding c = false := by
  rcases h with rfl | rfl
  · simp
  · simpa using not_isNumberPadding (.inr rfl)

theorem isSome_integer? {cs : List Char} (h : integerReach cs ≠ 0) :
    (integer? 10 none (cs.take (integerReach cs))).isSome := by
  obtain ⟨sign, ds, hsign, digits, text⟩ := take_integerReach h
  have untrimmed : trimmed (sign ++ ds) = sign ++ ds := by
    refine trimmed_eq_self fun c mem => ?_
    rcases List.mem_append.mp mem with mem | mem
    · exact isNumberPadding_of_sign hsign c mem
    · exact isNumberPadding_of_isDecimal (digits.isDecimal c mem)
  obtain ⟨negative, split⟩ := splitSign_append hsign digits []
  rw [List.append_nil] at split
  have unmarked : dropMark none ds = ds := by
    rcases ds with _ | ⟨c, _ | ⟨d, ds⟩⟩ <;> simp [dropMark]
  obtain ⟨n, value⟩ := Option.isSome_iff_exists.mp
    (natural?_of_isDecimal digits.nonempty digits.isDecimal)
  rw [text, integer?, untrimmed, split]
  dsimp only
  rw [unmarked, value]
  rfl

-- ============================================================================
-- Doubles
-- ============================================================================

/-- A point and digits of any script, or nothing. -/
inductive FractionText : List Char → Prop
  | none : FractionText []
  | digits {ds : List Char} (digits : Decimals ds) : FractionText ('.' :: ds)

/-- An exponent mark, a sign and digits of any script, or nothing. -/
inductive ExponentText : List Char → Prop
  | none : ExponentText []
  | digits {mark : Char} {sign ds : List Char} (marked : mark = 'e' ∨ mark = 'E')
      (signed : sign = [] ∨ sign = ['-'] ∨ sign = ['+']) (digits : Decimals ds) :
      ExponentText (mark :: (sign ++ ds))

theorem fractionText_take (cs : List Char) : FractionText (cs.take (fractionReach cs)) := by
  by_cases some : fractionReach cs = 0
  · rw [some]
    exact .none
  · unfold fractionReach at some ⊢
    split at some
    next rest =>
      obtain ⟨digits, text⟩ := take_extend digitsReach ('.' :: rest) 1 some
      rw [List.drop_one, List.tail_cons] at text digits
      rw [text]
      exact .digits (decimals_of_digitsReach digits)
    next => exact absurd rfl some

theorem exponentText_take (cs : List Char) : ExponentText (cs.take (exponentReach cs)) := by
  by_cases some : exponentReach cs = 0
  · rw [some]
    exact .none
  · unfold exponentReach at some ⊢
    cases cs with
    | nil => exact absurd rfl some
    | cons c cs =>
      dsimp only at some ⊢
      split at some
      next marked =>
        rw [if_pos marked]
        generalize sign : oneReach (fun d => d == '-' || d == '+') cs = width at some ⊢
        replace some := extend_ne_zero.mp some
        have signed : cs.take width = [] ∨ cs.take width = ['-'] ∨ cs.take width = ['+'] := by
          subst sign
          cases cs with
          | nil => exact .inl rfl
          | cons d cs =>
            by_cases sign : d = '-' ∨ d = '+'
            · rcases sign with rfl | rfl <;> simp [oneReach]
            · rw [not_or] at sign
              simp [oneReach, sign.1, sign.2]
        have length : digitsReach (cs.drop width) + (1 + width) =
            width + digitsReach (cs.drop width) + 1 := by omega
        rw [extend, if_neg some, length, List.take_succ_cons, List.take_add]
        exact .digits (by simpa using marked) signed (decimals_of_digitsReach some)
      next => exact absurd rfl some

/-- A double is a sign, digits, and a fraction and an exponent, if they are
    there. -/
theorem take_realReach {cs : List Char} (h : realReach cs ≠ 0) :
    ∃ sign ds fraction exponent, IsSign sign ∧ Decimals ds ∧ FractionText fraction ∧
      ExponentText exponent ∧ cs.take (realReach cs) = sign ++ (ds ++ (fraction ++ exponent)) := by
  unfold realReach at h ⊢
  dsimp only at h ⊢
  split at h
  next => exact absurd rfl h
  next whole =>
    split at h
    next => exact absurd rfl h
    next both =>
      obtain ⟨sign, ds, hsign, digits, text⟩ := take_integerReach whole
      refine ⟨sign, ds, _, _, hsign, digits, fractionText_take (cs.drop (integerReach cs)),
        exponentText_take (cs.drop (integerReach cs + fractionReach (cs.drop (integerReach cs)))),
        ?_⟩
      rw [if_neg whole, if_neg both, List.take_add, List.take_add, text]
      simp only [List.append_assoc]

theorem FractionText.noDigit {fraction exponent : List Char} (hf : FractionText fraction)
    (he : ExponentText exponent) : NoDigit (fraction ++ exponent) := by
  cases hf with
  | digits =>
    rintro c ⟨⟩
    decide
  | none =>
    cases he with
    | none => simp [NoDigit]
    | digits marked =>
      rintro c ⟨⟩
      rcases marked with rfl | rfl <;> decide

theorem ExponentText.noDigit {exponent : List Char} (he : ExponentText exponent) :
    NoDigit exponent :=
  FractionText.noDigit .none he

theorem Decimals.takeWhile_append {ds rest : List Char} (h : Decimals ds) (stop : NoDigit rest) :
    (ds ++ rest).takeWhile Text.isDecimal = ds ∧ (ds ++ rest).dropWhile Text.isDecimal = rest := by
  have behind : rest.takeWhile Text.isDecimal = [] ∧ rest.dropWhile Text.isDecimal = rest := by
    cases rest with
    | nil => exact ⟨rfl, rfl⟩
    | cons c rest => simp [stop c rfl]
  rw [List.takeWhile_append_of_pos h.isDecimal, List.dropWhile_append_of_pos h.isDecimal, behind.1,
    behind.2]
  exact ⟨List.append_nil ds, rfl⟩

theorem isSome_exponent? {exponent : List Char} (h : ExponentText exponent) :
    (exponent? exponent).isSome := by
  cases h with
  | none => rfl
  | @digits mark sign ds marked signed digits =>
    have split : ∃ negative, splitSign (sign ++ ds) = (negative, ds) := by
      rcases signed with rfl | rfl | rfl
      · have unsigned := splitSign_append (.inl rfl) digits []
        rwa [List.append_nil] at unsigned
      · exact ⟨true, rfl⟩
      · exact ⟨false, rfl⟩
    obtain ⟨negative, split⟩ := split
    obtain ⟨n, value⟩ := Option.isSome_iff_exists.mp
      (natural?_of_isDecimal digits.nonempty digits.isDecimal)
    rw [exponent?, if_pos (by simpa using marked), split]
    dsimp only
    rw [value]
    rfl

theorem isSome_unsigned? {ds fraction exponent : List Char} (h : Decimals ds)
    (hf : FractionText fraction) (he : ExponentText exponent) :
    (unsigned? (ds ++ (fraction ++ exponent))).isSome := by
  obtain ⟨whole, behind⟩ := h.takeWhile_append (hf.noDigit he)
  obtain ⟨power, hpower⟩ := Option.isSome_iff_exists.mp (isSome_exponent? he)
  have mantissa (more : List Char) (digits : ∀ c ∈ more, Text.isDecimal c = true) :
      ∃ n, natural? 10 (ds ++ more) = some n := by
    refine Option.isSome_iff_exists.mp (natural?_of_isDecimal (by simp [h.nonempty]) ?_)
    exact List.forall_mem_append.mpr ⟨h.isDecimal, digits⟩
  unfold unsigned?
  simp only [whole, behind]
  cases hf with
  | none =>
    obtain ⟨n, value⟩ := mantissa [] (by simp)
    cases he with
    | none =>
      simp only [List.nil_append, value, hpower]
      rfl
    | digits marked =>
      rcases marked with rfl | rfl <;> simp [-List.append_nil, value, hpower]
  | @digits fs digits =>
    obtain ⟨front, rest⟩ := digits.takeWhile_append he.noDigit
    obtain ⟨n, value⟩ := mantissa _ digits.isDecimal
    simp only [List.cons_append, front, rest, value, hpower]
    rfl

theorem ungrouped?_eq_some {cs : List Char} (h : '_' ∉ cs) (afterDigit : Bool) :
    ungrouped? afterDigit cs = some cs := by
  induction cs generalizing afterDigit with
  | nil => rfl
  | cons c cs ih =>
    rw [List.mem_cons, not_or] at h
    rw [ungrouped?, ih h.2]
    · rfl
    · exact fun same => absurd same.symm h.1

/-- What stands in the text of a double: digits, signs, a point and the mark of
    an exponent. -/
theorem of_mem_realText {sign ds fraction exponent : List Char} (hsign : IsSign sign)
    (digits : Decimals ds) (hf : FractionText fraction) (he : ExponentText exponent) {c : Char}
    (mem : c ∈ sign ++ (ds ++ (fraction ++ exponent))) :
    isDecimal c = true ∨ c ∈ ['-', '+', '.', 'e', 'E'] := by
  simp only [List.mem_append] at mem
  rcases mem with mem | mem | mem | mem
  · rcases hsign with rfl | rfl
    · cases mem
    · exact .inr (by simp [List.mem_singleton.mp mem])
  · exact .inl (digits.isDecimal c mem)
  · cases hf with
    | none => cases mem
    | digits more =>
      rcases List.mem_cons.mp mem with rfl | mem
      · exact .inr (by simp)
      · exact .inl (more.isDecimal c mem)
  · cases he with
    | none => cases mem
    | digits marked signed more =>
      simp only [List.mem_cons, List.mem_append] at mem
      rcases mem with rfl | mem | mem
      · rcases marked with rfl | rfl <;> exact .inr (by simp)
      · rcases signed with rfl | rfl | rfl
        · cases mem
        · exact .inr (by simp [List.mem_singleton.mp mem])
        · exact .inr (by simp [List.mem_singleton.mp mem])
      · exact .inl (more.isDecimal c mem)

theorem isSome_float? {cs : List Char} (h : realReach cs ≠ 0) :
    (float? (String.ofList (cs.take (realReach cs)))).isSome := by
  obtain ⟨sign, ds, fraction, exponent, hsign, digits, hf, he, text⟩ := take_realReach h
  have parts := fun c => of_mem_realText hsign digits hf he (c := c)
  have untrimmed : trimmed (sign ++ (ds ++ (fraction ++ exponent))) =
      sign ++ (ds ++ (fraction ++ exponent)) := by
    refine trimmed_eq_self fun c mem => ?_
    rcases parts c mem with digit | mark
    · exact isNumberPadding_of_isDecimal digit
    · have none : ['-', '+', '.', 'e', 'E'].any isNumberPadding = false := by decide
      exact eq_false_of_ne_true (List.any_eq_false.mp none c mark)
  have ungrouped : '_' ∉ sign ++ (ds ++ (fraction ++ exponent)) := by
    intro mem
    rcases parts '_' mem with digit | mark
    · exact absurd digit (by decide)
    · exact absurd mark (by decide)
  obtain ⟨negative, split⟩ := splitSign_append hsign digits (fraction ++ exponent)
  obtain ⟨x, value⟩ := Option.isSome_iff_exists.mp (isSome_unsigned? digits hf he)
  rw [text, float?, String.toList_ofList, untrimmed, ungrouped?_eq_some ungrouped,
    Option.bind_some, bareFloat?, split]
  dsimp only
  rw [Option.isSome_map, value]
  -- A text of digits is no name of a special value, but such a name would have one too.
  split
  next => rfl
  next => split <;> rfl

end Lexeme

end RubyPattern
