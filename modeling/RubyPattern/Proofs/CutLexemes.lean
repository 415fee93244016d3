/-
  RubyPattern.Proofs.CutLexemes

  Lexemes cut out of their text. No class of lexemes but comments looks behind
  the place where it ends, so a lexeme is the same lexeme if the text stops
  there.
-/
import Mathlib.Data.List.Infix
import RubyPattern.Proofs.Reach

namespace RubyPattern.Lexeme

open RubyPattern.Text RubyPattern.Name

/-- A reach that stays the same if the text is cut off anywhere behind it. -/
def Cuttable (f : List Char → Nat) : Prop :=
  ∀ cs n, f cs ≤ n → f (cs.take n) = f cs

/-- It is enough to cut behind the first character. -/
theorem cuttable_of_cons {f : List Char → Nat} (nil : f [] = 0)
    (cons : ∀ c cs n, f (c :: cs) ≤ n + 1 → f (c :: cs.take n) = f (c :: cs)) : Cuttable f := by
  intro cs n within
  cases n with
  | zero => rw [List.take_zero, nil, Nat.le_zero.mp within]
  | succ n =>
    cases cs with
    | nil => rfl
    | cons c cs => rw [List.take_succ_cons, cons c cs n within]

/-- Behind such a reach the rest of the text is cut off at the same place. -/
theorem Cuttable.drop_take {f : List Char → Nat} (h : Cuttable f) (cs : List Char) (n : Nat)
    (within : f cs ≤ n) : (cs.take n).drop (f (cs.take n)) = (cs.drop (f cs)).take (n - f cs) := by
  rw [h cs n within, List.drop_take]

theorem le_of_extend_le {count reach m n : Nat} (within : extend count reach ≤ m)
    (enough : m ≤ count + n) : reach ≤ n := by
  unfold extend at within
  split at within <;> omega

-- ============================================================================
-- Parts of lexemes
-- ============================================================================

theorem length_takeWhile_take (p : Char → Bool) (cs : List Char) (n : Nat) :
    ((cs.take n).takeWhile p).length = min n (cs.takeWhile p).length := by
  rw [← List.take_takeWhile, List.length_take]

theorem cuttable_takeWhile (p : Char → Bool) : Cuttable fun cs => (cs.takeWhile p).length :=
  fun cs n within => (length_takeWhile_take p cs n).trans (Nat.min_eq_right within)

theorem cuttable_oneReach (p : Char → Bool) : Cuttable (oneReach p) :=
  cuttable_of_cons rfl fun _ _ _ _ => rfl

theorem oneReach_le_one (p : Char → Bool) (cs : List Char) : oneReach p cs ≤ 1 := by
  cases cs with
  | nil => exact Nat.zero_le 1
  | cons c cs =>
    rw [oneReach]
    split <;> decide

theorem cuttable_fixedReach (spelling : String) : Cuttable (fixedReach spelling) := by
  intro cs n within
  unfold fixedReach at within ⊢
  by_cases found : spelling.toList.isPrefixOf cs = true
  · have length : spelling.toList.length ≤ n := by
      rwa [if_pos found, ← String.length_toList] at within
    have cut : spelling.toList.isPrefixOf (cs.take n) = true := by
      rw [List.isPrefixOf_iff_prefix, List.prefix_take_iff]
      exact ⟨List.isPrefixOf_iff_prefix.mp found, length⟩
    rw [if_pos found, if_pos cut]
  · have cut : ¬ spelling.toList.isPrefixOf (cs.take n) = true := by
      rw [List.isPrefixOf_iff_prefix] at found ⊢
      exact fun front => found (front.trans (List.take_prefix n cs))
    rw [if_neg found, if_neg cut]

theorem cuttable_identifierLength : Cuttable identifierLength := by
  refine cuttable_of_cons rfl fun c cs n within => ?_
  simp only [identifierLength] at within ⊢
  split at within
  next start => rw [if_pos start, if_pos start, length_takeWhile_take, Nat.min_eq_right (by omega)]
  next noStart => rw [if_neg noStart, if_neg noStart]

theorem cuttable_sigilLength : Cuttable sigilLength := by
  refine cuttable_of_cons rfl fun c cs n within => ?_
  rw [sigilLength_cons] at within ⊢
  rw [sigilLength_cons]
  split at within
  next at_ => rw [if_pos at_, if_pos at_, cuttable_oneReach (· == '@') cs n (by omega)]
  next other => rw [if_neg other, if_neg other]

/-- Of a sigil that is cut off in its middle only a sigil is left. -/
theorem drop_sigilLength_take {cs : List Char} {n : Nat} (short : n < sigilLength cs) :
    (cs.take n).drop (sigilLength (cs.take n)) = [] := by
  cases cs with
  | nil => simp [sigilLength] at short
  | cons c cs =>
    cases n with
    | zero => rfl
    | succ n =>
      have one := oneReach_le_one (· == '@') cs
      rw [sigilLength_cons] at short
      split at short
      next at_ =>
        obtain rfl : n = 0 := by omega
        rw [at_]
        rfl
      next => split at short <;> omega

theorem cuttable_specialGlobalLength : Cuttable specialGlobalLength := by
  refine cuttable_of_cons rfl fun c cs n within => ?_
  rw [specialGlobalLength_cons] at within ⊢
  rw [specialGlobalLength_cons]
  split at within
  next special => rw [if_pos special, if_pos special]
  next plain =>
    rw [if_neg plain, if_neg plain]
    split at within
    next digit =>
      rw [if_pos digit, if_pos digit, length_takeWhile_take, Nat.min_eq_right (by omega)]
    next noDigit =>
      rw [if_neg noDigit, if_neg noDigit]
      split at within
      next dash => rw [if_pos dash, if_pos dash, cuttable_oneReach isWord cs n (by omega)]
      next other => rw [if_neg other, if_neg other]

/-- The first spelling of a list that stands at the front. -/
theorem cuttable_firstReach (spellings : List String) :
    Cuttable fun cs => ((spellings.map (fixedReach · cs)).find? (· != 0)).getD 0 := by
  intro cs n within
  induction spellings with
  | nil => rfl
  | cons spelling spellings ih =>
    have first := cuttable_fixedReach spelling cs n
    simp only [List.map_cons, List.find?_cons] at within ⊢
    by_cases zero : fixedReach spelling cs = 0
    · rw [first (by omega)]
      simp only [zero, bne_self_eq_false] at within ⊢
      exact ih within
    · have found : (fixedReach spelling cs != 0) = true := bne_iff_ne.mpr zero
      simp only [found, Option.getD_some] at within
      simp only [first within, found]

theorem cuttable_operatorReach : Cuttable operatorReach := by
  refine cuttable_of_cons (by decide) fun c cs n within => ?_
  rw [operatorReach_cons] at within ⊢
  rw [operatorReach_cons]
  split at within
  next dollar =>
    rw [if_pos dollar, if_pos dollar,
      cuttable_specialGlobalLength cs n (le_of_extend_le within (by omega))]
  next other =>
    have plain : Cuttable plainOperatorReach := cuttable_firstReach operatorOrder
    rw [if_neg other, if_neg other, ← List.take_succ_cons, plain _ _ within]

-- ============================================================================
-- Symbols and numbers
-- ============================================================================

theorem cuttable_symbolNameReach : Cuttable symbolNameReach := by
  intro cs n within
  unfold symbolNameReach at within ⊢
  dsimp only at within ⊢
  by_cases name : identifierLength (cs.drop (sigilLength cs)) = 0
  · have cut : identifierLength ((cs.take n).drop (sigilLength (cs.take n))) = 0 := by
      by_cases sigil : sigilLength cs ≤ n
      · rw [cuttable_sigilLength.drop_take cs n sigil, cuttable_identifierLength _ _ (by omega), name]
      · rw [drop_sigilLength_take (by omega), identifierLength]
    rw [if_pos name] at within
    rw [if_pos cut, if_pos name, cuttable_operatorReach cs n within]
  · rw [if_neg name] at within
    have sigil := cuttable_sigilLength cs n (by omega)
    have body := cuttable_sigilLength.drop_take cs n (by omega)
    have word := cuttable_identifierLength (cs.drop (sigilLength cs)) (n - sigilLength cs)
      (by omega)
    have behind := cuttable_identifierLength.drop_take (cs.drop (sigilLength cs))
      (n - sigilLength cs) (by omega)
    rw [body, behind, word, if_neg name, if_neg name, sigil,
      cuttable_oneReach isMethodMark _ _ (by omega)]

theorem cuttable_symbolReach : Cuttable symbolReach := by
  refine cuttable_of_cons rfl fun c cs n within => ?_
  by_cases colon : c = ':'
  · subst colon
    rw [symbolReach] at within ⊢
    rw [symbolReach, cuttable_symbolNameReach cs n (le_of_extend_le within (by omega))]
  · simp [symbolReach, colon]

theorem cuttable_digitsReach : Cuttable digitsReach :=
  cuttable_takeWhile isDecimal

theorem cuttable_integerReach : Cuttable integerReach := by
  refine cuttable_of_cons rfl fun c cs n within => ?_
  have sign := oneReach_le_one (· == '-') (c :: cs)
  have behind := (cuttable_oneReach (· == '-')).drop_take (c :: cs) (n + 1) (by omega)
  rw [← List.take_succ_cons]
  unfold integerReach at within ⊢
  dsimp only at within ⊢
  rw [behind, cuttable_oneReach _ _ _ (by omega),
    cuttable_digitsReach _ _ (le_of_extend_le within (by omega))]

/-- Behind a number that is cut off in its digits nothing is left. -/
theorem drop_integerReach_take {cs : List Char} {n : Nat} (short : n < integerReach cs) :
    integerReach (cs.take n) = 0 ∨ (cs.take n).drop (integerReach (cs.take n)) = [] := by
  cases n with
  | zero => exact .inl rfl
  | succ n =>
    have sign := oneReach_le_one (· == '-') cs
    have behind := (cuttable_oneReach (· == '-')).drop_take cs (n + 1) (by omega)
    have digits : digitsReach ((cs.drop (oneReach (· == '-') cs)).take
        (n + 1 - oneReach (· == '-') cs)) = min (n + 1 - oneReach (· == '-') cs)
          (digitsReach (cs.drop (oneReach (· == '-') cs))) := length_takeWhile_take _ _ _
    have reach : integerReach (cs.take (n + 1)) = 0 ∨ integerReach (cs.take (n + 1)) = n + 1 := by
      unfold integerReach at short ⊢
      dsimp only at short ⊢
      rw [behind, digits, cuttable_oneReach _ _ _ (by omega)]
      unfold extend at short ⊢
      split at short
      next => omega
      next =>
        split
        next => exact .inl rfl
        next => exact .inr (by omega)
    refine reach.imp_right fun all => ?_
    rw [all, List.drop_eq_nil_iff]
    exact List.length_take_le _ _

theorem cuttable_fractionReach : Cuttable fractionReach := by
  refine cuttable_of_cons rfl fun c cs n within => ?_
  by_cases point : c = '.'
  · subst point
    rw [fractionReach] at within ⊢
    rw [fractionReach, cuttable_digitsReach cs n (le_of_extend_le within (by omega))]
  · simp [fractionReach, point]

theorem cuttable_exponentReach : Cuttable exponentReach := by
  refine cuttable_of_cons rfl fun c cs n within => ?_
  simp only [exponentReach] at within ⊢
  split at within
  next mark =>
    rw [if_pos mark, if_pos mark]
    have sign := oneReach_le_one (fun d => d == '-' || d == '+') cs
    have digits := le_of_extend_le within (n := n - oneReach (fun d => d == '-' || d == '+') cs)
    cases n with
    | zero =>
      have none : digitsReach (cs.drop (oneReach (fun d => d == '-' || d == '+') cs)) = 0 := by
        omega
      rw [none]
      rfl
    | succ n =>
      have behind := (cuttable_oneReach fun d => d == '-' || d == '+').drop_take
        cs (n + 1) (by omega)
      rw [behind, cuttable_oneReach _ _ _ (by omega), cuttable_digitsReach _ _ (digits (by omega))]
  next other => rw [if_neg other, if_neg other]

/-- A number is as long as its whole part at least. -/
theorem integerReach_lt_of_realReach {cs : List Char} (h : realReach cs ≠ 0) :
    integerReach cs < realReach cs := by
  unfold realReach at h ⊢
  dsimp only at h ⊢
  split at h
  next => exact absurd rfl h
  next whole =>
    rw [if_neg whole]
    split at h
    next => exact absurd rfl h
    next both =>
      rw [if_neg both]
      omega

/-- Digits alone are no number with a fraction or an exponent. -/
theorem realReach_eq_zero {cs : List Char} (h : integerReach cs = 0 ∨
    cs.drop (integerReach cs) = []) : realReach cs = 0 := by
  unfold realReach
  dsimp only
  rcases h with zero | nothing
  · rw [if_pos zero]
  · split
    next => rfl
    next =>
      rw [← List.drop_drop, nothing]
      rfl

theorem cuttable_realReach : Cuttable realReach := by
  intro cs n within
  by_cases whole : integerReach cs ≤ n
  · have behind := cuttable_integerReach.drop_take cs n whole
    unfold realReach at within ⊢
    dsimp only at within ⊢
    rw [cuttable_integerReach cs n whole] at behind ⊢
    by_cases zero : integerReach cs = 0
    · rw [if_pos zero, if_pos zero]
    · rw [if_neg zero] at within
      have parts : integerReach cs + fractionReach (cs.drop (integerReach cs)) +
          exponentReach (cs.drop (integerReach cs + fractionReach (cs.drop (integerReach cs)))) ≤
            n := by
        split at within <;> omega
      rw [behind, cuttable_fractionReach _ _ (by omega), List.drop_take,
        cuttable_exponentReach _ _ (by omega)]
  · have none : realReach cs = 0 := by
      apply Classical.byContradiction
      intro some
      have longer := integerReach_lt_of_realReach some
      omega
    rw [none, realReach_eq_zero (drop_integerReach_take (Nat.lt_of_not_le whole))]

-- ============================================================================
-- Words and quoted texts
-- ============================================================================

theorem cuttable_functionReach : Cuttable functionReach := by
  refine cuttable_of_cons rfl fun c cs n within => ?_
  by_cases hash : c = '#'
  · subst hash
    rw [functionReach] at within ⊢
    rw [functionReach]
    by_cases name : identifierLength cs = 0
    · rw [cuttable_identifierLength cs n (by omega), if_pos name, if_pos name]
    · rw [if_neg name] at within
      have behind := cuttable_identifierLength.drop_take cs n (by omega)
      rw [behind, cuttable_identifierLength cs n (by omega), if_neg name, if_neg name,
        cuttable_oneReach _ _ _ (by omega)]
  · simp [functionReach, hash]

theorem cuttable_unifyReach : Cuttable unifyReach := by
  refine cuttable_of_cons rfl fun c cs n within => ?_
  by_cases underscore : c = '_'
  · subst underscore
    rw [unifyReach] at within ⊢
    rw [unifyReach, length_takeWhile_take,
      Nat.min_eq_right (le_of_extend_le within (by omega))]
  · simp [unifyReach, underscore]

/-- A node type that is cut off is a node type to the end. -/
theorem nodeTypeReach_take (cs : List Char) (n : Nat) :
    nodeTypeReach (cs.take n) = min n (nodeTypeReach cs) := by
  cases n with
  | zero => rw [List.take_zero, nodeTypeReach, Nat.zero_min]
  | succ n =>
    cases cs with
    | nil => rfl
    | cons c cs =>
      simp only [List.take_succ_cons, nodeTypeReach, length_takeWhile_take]
      split <;> omega

theorem cuttable_nodeTypeReach : Cuttable nodeTypeReach :=
  fun cs n within => (nodeTypeReach_take cs n).trans (Nat.min_eq_right within)

theorem cuttable_predicateReach : Cuttable predicateReach := by
  intro cs n within
  unfold predicateReach at within ⊢
  dsimp only at within ⊢
  by_cases name : nodeTypeReach cs ≤ n
  · have behind := cuttable_nodeTypeReach.drop_take cs n name
    rw [behind, cuttable_nodeTypeReach cs n name]
    by_cases zero : nodeTypeReach cs = 0
    · rw [if_pos zero, if_pos zero]
    · rw [if_neg zero] at within
      rw [cuttable_oneReach _ _ _ ?_]
      have mark := oneReach_le_one (· == '?') (cs.drop (nodeTypeReach cs))
      split at within <;> omega
  · have nothing : (cs.take n).drop n = [] := List.drop_eq_nil_iff.mpr (List.length_take_le _ _)
    rw [nodeTypeReach_take, Nat.min_eq_left (by omega), nothing]
    repeat' split
    all_goals simp_all [oneReach]
    all_goals omega

/-- Whether and where a quote closes is settled by the text up to there. -/
theorem cuttable_closingReach : Cuttable closingReach := by
  intro cs n within
  fun_induction closingReach cs generalizing n with
  | case1 => rw [List.take_nil, closingReach]
  | case2 cs =>
    obtain ⟨n, rfl⟩ : ∃ m, n = m + 1 := ⟨n - 1, by omega⟩
    rw [List.take_succ_cons, closingReach]
  | case3 =>
    cases n with
    | zero => rfl
    | succ n => rw [List.take_succ_cons, List.take_nil, closingReach]
  | case4 c cs ih =>
    have behind := le_of_extend_le within (n := n - 2) (by omega)
    rcases n with _ | _ | n
    · rw [Nat.le_zero.mp within]
      rfl
    · rw [Nat.le_zero.mp behind]
      rfl
    · rw [List.take_succ_cons, List.take_succ_cons, closingReach, ih n behind]
  | case5 c cs quote single pair ih =>
    have backslash : c ≠ '\\' := by
      rintro rfl
      cases cs with
      | nil => exact single rfl rfl
      | cons d cs => exact pair d cs rfl rfl
    cases n with
    | zero =>
      rw [Nat.le_zero.mp within]
      rfl
    | succ n =>
      rw [List.take_succ_cons, closingReach_cons quote backslash,
        ih n (le_of_extend_le within (by omega))]

theorem cuttable_quotedReach : Cuttable quotedReach := by
  refine cuttable_of_cons rfl fun c cs n within => ?_
  by_cases quote : c = '"'
  · subst quote
    rw [quotedReach] at within ⊢
    rw [quotedReach, cuttable_closingReach cs n (le_of_extend_le within (by omega))]
  · simp [quotedReach, quote]

theorem cuttable_quotedSymbolReach : Cuttable quotedSymbolReach := by
  refine cuttable_of_cons rfl fun c cs n within => ?_
  by_cases colon : c = ':'
  · subst colon
    rw [quotedSymbolReach] at within ⊢
    rw [quotedSymbolReach, cuttable_quotedReach cs n (le_of_extend_le within (by omega))]
  · simp [quotedSymbolReach, colon]

-- ============================================================================
-- The first class that fits
-- ============================================================================

/-- Where no comment begins, none begins if the text is cut off. -/
theorem commentReach_take {cs : List Char} (none : commentReach cs = 0) (n : Nat) :
    commentReach (cs.take n) = 0 := by
  have text : cs = cs.take n ++ cs.drop n := (List.take_append_drop n cs).symm
  unfold commentReach
  split
  next c ds front =>
    rw [front, List.cons_append, List.cons_append] at text
    rw [text, commentReach] at none
    split
    next blank =>
      rw [if_pos blank] at none
      omega
    next => rfl
  next => rfl

/-- All classes but comments can be cut. -/
theorem cuttable_of_mem {entry : Class × (List Char → Nat)} (mem : entry ∈ classes) :
    entry = (.comment, commentReach) ∨ Cuttable entry.2 := by
  have fixed (spelling : String) : Cuttable (fixedReach spelling) := cuttable_fixedReach spelling
  revert entry
  simp only [classes, List.forall_mem_cons]
  exact ⟨.inr (cuttable_takeWhile isBlank), .inl trivial, .inr (fixed _), .inr (fixed _),
    .inr (fixed _), .inr (fixed _), .inr (fixed _), .inr (fixed _), .inr (fixed _),
    .inr (fixed _), .inr (fixed _), .inr cuttable_quotedSymbolReach, .inr cuttable_symbolReach,
    .inr cuttable_quotedReach, .inr cuttable_realReach, .inr cuttable_integerReach,
    .inr cuttable_functionReach, .inr cuttable_unifyReach, .inr (fixed _),
    .inr cuttable_predicateReach, .inr cuttable_nodeTypeReach, by simp⟩

/-- What the scan takes off the front of a text, unless it is a comment, it
    takes for the same if nothing follows. -/
theorem classify_take {cs : List Char} {entry : Class} {reach : Nat}
    (found : classify cs = some (entry, reach)) (visible : entry ≠ .comment) :
    classify (cs.take reach) = some (entry, reach) := by
  unfold classify at found ⊢
  rw [List.findSome?_eq_some_iff] at found ⊢
  obtain ⟨before, ⟨other, f⟩, behind, place, fits, zero⟩ := found
  dsimp only at fits zero
  split at fits
  next => cases fits
  next positive =>
    cases fits
    refine ⟨before, (entry, f), behind, place, ?_, ?_⟩
    · have mem : (entry, f) ∈ classes := by simp [place]
      rcases cuttable_of_mem mem with same | cut
      · cases same
        exact absurd rfl visible
      · have same : f (cs.take (f cs)) = f cs := cut cs (f cs) (Nat.le_refl _)
        dsimp only
        rw [same, if_neg positive]
    · intro other first
      have none : other.2 cs = 0 := by simpa using zero other first
      have mem : other ∈ classes := by simp [place, first]
      have cut : other.2 (cs.take (f cs)) = 0 := by
        rcases cuttable_of_mem mem with rfl | cut
        · exact commentReach_take none _
        · rw [cut cs _ (by omega), none]
      dsimp only
      rw [if_pos cut]

end RubyPattern.Lexeme
