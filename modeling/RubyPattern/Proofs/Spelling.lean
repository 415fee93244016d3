/-
  RubyPattern.Proofs.Spelling

  Leaves of rendered trees spell themselves. The literal of a string, of a
  symbol with any name, of an integer and of a double is one lexeme, and the
  value of this lexeme is the written value; the type of a node is one lexeme
  of that type.
-/
import RubyPattern.Number.Layout
import RubyPattern.Proofs.Quoting

namespace RubyPattern.Lexeme

open RubyPattern.Text RubyPattern.Name RubyPattern.Number RubyPattern.Grammar

/-- The class at some place in the order takes just a text if it reaches to the
    end of it and no class before it reaches anywhere. -/
theorem classify_of_reach (n : Nat) {entry : Class} {f : List Char → Nat} {cs after : List Char}
    (place : classes = classes.take n ++ (entry, f) :: classes.drop (n + 1)) (nonempty : cs ≠ [])
    (reach : f (cs ++ after) = cs.length)
    (before : ∀ other ∈ classes.take n, other.2 (cs ++ after) = 0) :
    classify (cs ++ after) = some (entry, cs.length) := by
  have here : ((entry, f) : Class × (List Char → Nat)).2 (cs ++ after) = cs.length := reach
  have found := classify_eq_some n place before (by rw [here]; simpa using nonempty)
  rwa [here] at found

/-- So the text is one lexeme. -/
theorem spells_of_reach (n : Nat) {entry : Class} {f : List Char → Nat} {cs : List Char}
    {kind : LexemeKind} {e : Element}
    (place : classes = classes.take n ++ (entry, f) :: classes.drop (n + 1)) (nonempty : cs ≠ [])
    (reach : ∀ after, Delimited after → f (cs ++ after) = cs.length)
    (before : ∀ after, Delimited after → ∀ other ∈ classes.take n, other.2 (cs ++ after) = 0)
    (visible : kind? "" 0 cs entry = .ok (some kind))
    (read : ∀ l : Lexeme, l.kind = kind → Reads true [l] e []) : Spells cs [e] :=
  spells_of_classify (fun after delimited => classify_of_reach n place nonempty
    (reach after delimited) (before after delimited)) visible read

-- ============================================================================
-- Strings
-- ============================================================================

theorem spells_string (s : String) :
    Spells (Literal.stringChars s.toList) [.scalar (.string s)] := by
  refine spells_of_reach 13 rfl (by simp [Literal.stringChars])
    (fun after _ => Escape.quotedReach_stringChars s.toList after) ?_ ?_ fun _ => .scalar
  · intro after _
    simp only [classes, List.take, List.forall_mem_cons]
    exact ⟨rfl, rfl, rfl, rfl, rfl, rfl, rfl, rfl, rfl, rfl, rfl, rfl, rfl, by simp⟩
  · rw [kind?, Escape.dropLast_stringChars, Escape.decode_stringBody]
    simp [bind, Except.bind, pure, Except.pure]

-- ============================================================================
-- Symbols
-- ============================================================================

theorem spells_quotedSymbol (name : String) :
    Spells (':' :: Literal.stringChars name.toList) [.scalar (.symbol name)] := by
  refine spells_of_reach 11 rfl (by simp) ?_ ?_ ?_ fun _ => .scalar
  · intro after _
    rw [List.cons_append, quotedSymbolReach, Escape.quotedReach_stringChars, extend,
      if_neg (by simp [Literal.stringChars]), List.length_cons]
  · intro after _
    simp only [classes, List.take, List.forall_mem_cons]
    exact ⟨rfl, rfl, rfl, rfl, rfl, rfl, rfl, rfl, rfl, rfl, rfl, by simp⟩
  · have body : ((':' :: Literal.stringChars name.toList).drop 2).dropLast =
        Literal.stringBody name.toList := by simp [Literal.stringChars]
    rw [kind?, body, Escape.decode_stringBody]
    simp [bind, Except.bind, pure, Except.pure]

theorem exists_of_isIdentifier {cs : List Char} (h : isIdentifier cs = true) :
    ∃ c rest, cs = c :: rest ∧ isNameStart c = true ∧ ∀ d ∈ rest, isWord d = true := by
  unfold isIdentifier at h
  rw [Bool.and_eq_true, beq_iff_eq] at h
  obtain ⟨nonempty, length⟩ := h
  cases cs with
  | nil => cases nonempty
  | cons c rest =>
    simp only [identifierLength, List.length_cons] at length
    split at length
    next start =>
      have all : rest.takeWhile isWord = rest :=
        (List.takeWhile_prefix isWord).eq_of_length (by omega)
      have words : rest.all isWord = true := by
        rw [← all]
        exact List.all_takeWhile
      exact ⟨c, rest, rfl, start, List.all_eq_true.mp words⟩
    next => omega

theorem not_isNameStart_of_sigil {c : Char} (h : isNameStart c = true) : c ≠ '@' ∧ c ≠ '$' := by
  constructor
  · rintro rfl
    revert h
    decide
  · rintro rfl
    revert h
    decide

theorem symbolNameReach_identifier {cs : List Char}
    (h : isIdentifier (cs.drop (sigilLength cs)) = true) : symbolNameReach cs = cs.length := by
  have within := local_sigilLength.le_length cs
  unfold isIdentifier at h
  rw [Bool.and_eq_true, beq_iff_eq] at h
  obtain ⟨nonempty, length⟩ := h
  have positive : (cs.drop (sigilLength cs)).length ≠ 0 := by
    rw [Bool.not_eq_true', List.isEmpty_eq_false_iff_exists_mem] at nonempty
    obtain ⟨c, hc⟩ := nonempty
    exact Nat.ne_of_gt (List.length_pos_of_mem hc)
  unfold symbolNameReach
  dsimp only
  rw [length, if_neg positive, List.drop_length]
  simp only [List.length_drop, oneReach]
  omega

theorem symbolNameReach_markedMethod {cs : List Char} (h : isMarkedMethod cs = true) :
    symbolNameReach cs = cs.length := by
  unfold isMarkedMethod at h
  split at h
  next mark body reversed =>
    rw [Bool.and_eq_true] at h
    obtain ⟨hmark, hbody⟩ := h
    obtain ⟨c, rest, hrest, start, words⟩ := exists_of_isIdentifier hbody
    have text : cs = c :: (rest ++ [mark]) := by
      rw [← List.reverse_reverse cs, reversed, List.reverse_cons, hrest, List.cons_append]
    have noWord : isWord mark = false := by
      simp only [isMethodMark, Bool.or_eq_true, beq_iff_eq] at hmark
      rcases hmark with (rfl | rfl) | rfl <;> decide
    have word : (rest ++ [mark]).takeWhile isWord = rest := by
      rw [List.takeWhile_append_of_pos words, List.takeWhile_cons, if_neg (by simp [noWord]),
        List.append_nil]
    have sigil : sigilLength (c :: (rest ++ [mark])) = 0 := by
      obtain ⟨at_, dollar⟩ := not_isNameStart_of_sigil start
      rw [sigilLength_cons, if_neg at_, if_neg dollar]
    rw [text, symbolNameReach, sigil, List.drop_zero, identifierLength, if_pos start, word,
      if_neg (by omega), Nat.add_comm 1 rest.length, List.drop_succ_cons, List.drop_left, oneReach,
      if_pos hmark]
    simp only [List.length_cons, List.length_append, List.length_nil]
    omega
  next => cases h

theorem not_isNameStart_of_specialGlobal {c : Char} {cs : List Char}
    (h : specialGlobalLength (c :: cs) ≠ 0) : isNameStart c = false := by
  rw [specialGlobalLength_cons] at h
  split at h
  next special =>
    have all : specialGlobals.all fun d => !isNameStart d := by decide
    simpa using List.all_eq_true.mp all c (List.contains_iff_mem.mp special)
  next =>
    split at h
    next digit => simp [isNameStart, digit]
    next =>
      split at h
      next dash => subst dash; decide
      next => exact absurd rfl h

/-- The names of special globals, their dollar left out. -/
inductive SpecialName : List Char → Prop
  | mark {c : Char} (special : c ∈ specialGlobals) : SpecialName [c]
  | number {ds : List Char} (digits : ∀ d ∈ ds, isDecimal d = true) : SpecialName ds
  | option {w : Char} (word : isWord w = true) : SpecialName ['-', w]

theorem exists_of_isSpecialGlobal {cs : List Char} (h : isSpecialGlobal cs = true) :
    ∃ rest, cs = '$' :: rest ∧ SpecialName rest := by
  unfold isSpecialGlobal at h
  split at h
  next rest =>
    rw [Bool.and_eq_true, beq_iff_eq] at h
    refine ⟨rest, rfl, ?_⟩
    have length := h.2
    unfold specialGlobalLength at length
    split at length
    next => exact .number (by simp)
    next c cs =>
      split at length
      next special =>
        obtain rfl : cs = [] := by simpa using length
        exact .mark (List.contains_iff_mem.mp special)
      next =>
        split at length
        next digit =>
          have all : cs.takeWhile isDecimal = cs :=
            (List.takeWhile_prefix isDecimal).eq_of_length (by simp at length; omega)
          have digits : cs.all isDecimal = true := by
            rw [← all]
            exact List.all_takeWhile
          exact .number (List.forall_mem_cons.mpr ⟨digit, List.all_eq_true.mp digits⟩)
        next =>
          split at length
          next w rest' _ _ =>
            split at length
            next word =>
              obtain rfl : rest' = [] := by simpa using length
              exact .option word
            next => simp at length
          next => simp at length
  next => cases h

theorem symbolNameReach_specialGlobal {cs : List Char} (h : isSpecialGlobal cs = true) :
    symbolNameReach cs = cs.length := by
  unfold isSpecialGlobal at h
  split at h
  next rest =>
    rw [Bool.and_eq_true, beq_iff_eq] at h
    obtain ⟨nonempty, length⟩ := h
    cases rest with
    | nil => cases nonempty
    | cons c rest =>
      have noStart : isNameStart c = false :=
        not_isNameStart_of_specialGlobal (by rw [length]; simp)
      have noIdentifier : identifierLength (c :: rest) = 0 := by
        simp [identifierLength, noStart]
      have sigil : sigilLength ('$' :: c :: rest) = 1 := rfl
      rw [symbolNameReach, sigil, List.drop_succ_cons, List.drop_zero, noIdentifier, if_pos rfl,
        operatorReach_cons, if_pos rfl, length, extend, if_neg (by simp)]
      simp only [List.length_cons]
  next => cases h

/-- The name of a symbol that is written without quotes is taken in whole. -/
theorem symbolNameReach_bareSymbol {cs : List Char} (h : isBareSymbol cs = true) :
    symbolNameReach cs = cs.length := by
  unfold isBareSymbol at h
  rw [Bool.or_eq_true, Bool.or_eq_true, Bool.or_eq_true] at h
  rcases h with ((identifier | marked) | special) | operator
  · exact symbolNameReach_identifier identifier
  · exact symbolNameReach_markedMethod marked
  · exact symbolNameReach_specialGlobal special
  · have all : ∀ op ∈ operators, symbolNameReach op.toList = op.toList.length := by decide
    have whole := all _ (List.contains_iff_mem.mp operator)
    rwa [String.toList_ofList] at whole

/-- A name that is taken in whole spells its symbol behind a colon. -/
theorem spells_of_symbolNameReach {name : String} (nonempty : name.toList ≠ [])
    (whole : symbolNameReach name.toList = name.toList.length) :
    Spells (':' :: name.toList) [.scalar (.symbol name)] := by
  obtain ⟨c, rest, text⟩ := List.exists_cons_of_ne_nil nonempty
  have noQuote : c ≠ '"' := by
    rintro rfl
    rw [text] at whole
    cases whole
  refine spells_of_reach 12 rfl (by simp) ?_ ?_ ?_ fun _ => .scalar
  · intro after delimited
    rw [List.cons_append, symbolReach, local_symbolNameReach.append _ delimited, whole, extend,
      if_neg (by simpa using nonempty), List.length_cons]
  · intro after _
    have quotedSymbol : quotedSymbolReach (':' :: name.toList ++ after) = 0 := by
      rw [text]
      simp [quotedSymbolReach, quotedReach, noQuote, extend]
    simp only [classes, List.take, List.forall_mem_cons]
    exact ⟨rfl, rfl, rfl, rfl, rfl, rfl, rfl, rfl, rfl, rfl, rfl, quotedSymbol, by simp⟩
  · simp [kind?]

theorem spells_bareSymbol {name : String} (bare : isBareSymbol name.toList = true) :
    Spells (':' :: name.toList) [.scalar (.symbol name)] := by
  refine spells_of_symbolNameReach ?_ (symbolNameReach_bareSymbol bare)
  intro empty
  rw [empty] at bare
  cases bare

/-- Every symbol spells itself, with or without quotes. -/
theorem spells_symbol (name : String) :
    Spells (Literal.symbolChars name.toList) [.scalar (.symbol name)] := by
  unfold Literal.symbolChars
  split
  next bare => exact spells_bareSymbol bare
  next => exact spells_quotedSymbol name

-- ============================================================================
-- Node types
-- ============================================================================

/-- A lower-case letter, then word characters. -/
def isTypeName : List Char → Bool
  | [] => false
  | c :: cs => c.isLower && cs.all isWord

theorem isWord_of_isTypeName {cs : List Char} (h : isTypeName cs = true) :
    ∀ c ∈ cs, isWord c = true := by
  cases cs with
  | nil => simp
  | cons c cs =>
    rw [isTypeName, Bool.and_eq_true, List.all_eq_true] at h
    intro d hd
    rcases List.mem_cons.mp hd with rfl | hd
    · have letter : d.isAlphanum = ((d.isUpper || d.isLower) || d.isDigit) := rfl
      exact isWord_of_isAlphanum (by rw [letter, h.1, Bool.or_true, Bool.true_or])
    · exact h.2 d hd

theorem isLower_iff_toNat {c : Char} : c.isLower = true ↔ 97 ≤ c.toNat ∧ c.toNat ≤ 122 := by
  have bounds : c.isLower = (decide (97 ≤ c.val) && decide (c.val ≤ 122)) := rfl
  rw [bounds, Bool.and_eq_true, decide_eq_true_eq, decide_eq_true_eq, UInt32.le_iff_toNat_le,
    UInt32.le_iff_toNat_le]
  exact Iff.rfl

theorem isDecimal_iff_of_toNat_lt {c : Char} (h : c.toNat < 128) :
    isDecimal c = c.isDigit := by
  cases digit : c.isDigit <;> simp [isDecimal, decimalValue?, h, digit]

theorem isBlank_eq_false {c : Char} (range : 33 ≤ c.toNat ∧ c.toNat < 128) :
    isBlank c = false := by
  rw [isBlank, ← Bool.not_eq_true, inRanges_eq_true_iff]
  rintro ⟨range', mem, low, high⟩
  simp only [blankRanges, List.mem_cons, List.not_mem_nil, or_false] at mem
  rcases mem with rfl | rfl | rfl | rfl | rfl | rfl | rfl | rfl | rfl | rfl <;>
    simp only at low high <;> omega

/-- Other first characters than those of white space, comments, punctuation,
    symbols and strings begin none of these. -/
theorem zero_of_first {c : Char} (range : 33 ≤ c.toNat ∧ c.toNat < 128)
    (plain : c ∉ ['#', '.', '(', ')', '\x7b', '\x7d', '[', ']', '$', '!', ':', '"'])
    (cs : List Char) : ∀ entry ∈ classes.take 14, entry.2 (c :: cs) = 0 := by
  have ne : ∀ d ∈ ['#', '.', '(', ')', '\x7b', '\x7d', '[', ']', '$', '!', ':', '"'], c ≠ d := by
    rintro d hd rfl
    exact plain hd
  have noBlank : isBlank c = false := isBlank_eq_false range
  have fixed : ∀ d rest, c ≠ d → fixedReach (String.ofList (d :: rest)) (c :: cs) = 0 := by
    intro d rest hd
    simp [fixedReach, Ne.symm hd]
  simp only [classes, List.take, List.forall_mem_cons]
  refine ⟨by simp [blankReach, noBlank], by simp [commentReach, ne '#' (by decide)],
    fixed '.' _ (ne _ (by decide)), fixed '(' _ (ne _ (by decide)),
    fixed ')' _ (ne _ (by decide)), fixed '\x7b' _ (ne _ (by decide)),
    fixed '\x7d' _ (ne _ (by decide)), fixed '[' _ (ne _ (by decide)),
    fixed ']' _ (ne _ (by decide)), fixed '$' _ (ne _ (by decide)),
    fixed '!' _ (ne _ (by decide)), by simp [quotedSymbolReach, ne ':' (by decide)],
    by simp [symbolReach, ne ':' (by decide)], by simp [quotedReach, ne '"' (by decide)], by simp⟩

/-- No other lexeme begins with a lower-case letter. -/
theorem zero_of_isLower {c : Char} (h : c.isLower = true) (cs : List Char) :
    ∀ entry ∈ classes.take 19, entry.2 (c :: cs) = 0 := by
  have range := isLower_iff_toNat.mp h
  have ne : ∀ d : Char, (d.toNat < 97 ∨ 122 < d.toNat) → c ≠ d := by
    rintro d hd rfl
    omega
  have plain : c ∉ ['#', '.', '(', ')', '\x7b', '\x7d', '[', ']', '$', '!', ':', '"'] := by
    intro mem
    have outside : ∀ d ∈ ['#', '.', '(', ')', '\x7b', '\x7d', '[', ']', '$', '!', ':', '"'],
        d.toNat < 97 ∨ 122 < d.toNat := by simp
    exact ne c (outside c mem) rfl
  have noDigit : isDecimal c = false := by
    rw [isDecimal_iff_of_toNat_lt (by omega), ← Bool.not_eq_true, Char.isDigit_iff_toNat]
    have nine : '9'.toNat = 57 := rfl
    omega
  have noInteger : integerReach (c :: cs) = 0 := by
    simp [integerReach, oneReach, ne '-' (by decide), digitsReach, noDigit, extend]
  have underscore : fixedReach "_" (c :: cs) = 0 := by
    simp [fixedReach, Ne.symm (ne '_' (by decide))]
  have front := zero_of_first (by omega) plain cs
  have split : classes.take 19 = classes.take 14 ++ [(.real, realReach), (.integer, integerReach),
      (.function, functionReach), (.unify, unifyReach), (.fixed .wildcard, fixedReach "_")] := rfl
  rw [split, List.forall_mem_append]
  refine ⟨front, ?_⟩
  simp only [List.forall_mem_cons]
  exact ⟨by simp [realReach, noInteger], noInteger,
    by simp [functionReach, ne '#' (by decide)], by simp [unifyReach, ne '_' (by decide)],
    underscore, by simp⟩

/-- The type of a node spells itself. -/
theorem spells_type {type : String} (h : isTypeName type.toList = true) :
    Spells type.toList [.nodeType type] := by
  obtain ⟨c, cs, text, lower, word⟩ : ∃ c cs, type.toList = c :: cs ∧ c.isLower = true ∧
      ∀ d ∈ cs, isWord d = true := by
    cases text : type.toList with
    | nil => rw [text] at h; cases h
    | cons c cs =>
      rw [text, isTypeName, Bool.and_eq_true, List.all_eq_true] at h
      exact ⟨c, cs, rfl, h⟩
  have reach : ∀ after, Delimited after → nodeTypeReach (c :: cs ++ after) = (c :: cs).length := by
    intro after delimited
    rw [local_nodeTypeReach.append _ delimited, nodeTypeReach, if_pos lower, List.length_cons]
    have whole : (cs.takeWhile fun d => isWord d || d == '-') = cs := by
      rw [← List.append_nil cs, List.takeWhile_append_of_pos fun d hd => by simp [word d hd]]
      rfl
    rw [whole]
    omega
  have noHyphen : ∀ d ∈ c :: cs, d ≠ '-' := by
    rintro d hd rfl
    rcases List.mem_cons.mp hd with rfl | hd
    · revert lower; decide
    · have := word '-' hd
      revert this; decide
  rw [text]
  refine spells_of_reach 20 rfl (by simp) reach ?_ ?_ fun _ => .nodeType
  · intro after delimited
    have noMark : predicateReach (c :: cs ++ after) = 0 := by
      have whole := reach [] delimited_nil
      rw [List.append_nil] at whole
      rw [local_predicateReach.append _ delimited, predicateReach, whole, List.drop_length]
      rfl
    have split : classes.take 20 = classes.take 19 ++ [(.predicate, predicateReach)] := rfl
    intro other mem
    rw [split, List.mem_append, List.mem_singleton] at mem
    rcases mem with mem | rfl
    · exact zero_of_isLower lower (cs ++ after) other mem
    · exact noMark
  · have same : underscored (c :: cs) = c :: cs := by
      have kept : ∀ d ∈ c :: cs, (if d == '-' then '_' else d) = d :=
        fun d hd => if_neg (by simpa using noHyphen d hd)
      rw [underscored, List.map_congr_left kept, List.map_id']
    rw [kind?, same, ← text, String.ofList_toList]

end RubyPattern.Lexeme
