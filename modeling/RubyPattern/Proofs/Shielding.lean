/-
  RubyPattern.Proofs.Shielding

  What the scan for absent children passes over. It leaves strings, symbols,
  numbers and node types as they are and marks the absent children between
  them, with one exception: the quote in the name of the global `$"` is taken
  for the beginning of a quoted text.
-/
import RubyPattern.Proofs.Marking

namespace RubyPattern.AbsentChild

open RubyPattern.Text RubyPattern.Name RubyPattern.Lexeme

-- ============================================================================
-- Steps of the scan
-- ============================================================================

theorem quotedReach_of_ne {c : Char} (quote : c ≠ '"') (cs : List Char) :
    quotedReach (c :: cs) = 0 := by
  unfold quotedReach
  split
  next same =>
    cases same
    exact absurd rfl quote
  next => rfl

theorem shieldedReach_of_ne {c : Char} (quote : c ≠ '"') (colon : c ≠ ':') (cs : List Char) :
    shieldedReach (c :: cs) = 0 := by
  unfold shieldedReach
  split
  next same =>
    cases same
    exact absurd rfl colon
  next => exact quotedReach_of_ne quote cs

/-- Where nothing is passed over and no `nil` stands free, one character is copied. -/
theorem markFrom_single {previous : Option Char} {c : Char} {cs : List Char}
    (open_ : shieldedReach (c :: cs) = 0)
    (bound : ∀ rest, c :: cs = 'n' :: 'i' :: 'l' :: rest →
      mayFollow previous = false ∨ mayPrecede rest = false) :
    markFrom 0 previous (c :: cs) = c :: markFrom 0 (some c) cs := by
  by_cases word : ∃ rest, c :: cs = 'n' :: 'i' :: 'l' :: rest
  · obtain ⟨rest, text⟩ := word
    have kept : ¬ (mayFollow previous && mayPrecede rest) = true := by
      rcases bound rest text with before | behind
      · simp [before]
      · simp [behind]
    cases text
    rw [markFrom, if_neg kept]
  · rw [markFrom, open_]
    rintro rest rfl rfl
    exact word ⟨rest, rfl⟩

/-- Away from `nil`, quotes and colons the scan copies one character. -/
theorem markFrom_cons {previous : Option Char} {c : Char} {cs : List Char}
    (other : mayFollow previous = false ∨ ∀ rest, c :: cs ≠ 'n' :: 'i' :: 'l' :: rest)
    (quote : c ≠ '"') (colon : c ≠ ':') :
    markFrom 0 previous (c :: cs) = c :: markFrom 0 (some c) cs :=
  markFrom_single (shieldedReach_of_ne quote colon cs) fun rest text =>
    other.imp id fun none => absurd text (none rest)

/-- In front of a delimiter it does not matter what came before. -/
theorem markFrom_delimited {after : List Char} (delimited : Delimited after)
    (previous : Option Char) : markFrom 0 previous after = markFrom 0 none after := by
  cases after with
  | nil => rfl
  | cons c cs =>
    have plain : delimiters.all (fun d => d != 'n' && d != '"' && d != ':') = true := by decide
    obtain ⟨⟨letter, quote⟩, colon⟩ : (c ≠ 'n' ∧ c ≠ '"') ∧ c ≠ ':' := by
      simpa using List.all_eq_true.mp plain c (delimited c rfl)
    rw [markFrom_cons (.inr (by simp [letter])) quote colon,
      markFrom_cons (.inr (by simp [letter])) quote colon]

/-- What is kept is copied, and its last character counts for what follows. -/
theorem markFrom_copy (cs after : List Char) (previous : Option Char) :
    markFrom cs.length previous (cs ++ after) =
      cs ++ markFrom 0 (cs.getLast?.or previous) after := by
  induction cs generalizing previous with
  | nil => rfl
  | cons c cs ih =>
    rw [List.length_cons, List.cons_append, markFrom, ih, List.cons_append, List.getLast?_cons]
    cases cs.getLast? <;> rfl

theorem markFrom_keep (cs : List Char) {after : List Char} (delimited : Delimited after)
    (previous : Option Char) :
    markFrom cs.length previous (cs ++ after) = cs ++ markFrom 0 none after := by
  rw [markFrom_copy, markFrom_delimited delimited]

/-- Texts with nothing in them that the scan could stop at. -/
structure Harmless (cs : List Char) : Prop where
  quote : '"' ∉ cs
  colon : ':' ∉ cs
  letters : 'n' ∉ cs ∨ 'l' ∉ cs

theorem Harmless.tail {c : Char} {cs : List Char} (h : Harmless (c :: cs)) : Harmless cs where
  quote := fun mem => h.quote (by simp [mem])
  colon := fun mem => h.colon (by simp [mem])
  letters := h.letters.imp (fun none mem => none (by simp [mem]))
    fun none mem => none (by simp [mem])

theorem Harmless.ne_nil {c : Char} {cs after rest : List Char} (h : Harmless (c :: cs))
    (delimited : Delimited after) : c :: (cs ++ after) ≠ 'n' :: 'i' :: 'l' :: rest := by
  intro same
  have space : after.head? ≠ some 'i' ∧ after.head? ≠ some 'l' := by
    rcases delimited.eq_or with rfl | ⟨_, rfl⟩ | ⟨_, rfl⟩ | ⟨_, rfl⟩ <;> simp
  rcases cs with _ | ⟨d, _ | ⟨e, cs⟩⟩
  · simp only [List.nil_append, List.cons.injEq] at same
    exact space.1 (by rw [same.2]; rfl)
  · simp only [List.cons_append, List.nil_append, List.cons.injEq] at same
    exact space.2 (by rw [same.2.2]; rfl)
  · simp only [List.cons_append, List.cons.injEq] at same
    obtain ⟨rfl, rfl, rfl, -⟩ := same
    exact absurd h.letters (by simp)

/-- Such a text is copied, wherever in it the scan stops keeping. -/
theorem Harmless.copied {cs : List Char} (h : Harmless cs) {after : List Char}
    (delimited : Delimited after) {keep : Nat} (within : keep ≤ cs.length)
    (previous : Option Char) :
    markFrom keep previous (cs ++ after) = cs ++ markFrom 0 none after := by
  induction cs generalizing keep previous with
  | nil =>
    obtain rfl : keep = 0 := by simpa using within
    exact markFrom_delimited delimited previous
  | cons c cs ih =>
    cases keep with
    | zero =>
      have quote : c ≠ '"' := fun same => h.quote (by simp [same])
      have colon : c ≠ ':' := fun same => h.colon (by simp [same])
      rw [List.cons_append, markFrom_cons (.inr fun rest => h.ne_nil delimited) quote colon,
        ih h.tail (Nat.zero_le _), List.cons_append]
    | succ keep =>
      rw [List.cons_append, markFrom, ih h.tail (by simpa using within),
        List.cons_append]

/-- In a word behind what `nil` may not follow nothing is marked. -/
theorem markFrom_word {word : List Char} (hword : ∀ c ∈ word, isWord c = true)
    {previous : Option Char} (bound : mayFollow previous = false) {after : List Char}
    (delimited : Delimited after) :
    markFrom 0 previous (word ++ after) = word ++ markFrom 0 none after := by
  induction word generalizing previous with
  | nil => exact markFrom_delimited delimited previous
  | cons c word ih =>
    have inside := hword c (by simp)
    have quote : c ≠ '"' := by
      rintro rfl
      exact absurd inside (by decide)
    have colon : c ≠ ':' := by
      rintro rfl
      exact absurd inside (by decide)
    rw [List.cons_append, markFrom_cons (.inl bound) quote colon,
      ih (fun d hd => hword d (by simp [hd])) (by simp [mayFollow, inside]), List.cons_append]

-- ============================================================================
-- Quoted texts
-- ============================================================================

theorem closingReach_cons {c : Char} (quote : c ≠ '"') (backslash : c ≠ '\\') (cs : List Char) :
    closingReach (c :: cs) = extend 1 (closingReach cs) := by
  rw [closingReach]
  · cases closingReach cs <;> rfl
  · exact fun same => absurd same quote
  · exact fun same => absurd same backslash
  · exact fun _ _ same => absurd same backslash

theorem closingReach_escaped {c : Char} (sameLine : c ≠ '\n') (cs : List Char) :
    closingReach ('\\' :: c :: cs) = extend 2 (closingReach cs) := by
  rw [closingReach, if_neg (by simpa using sameLine)]
  cases closingReach cs <;> rfl

theorem quotedReach_quote (cs : List Char) :
    quotedReach ('"' :: cs) = extend 1 (closingReach cs) := by
  rw [quotedReach]
  cases closingReach cs <;> rfl

/-- Behind a colon a quoted text is tried before a name. -/
theorem shieldedReach_symbol (cs : List Char) : shieldedReach (':' :: cs) =
    extend 1 (if quotedReach cs = 0 then symbolNameReach cs else quotedReach cs) := by
  rw [shieldedReach]
  by_cases quoted : quotedReach cs = 0
  · by_cases named : symbolNameReach cs = 0
    · simp [quoted, named, extend]
    · simp [quoted, named, extend]
  · simp [quoted, extend]

/-- Both scans find the same closing quote, unless a backslash takes a line
    end with it. -/
theorem closingReach_eq {cs : List Char} (oneLine : '\n' ∉ cs.take (Lexeme.closingReach cs)) :
    closingReach cs = Lexeme.closingReach cs := by
  fun_induction Lexeme.closingReach cs with
  | case1 => rfl
  | case2 => rfl
  | case3 => rfl
  | case4 c cs ih =>
    by_cases zero : Lexeme.closingReach cs = 0
    · have here := ih (by simp [zero])
      rw [zero] at here ⊢
      simp [closingReach, here, extend]
    · have text : ('\\' :: c :: cs).take (extend 2 (Lexeme.closingReach cs)) =
          '\\' :: c :: cs.take (Lexeme.closingReach cs) := by
        rw [extend, if_neg zero]
        rfl
      rw [text, List.mem_cons, List.mem_cons, not_or, not_or] at oneLine
      rw [closingReach, ih oneLine.2.2, if_neg (by simpa using Ne.symm oneLine.2.1)]
      cases found : Lexeme.closingReach cs with
      | zero => exact absurd found zero
      | succ reach => rfl
  | case5 c cs noQuote noEnd noBackslash ih =>
    have quote : c ≠ '"' := fun same => noQuote same
    have backslash : c ≠ '\\' := by
      rintro rfl
      cases cs with
      | nil => exact noEnd rfl rfl
      | cons d cs => exact noBackslash d cs rfl rfl
    rw [closingReach_cons quote backslash, ih]
    by_cases zero : Lexeme.closingReach cs = 0
    · simp [zero]
    · rw [extend, if_neg zero, List.take_succ_cons] at oneLine
      exact fun mem => oneLine (List.mem_cons_of_mem _ mem)

theorem newline_not_mem_stringBody (cs : List Char) : '\n' ∉ Literal.stringBody cs := by
  induction cs with
  | nil => simp [Literal.stringBody]
  | cons c cs ih =>
    rw [Literal.stringBody, List.mem_append, not_or]
    refine ⟨?_, ih⟩
    split
    next => decide
    next =>
      refine not_mem_stringChar (by decide) (by decide) ?_
      rintro rfl
      rfl

/-- A quoted text is passed over through its closing quote. -/
theorem quotedReach_stringChars (cs after : List Char) :
    quotedReach (Literal.stringChars cs ++ after) = (Literal.stringChars cs).length := by
  have text : Literal.stringChars cs ++ after =
      '"' :: (Literal.stringBody cs ++ '"' :: after) := by simp [Literal.stringChars]
  have reach := Escape.closingReach_stringBody cs after
  have same : closingReach (Literal.stringBody cs ++ '"' :: after) =
      (Literal.stringBody cs).length + 1 := by
    rw [← reach]
    refine closingReach_eq ?_
    rw [reach, List.take_append, List.mem_append, not_or]
    refine ⟨fun mem => newline_not_mem_stringBody cs (List.mem_of_mem_take mem), ?_⟩
    simp
  rw [text, quotedReach, same]
  simp [Literal.stringChars]

-- ============================================================================
-- Names of symbols
-- ============================================================================

theorem local_symbolNameReach : Local symbolNameReach where
  le_length := by
    intro cs
    have sigils := length_takeWhile_le (fun c => c == '@' || c == '$') cs
    have word := length_takeWhile_le isWord
      (cs.drop (cs.takeWhile fun c => c == '@' || c == '$').length)
    rw [List.length_drop] at word
    unfold symbolNameReach
    dsimp only
    split
    next => exact Nat.zero_le _
    next =>
      split
      next mark rest behind =>
        have length := congrArg List.length behind
        rw [List.length_drop, List.length_cons] at length
        split <;> omega
      next => omega
  append := by
    intro cs after h
    have sigils : Local fun cs => (cs.takeWhile fun c => c == '@' || c == '$').length :=
      local_takeWhile (by decide)
    have word : Local fun cs => (cs.takeWhile isWord).length :=
      local_takeWhile (by decide)
    unfold symbolNameReach
    simp only [sigils.append cs h, sigils.drop_append cs after, word.append _ h, ← List.drop_drop,
      word.drop_append]
    split
    next => rfl
    next =>
      generalize (cs.drop (cs.takeWhile fun c => c == '@' || c == '$').length) = body
      cases body.drop (body.takeWhile isWord).length with
      | cons mark rest => rfl
      | nil => rcases h.eq_or with rfl | ⟨_, rfl⟩ | ⟨_, rfl⟩ | ⟨_, rfl⟩ <;> simp [isMethodMark]

/-- Whether a character is a sigil. -/
def isSigil (c : Char) : Bool :=
  c == '@' || c == '$'

theorem isSigil_of_isWord {c : Char} (word : isWord c = true) : isSigil c = false := by
  rw [isSigil, Bool.or_eq_false_iff, beq_eq_false_iff_ne, beq_eq_false_iff_ne]
  constructor <;> rintro rfl <;> exact absurd word (by decide)

theorem isWord_of_isMethodMark {c : Char} (method : isMethodMark c = true) : isWord c = false := by
  simp only [isMethodMark, Bool.or_eq_true, beq_iff_eq] at method
  rcases method with (rfl | rfl) | rfl <;> decide

/-- The parts of a text that begins with a name: sigils, word characters and what
    follows. -/
structure NameParts (sigils word rest : List Char) : Prop where
  sigiled : ∀ c ∈ sigils, isSigil c = true
  words : ∀ c ∈ word, isWord c = true
  stops : ∀ c ∈ (word ++ rest).head?, isSigil c = false
  ends : ∀ c ∈ rest.head?, isWord c = false

/-- How far a name reaches whose parts are known. -/
theorem NameParts.reach_eq {sigils word rest : List Char} (h : NameParts sigils word rest) :
    symbolNameReach (sigils ++ (word ++ rest)) =
      if word = [] then 0 else sigils.length + word.length + oneReach isMethodMark rest := by
  have front : (sigils ++ (word ++ rest)).takeWhile (fun c => c == '@' || c == '$') = sigils :=
    takeWhile_append_stop h.sigiled h.stops
  have middle : (word ++ rest).takeWhile isWord = word := takeWhile_append_stop h.words h.ends
  have behind : (sigils ++ (word ++ rest)).drop (sigils.length + word.length) = rest := by
    rw [← List.drop_drop, List.drop_left, List.drop_left]
  unfold symbolNameReach
  simp only [front, List.drop_left, middle, behind, List.length_eq_zero_iff]
  split
  next => rfl
  next => cases rest <;> rfl

/-- Sigils, an identifier and a method mark are a name. -/
theorem symbolNameReach_name {sigils body mark : List Char}
    (hsigils : ∀ c ∈ sigils, (c == '@' || c == '$') = true) (hbody : isIdentifier body = true)
    (hmark : mark = [] ∨ ∃ c, mark = [c] ∧ isMethodMark c = true) :
    symbolNameReach (sigils ++ (body ++ mark)) = (sigils ++ (body ++ mark)).length := by
  have words := isWord_of_isIdentifier hbody
  obtain ⟨c, rest, rfl, -⟩ := exists_of_isIdentifier hbody
  have parts : NameParts sigils (c :: rest) mark := by
    refine ⟨hsigils, words, ?_, ?_⟩
    · rintro _ ⟨⟩
      exact isSigil_of_isWord (words c List.mem_cons_self)
    · rcases hmark with rfl | ⟨m, rfl, method⟩
      · exact nofun
      · rintro _ ⟨⟩
        exact isWord_of_isMethodMark method
  have one : oneReach isMethodMark mark = mark.length := by
    rcases hmark with rfl | ⟨m, rfl, method⟩
    · rfl
    · simp [oneReach, method]
  rw [parts.reach_eq, if_neg (by simp), one]
  simp only [List.length_append]
  omega

-- ============================================================================
-- Parts of rendered trees
-- ============================================================================

/-- The scan turns the first text into the second one, behind what `nil` may
    follow and before a delimiter. -/
def MarksTo (cs ds : List Char) : Prop :=
  ∀ previous, mayFollow previous = true → ∀ after, Delimited after →
    markFrom 0 previous (cs ++ after) = ds ++ markFrom 0 none after

/-- It does so in front of one text, whatever it does elsewhere. -/
def MarksBefore (after cs ds : List Char) : Prop :=
  ∀ previous, mayFollow previous = true →
    markFrom 0 previous (cs ++ after) = ds ++ markFrom 0 none after

theorem MarksTo.before {cs ds after : List Char} (h : MarksTo cs ds)
    (delimited : Delimited after) : MarksBefore after cs ds :=
  fun previous free => h previous free after delimited

theorem marksTo_absent : MarksTo ['n', 'i', 'l'] ['n', 'i', 'l', '?'] := by
  intro previous free after delimited
  have behind : mayPrecede after = true := by
    rcases delimited.eq_or with rfl | ⟨_, rfl⟩ | ⟨_, rfl⟩ | ⟨_, rfl⟩ <;> rfl
  show markFrom 0 previous ('n' :: 'i' :: 'l' :: after) = _
  rw [markFrom, if_pos (by simp [free, behind]), markFrom_delimited delimited]
  rfl

theorem Harmless.marksTo {cs : List Char} (h : Harmless cs) : MarksTo cs cs :=
  fun previous _ _ delimited => h.copied delimited (Nat.zero_le _) previous

theorem markFrom_shielded {c : Char} (other : c ≠ 'n') {previous : Option Char}
    {cs : List Char} :
    markFrom 0 previous (c :: cs) = c :: markFrom (shieldedReach (c :: cs) - 1) (some c) cs := by
  rw [markFrom]
  rintro rest rfl
  exact absurd rfl other

/-- A text that is passed over in whole is left as it is. -/
theorem marksTo_of_shieldedReach {c : Char} {cs : List Char} (other : c ≠ 'n')
    (reach : ∀ after, Delimited after → shieldedReach (c :: cs ++ after) = cs.length + 1) :
    MarksTo (c :: cs) (c :: cs) := by
  intro previous _ after delimited
  rw [List.cons_append, markFrom_shielded other, ← List.cons_append, reach after delimited,
    Nat.add_sub_cancel, markFrom_keep cs delimited, List.cons_append]

theorem marksTo_string (cs : List Char) :
    MarksTo (Literal.stringChars cs) (Literal.stringChars cs) := by
  refine marksTo_of_shieldedReach (by decide) fun after _ => ?_
  have reach := quotedReach_stringChars cs after
  simpa [Literal.stringChars, shieldedReach] using reach

theorem marksTo_quotedSymbol (cs : List Char) :
    MarksTo (':' :: Literal.stringChars cs) (':' :: Literal.stringChars cs) := by
  refine marksTo_of_shieldedReach (by decide) fun after _ => ?_
  have closed : (Literal.stringChars cs).length ≠ 0 := by simp [Literal.stringChars]
  rw [List.cons_append, shieldedReach_symbol, quotedReach_stringChars, if_neg closed, extend,
    if_neg closed]

/-- Behind a colon, the scan passes over the name that it sees. -/
theorem shieldedReach_colon {cs after : List Char} (quote : '"' ∉ cs.head?)
    (delimited : Delimited after) :
    shieldedReach (':' :: cs ++ after) = extend 1 (symbolNameReach cs) := by
  have noQuote : quotedReach (cs ++ after) = 0 := by
    cases cs with
    | nil => rcases delimited.eq_or with rfl | ⟨_, rfl⟩ | ⟨_, rfl⟩ | ⟨_, rfl⟩ <;> rfl
    | cons c cs => exact quotedReach_of_ne (fun same => quote (by simp [same])) (cs ++ after)
  rw [List.cons_append, shieldedReach_symbol, noQuote, if_pos rfl,
    local_symbolNameReach.append cs delimited]

theorem marksTo_name {cs : List Char} (quote : '"' ∉ cs.head?) (nonempty : cs ≠ [])
    (whole : symbolNameReach cs = cs.length) : MarksTo (':' :: cs) (':' :: cs) := by
  refine marksTo_of_shieldedReach (by decide) fun after delimited => ?_
  rw [shieldedReach_colon quote delimited, whole, extend, if_neg (by simpa using nonempty)]

theorem marksTo_harmlessName {cs : List Char} (h : Harmless cs) :
    MarksTo (':' :: cs) (':' :: cs) := by
  intro previous _ after delimited
  have quote : '"' ∉ cs.head? := fun mem => h.quote (List.mem_of_mem_head? mem)
  have within := local_symbolNameReach.le_length cs
  rw [List.cons_append, markFrom_shielded (by decide), ← List.cons_append,
    shieldedReach_colon quote delimited, h.copied delimited, List.cons_append]
  unfold extend
  split <;> omega

theorem marksTo_identifier {cs : List Char}
    (identifier : isIdentifier (cs.drop (sigilLength cs)) = true) :
    MarksTo (':' :: cs) (':' :: cs) := by
  obtain ⟨c, rest, body, start, -⟩ := exists_of_isIdentifier identifier
  have sigils : ∀ d ∈ cs.take (sigilLength cs), (d == '@' || d == '$') = true := by
    unfold sigilLength
    split <;> simp
  have whole := symbolNameReach_name sigils identifier (.inl rfl)
  rw [List.append_nil, List.take_append_drop] at whole
  have quote : '"' ∉ cs.head? := by
    intro mem
    obtain ⟨rest', rfl⟩ := List.head?_eq_some_iff.mp mem
    cases body
    exact absurd start (by decide)
  refine marksTo_name quote ?_ whole
  rintro rfl
  cases body

theorem marksTo_markedMethod {cs : List Char} (method : isMarkedMethod cs = true) :
    MarksTo (':' :: cs) (':' :: cs) := by
  unfold isMarkedMethod at method
  split at method
  next mark body reversed =>
    rw [Bool.and_eq_true] at method
    obtain ⟨hmark, hbody⟩ := method
    have text : cs = [] ++ (body.reverse ++ [mark]) := by
      rw [← List.reverse_reverse cs, reversed, List.reverse_cons, List.nil_append]
    have whole : symbolNameReach ([] ++ (body.reverse ++ [mark])) = _ :=
      symbolNameReach_name (by simp) hbody (.inr ⟨mark, rfl, hmark⟩)
    rw [← text] at whole
    obtain ⟨c, rest, hrest, start, -⟩ := exists_of_isIdentifier hbody
    rw [hrest] at text
    refine marksTo_name ?_ (by simp [text]) whole
    rw [text]
    rintro ⟨⟩
    exact absurd start (by decide)
  next => cases method

/-- The colon in the name of one global begins no symbol. -/
theorem marksTo_colonGlobal : MarksTo [':', '$', ':'] [':', '$', ':'] := by
  intro previous _ after delimited
  have first : shieldedReach (':' :: ['$', ':'] ++ after) = 0 :=
    shieldedReach_colon (by simp) delimited
  have second : shieldedReach (':' :: [] ++ after) = 0 :=
    shieldedReach_colon (by simp) delimited
  have text : [':', '$', ':'] ++ after = ':' :: ['$', ':'] ++ after := rfl
  rw [text, List.cons_append, markFrom_shielded (by decide), ← List.cons_append, first]
  show ':' :: markFrom 0 (some ':') ('$' :: ':' :: after) = _
  rw [markFrom_cons (.inr (by simp)) (by decide) (by decide), markFrom_shielded (by decide)]
  show ':' :: '$' :: ':' :: markFrom (shieldedReach (':' :: [] ++ after) - 1) (some ':') after = _
  rw [second, markFrom_delimited delimited]
  rfl

theorem marksTo_specialGlobal {cs : List Char} (special : isSpecialGlobal cs = true)
    (other : cs ≠ ['$', '"']) : MarksTo (':' :: cs) (':' :: cs) := by
  have harmless : ∀ {rest : List Char}, '"' ∉ rest → ':' ∉ rest → ('n' ∉ rest ∨ 'l' ∉ rest) →
      MarksTo (':' :: '$' :: rest) (':' :: '$' :: rest) := by
    intro rest quote colon letters
    exact marksTo_harmlessName ⟨by simp [quote], by simp [colon], by simpa using letters⟩
  obtain ⟨rest, rfl, name⟩ := exists_of_isSpecialGlobal special
  cases name with
  | @mark c mem =>
    by_cases colon : c = ':'
    · subst colon
      exact marksTo_colonGlobal
    · have quote : c ≠ '"' := by
        rintro rfl
        exact other rfl
      have letter : c ≠ 'n' := by
        rintro rfl
        exact absurd mem (by decide)
      exact harmless (by simpa using Ne.symm quote) (by simpa using Ne.symm colon)
        (.inl (by simpa using Ne.symm letter))
  | number digits =>
    have none : ∀ d, isDecimal d = false → d ∉ rest := by
      intro d hd mem
      rw [digits d mem] at hd
      cases hd
    exact harmless (none _ (by decide)) (none _ (by decide)) (.inl (none _ (by decide)))
  | @option w word =>
    have quote : w ≠ '"' := by
      rintro rfl
      exact absurd word (by decide)
    have colon : w ≠ ':' := by
      rintro rfl
      exact absurd word (by decide)
    refine harmless (by simpa using Ne.symm quote) (by simpa using Ne.symm colon) ?_
    by_cases letter : w = 'n'
    · exact .inr (by simp [letter])
    · exact .inl (by simpa using Ne.symm letter)

/-- Symbols without quotes are left as they are, but for one. -/
theorem marksTo_bareSymbol {cs : List Char} (bare : isBareSymbol cs = true)
    (other : cs ≠ ['$', '"']) : MarksTo (':' :: cs) (':' :: cs) := by
  unfold isBareSymbol at bare
  rw [Bool.or_eq_true, Bool.or_eq_true, Bool.or_eq_true] at bare
  rcases bare with ((identifier | method) | special) | operator
  · exact marksTo_identifier identifier
  · exact marksTo_markedMethod method
  · exact marksTo_specialGlobal special other
  · have all : ∀ op ∈ operators, '"' ∉ op.toList ∧ ':' ∉ op.toList ∧ 'n' ∉ op.toList := by decide
    have none := all _ (List.contains_iff_mem.mp operator)
    rw [String.toList_ofList] at none
    exact marksTo_harmlessName ⟨none.1, none.2.1, .inl none.2.2⟩

theorem marksTo_symbol {cs : List Char} (other : cs ≠ ['$', '"']) :
    MarksTo (Literal.symbolChars cs) (Literal.symbolChars cs) := by
  unfold Literal.symbolChars
  split
  next bare => exact marksTo_bareSymbol bare other
  next => exact marksTo_quotedSymbol cs

-- ============================================================================
-- Nodes
-- ============================================================================

theorem markFrom_closing {after : List Char} (delimited : Delimited after) :
    markFrom 0 none (')' :: after) = ')' :: markFrom 0 none after := by
  rw [markFrom_cons (.inr (by simp)) (by decide) (by decide), markFrom_delimited delimited]

/-- A part is scanned behind its space, and then the others. -/
theorem markFrom_part {part part' others others' after : List Char}
    (first : MarksBefore others part part') (rest : markFrom 0 none others = others' ++ after) :
    markFrom 0 none (' ' :: part ++ others) = ' ' :: part' ++ others' ++ after := by
  rw [List.cons_append, markFrom_cons (.inr (by simp)) (by decide) (by decide),
    first (some ' ') (by decide), rest, List.cons_append, List.cons_append, List.append_assoc]

theorem markFrom_parts {parts parts' : List (List Char)}
    (marks : List.Forall₂ MarksTo parts parts') {after : List Char} (delimited : Delimited after) :
    markFrom 0 none (parts.flatMap (' ' :: ·) ++ ')' :: after) =
      parts'.flatMap (' ' :: ·) ++ ')' :: markFrom 0 none after := by
  induction marks with
  | nil => exact markFrom_closing delimited
  | @cons part part' parts parts' first _ ih =>
    rw [List.flatMap_cons, List.flatMap_cons, List.append_assoc]
    exact markFrom_part (first.before (delimited_parts parts after)) ih

/-- A node is scanned part by part, if its type is left as it is. -/
theorem marksBefore_node {type after parts parts' : List Char}
    (htype : markFrom 0 (some '(') (type ++ (parts ++ ')' :: after)) =
      type ++ markFrom 0 none (parts ++ ')' :: after))
    (marks : markFrom 0 none (parts ++ ')' :: after) =
      parts' ++ ')' :: markFrom 0 none after) :
    MarksBefore after ('(' :: (type ++ (parts ++ [')']))) ('(' :: (type ++ (parts' ++ [')']))) := by
  intro previous _
  have text : '(' :: (type ++ (parts ++ [')'])) ++ after =
      '(' :: (type ++ (parts ++ ')' :: after)) := by simp
  rw [text, markFrom_cons (.inr (by simp)) (by decide) (by decide), htype, marks]
  simp

theorem marksTo_node {type : List Char} {parts parts' : List (List Char)}
    (htype : ∀ after, Delimited after →
      markFrom 0 (some '(') (type ++ after) = type ++ markFrom 0 none after)
    (marks : List.Forall₂ MarksTo parts parts') :
    MarksTo ('(' :: (type ++ (parts.flatMap (' ' :: ·) ++ [')'])))
      ('(' :: (type ++ (parts'.flatMap (' ' :: ·) ++ [')']))) :=
  fun previous free after delimited =>
    marksBefore_node (htype _ (delimited_parts parts after)) (markFrom_parts marks delimited)
      previous free

end RubyPattern.AbsentChild
