/-
  RubyPattern.Proofs.Reach

  How far lexemes reach when a delimiter follows. A space, a line end or a
  closing round bracket, or the end of the text, is where every lexeme of a
  rendered tree ends. No class of lexemes but white space and comments reaches
  across a delimiter, so a lexeme is the same with and without the text behind
  it.
-/
import RubyPattern.Pattern.Lexeme

namespace RubyPattern.Lexeme

open RubyPattern.Text RubyPattern.Name

/-- What stands behind the parts of a rendered tree. -/
def delimiters : List Char :=
  [' ', '\n', ')']

/-- Whether no delimiter stands in a text. -/
def unbroken (cs : List Char) : Bool :=
  cs.all fun c => !delimiters.contains c

/-- A text that is empty or begins with a delimiter. -/
def Delimited (cs : List Char) : Prop :=
  ∀ c ∈ cs.head?, c ∈ delimiters

theorem delimited_nil : Delimited [] := by
  simp [Delimited]

theorem delimited_cons {c : Char} (h : c ∈ delimiters) (cs : List Char) : Delimited (c :: cs) := by
  simpa [Delimited] using h

theorem delimited_space (cs : List Char) : Delimited (' ' :: cs) :=
  delimited_cons (by decide) cs

theorem delimited_closing (cs : List Char) : Delimited (')' :: cs) :=
  delimited_cons (by decide) cs

theorem Delimited.eq_or {after : List Char} (h : Delimited after) :
    after = [] ∨ (∃ cs, after = ' ' :: cs) ∨ (∃ cs, after = '\n' :: cs) ∨
      ∃ cs, after = ')' :: cs := by
  cases after with
  | nil => exact .inl rfl
  | cons c cs =>
    have delimiter : c ∈ delimiters := h c rfl
    simp only [delimiters, List.mem_cons, List.not_mem_nil, or_false] at delimiter
    rcases delimiter with rfl | rfl | rfl
    · exact .inr (.inl ⟨cs, rfl⟩)
    · exact .inr (.inr (.inl ⟨cs, rfl⟩))
    · exact .inr (.inr (.inr ⟨cs, rfl⟩))

theorem Delimited.append {cs after : List Char} (h : Delimited cs) (behind : Delimited after) :
    Delimited (cs ++ after) := by
  cases cs with
  | nil => exact behind
  | cons c cs => exact h

/-- A reach within the text, which no delimiter changes. -/
structure Local (f : List Char → Nat) : Prop where
  le_length : ∀ cs, f cs ≤ cs.length
  append : ∀ cs {after}, Delimited after → f (cs ++ after) = f cs

theorem Local.nil {f : List Char → Nat} (h : Local f) : f [] = 0 :=
  Nat.le_zero.mp (h.le_length [])

/-- Behind a reach within the text the delimiter still follows. -/
theorem Local.drop_append {f : List Char → Nat} (h : Local f) (cs after : List Char) :
    (cs ++ after).drop (f cs) = cs.drop (f cs) ++ after :=
  List.drop_append_of_le_length (h.le_length cs)

theorem length_takeWhile_le (p : Char → Bool) (cs : List Char) :
    (cs.takeWhile p).length ≤ cs.length :=
  (List.takeWhile_prefix p).length_le

theorem takeWhile_append_stop {p : Char → Bool} {cs rest : List Char}
    (taken : ∀ c ∈ cs, p c = true) (stops : ∀ c ∈ rest.head?, p c = false) :
    (cs ++ rest).takeWhile p = cs := by
  rw [List.takeWhile_append_of_pos taken]
  cases rest with
  | nil => rw [List.takeWhile_nil, List.append_nil]
  | cons c rest => rw [List.takeWhile_cons, stops c rfl, if_neg (by simp), List.append_nil]

theorem takeWhile_append_delimited {p : Char → Bool} (stops : delimiters.any p = false)
    (cs : List Char) {after : List Char} (h : Delimited after) :
    (cs ++ after).takeWhile p = cs.takeWhile p := by
  induction cs with
  | nil =>
    cases after with
    | nil => rfl
    | cons c after =>
      have stop : p c = false := by simpa using List.any_eq_false.mp stops c (h c rfl)
      simp [stop]
  | cons c cs ih => simp only [List.cons_append, List.takeWhile_cons, ih]

theorem isPrefixOf_append_delimited {spelling : List Char} (free : unbroken spelling = true)
    (cs : List Char) {after : List Char} (h : Delimited after) :
    spelling.isPrefixOf (cs ++ after) = spelling.isPrefixOf cs := by
  induction spelling generalizing cs with
  | nil => simp
  | cons s spelling ih =>
    obtain ⟨first, others⟩ : s ∉ delimiters ∧ unbroken spelling = true := by
      simpa [unbroken] using free
    cases cs with
    | nil =>
      cases after with
      | nil => rfl
      | cons c after =>
        have other : s ≠ c := fun same => first (same ▸ h c rfl)
        simp [List.isPrefixOf, other]
    | cons c cs => simp only [List.cons_append, List.isPrefixOf, ih others]

-- ============================================================================
-- Parts of lexemes
-- ============================================================================

theorem local_takeWhile {p : Char → Bool} (stops : delimiters.any p = false) :
    Local fun cs => (cs.takeWhile p).length where
  le_length := length_takeWhile_le p
  append := fun cs _ h => by rw [takeWhile_append_delimited stops cs h]

theorem local_oneReach {p : Char → Bool} (stops : delimiters.any p = false) :
    Local (oneReach p) where
  le_length := by
    intro cs
    cases cs with
    | nil => simp [oneReach]
    | cons c cs =>
      simp only [oneReach]
      split <;> simp
  append := by
    intro cs after h
    cases cs with
    | nil =>
      cases after with
      | nil => rfl
      | cons c after =>
        have stop : p c = false := by simpa using List.any_eq_false.mp stops c (h c rfl)
        simp [oneReach, stop]
    | cons => rfl

theorem fixedReach_le_length (spelling : String) (cs : List Char) :
    fixedReach spelling cs ≤ cs.length := by
  unfold fixedReach
  split
  next found =>
    have length := (List.isPrefixOf_iff_prefix.mp found).length_le
    rwa [String.length_toList] at length
  next => exact Nat.zero_le _

theorem local_fixedReach {spelling : String} (free : unbroken spelling.toList = true) :
    Local (fixedReach spelling) where
  le_length := fixedReach_le_length spelling
  append := by
    intro cs after h
    unfold fixedReach
    rw [isPrefixOf_append_delimited free cs h]

theorem local_identifierLength : Local identifierLength where
  le_length := by
    intro cs
    cases cs with
    | nil => simp [identifierLength]
    | cons c cs =>
      have length := length_takeWhile_le isWord cs
      simp only [identifierLength, List.length_cons]
      split <;> omega
  append := by
    intro cs after h
    cases cs with
    | nil => rcases h.eq_or with rfl | ⟨cs, rfl⟩ | ⟨cs, rfl⟩ | ⟨cs, rfl⟩ <;> rfl
    | cons c cs =>
      simp only [List.cons_append, identifierLength]
      rw [takeWhile_append_delimited rfl cs h]

theorem sigilLength_cons (c : Char) (cs : List Char) :
    sigilLength (c :: cs) =
      if c = '@' then 1 + oneReach (· == '@') cs else if c = '$' then 1 else 0 := by
  unfold sigilLength
  split
  next tail eq => cases eq; simp [oneReach]
  next tail single eq =>
    cases eq
    cases cs with
    | nil => simp [oneReach]
    | cons d cs =>
      have other : d ≠ '@' := fun same => single cs (by rw [same])
      simp [oneReach, other]
  next tail eq => cases eq; simp
  next double at_ dollar =>
    rw [if_neg (fun same => at_ cs (by rw [same])), if_neg (fun same => dollar cs (by rw [same]))]

theorem local_sigilLength : Local sigilLength where
  le_length := by
    intro cs
    unfold sigilLength
    split <;> simp
  append := by
    intro cs after h
    cases cs with
    | nil => rcases h.eq_or with rfl | ⟨cs, rfl⟩ | ⟨cs, rfl⟩ | ⟨cs, rfl⟩ <;> simp [sigilLength]
    | cons c cs =>
      have single : Local (oneReach (· == '@')) := local_oneReach rfl
      rw [List.cons_append, sigilLength_cons, sigilLength_cons, single.append cs h]

theorem specialGlobalLength_cons (c : Char) (cs : List Char) :
    specialGlobalLength (c :: cs) =
      if specialGlobals.contains c then 1
      else if isDecimal c then 1 + (cs.takeWhile isDecimal).length
      else if c = '-' then 2 * oneReach isWord cs else 0 := by
  unfold specialGlobalLength
  by_cases dash : c = '-'
  · subst dash
    cases cs with
    | nil => rfl
    | cons d cs => simp only [oneReach, if_true]; cases isWord d <;> rfl
  · simp [dash]

theorem local_specialGlobalLength : Local specialGlobalLength where
  le_length := by
    intro cs
    cases cs with
    | nil => simp [specialGlobalLength]
    | cons c cs =>
      have digits := length_takeWhile_le isDecimal cs
      have word : 2 * oneReach isWord cs ≤ cs.length + 1 := by
        cases cs with
        | nil => simp [oneReach]
        | cons d cs => simp only [oneReach, List.length_cons]; split <;> omega
      rw [specialGlobalLength_cons, List.length_cons]
      repeat' split
      all_goals omega
  append := by
    intro cs after h
    cases cs with
    | nil => rcases h.eq_or with rfl | ⟨cs, rfl⟩ | ⟨cs, rfl⟩ | ⟨cs, rfl⟩ <;> rfl
    | cons c cs =>
      have word : Local (oneReach isWord) := local_oneReach rfl
      rw [List.cons_append, specialGlobalLength_cons, specialGlobalLength_cons, word.append cs h,
        takeWhile_append_delimited rfl cs h]

/-- The first spelling of a list that stands at the front. -/
theorem local_firstReach {spellings : List String}
    (free : spellings.all (fun spelling => unbroken spelling.toList) = true) :
    Local fun cs => ((spellings.map (fixedReach · cs)).find? (· != 0)).getD 0 where
  le_length := by
    intro cs
    cases found : (spellings.map (fixedReach · cs)).find? (· != 0) with
    | none => exact Nat.zero_le _
    | some reach =>
      obtain ⟨spelling, -, rfl⟩ := List.mem_map.mp (List.mem_of_find?_eq_some found)
      exact fixedReach_le_length spelling cs
  append := by
    intro cs after h
    have same : spellings.map (fixedReach · (cs ++ after)) = spellings.map (fixedReach · cs) := by
      refine List.map_congr_left fun spelling mem => ?_
      exact (local_fixedReach (List.all_eq_true.mp free spelling mem)).append cs h
    simp only [same]

/-- An operator, where no special global begins. -/
def plainOperatorReach (cs : List Char) : Nat :=
  ((operatorOrder.map (fixedReach · cs)).find? (· != 0)).getD 0

theorem operatorReach_cons (c : Char) (cs : List Char) :
    operatorReach (c :: cs) =
      if c = '$' then extend 1 (specialGlobalLength cs) else plainOperatorReach (c :: cs) := by
  by_cases dollar : c = '$'
  · subst dollar; rfl
  · unfold operatorReach
    simp [dollar, plainOperatorReach]

theorem extend_le {count reach length : Nat} (h : reach ≤ length) :
    extend count reach ≤ length + count := by
  unfold extend
  split <;> omega

theorem local_operatorReach : Local operatorReach where
  le_length := by
    intro cs
    cases cs with
    | nil => decide
    | cons c cs =>
      rw [operatorReach_cons]
      split
      next => exact extend_le (local_specialGlobalLength.le_length cs)
      next => exact (local_firstReach (by decide)).le_length (c :: cs)
  append := by
    intro cs after h
    cases cs with
    | nil => rcases h.eq_or with rfl | ⟨cs, rfl⟩ | ⟨cs, rfl⟩ | ⟨cs, rfl⟩ <;> rfl
    | cons c cs =>
      have plain : Local plainOperatorReach := local_firstReach (by decide)
      rw [List.cons_append, operatorReach_cons, operatorReach_cons,
        local_specialGlobalLength.append cs h, ← List.cons_append, plain.append (c :: cs) h]

-- ============================================================================
-- Classes of lexemes
-- ============================================================================

/-- One given character and a reach behind it, which has to be there. -/
theorem local_extend_one {f g : List Char → Nat} (mark : Char) (other : mark ∉ delimiters)
    (hf : Local f)
    (cons : ∀ c cs, g (c :: cs) = if c = mark then extend 1 (f cs) else 0) (nil : g [] = 0) :
    Local g where
  le_length := by
    intro cs
    cases cs with
    | nil => simp [nil]
    | cons c cs =>
      rw [cons]
      split
      next => exact extend_le (hf.le_length cs)
      next => exact Nat.zero_le _
  append := by
    intro cs after h
    cases cs with
    | nil =>
      cases after with
      | nil => rfl
      | cons c after =>
        have differs : c ≠ mark := fun same => other (same ▸ h c rfl)
        rw [List.nil_append, cons, nil, if_neg differs]
    | cons c cs => rw [List.cons_append, cons, cons, hf.append cs h]

theorem local_symbolNameReach : Local symbolNameReach where
  le_length := by
    intro cs
    have sigil := local_sigilLength.le_length cs
    have name := local_identifierLength.le_length (cs.drop (sigilLength cs))
    have mark : oneReach isMethodMark _ ≤ _ := (local_oneReach rfl).le_length
      ((cs.drop (sigilLength cs)).drop (identifierLength (cs.drop (sigilLength cs))))
    rw [List.length_drop, List.length_drop] at mark
    rw [List.length_drop] at name
    unfold symbolNameReach
    dsimp only
    split
    next => exact local_operatorReach.le_length cs
    next => omega
  append := by
    intro cs after h
    have mark : Local (oneReach isMethodMark) := local_oneReach rfl
    unfold symbolNameReach
    simp only [local_sigilLength.append cs h, local_sigilLength.drop_append,
      local_identifierLength.append _ h, local_identifierLength.drop_append,
      local_operatorReach.append cs h, mark.append _ h]

theorem local_symbolReach : Local symbolReach :=
  local_extend_one ':' (by decide) local_symbolNameReach
    (fun c cs => by by_cases hc : c = ':' <;> simp [symbolReach, hc]) rfl

theorem local_digitsReach : Local digitsReach :=
  local_takeWhile rfl

theorem local_integerReach : Local integerReach where
  le_length := by
    intro cs
    have sign : oneReach (· == '-') _ ≤ _ := (local_oneReach rfl).le_length cs
    have digits := local_digitsReach.le_length (cs.drop (oneReach (· == '-') cs))
    rw [List.length_drop] at digits
    unfold integerReach
    simp only [extend]
    split <;> omega
  append := by
    intro cs after h
    have sign : Local (oneReach (· == '-')) := local_oneReach rfl
    unfold integerReach
    simp only [sign.append cs h, sign.drop_append, local_digitsReach.append _ h]

theorem local_fractionReach : Local fractionReach :=
  local_extend_one '.' (by decide) local_digitsReach
    (fun c cs => by by_cases hc : c = '.' <;> simp [fractionReach, hc]) rfl

theorem local_exponentReach : Local exponentReach where
  le_length := by
    intro cs
    cases cs with
    | nil => simp [exponentReach]
    | cons c cs =>
      have sign : oneReach (fun d => d == '-' || d == '+') _ ≤ _ :=
        (local_oneReach rfl).le_length cs
      have digits := local_digitsReach.le_length
        (cs.drop (oneReach (fun d => d == '-' || d == '+') cs))
      rw [List.length_drop] at digits
      simp only [exponentReach, extend, List.length_cons]
      repeat' split
      all_goals omega
  append := by
    intro cs after h
    cases cs with
    | nil => rcases h.eq_or with rfl | ⟨cs, rfl⟩ | ⟨cs, rfl⟩ | ⟨cs, rfl⟩ <;> rfl
    | cons c cs =>
      have sign : Local (oneReach fun d => d == '-' || d == '+') := local_oneReach rfl
      simp only [List.cons_append, exponentReach, sign.append cs h, sign.drop_append,
        local_digitsReach.append _ h]

theorem local_realReach : Local realReach where
  le_length := by
    intro cs
    have whole := local_integerReach.le_length cs
    have fraction := local_fractionReach.le_length (cs.drop (integerReach cs))
    have exponent := local_exponentReach.le_length
      (cs.drop (integerReach cs + fractionReach (cs.drop (integerReach cs))))
    rw [List.length_drop] at fraction exponent
    unfold realReach
    dsimp only
    repeat' split
    all_goals omega
  append := by
    intro cs after h
    unfold realReach
    simp only [local_integerReach.append cs h, local_integerReach.drop_append,
      local_fractionReach.append _ h, ← List.drop_drop, local_fractionReach.drop_append,
      local_exponentReach.append _ h]

theorem local_functionReach : Local functionReach where
  le_length := by
    intro cs
    cases cs with
    | nil => simp [functionReach]
    | cons c cs =>
      by_cases hash : c = '#'
      · subst hash
        have name := local_identifierLength.le_length cs
        have mark : oneReach (fun c => c == '?' || c == '!') _ ≤ _ :=
          (local_oneReach rfl).le_length (cs.drop (identifierLength cs))
        rw [List.length_drop] at mark
        simp only [functionReach, List.length_cons]
        split <;> omega
      · simp [functionReach, hash]
  append := by
    intro cs after h
    cases cs with
    | nil => rcases h.eq_or with rfl | ⟨cs, rfl⟩ | ⟨cs, rfl⟩ | ⟨cs, rfl⟩ <;> rfl
    | cons c cs =>
      by_cases hash : c = '#'
      · subst hash
        have mark : Local (oneReach fun c => c == '?' || c == '!') := local_oneReach rfl
        simp only [List.cons_append, functionReach, local_identifierLength.append cs h,
          local_identifierLength.drop_append, mark.append _ h]
      · simp [functionReach, hash]

theorem local_unifyReach : Local unifyReach :=
  local_extend_one '_' (by decide) (local_takeWhile (p := isWord) rfl)
    (fun c cs => by by_cases hc : c = '_' <;> simp [unifyReach, hc]) rfl

theorem local_nodeTypeReach : Local nodeTypeReach where
  le_length := by
    intro cs
    cases cs with
    | nil => simp [nodeTypeReach]
    | cons c cs =>
      have word := length_takeWhile_le (fun d => isWord d || d == '-') cs
      simp only [nodeTypeReach, List.length_cons]
      split <;> omega
  append := by
    intro cs after h
    cases cs with
    | nil => rcases h.eq_or with rfl | ⟨cs, rfl⟩ | ⟨cs, rfl⟩ | ⟨cs, rfl⟩ <;> rfl
    | cons c cs =>
      simp only [List.cons_append, nodeTypeReach]
      rw [takeWhile_append_delimited rfl cs h]

theorem local_predicateReach : Local predicateReach where
  le_length := by
    intro cs
    have name := local_nodeTypeReach.le_length cs
    have mark : oneReach (· == '?') _ ≤ _ :=
      (local_oneReach rfl).le_length (cs.drop (nodeTypeReach cs))
    rw [List.length_drop] at mark
    unfold predicateReach
    dsimp only
    repeat' split
    all_goals omega
  append := by
    intro cs after h
    have mark : Local (oneReach (· == '?')) := local_oneReach rfl
    unfold predicateReach
    simp only [local_nodeTypeReach.append cs h, local_nodeTypeReach.drop_append, mark.append _ h]

-- ============================================================================
-- Quoted texts
-- ============================================================================

theorem closingReach_cons {c : Char} (quote : c ≠ '"') (backslash : c ≠ '\\') (cs : List Char) :
    closingReach (c :: cs) = extend 1 (closingReach cs) := by
  rw [closingReach]
  · exact quote
  · intro same
    exact absurd same backslash
  · intro _ _ same
    exact absurd same backslash

theorem extend_eq_zero {count reach : Nat} : extend count reach = 0 ↔ reach = 0 := by
  unfold extend
  split <;> omega

theorem extend_ne_zero {count reach : Nat} : extend count reach ≠ 0 ↔ reach ≠ 0 :=
  not_congr extend_eq_zero

/-- A quote closes within the text or not at all, and once it is closed it is
    closed whatever follows. -/
theorem closingReach_le_and_append (cs : List Char) : closingReach cs ≤ cs.length ∧
    (closingReach cs ≠ 0 → ∀ after, closingReach (cs ++ after) = closingReach cs) := by
  induction cs using closingReach.induct with
  | case1 => simp [closingReach]
  | case2 => simp [closingReach]
  | case3 => simp [closingReach]
  | case4 c cs ih =>
    simp only [List.cons_append, closingReach, extend_ne_zero]
    exact ⟨extend_le ih.1, fun closed after => by rw [ih.2 closed after]⟩
  | case5 c cs quote single pair ih =>
    have backslash : c ≠ '\\' := by
      rintro rfl
      cases cs with
      | nil => exact single rfl rfl
      | cons d cs => exact pair d cs rfl rfl
    simp only [List.cons_append, closingReach_cons quote backslash, extend_ne_zero]
    exact ⟨extend_le ih.1, fun closed after => by rw [ih.2 closed after]⟩

theorem quotedReach_le_length (cs : List Char) : quotedReach cs ≤ cs.length := by
  unfold quotedReach
  split
  next cs => exact extend_le (closingReach_le_and_append cs).1
  next => exact Nat.zero_le _

theorem quotedReach_append {cs : List Char} (closed : quotedReach cs ≠ 0) (after : List Char) :
    quotedReach (cs ++ after) = quotedReach cs := by
  unfold quotedReach at closed
  split at closed
  next cs =>
    rw [extend_ne_zero] at closed
    simp only [List.cons_append, quotedReach, (closingReach_le_and_append cs).2 closed after]
  next => exact absurd rfl closed

theorem quotedSymbolReach_append {cs : List Char} (closed : quotedSymbolReach cs ≠ 0)
    (after : List Char) : quotedSymbolReach (cs ++ after) = quotedSymbolReach cs := by
  unfold quotedSymbolReach at closed
  split at closed
  next cs =>
    rw [extend_ne_zero] at closed
    simp only [List.cons_append, quotedSymbolReach, quotedReach_append closed after]
  next => exact absurd rfl closed

-- ============================================================================
-- The first class that fits
-- ============================================================================

theorem reach_le_length {entry : Class × (List Char → Nat)} (mem : entry ∈ classes)
    (cs : List Char) : entry.2 cs ≤ cs.length := by
  have comment : commentReach cs ≤ cs.length := by
    unfold commentReach
    split
    next c cs =>
      have length := length_takeWhile_le (· != '\n') (c :: cs)
      split
      next => rw [List.length_cons]; omega
      next => exact Nat.zero_le _
    next => exact Nat.zero_le _
  have quotedSymbol : quotedSymbolReach cs ≤ cs.length := by
    unfold quotedSymbolReach
    split
    next cs => exact extend_le (quotedReach_le_length cs)
    next => exact Nat.zero_le _
  simp only [classes, List.mem_cons, List.not_mem_nil, or_false] at mem
  rcases mem with rfl | rfl | rfl | rfl | rfl | rfl | rfl | rfl | rfl | rfl | rfl | rfl | rfl |
    rfl | rfl | rfl | rfl | rfl | rfl | rfl | rfl
  · exact length_takeWhile_le isBlank cs
  · exact comment
  · exact fixedReach_le_length _ cs
  · exact fixedReach_le_length _ cs
  · exact fixedReach_le_length _ cs
  · exact fixedReach_le_length _ cs
  · exact fixedReach_le_length _ cs
  · exact fixedReach_le_length _ cs
  · exact fixedReach_le_length _ cs
  · exact fixedReach_le_length _ cs
  · exact fixedReach_le_length _ cs
  · exact quotedSymbol
  · exact local_symbolReach.le_length cs
  · exact quotedReach_le_length cs
  · exact local_realReach.le_length cs
  · exact local_integerReach.le_length cs
  · exact local_functionReach.le_length cs
  · exact local_unifyReach.le_length cs
  · exact fixedReach_le_length _ cs
  · exact local_predicateReach.le_length cs
  · exact local_nodeTypeReach.le_length cs

/-- The first class with a reach is taken. -/
theorem classify_eq_some (n : Nat) {entry : Class × (List Char → Nat)} {cs : List Char}
    (place : classes = classes.take n ++ entry :: classes.drop (n + 1))
    (before : ∀ other ∈ classes.take n, other.2 cs = 0) (reaches : entry.2 cs ≠ 0) :
    classify cs = some (entry.1, entry.2 cs) := by
  have none : (classes.take n).findSome? (fun entry =>
      let reach := entry.2 cs
      if reach = 0 then none else some (entry.1, reach)) = none := by
    rw [List.findSome?_eq_none_iff]
    intro other mem
    simp only [before other mem, if_true]
  unfold classify
  rw [place, List.findSome?_append, none, Option.none_or]
  exact List.findSome?_cons_of_isSome (by simp [reaches]) |>.trans (if_neg reaches)

theorem classify_eq_none {cs : List Char} (zero : ∀ entry ∈ classes, entry.2 cs = 0) :
    classify cs = none := by
  unfold classify
  rw [List.findSome?_eq_none_iff]
  intro entry mem
  simp only [zero entry mem, if_true]

theorem classify_congr {cs ds : List Char} (same : ∀ entry ∈ classes, entry.2 cs = entry.2 ds) :
    classify cs = classify ds := by
  unfold classify
  generalize classes = entries at same
  induction entries with
  | nil => rfl
  | cons entry entries ih =>
    rw [List.findSome?_cons, List.findSome?_cons, same entry (by simp),
      ih fun other mem => same other (by simp [mem])]

theorem classify_quote_of_open {cs : List Char} (unclosed : quotedReach ('"' :: cs) = 0) :
    classify ('"' :: cs) = none := by
  refine classify_eq_none ?_
  simp only [classes, List.forall_mem_cons]
  exact ⟨rfl, rfl, rfl, rfl, rfl, rfl, rfl, rfl, rfl, rfl, rfl, rfl, rfl, unclosed, rfl, rfl,
    rfl, rfl, rfl, rfl, rfl, by simp⟩

theorem classify_colon_quote_of_open {cs : List Char} (unclosed : quotedReach ('"' :: cs) = 0) :
    classify (':' :: '"' :: cs) = none := by
  have symbol : quotedSymbolReach (':' :: '"' :: cs) = 0 := by
    simp only [quotedSymbolReach, unclosed, extend, if_true]
  refine classify_eq_none ?_
  simp only [classes, List.forall_mem_cons]
  exact ⟨rfl, rfl, rfl, rfl, rfl, rfl, rfl, rfl, rfl, rfl, rfl, symbol, rfl, rfl, rfl, rfl,
    rfl, rfl, rfl, rfl, rfl, by simp⟩

/-- A lexeme that is neither white space nor a comment is the same if a
    delimiter and more text follow. -/
theorem classify_append {c : Char} {cs after : List Char} {entry : Class} {reach : Nat}
    (found : classify (c :: cs) = some (entry, reach)) (visible : isBlank c = false)
    (comment : commentReach (c :: cs) = 0) (h : Delimited after) :
    classify (c :: cs ++ after) = some (entry, reach) := by
  have blank : ∀ ds, blankReach (c :: ds) = 0 := by
    intro ds
    simp [blankReach, visible]
  have commented : commentReach (c :: cs ++ after) = 0 := by
    by_cases hash : c = '#'
    · subst hash
      cases cs with
      | nil => cases found
      | cons d cs =>
        by_cases space : isBlank d = true
        · simp [commentReach, space] at comment
        · simp [commentReach, space]
    · simp [commentReach, hash]
  have quoted : quotedReach (c :: cs ++ after) = quotedReach (c :: cs) := by
    by_cases closed : quotedReach (c :: cs) = 0
    · by_cases quote : c = '"'
      · subst quote
        rw [classify_quote_of_open closed] at found
        cases found
      · simp [quotedReach, quote]
    · exact quotedReach_append closed after
  have quotedSymbol : quotedSymbolReach (c :: cs ++ after) = quotedSymbolReach (c :: cs) := by
    by_cases closed : quotedSymbolReach (c :: cs) = 0
    · by_cases colon : c = ':'
      · subst colon
        have inner : quotedReach cs = 0 := by simpa [quotedSymbolReach, extend] using closed
        cases cs with
        | nil =>
          rcases h.eq_or with rfl | ⟨ds, rfl⟩ | ⟨ds, rfl⟩ | ⟨ds, rfl⟩ <;> rfl
        | cons d cs =>
          by_cases quote : d = '"'
          · subst quote
            rw [classify_colon_quote_of_open inner] at found
            cases found
          · simp [quotedSymbolReach, quotedReach, quote]
      · simp [quotedSymbolReach, colon]
    · exact quotedSymbolReach_append closed after
  have fixed : ∀ spelling : String, unbroken spelling.toList = true →
      fixedReach spelling (c :: cs ++ after) = fixedReach spelling (c :: cs) :=
    fun _ free => (local_fixedReach free).append _ h
  rw [← found]
  refine classify_congr ?_
  simp only [classes, List.forall_mem_cons]
  refine ⟨by rw [List.cons_append, blank, blank], by rw [commented, comment],
    fixed _ (by decide), fixed _ (by decide), by simp [fixedReach], fixed _ (by decide),
    fixed _ (by decide), fixed _ (by decide), fixed _ (by decide), fixed _ (by decide),
    fixed _ (by decide), quotedSymbol,
    local_symbolReach.append _ h, quoted, local_realReach.append _ h,
    local_integerReach.append _ h, local_functionReach.append _ h, local_unifyReach.append _ h,
    fixed _ (by decide), local_predicateReach.append _ h,
    local_nodeTypeReach.append _ h, by simp⟩

end RubyPattern.Lexeme
