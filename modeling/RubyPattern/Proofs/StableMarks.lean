/-
  RubyPattern.Proofs.StableMarks

  Marking absent children twice is marking them once. The scan cuts a text into
  quoted texts and symbols, free-standing `nil`s and single characters; it puts a
  question mark behind each free-standing `nil` and copies the rest. Put there,
  the question marks neither open nor close a quoted text, nor do they lengthen a
  symbol, so a second scan cuts the text at the same places and finds every `nil`
  marked.
-/
import Mathlib.Data.List.TakeWhile
import RubyPattern.Proofs.Shielding

namespace RubyPattern.AbsentChild

open RubyPattern.Text RubyPattern.Name RubyPattern.Lexeme

-- ============================================================================
-- Quoted texts and symbols
-- ============================================================================

/-- What stands between two quotes: characters other than quotes and backslashes,
    and pairs of a backslash and a character that ends no line. -/
inductive QuotedBody : List Char → Prop
  | nil : QuotedBody []
  | plain {c : Char} {cs : List Char} (quote : c ≠ '"') (backslash : c ≠ '\\')
      (more : QuotedBody cs) : QuotedBody (c :: cs)
  | escaped {c : Char} {cs : List Char} (sameLine : c ≠ '\n') (more : QuotedBody cs) :
      QuotedBody ('\\' :: c :: cs)

/-- The name of a symbol in front of some text: sigils, word characters and a
    method mark, each as far as they go. -/
inductive BareName (after : List Char) : List Char → Prop
  | intro {sigils word mark : List Char} (sigiled : ∀ c ∈ sigils, c = '@' ∨ c = '$')
      (nonempty : word ≠ []) (words : ∀ c ∈ word, isWord c = true)
      (ends : ∀ c ∈ (mark ++ after).head?, isWord c = false)
      (marked : (mark = [] ∧ ∀ c ∈ after.head?, isMethodMark c = false) ∨
        ∃ c, mark = [c] ∧ isMethodMark c = true) : BareName after (sigils ++ (word ++ mark))

/-- A quoted text or a symbol in front of some text. -/
inductive Region (after : List Char) : List Char → Prop
  | string {body : List Char} (quoted : QuotedBody body) : Region after ('"' :: (body ++ ['"']))
  | quotedSymbol {body : List Char} (quoted : QuotedBody body) :
      Region after (':' :: '"' :: (body ++ ['"']))
  | symbol {name : List Char} (named : BareName after name) : Region after (':' :: name)

theorem QuotedBody.closingReach_eq {body : List Char} (h : QuotedBody body) (after : List Char) :
    closingReach (body ++ '"' :: after) = body.length + 1 := by
  induction h with
  | nil => rfl
  | plain quote backslash more ih =>
    rw [List.cons_append, closingReach_cons quote backslash, ih]
    rfl
  | escaped sameLine more ih =>
    rw [List.cons_append, List.cons_append, closingReach_escaped sameLine, ih]
    rfl

/-- Induction along the search for a closing quote. -/
theorem quoted_induction {motive : List Char → Prop} (nil : motive [])
    (quote : ∀ cs, motive ('"' :: cs)) (lone : motive ['\\'])
    (lineEnd : ∀ cs, motive ('\\' :: '\n' :: cs))
    (escaped : ∀ c cs, c ≠ '\n' → motive cs → motive ('\\' :: c :: cs))
    (plain : ∀ c cs, c ≠ '"' → c ≠ '\\' → motive cs → motive (c :: cs)) :
    ∀ cs, motive cs
  | [] => nil
  | c :: cs => by
    by_cases quoted : c = '"'
    · exact quoted ▸ quote cs
    by_cases backslash : c = '\\'
    · subst backslash
      match cs with
      | [] => exact lone
      | d :: cs =>
        by_cases line : d = '\n'
        · exact line ▸ lineEnd cs
        · exact escaped d cs line (quoted_induction nil quote lone lineEnd escaped plain cs)
    · exact plain c cs quoted backslash (quoted_induction nil quote lone lineEnd escaped plain cs)

/-- A quote that is closed is closed behind a body. -/
theorem exists_quotedBody {cs : List Char} (closed : closingReach cs ≠ 0) :
    ∃ body after, QuotedBody body ∧ cs = body ++ '"' :: after := by
  induction cs using quoted_induction with
  | nil => exact absurd rfl closed
  | quote cs => exact ⟨[], cs, .nil, rfl⟩
  | lone => exact absurd rfl closed
  | lineEnd cs => exact absurd rfl closed
  | escaped c cs sameLine ih =>
    rw [closingReach_escaped sameLine, extend_ne_zero] at closed
    obtain ⟨body, after, quoted, rfl⟩ := ih closed
    exact ⟨'\\' :: c :: body, after, .escaped sameLine quoted, rfl⟩
  | plain c cs quote backslash ih =>
    rw [closingReach_cons quote backslash, extend_ne_zero] at closed
    obtain ⟨body, after, quoted, rfl⟩ := ih closed
    exact ⟨c :: body, after, .plain quote backslash quoted, rfl⟩

/-- Every text begins with the parts of a name, which may be empty. -/
theorem exists_nameParts (cs : List Char) :
    ∃ sigils word rest, cs = sigils ++ (word ++ rest) ∧ NameParts sigils word rest := by
  have front := List.takeWhile_append_dropWhile (p := isSigil) (l := cs)
  have middle := List.takeWhile_append_dropWhile (p := isWord) (l := cs.dropWhile isSigil)
  refine ⟨cs.takeWhile isSigil, (cs.dropWhile isSigil).takeWhile isWord,
    (cs.dropWhile isSigil).dropWhile isWord, by rw [middle, front], ?_, ?_, ?_, ?_⟩
  · exact fun c mem => List.mem_takeWhile_imp mem
  · exact fun c mem => List.mem_takeWhile_imp mem
  · intro c first
    rw [middle] at first
    have stop := List.head?_dropWhile_not isSigil cs
    rw [first] at stop
    simpa using stop
  · intro c first
    have stop := List.head?_dropWhile_not isWord (cs.dropWhile isSigil)
    rw [first] at stop
    simpa using stop

theorem BareName.reach_eq {after name : List Char} (h : BareName after name) :
    symbolNameReach (name ++ after) = name.length := by
  obtain @⟨sigils, word, mark, sigiled, nonempty, words, ends, marked⟩ := h
  have parts : NameParts sigils word (mark ++ after) := by
    refine ⟨fun c mem => by simpa [isSigil] using sigiled c mem, words, ?_, ends⟩
    obtain ⟨c, word, rfl⟩ := List.exists_cons_of_ne_nil nonempty
    rintro _ ⟨⟩
    exact isSigil_of_isWord (words c (by simp))
  have one : oneReach isMethodMark (mark ++ after) = mark.length := by
    rcases marked with ⟨rfl, unmarked⟩ | ⟨c, rfl, method⟩
    · cases after with
      | nil => rfl
      | cons c after => simp [oneReach, unmarked c rfl]
    · simp [oneReach, method]
  rw [List.append_assoc, List.append_assoc, parts.reach_eq, if_neg nonempty, one]
  simp only [List.length_append]
  omega

theorem exists_bareName {cs : List Char} (named : symbolNameReach cs ≠ 0) :
    ∃ name after, BareName after name ∧ cs = name ++ after := by
  obtain ⟨sigils, word, rest, rfl, parts⟩ := exists_nameParts cs
  rw [parts.reach_eq] at named
  have nonempty : word ≠ [] := fun none => named (if_pos none)
  have sigiled : ∀ c ∈ sigils, c = '@' ∨ c = '$' := fun c mem => by
    simpa [isSigil] using parts.sigiled c mem
  cases rest with
  | nil =>
    exact ⟨sigils ++ (word ++ []), [], .intro sigiled nonempty parts.words parts.ends
      (.inl ⟨rfl, by simp⟩), by simp⟩
  | cons c rest =>
    by_cases method : isMethodMark c = true
    · exact ⟨sigils ++ (word ++ [c]), rest, .intro sigiled nonempty parts.words parts.ends
        (.inr ⟨c, rfl, method⟩), by simp⟩
    · have unmarked : ∀ d ∈ (c :: rest).head?, isMethodMark d = false := by
        rintro _ ⟨⟩
        simpa using method
      exact ⟨sigils ++ (word ++ []), c :: rest, .intro sigiled nonempty parts.words parts.ends
        (.inl ⟨rfl, unmarked⟩), by simp⟩

theorem BareName.length_ne_zero {after name : List Char} (h : BareName after name) :
    name.length ≠ 0 := by
  obtain ⟨-, nonempty⟩ := h
  simp [nonempty]

theorem BareName.quotedReach_eq {after name : List Char} (h : BareName after name) :
    quotedReach (name ++ after) = 0 := by
  obtain @⟨sigils, word, mark, sigiled, nonempty, words, ends, marked⟩ := h
  obtain ⟨c, word, rfl⟩ := List.exists_cons_of_ne_nil nonempty
  cases sigils with
  | nil =>
    have quote : c ≠ '"' := by
      rintro rfl
      exact absurd (words _ List.mem_cons_self) (by decide)
    exact quotedReach_of_ne quote _
  | cons d sigils =>
    have quote : d ≠ '"' := by
      rintro rfl
      exact absurd (sigiled _ List.mem_cons_self) (by decide)
    exact quotedReach_of_ne quote _

theorem shieldedReach_quote (cs : List Char) :
    shieldedReach ('"' :: cs) = extend 1 (closingReach cs) :=
  quotedReach_quote cs

/-- The scan passes over quoted texts and symbols. -/
theorem Region.shieldedReach_eq {after region : List Char} (h : Region after region) :
    shieldedReach (region ++ after) = region.length := by
  have quotes {body : List Char} (quoted : QuotedBody body) :
      quotedReach ('"' :: (body ++ ['"']) ++ after) = ('"' :: (body ++ ['"'])).length := by
    have text : '"' :: (body ++ ['"']) ++ after = '"' :: (body ++ '"' :: after) := by simp
    rw [text, quotedReach_quote, quoted.closingReach_eq]
    simp [extend]
  cases h with
  | string quoted => exact quotes quoted
  | quotedSymbol quoted =>
    rw [List.cons_append, shieldedReach_symbol, quotes quoted]
    rfl
  | symbol named =>
    rw [List.cons_append, shieldedReach_symbol, named.quotedReach_eq, if_pos rfl, named.reach_eq,
      extend, if_neg named.length_ne_zero]
    rfl

/-- What the scan passes over is a quoted text or a symbol. -/
theorem exists_region {cs : List Char} (shielded : shieldedReach cs ≠ 0) :
    ∃ region after, Region after region ∧ cs = region ++ after := by
  cases cs with
  | nil => exact absurd rfl shielded
  | cons c cs =>
    by_cases quote : c = '"'
    · subst quote
      rw [shieldedReach_quote, extend_ne_zero] at shielded
      obtain ⟨body, after, quoted, rfl⟩ := exists_quotedBody shielded
      exact ⟨_, after, .string quoted, by simp⟩
    by_cases colon : c = ':'
    · subst colon
      rw [shieldedReach_symbol, extend_ne_zero] at shielded
      by_cases quoted : quotedReach cs = 0
      · rw [if_pos quoted] at shielded
        obtain ⟨name, after, named, rfl⟩ := exists_bareName shielded
        exact ⟨_, after, .symbol named, rfl⟩
      · cases cs with
        | nil => exact absurd rfl quoted
        | cons d cs =>
          have opened : d = '"' := by
            apply Classical.byContradiction
            exact fun other => quoted (quotedReach_of_ne other cs)
          subst opened
          rw [← ne_eq, quotedReach_quote, extend_ne_zero] at quoted
          obtain ⟨body, after, closed, rfl⟩ := exists_quotedBody quoted
          exact ⟨_, after, .quotedSymbol closed, by simp⟩
    · exact absurd (shieldedReach_of_ne quote colon cs) shielded

-- ============================================================================
-- Pieces of a text
-- ============================================================================

/-- A piece that the scan cuts off a text. -/
inductive Piece where
  | region (text : List Char)
  | absent
  | single (c : Char)

/-- The text of a piece. -/
def Piece.text : Piece → List Char
  | .region text => text
  | .absent => ['n', 'i', 'l']
  | .single c => [c]

/-- What the scan makes of a piece: it puts a question mark behind a `nil` that
    stands free. -/
def Piece.marked : Piece → List Char
  | .absent => Piece.absent.text ++ ['?']
  | p => p.text

theorem marked_region (text : List Char) : (Piece.region text).marked = text :=
  rfl

theorem marked_single (c : Char) : (Piece.single c).marked = [c] :=
  rfl

/-- A text as the scan cuts it, with the character before it: first of all quoted
    texts and symbols, then `nil`s that stand free, then single characters. -/
inductive Pieces : Option Char → List Char → List Piece → Prop
  | done {previous : Option Char} : Pieces previous [] []
  | region {previous : Option Char} {region after : List Char} {ps : List Piece}
      (shielded : Region after region) (more : Pieces region.getLast? after ps) :
      Pieces previous (region ++ after) (.region region :: ps)
  | absent {previous : Option Char} {cs : List Char} {ps : List Piece}
      (before : mayFollow previous = true) (behind : mayPrecede cs = true)
      (more : Pieces (some 'l') cs ps) :
      Pieces previous ('n' :: 'i' :: 'l' :: cs) (.absent :: ps)
  | single {previous : Option Char} {c : Char} {cs : List Char} {ps : List Piece}
      (noRegion : ∀ region after, c :: cs = region ++ after → ¬ Region after region)
      (bound : ∀ rest, c :: cs = 'n' :: 'i' :: 'l' :: rest →
        mayFollow previous = false ∨ mayPrecede rest = false)
      (more : Pieces (some c) cs ps) : Pieces previous (c :: cs) (.single c :: ps)

theorem Region.length_ne_zero {after region : List Char} (h : Region after region) :
    region.length ≠ 0 := by
  cases h <;> simp

theorem noRegion_iff {cs : List Char} :
    (∀ region after, cs = region ++ after → ¬ Region after region) ↔ shieldedReach cs = 0 := by
  constructor
  · intro none
    apply Classical.byContradiction
    intro shielded
    obtain ⟨region, after, found, text⟩ := exists_region shielded
    exact none region after text found
  · rintro open_ region after rfl found
    rw [found.shieldedReach_eq] at open_
    exact found.length_ne_zero open_

/-- Every text is cut into pieces. -/
theorem exists_pieces (previous : Option Char) (cs : List Char) : ∃ ps, Pieces previous cs ps := by
  induction length : cs.length using Nat.strongRecOn generalizing previous cs with
  | ind length_ ih =>
    subst length
    cases cs with
    | nil => exact ⟨[], .done⟩
    | cons c cs =>
      by_cases shielded : shieldedReach (c :: cs) = 0
      · by_cases free : ∃ rest, c :: cs = 'n' :: 'i' :: 'l' :: rest ∧
            mayFollow previous = true ∧ mayPrecede rest = true
        · obtain ⟨rest, text, before, behind⟩ := free
          rw [text] at ih ⊢
          obtain ⟨ps, more⟩ := ih rest.length (by simp; omega) (some 'l') rest rfl
          exact ⟨.absent :: ps, .absent before behind more⟩
        · obtain ⟨ps, more⟩ := ih cs.length (by simp) (some c) cs rfl
          refine ⟨.single c :: ps, .single (noRegion_iff.mpr shielded) (fun rest text => ?_) more⟩
          rw [← Bool.not_eq_true, ← Bool.not_eq_true, ← Classical.not_and_iff_not_or_not]
          exact fun both => free ⟨rest, text, both⟩
      · obtain ⟨region, after, found, text⟩ := exists_region shielded
        have positive := found.length_ne_zero
        rw [text] at ih ⊢
        obtain ⟨ps, more⟩ := ih after.length (by rw [List.length_append]; omega) region.getLast?
          after rfl
        exact ⟨.region region :: ps, .region found more⟩

theorem Pieces.text_eq {previous : Option Char} {cs : List Char} {ps : List Piece}
    (h : Pieces previous cs ps) : cs = ps.flatMap Piece.text := by
  induction h with
  | done => rfl
  | region _ _ ih => rw [List.flatMap_cons, ← ih, Piece.text]
  | absent _ _ _ ih => rw [List.flatMap_cons, ← ih, Piece.text]; rfl
  | single _ _ _ ih => rw [List.flatMap_cons, ← ih, Piece.text]; rfl

-- ============================================================================
-- The scan goes from piece to piece
-- ============================================================================

theorem markFrom_region {after region : List Char} (h : Region after region)
    (previous : Option Char) :
    markFrom 0 previous (region ++ after) = region ++ markFrom 0 region.getLast? after := by
  have reach := h.shieldedReach_eq
  obtain ⟨c, cs, rfl, other⟩ : ∃ c cs, region = c :: cs ∧ c ≠ 'n' := by
    cases h <;> exact ⟨_, _, rfl, by decide⟩
  rw [List.cons_append] at reach ⊢
  rw [markFrom_shielded other, reach, List.length_cons, Nat.add_sub_cancel, markFrom_copy,
    List.getLast?_cons]
  cases cs.getLast? <;> rfl

/-- The scan marks the free-standing `nil`s and copies all other pieces. -/
theorem Pieces.markFrom_eq {previous : Option Char} {cs : List Char} {ps : List Piece}
    (h : Pieces previous cs ps) : markFrom 0 previous cs = ps.flatMap Piece.marked := by
  induction h with
  | done => rfl
  | region shielded more ih =>
    rw [markFrom_region shielded, ih, List.flatMap_cons, marked_region]
  | absent before behind more ih =>
    rw [markFrom, if_pos (by simp [before, behind]), ih]
    rfl
  | single noRegion bound more ih =>
    rw [markFrom_single (noRegion_iff.mp noRegion) bound, ih, List.flatMap_cons, marked_single,
      List.singleton_append]

-- ============================================================================
-- The second scan
-- ============================================================================

theorem Grown.head?_eq {cs ds : List Char} (h : Grown cs ds) : ds.head? = cs.head? := by
  cases h <;> rfl

/-- Where no quote closes, no quote closes behind question marks. -/
theorem Grown.closingReach_eq_zero {cs ds : List Char} (h : Grown cs ds)
    (unclosed : closingReach cs = 0) : closingReach ds = 0 := by
  have mark (es : List Char) : closingReach ('?' :: es) = extend 1 (closingReach es) :=
    closingReach_cons (by decide) (by decide) es
  induction cs using quoted_induction generalizing ds with
  | nil =>
    cases h
    rfl
  | quote cs => cases unclosed
  | lone =>
    cases h with
    | keep more =>
      cases more
      rfl
  | lineEnd cs =>
    cases h with
    | keep more =>
      cases more
      rfl
  | escaped c cs sameLine ih =>
    rw [closingReach_escaped sameLine, extend_eq_zero] at unclosed
    cases h with
    | keep more =>
      cases more with
      | keep more => rw [closingReach_escaped sameLine, ih more unclosed, extend_eq_zero]
      | grow more =>
        rw [closingReach_escaped sameLine, mark, ih more unclosed, extend_eq_zero,
          extend_eq_zero]
  | plain c cs quote backslash ih =>
    rw [closingReach_cons quote backslash, extend_eq_zero] at unclosed
    cases h with
    | keep more => rw [closingReach_cons quote backslash, ih more unclosed, extend_eq_zero]
    | grow more =>
      rw [closingReach_cons quote backslash, mark, ih more unclosed, extend_eq_zero,
        extend_eq_zero]

theorem Grown.quotedReach_eq_zero {cs ds : List Char} (h : Grown cs ds)
    (open_ : quotedReach cs = 0) : quotedReach ds = 0 := by
  cases h with
  | nil => rfl
  | @keep c cs ds more =>
    by_cases quote : c = '"'
    · subst quote
      rw [quotedReach_quote, extend_eq_zero] at open_ ⊢
      exact more.closingReach_eq_zero open_
    · exact quotedReach_of_ne quote ds
  | grow more => rfl

/-- A question mark makes no name of a text that is none. -/
theorem Grown.symbolNameReach_eq_zero {cs ds : List Char} (h : Grown cs ds)
    (unnamed : symbolNameReach cs = 0) : symbolNameReach ds = 0 := by
  obtain ⟨sigils, word, rest, rfl, parts⟩ := exists_nameParts cs
  rw [parts.reach_eq] at unnamed
  obtain rfl : word = [] := by
    apply Classical.byContradiction
    intro nonempty
    rw [if_neg nonempty] at unnamed
    have length := List.length_pos_iff.mpr nonempty
    omega
  have letter : 'l' ∉ sigils := fun mem => absurd (parts.sigiled 'l' mem) (by decide)
  obtain ⟨es, rfl, more⟩ := h.append_inv letter
  have parts' : NameParts sigils [] es := by
    refine ⟨parts.sigiled, parts.words, ?_, ?_⟩
    · rw [List.nil_append, more.head?_eq]
      exact parts.stops
    · rw [more.head?_eq]
      exact parts.ends
  exact parts'.reach_eq

theorem Grown.shieldedReach_eq_zero {c : Char} {cs ds : List Char} (h : Grown cs ds)
    (open_ : shieldedReach (c :: cs) = 0) : shieldedReach (c :: ds) = 0 := by
  by_cases quote : c = '"'
  · subst quote
    rw [shieldedReach_quote, extend_eq_zero] at open_ ⊢
    exact h.closingReach_eq_zero open_
  by_cases colon : c = ':'
  · subst colon
    rw [shieldedReach_symbol, extend_eq_zero] at open_ ⊢
    have unquoted : quotedReach cs = 0 := by
      apply Classical.byContradiction
      intro quoted
      rw [if_neg quoted] at open_
      exact quoted open_
    rw [if_pos unquoted] at open_
    rw [if_pos (h.quotedReach_eq_zero unquoted)]
    exact h.symbolNameReach_eq_zero open_
  · exact shieldedReach_of_ne quote colon ds

/-- A region is one in front of every text that begins as the text behind it does. -/
theorem Region.congr {after after' region : List Char} (h : Region after region)
    (same : after'.head? = after.head?) : Region after' region := by
  cases h with
  | string quoted => exact .string quoted
  | quotedSymbol quoted => exact .quotedSymbol quoted
  | symbol named =>
    obtain @⟨sigils, word, mark, sigiled, nonempty, words, ends, marked⟩ := named
    refine .symbol (.intro sigiled nonempty words ?_ (by rwa [same]))
    rw [List.head?_append, same, ← List.head?_append]
    exact ends

theorem Pieces.grown {previous : Option Char} {cs : List Char} {ps : List Piece}
    (h : Pieces previous cs ps) : Grown cs (ps.flatMap Piece.marked) := by
  rw [← h.markFrom_eq]
  exact (marked_markFrom 0 previous cs).grown

theorem mayPrecede_congr {cs ds : List Char} (same : ds.head? = cs.head?) :
    mayPrecede ds = mayPrecede cs := by
  cases cs with
  | nil => rw [List.head?_eq_none_iff.mp same]
  | cons c cs =>
    obtain ⟨ds, rfl⟩ := List.head?_eq_some_iff.mp same
    rfl

/-- Marking makes no `nil` stand free. -/
theorem Grown.bound {previous : Option Char} {c : Char} {cs ds : List Char} (h : Grown cs ds)
    (bound : ∀ rest, c :: cs = 'n' :: 'i' :: 'l' :: rest →
      mayFollow previous = false ∨ mayPrecede rest = false) :
    ∀ rest, c :: ds = 'n' :: 'i' :: 'l' :: rest →
      mayFollow previous = false ∨ mayPrecede rest = false := by
  rintro rest ⟨⟩
  cases h with
  | keep more =>
    cases more with
    | keep more =>
      rw [mayPrecede_congr more.head?_eq]
      exact bound _ rfl
    | grow more => exact .inr rfl

/-- What was marked is copied, also behind a question mark that was put there. -/
theorem Pieces.markFrom_marked {previous : Option Char} {cs : List Char} {ps : List Piece}
    (h : Pieces previous cs ps) (previous' : Option Char)
    (same : 'n' ∈ cs.head? → mayFollow previous' = mayFollow previous) :
    markFrom 0 previous' (ps.flatMap Piece.marked) = ps.flatMap Piece.marked := by
  induction h generalizing previous' with
  | done => rfl
  | region shielded more ih =>
    rw [List.flatMap_cons, marked_region, markFrom_region (shielded.congr more.grown.head?_eq),
      ih _ fun _ => rfl]
  | @absent previous cs ps before behind more ih =>
    have apart : 'n' ∉ cs.head? := by
      intro first
      obtain ⟨rest, rfl⟩ := List.head?_eq_some_iff.mp first
      cases behind
    show markFrom 0 previous' ('n' :: 'i' :: 'l' :: '?' :: ps.flatMap Piece.marked) = _
    -- the question mark behind it keeps this `nil` from standing free
    rw [markFrom_single (shieldedReach_of_ne (by decide) (by decide) _)
        (by rintro _ ⟨⟩; exact .inr rfl),
      markFrom_cons (.inr (by simp)) (by decide) (by decide),
      markFrom_cons (.inr (by simp)) (by decide) (by decide),
      markFrom_cons (.inr (by simp)) (by decide) (by decide), ih _ fun first => absurd first apart]
    rfl
  | @single previous c cs ps noRegion bound more ih =>
    have bound' : ∀ rest, c :: ps.flatMap Piece.marked = 'n' :: 'i' :: 'l' :: rest →
        mayFollow previous' = false ∨ mayPrecede rest = false := by
      intro rest text
      have letter : c = 'n' := (List.cons.inj text).1
      rw [same (by rw [letter]; rfl)]
      exact more.grown.bound bound rest text
    have open_ := more.grown.shieldedReach_eq_zero (noRegion_iff.mp noRegion)
    rw [List.flatMap_cons, marked_single, List.singleton_append, markFrom_single open_ bound',
      ih _ fun _ => rfl]

/-- Marking is an insertion that is done once. However the scan cuts a text into
    quoted texts and symbols, free-standing `nil`s and single characters, and it
    does so for every text: the marked text is the text with a question mark directly
    behind each of these `nil`s, with every quoted text and every symbol as it was;
    and marking it again leaves it as it is. -/
theorem mark_stable (s : String) :
    (∃ ps, Pieces none s.toList ps) ∧
    (∀ ps, Pieces none s.toList ps →
      s.toList = ps.flatMap Piece.text ∧ (mark s).toList = ps.flatMap Piece.marked) ∧
    mark (mark s) = mark s := by
  have marked {ps : List Piece} (h : Pieces none s.toList ps) :
      (mark s).toList = ps.flatMap Piece.marked := by
    rw [mark, String.toList_ofList, h.markFrom_eq]
  obtain ⟨ps, cut⟩ := exists_pieces none s.toList
  refine ⟨⟨ps, cut⟩, fun qs h => ⟨h.text_eq, marked h⟩, ?_⟩
  have again := cut.markFrom_marked none fun _ => rfl
  rw [← marked cut] at again
  rw [mark, again, String.ofList_toList]

/-- A backslash takes no line end with it, so this quote is not closed and shields nothing. -/
example : mark "(array \"\\\n nil \")" = "(array \"\\\n nil? \")" := by rfl

end RubyPattern.AbsentChild
