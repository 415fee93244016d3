/-
  RubyPattern.Proofs.Partition

  The lexemes of a text divide it. They stand in their order, each is the
  stretch of the text from its beginning to its end, and between them is white
  space and nothing else but comments. Each of them is the only lexeme of its
  own text, so the texts with a space between them have the same lexemes.
-/
import Mathlib.Data.List.TakeWhile
import RubyPattern.Proofs.CutLexemes
import RubyPattern.Proofs.Scanning

namespace RubyPattern.Lexeme

open RubyPattern.Text

-- ============================================================================
-- What the scan drops
-- ============================================================================

/-- White space and comments in front of some text. A comment is a number sign
    with white space behind it and goes on to the end of its line. -/
inductive Skipped (after : List Char) : List Char → Prop
  | nil : Skipped after []
  | blank {c : Char} {cs : List Char} (blank : isBlank c = true) (more : Skipped after cs) :
      Skipped after (c :: cs)
  | comment {line cs : List Char} (opens : ∃ c ∈ (line ++ (cs ++ after)).head?, isBlank c = true)
      (oneLine : '\n' ∉ line) (ends : ∀ c ∈ (cs ++ after).head?, c = '\n')
      (more : Skipped after cs) : Skipped after ('#' :: (line ++ cs))

/-- Only white space and comments have no kind. -/
theorem kind?_eq_none {p : String} {pos : Nat} {cs : List Char} {entry : Class}
    (h : kind? p pos cs entry = .ok none) : entry = .blank ∨ entry = .comment := by
  cases entry with
  | blank => exact .inl rfl
  | comment => exact .inr rfl
  | fixed kind => cases h
  | quotedSymbol =>
    rw [kind?] at h
    generalize Escape.decode _ = decoded at h
    cases decoded <;> cases h
  | string =>
    rw [kind?] at h
    generalize Escape.decode _ = decoded at h
    cases decoded <;> cases h
  | symbol => cases h
  | real =>
    simp only [kind?] at h
    split at h <;> cases h
  | integer =>
    simp only [kind?] at h
    split at h <;> cases h
  | function =>
    simp only [kind?] at h
    split at h <;> cases h
  | unify => cases h
  | predicate => cases h
  | nodeType => cases h

theorem Skipped.blanks {after cs gap : List Char} (blanks : ∀ c ∈ cs, isBlank c = true)
    (more : Skipped after gap) : Skipped after (cs ++ gap) := by
  induction cs with
  | nil => exact more
  | cons c cs ih =>
    exact .blank (blanks c (by simp)) (ih fun d hd => blanks d (by simp [hd]))

/-- A comment is a number sign and its line. -/
theorem exists_of_commentReach {cs : List Char} (comment : commentReach cs ≠ 0) :
    ∃ line rest, cs = '#' :: (line ++ rest) ∧ commentReach cs = line.length + 1 ∧
      (∃ c ∈ (line ++ rest).head?, isBlank c = true) ∧ '\n' ∉ line ∧
      ∀ c ∈ rest.head?, c = '\n' := by
  unfold commentReach at comment
  split at comment
  next c cs =>
    split at comment
    next blank =>
      have parts := List.takeWhile_append_dropWhile (p := (· != '\n')) (l := c :: cs)
      refine ⟨(c :: cs).takeWhile (· != '\n'), (c :: cs).dropWhile (· != '\n'), ?_, ?_, ?_, ?_, ?_⟩
      · rw [parts]
      · rw [commentReach, if_pos blank, Nat.add_comm]
      · rw [parts]
        exact ⟨c, rfl, blank⟩
      · intro mem
        have other := List.mem_takeWhile_imp mem
        simp at other
      · intro d first
        have stop := List.head?_dropWhile_not (· != '\n') (c :: cs)
        rw [first] at stop
        simpa using stop
    next => exact absurd rfl comment
  next => exact absurd rfl comment

/-- What the scan takes for white space or a comment is that. -/
theorem skipped_of_classify {cs : List Char} {entry : Class} {reach : Nat}
    (found : classify cs = some (entry, reach)) (hidden : entry = .blank ∨ entry = .comment)
    {gap after : List Char} (rest : cs.drop reach = gap ++ after) (more : Skipped after gap) :
    Skipped after (cs.take reach ++ gap) := by
  obtain ⟨positive, -, f, mem, rfl⟩ := classify_spec found
  rcases hidden with rfl | rfl
  · obtain rfl : f = blankReach := by simpa [classes] using mem
    have blanks : cs.take (blankReach cs) = cs.takeWhile isBlank :=
      (List.prefix_iff_eq_take.mp (List.takeWhile_prefix isBlank)).symm
    rw [blanks]
    exact .blanks (fun c mem => List.mem_takeWhile_imp mem) more
  · obtain rfl : f = commentReach := by simpa [classes] using mem
    obtain ⟨line, behind, rfl, reach, opens, oneLine, ends⟩ :=
      exists_of_commentReach (Nat.ne_of_gt positive)
    rw [reach, List.drop_succ_cons, List.drop_left] at rest
    subst rest
    rw [reach, List.take_succ_cons, List.take_left, List.cons_append]
    exact .comment opens oneLine ends more

-- ============================================================================
-- Lexemes by themselves
-- ============================================================================

/-- A lexeme that the scan takes for the same if it is given the text of the
    lexeme alone. -/
def Alone (l : Lexeme) : Prop :=
  ∃ entry, classify l.text.toList = some (entry, l.text.length) ∧
    kind? "" 0 l.text.toList entry = .ok (some l.kind)

theorem Alone.text_ne_nil {l : Lexeme} (h : Alone l) : l.text.toList ≠ [] := by
  obtain ⟨entry, found, -⟩ := h
  intro nil
  rw [nil] at found
  cases found

theorem Alone.position_lt_stop {l : Lexeme} (h : Alone l) : l.position < l.stop := by
  have length : l.text.toList.length ≠ 0 := fun zero =>
    h.text_ne_nil (List.length_eq_zero_iff.mp zero)
  rw [String.length_toList] at length
  simp only [Lexeme.stop]
  omega

/-- Such a lexeme is found again wherever a delimiter stands behind its text. -/
theorem Alone.scan_append {l : Lexeme} (h : Alone l) {after : List Char}
    (delimited : Delimited after) (p : String) (pos : Nat) :
    scan p 0 pos (l.text.toList ++ after) =
      (scan p 0 (pos + l.text.length) after).map (⟨l.kind, l.text, pos⟩ :: ·) := by
  obtain ⟨c, cs, text⟩ := List.exists_cons_of_ne_nil h.text_ne_nil
  obtain ⟨entry, found, visible⟩ := h
  have length : (c :: cs).length = l.text.length := by rw [← text, String.length_toList]
  have notBlank : isBlank c = false := by
    rw [Bool.eq_false_iff]
    intro blank
    rw [text, classify_of_isBlank blank, Option.some.injEq, Prod.mk.injEq] at found
    rw [← found.1] at visible
    cases visible
  have comment : commentReach (c :: cs) = 0 := by
    apply Classical.byContradiction
    intro reaches
    rw [text, classify_comment (by simp [blankReach, notBlank]) reaches, Option.some.injEq,
      Prod.mk.injEq] at found
    rw [← found.1] at visible
    cases visible
  rw [text] at found visible
  have behind := classify_append found notBlank comment delimited
  rw [text, scan_cons behind (q := "") (by rwa [← length, List.take_left]), ← length,
    List.take_left, List.drop_left, ← text, String.ofList_toList]

-- ============================================================================
-- From lexeme to lexeme
-- ============================================================================

/-- The lexemes of a text whose first character has some place: each lexeme
    stands behind what the scan drops in front of it. -/
inductive Parted : Nat → List Char → List Lexeme → Prop
  | done {pos : Nat} {gap : List Char} (skipped : Skipped [] gap) : Parted pos gap []
  | lexeme {gap rest : List Char} {pos : Nat} {l : Lexeme} {ls : List Lexeme}
      (skipped : Skipped (l.text.toList ++ rest) gap) (place : l.position = pos + gap.length)
      (alone : Alone l) (more : Parted l.stop rest ls) :
      Parted pos (gap ++ (l.text.toList ++ rest)) (l :: ls)

/-- More can be dropped in front of the first lexeme. -/
theorem Parted.skip {pos : Nat} {piece rest : List Char} {ls : List Lexeme}
    (h : Parted (pos + piece.length) rest ls)
    (skipped : ∀ gap after, rest = gap ++ after → Skipped after gap →
      Skipped after (piece ++ gap)) : Parted pos (piece ++ rest) ls := by
  cases h with
  | done gap => exact .done (skipped rest [] (by simp) gap)
  | @lexeme gap rest _ l ls gapSkipped place alone more =>
    rw [← List.append_assoc]
    exact .lexeme (skipped _ _ rfl gapSkipped) (by rw [place, List.length_append]; omega) alone more

/-- The scan goes from lexeme to lexeme. -/
theorem parted_of_scan {p : String} {pos : Nat} {cs : List Char} {ls : List Lexeme}
    (h : scan p 0 pos cs = .ok ls) : Parted pos cs ls := by
  induction length : cs.length using Nat.strongRecOn generalizing pos cs ls with
  | ind length_ ih =>
    subst length
    cases found : classify cs with
    | none =>
      cases cs with
      | nil =>
        cases h
        exact .done .nil
      | cons c cs => simp [scan, found] at h
    | some hit =>
      obtain ⟨entry, reach⟩ := hit
      obtain ⟨positive, within, -⟩ := classify_spec found
      have front : (cs.take reach).length = reach := List.length_take_of_le within
      rw [scan_eq found] at h
      cases kind : kind? p pos (cs.take reach) entry with
      | error fault => simp [kind, bind, Except.bind] at h
      | ok kind' =>
        cases rest : scan p 0 (pos + reach) (cs.drop reach) with
        | error fault => simp [kind, rest, bind, Except.bind] at h
        | ok ms =>
          have behind : Parted (pos + (cs.take reach).length) (cs.drop reach) ms := by
            rw [front]
            exact ih (cs.drop reach).length (by rw [List.length_drop]; omega) rest rfl
          simp only [kind, rest, bind, Except.bind, pure, Except.pure, Except.ok.injEq] at h
          subst h
          cases kind' with
          | none =>
            have parted := behind.skip fun gap after parts =>
              skipped_of_classify found (kind?_eq_none kind) parts
            rwa [List.take_append_drop] at parted
          | some kind' =>
            have visible : entry ≠ .comment := by
              rintro rfl
              cases kind
            let l : Lexeme := ⟨kind', String.ofList (cs.take reach), pos⟩
            have text : l.text.toList = cs.take reach := String.toList_ofList
            have length : l.text.length = reach := by rw [← String.length_toList, text, front]
            have alone : Alone l := by
              refine ⟨entry, ?_, ?_⟩
              · rw [text, length]
                exact classify_take found visible
              · rw [text]
                exact kind?_eq_ok kind
            have stop : l.stop = pos + (cs.take reach).length := by
              rw [Lexeme.stop, length, front]
            have parted : Parted pos ([] ++ (l.text.toList ++ cs.drop reach)) (l :: ms) :=
              .lexeme .nil rfl alone (stop ▸ behind)
            rwa [text, List.nil_append, List.take_append_drop] at parted

-- ============================================================================
-- The division of a text
-- ============================================================================

/-- The characters from one place up to another. -/
def stretch (cs : List Char) (start stop : Nat) : List Char :=
  (cs.drop start).take (stop - start)

theorem stretch_middle (front middle behind : List Char) :
    stretch (front ++ (middle ++ behind)) front.length (front ++ middle).length = middle := by
  rw [stretch, List.drop_left, List.length_append, Nat.add_sub_cancel_left, List.take_left]

/-- The text through a lexeme that stands behind some text. -/
theorem length_through {front : List Char} {l : Lexeme} (place : front.length = l.position) :
    (front ++ l.text.toList).length = l.stop := by
  rw [List.length_append, place, String.length_toList, Lexeme.stop]

/-- Lexemes divide a text: they stand one behind the other, none is empty, each
    is the stretch of the text from its beginning to its end, and what the text
    has in front of the first one, between two of them and behind the last one
    is white space and comments. -/
structure Partition (text : String) (ls : List Lexeme) : Prop where
  nonempty : ∀ l ∈ ls, l.position < l.stop
  ordered : ls.Pairwise fun l m => l.position < m.position ∧ l.stop ≤ m.position
  slices : ∀ l ∈ ls, l.text.toList = stretch text.toList l.position l.stop
  gaps : List.Forall₂
    (fun start stop => Skipped (text.toList.drop stop) (stretch text.toList start stop))
    (0 :: ls.map Lexeme.stop) (ls.map Lexeme.position ++ [text.toList.length])

theorem Parted.alone {pos : Nat} {cs : List Char} {ls : List Lexeme} (h : Parted pos cs ls) :
    ∀ l ∈ ls, Alone l := by
  induction h with
  | done => simp
  | lexeme _ _ alone _ ih => exact List.forall_mem_cons.mpr ⟨alone, ih⟩

theorem Parted.behind {pos : Nat} {cs : List Char} {ls : List Lexeme} (h : Parted pos cs ls) :
    ∀ l ∈ ls, pos ≤ l.position := by
  induction h with
  | done => simp
  | @lexeme gap rest pos l ls skipped place alone more ih =>
    have proper := alone.position_lt_stop
    refine List.forall_mem_cons.mpr ⟨by omega, fun m hm => ?_⟩
    have later := ih m hm
    omega

theorem Parted.ordered {pos : Nat} {cs : List Char} {ls : List Lexeme} (h : Parted pos cs ls) :
    ls.Pairwise fun l m => l.position < m.position ∧ l.stop ≤ m.position := by
  induction h with
  | done => exact .nil
  | @lexeme gap rest pos l ls skipped place alone more ih =>
    refine .cons (fun m hm => ?_) ih
    have proper := alone.position_lt_stop
    have later := more.behind m hm
    omega

theorem Parted.slices {pos : Nat} {cs : List Char} {ls : List Lexeme} (h : Parted pos cs ls)
    (front : List Char) (length : front.length = pos) :
    ∀ l ∈ ls, l.text.toList = stretch (front ++ cs) l.position l.stop := by
  induction h generalizing front with
  | done => simp
  | @lexeme gap rest pos l ls skipped place alone more ih =>
    have start : (front ++ gap).length = l.position := by rw [List.length_append, place, length]
    have stop := length_through start
    have parts : front ++ (gap ++ (l.text.toList ++ rest)) =
        front ++ gap ++ (l.text.toList ++ rest) := by rw [List.append_assoc]
    rw [parts]
    refine List.forall_mem_cons.mpr ⟨?_, ?_⟩
    · rw [← stop, ← start, stretch_middle]
    · rw [← List.append_assoc]
      exact ih _ stop

theorem Parted.gaps {pos : Nat} {cs : List Char} {ls : List Lexeme} (h : Parted pos cs ls)
    (front : List Char) (length : front.length = pos) :
    List.Forall₂
      (fun start stop => Skipped ((front ++ cs).drop stop) (stretch (front ++ cs) start stop))
      (pos :: ls.map Lexeme.stop) (ls.map Lexeme.position ++ [(front ++ cs).length]) := by
  induction h generalizing front with
  | @done pos gap skipped =>
    refine .cons ?_ .nil
    have middle := stretch_middle front gap []
    rw [List.append_nil, length] at middle
    rwa [middle, List.drop_length]
  | @lexeme gap rest pos l ls skipped place alone more ih =>
    have start : (front ++ gap).length = l.position := by rw [List.length_append, place, length]
    have stop := length_through start
    refine .cons ?_ ?_
    · have middle := stretch_middle front gap (l.text.toList ++ rest)
      rw [length, start] at middle
      rwa [middle, ← List.append_assoc, ← start, List.drop_left]
    · have behind := ih _ stop
      rwa [List.append_assoc, List.append_assoc] at behind

theorem Parted.partition {text : String} {ls : List Lexeme} (h : Parted 0 text.toList ls) :
    Partition text ls where
  nonempty := fun l hl => (h.alone l hl).position_lt_stop
  ordered := h.ordered
  slices := h.slices [] rfl
  gaps := h.gaps [] rfl

-- ============================================================================
-- Joined lexemes
-- ============================================================================

/-- What a lexeme is, wherever it stands. -/
def content (l : Lexeme) : LexemeKind × String :=
  (l.kind, l.text)

/-- The texts of lexemes with a space between them have the same lexemes. -/
theorem scan_intercalate {ls : List Lexeme} (alone : ∀ l ∈ ls, Alone l) (p : String) (pos : Nat) :
    ∃ ms, scan p 0 pos ([' '].intercalate (ls.map fun l => l.text.toList)) = .ok ms ∧
      ms.map content = ls.map content := by
  induction ls generalizing pos with
  | nil => exact ⟨[], rfl, rfl⟩
  | cons l ls ih =>
    obtain ⟨first, others⟩ := List.forall_mem_cons.mp alone
    cases ls with
    | nil =>
      have scanned := first.scan_append delimited_nil p pos
      rw [List.append_nil] at scanned
      refine ⟨[⟨l.kind, l.text, pos⟩], ?_, rfl⟩
      rw [List.map_singleton, List.intercalate_singleton, scanned]
      rfl
    | cons m ls =>
      obtain ⟨ms, scanned, same⟩ := ih others (pos + l.text.length + 1)
      refine ⟨⟨l.kind, l.text, pos⟩ :: ms, ?_, by simp [content, same]⟩
      have joined : [' '].intercalate ((l :: m :: ls).map fun l => l.text.toList) =
          l.text.toList ++ ' ' :: [' '].intercalate ((m :: ls).map fun l => l.text.toList) := by
        simp only [List.map_cons, List.intercalate_cons_cons, List.append_assoc,
          List.singleton_append]
      rw [joined, first.scan_append (delimited_space _), scan_blank (by decide), scanned]
      rfl

/-- The lexemes of a text divide it: they stand one behind the other, each is the
    stretch of the text from its beginning to its end, and the rest is white space
    and comments. Each lexeme is found again, and no other one, in its own text;
    and the texts of all of them, joined by single spaces, have lexemes of the same
    kinds, values and texts. -/
theorem partition_of_tokenize {text : String} {ls : List Lexeme} (h : tokenize text = .ok ls) :
    Partition text ls ∧
    (∀ l ∈ ls, tokenize l.text = .ok [{ l with position := 0 }]) ∧
    ∃ ms, tokenize (" ".intercalate (ls.map Lexeme.text)) = .ok ms ∧
      ms.map content = ls.map content := by
  have parted : Parted 0 text.toList ls := parted_of_scan h
  refine ⟨parted.partition, fun l hl => ?_, ?_⟩
  · have scanned := (parted.alone l hl).scan_append delimited_nil l.text 0
    rw [List.append_nil] at scanned
    exact scanned
  · rw [tokenize, String.toList_intercalate, List.map_map]
    exact scan_intercalate parted.alone _ 0

/-- A number that a rest follows, a comment behind that, and a symbol with a quote in
    its name. -/
theorem partition_of_tokenize_callWithComment :
    let ls : List Lexeme := [⟨.function "f?", "#f?", 0⟩, ⟨.opening .round, "(", 3⟩,
      ⟨.scalar (.integer 1), "1", 4⟩, ⟨.rest, "...", 5⟩, ⟨.scalar (.symbol "$\""), ":$\"", 14⟩,
      ⟨.unify "x", "_x", 17⟩, ⟨.closing .round, ")", 19⟩]
    tokenize "#f?(1...# one\n:$\"_x)" = .ok ls ∧ Partition "#f?(1...# one\n:$\"_x)" ls ∧
      ∃ ms, tokenize "#f? ( 1 ... :$\" _x )" = .ok ms ∧ ms.map content = ls.map content := by
  intro ls
  have read : tokenize "#f?(1...# one\n:$\"_x)" = .ok ls := by rfl
  obtain ⟨partition, -, ms, joined, same⟩ := partition_of_tokenize read
  exact ⟨read, partition, ms, joined, same⟩

end RubyPattern.Lexeme
