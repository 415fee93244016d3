/-
  RubyPattern.Proofs.Scanning

  The scan, lexeme by lexeme. What a text spells does not depend on where it
  stands, nor on what follows behind a delimiter. `Spells` says so of a text
  and the elements that it is read as, and texts that spell elements combine
  to the text of a sequence of them.
-/
import Mathlib.Data.List.Forall2
import RubyPattern.Proofs.Items
import RubyPattern.Proofs.Reach

namespace RubyPattern.Lexeme

open RubyPattern.Text RubyPattern.Grammar

-- ============================================================================
-- One step
-- ============================================================================

/-- What a class and its text mean does not depend on the place. -/
theorem kind?_eq_ok {p q : String} {pos pos' : Nat} {text : List Char} {entry : Class}
    {kind : Option LexemeKind} (h : kind? p pos text entry = .ok kind) :
    kind? q pos' text entry = .ok kind := by
  cases entry with
  | function =>
    simp only [kind?] at h ⊢
    split at h
    next => cases h
    next plain => rw [if_neg plain]; exact h
  | _ => exact h

theorem classify_spec {cs : List Char} {entry : Class} {reach : Nat}
    (h : classify cs = some (entry, reach)) :
    0 < reach ∧ reach ≤ cs.length ∧ ∃ f, (entry, f) ∈ classes ∧ f cs = reach := by
  unfold classify at h
  obtain ⟨⟨other, f⟩, mem, hf⟩ := List.exists_of_findSome?_eq_some h
  dsimp only at hf
  split at hf
  next => cases hf
  next positive =>
    cases hf
    exact ⟨Nat.pos_of_ne_zero positive, reach_le_length mem cs, f, mem, rfl⟩

theorem scan_skip (p : String) (skip pos : Nat) (cs : List Char) :
    scan p skip pos cs = scan p 0 (pos + skip) (cs.drop skip) := by
  induction skip generalizing pos cs with
  | zero => rfl
  | succ skip ih =>
    cases cs with
    | nil => rfl
    | cons c cs =>
      rw [scan, ih, List.drop_succ_cons]
      congr 1
      omega

/-- One lexeme is taken off the front, and the scan goes on behind it. -/
theorem scan_eq {cs : List Char} {entry : Class} {reach : Nat}
    (h : classify cs = some (entry, reach)) (p : String) (pos : Nat) :
    scan p 0 pos cs = do
      let kind ← kind? p pos (cs.take reach) entry
      let rest ← scan p 0 (pos + reach) (cs.drop reach)
      return match kind with
        | some kind => ⟨kind, String.ofList (cs.take reach), pos⟩ :: rest
        | none => rest := by
  obtain ⟨positive, within, -⟩ := classify_spec h
  cases cs with
  | nil => exact absurd within (by simp; omega)
  | cons c cs =>
    obtain ⟨n, rfl⟩ : ∃ n, reach = n + 1 := ⟨reach - 1, by omega⟩
    have behind : scan p n (pos + 1) cs = scan p 0 (pos + (n + 1)) ((c :: cs).drop (n + 1)) := by
      rw [scan_skip, List.drop_succ_cons]
      congr 1
      omega
    rw [scan, h]
    dsimp only
    rewrite [Nat.add_sub_cancel, behind]
    rfl

theorem scan_blankReach (p : String) (pos : Nat) (cs : List Char) :
    scan p 0 pos cs = scan p 0 (pos + blankReach cs) (cs.drop (blankReach cs)) := by
  by_cases zero : blankReach cs = 0
  · simp [zero]
  · have found : classify cs = some (.blank, blankReach cs) :=
      classify_eq_some 0 rfl (by simp) zero
    rw [scan_eq found]
    simp only [kind?, bind, Except.bind, pure, Except.pure]
    cases scan p 0 (pos + blankReach cs) (cs.drop (blankReach cs)) <;> rfl

/-- White space is passed over a character at a time. -/
theorem scan_blank {c : Char} (blank : isBlank c = true) (p : String) (pos : Nat)
    (cs : List Char) : scan p 0 pos (c :: cs) = scan p 0 (pos + 1) cs := by
  have reach : blankReach (c :: cs) = blankReach cs + 1 := by
    simp [blankReach, blank]
  rw [scan_blankReach, reach, List.drop_succ_cons, scan_blankReach p (pos + 1) cs]
  congr 1
  omega

/-- A visible lexeme at the front of a scan. -/
theorem scan_cons {cs : List Char} {entry : Class} {reach : Nat} {kind : LexemeKind}
    (found : classify cs = some (entry, reach)) {p q : String} {pos : Nat}
    (visible : kind? q 0 (cs.take reach) entry = .ok (some kind)) :
    scan p 0 pos cs = (scan p 0 (pos + reach) (cs.drop reach)).map
      (⟨kind, String.ofList (cs.take reach), pos⟩ :: ·) := by
  rw [scan_eq found, kind?_eq_ok visible]
  cases scan p 0 (pos + reach) (cs.drop reach) <;> rfl

-- ============================================================================
-- Places
-- ============================================================================

/-- All lexemes stand within the scanned text. -/
def Within (start stop : Nat) (ls : List Lexeme) : Prop :=
  ∀ l ∈ ls, start ≤ l.position ∧ l.stop ≤ stop

theorem within_of_scan {p : String} {pos : Nat} {cs : List Char} {ls : List Lexeme}
    (h : scan p 0 pos cs = .ok ls) : Within pos (pos + cs.length) ls := by
  induction length : cs.length using Nat.strongRecOn generalizing pos cs ls with
  | ind length_ ih =>
    subst length
    cases found : classify cs with
    | none =>
      cases cs with
      | nil => cases h; simp [Within]
      | cons c cs => simp [scan, found] at h
    | some hit =>
      obtain ⟨entry, reach⟩ := hit
      obtain ⟨positive, within, -⟩ := classify_spec found
      rw [scan_eq found] at h
      cases kind : kind? p pos (cs.take reach) entry with
      | error fault => simp [kind, bind, Except.bind] at h
      | ok kind' =>
        cases rest : scan p 0 (pos + reach) (cs.drop reach) with
        | error fault => simp [kind, rest, bind, Except.bind] at h
        | ok ms =>
          have behind := ih (cs.drop reach).length (by rw [List.length_drop]; omega) rest rfl
          rw [List.length_drop] at behind
          have later : Within pos (pos + cs.length) ms := by
            intro l hl
            obtain ⟨start, stop⟩ := behind l hl
            exact ⟨by omega, by omega⟩
          simp only [kind, rest, bind, Except.bind, pure, Except.pure, Except.ok.injEq] at h
          subst h
          cases kind' with
          | none => exact later
          | some kind' =>
            intro l hl
            rcases List.mem_cons.mp hl with rfl | hl
            · simp only [Lexeme.stop, String.length_ofList, List.length_take]
              exact ⟨Nat.le_refl _, by omega⟩
            · exact later l hl

-- ============================================================================
-- Texts without comments
-- ============================================================================

/-- Whether the scan meets no comment, the first `skip` characters left out. -/
def commentFree : Nat → List Char → Bool
  | _, [] => true
  | skip + 1, _ :: cs => commentFree skip cs
  | 0, c :: cs =>
    match classify (c :: cs) with
    | none => true
    | some (.comment, _) => false
    | some (_, reach) => commentFree (reach - 1) cs

theorem commentFree_skip (skip : Nat) (cs : List Char) :
    commentFree skip cs = commentFree 0 (cs.drop skip) := by
  induction skip generalizing cs with
  | zero => rfl
  | succ skip ih =>
    cases cs with
    | nil => rfl
    | cons c cs => rw [commentFree, ih, List.drop_succ_cons]

theorem commentFree_behind {cs : List Char} {entry : Class} {reach : Nat}
    (found : classify cs = some (entry, reach)) (free : commentFree 0 cs = true) :
    entry ≠ .comment ∧ commentFree 0 (cs.drop reach) = true := by
  obtain ⟨positive, within, -⟩ := classify_spec found
  cases cs with
  | nil => exact absurd within (by simp; omega)
  | cons c cs =>
    obtain ⟨n, rfl⟩ : ∃ n, reach = n + 1 := ⟨reach - 1, by omega⟩
    rw [commentFree, found] at free
    split at free
    next same => cases same
    next => cases free
    next entry' reach' notComment same =>
      cases same
      rw [commentFree_skip] at free
      exact ⟨notComment, by simpa using free⟩

theorem classify_of_isBlank {c : Char} (blank : isBlank c = true) (cs : List Char) :
    classify (c :: cs) = some (.blank, blankReach cs + 1) := by
  have reach : blankReach (c :: cs) = blankReach cs + 1 := by
    simp [blankReach, blank]
  rw [← reach]
  exact classify_eq_some 0 rfl (by simp) (by simp [reach])

theorem commentFree_of_cons_blank {c : Char} (blank : isBlank c = true) {cs : List Char}
    (free : commentFree 0 (c :: cs) = true) : commentFree 0 cs = true := by
  have behind := (commentFree_behind (classify_of_isBlank blank cs) free).2
  rw [List.drop_succ_cons] at behind
  cases cs with
  | nil => rfl
  | cons d cs =>
    by_cases also : isBlank d = true
    · rw [commentFree, classify_of_isBlank also]
      simp only [Nat.add_sub_cancel]
      rw [commentFree_skip]
      simpa [blankReach, also] using behind
    · simpa [blankReach, also] using behind

theorem classify_comment {cs : List Char} (visible : blankReach cs = 0)
    (comment : commentReach cs ≠ 0) : classify cs = some (.comment, commentReach cs) :=
  classify_eq_some 1 rfl (by simp [classes, visible]) comment

/-- A text without comments has the same lexemes at every place, and whatever
    follows behind a delimiter. -/
theorem scan_append {p : String} {pos : Nat} {cs : List Char} {ls : List Lexeme}
    (h : scan p 0 pos cs = .ok ls) (free : commentFree 0 cs = true) (q : String)
    (distance : Nat) {after : List Char} (delimited : Delimited after) :
    scan q 0 (distance + pos) (cs ++ after) =
      (scan q 0 (distance + pos + cs.length) after).map (ls.map (shift distance) ++ ·) := by
  induction length : cs.length using Nat.strongRecOn generalizing pos cs ls with
  | ind length_ ih =>
    subst length
    cases cs with
    | nil =>
      cases h
      simp only [List.nil_append, List.length_nil, Nat.add_zero, List.map_nil]
      cases scan q 0 (distance + pos) after <;> rfl
    | cons c cs =>
      by_cases blank : isBlank c = true
      · rw [scan_blank blank] at h
        rw [List.cons_append, scan_blank blank]
        have behind := ih cs.length (by simp) h (commentFree_of_cons_blank blank free) rfl
        rw [Nat.add_assoc, behind, List.length_cons]
        congr 2
        omega
      · have visible : isBlank c = false := by simpa using blank
        cases found : classify (c :: cs) with
        | none => simp [scan, found] at h
        | some hit =>
          obtain ⟨entry, reach⟩ := hit
          obtain ⟨positive, within, -⟩ := classify_spec found
          obtain ⟨notComment, freeBehind⟩ := commentFree_behind found free
          have comment : commentReach (c :: cs) = 0 := by
            apply Classical.byContradiction
            intro reaches
            have hit := classify_comment (by simp [blankReach, visible]) reaches
            rw [found] at hit
            cases hit
            exact notComment rfl
          have same := classify_append found visible comment delimited
          rw [scan_eq found] at h
          rw [scan_eq same, List.take_append_of_le_length within,
            List.drop_append_of_le_length within]
          cases kind : kind? p pos ((c :: cs).take reach) entry with
          | error fault => simp [kind, bind, Except.bind] at h
          | ok kind' =>
            cases rest : scan p 0 (pos + reach) ((c :: cs).drop reach) with
            | error fault => simp [kind, rest, bind, Except.bind] at h
            | ok ms =>
              have behind := ih ((c :: cs).drop reach).length
                (by rw [List.length_drop]; omega) rest freeBehind rfl
              rw [List.length_drop, ← Nat.add_assoc] at behind
              have place : distance + pos + reach + ((c :: cs).length - reach) =
                  distance + pos + (c :: cs).length := by omega
              rw [place] at behind
              rw [kind?_eq_ok kind]
              simp only [kind, rest, bind, Except.bind, pure, Except.pure, Except.ok.injEq] at h
              subst h
              simp only [bind, Except.bind, behind]
              cases scan q 0 (distance + pos + (c :: cs).length) after with
              | error fault => rfl
              | ok ns =>
                cases kind' with
                | none => rfl
                | some kind' => rfl

-- ============================================================================
-- Texts with given lexemes
-- ============================================================================

/-- These characters at this place are these lexemes, whatever follows behind a
    delimiter. -/
def Scans (cs : List Char) (pos : Nat) (ls : List Lexeme) : Prop :=
  ∀ p after, Delimited after →
    scan p 0 pos (cs ++ after) = (scan p 0 (pos + cs.length) after).map (ls ++ ·)

theorem Scans.alone {cs : List Char} {pos : Nat} {ls : List Lexeme} (h : Scans cs pos ls)
    (p : String) : scan p 0 pos cs = .ok ls := by
  have alone := h p [] delimited_nil
  rw [List.append_nil] at alone
  simpa [scan, Except.map] using alone

theorem Scans.within {cs : List Char} {pos : Nat} {ls : List Lexeme} (h : Scans cs pos ls) :
    Within pos (pos + cs.length) ls :=
  within_of_scan (h.alone "")

/-- A text without comments that scans on its own has its lexemes everywhere. -/
theorem scans_of_tokenize {text : String} {ls : List Lexeme} (tokens : tokenize text = .ok ls)
    (free : commentFree 0 text.toList = true) (pos : Nat) :
    Scans text.toList pos (ls.map (shift pos)) := by
  have start : tokenize text = scan text 0 0 text.toList := rfl
  rw [start] at tokens
  exact fun p after delimited => scan_append tokens free p pos delimited

-- ============================================================================
-- Texts that spell elements
-- ============================================================================

/-- A text spells elements: wherever it stands, with a delimiter behind it, it
    scans to lexemes that read as these elements, one after the other. -/
def Spells (cs : List Char) (es : List Element) : Prop :=
  ∀ pos, ∃ ls, ReadsItems ls es ∧ Within pos (pos + cs.length) ls ∧
    ∀ p after, Delimited after →
      scan p 0 pos (cs ++ after) = (scan p 0 (pos + cs.length) after).map (ls ++ ·)

theorem Spells.of_scan {cs : List Char} {es : List Element} {pos : Nat} {ls : List Lexeme}
    (read : ReadsItems ls es) (scans : Scans cs pos ls) :
    ReadsItems ls es ∧ Within pos (pos + cs.length) ls ∧ Scans cs pos ls :=
  ⟨read, scans.within, scans⟩

/-- A text without comments that reads as elements on its own spells them. -/
theorem spells_of_tokenize {text : String} {ls : List Lexeme} {es : List Element}
    (tokens : tokenize text = .ok ls) (free : commentFree 0 text.toList = true)
    (read : ReadsItems ls es) : Spells text.toList es := by
  intro pos
  exact ⟨ls.map (shift pos), Spells.of_scan (read.shift pos) (scans_of_tokenize tokens free pos)⟩

/-- A text that is one lexeme, behind which no more is taken in, spells the
    element that the lexeme is. -/
theorem spells_of_classify {cs : List Char} {entry : Class} {kind : LexemeKind} {e : Element}
    (found : ∀ after, Delimited after → classify (cs ++ after) = some (entry, cs.length))
    (visible : kind? "" 0 cs entry = .ok (some kind))
    (read : ∀ l : Lexeme, l.kind = kind → Reads true [l] e []) : Spells cs [e] := by
  intro pos
  refine ⟨[⟨kind, String.ofList cs, pos⟩], Spells.of_scan (.single (read _ rfl)) ?_⟩
  intro p after delimited
  rw [scan_cons (found after delimited) (by rwa [List.take_left]), List.take_left,
    List.drop_left]
  rfl

theorem scan_opening (p : String) (pos : Nat) (cs : List Char) :
    scan p 0 pos ('(' :: cs) = (scan p 0 (pos + 1) cs).map (⟨.opening .round, "(", pos⟩ :: ·) := by
  have found : classify ('(' :: cs) = some (.fixed (.opening .round), 1) := rfl
  exact scan_cons found (q := "") rfl

theorem scan_closing (p : String) (pos : Nat) (cs : List Char) :
    scan p 0 pos (')' :: cs) = (scan p 0 (pos + 1) cs).map (⟨.closing .round, ")", pos⟩ :: ·) := by
  have found : classify (')' :: cs) = some (.fixed (.closing .round), 1) := rfl
  exact scan_cons found (q := "") rfl

/-- No round bracket opens before some place has been passed. -/
def OpensBehind (pos : Nat) (ls : List Lexeme) : Prop :=
  ∀ l ∈ ls.head?, l.kind = .opening .round → pos < l.position

theorem delimited_parts (parts : List (List Char)) (after : List Char) :
    Delimited (parts.flatMap (' ' :: ·) ++ ')' :: after) := by
  cases parts with
  | nil => exact delimited_closing after
  | cons => exact delimited_space _

/-- The rest of a sequence behind its first element: each element behind a
    space, then the closing bracket. -/
theorem scan_elements {parts : List (List Char)} {ess : List (List Element)}
    (spelled : List.Forall₂ Spells parts ess) (pos : Nat) :
    ∃ ls, ReadsGroup .round ls ess.flatten [] ∧ OpensBehind pos ls ∧
      ∀ p after, scan p 0 pos (parts.flatMap (' ' :: ·) ++ ')' :: after) =
        (scan p 0 (pos + (parts.flatMap (' ' :: ·)).length + 1) after).map (ls ++ ·) := by
  induction spelled generalizing pos with
  | nil =>
    refine ⟨[⟨.closing .round, ")", pos⟩], .close rfl, by simp [OpensBehind], ?_⟩
    intro p after
    exact scan_closing p pos after
  | @cons part es parts ess first _ ih =>
    obtain ⟨ls, read, within, scans⟩ := first (pos + 1)
    obtain ⟨ms, others, behind, scans'⟩ := ih (pos + 1 + part.length)
    refine ⟨ls ++ ms, read.readsGroup ?_ others, ?_, ?_⟩
    · intro l last o head opening
      have stop := (within l (List.mem_of_mem_getLast? last)).2
      have start := behind o head opening
      omega
    · intro o head opening
      cases ls with
      | nil =>
        have start := behind o head opening
        omega
      | cons l ls =>
        cases head
        have start := (within o (by simp)).1
        omega
    · intro p after
      rw [List.flatMap_cons, List.cons_append, List.cons_append, scan_blank rfl,
        List.append_assoc, scans p _ (delimited_parts parts after), scans' p after]
      rw [List.length_cons, List.length_append]
      have place : pos + 1 + part.length + (parts.flatMap (' ' :: ·)).length + 1 =
          pos + (part.length + (parts.flatMap (' ' :: ·)).length + 1) + 1 := by omega
      rw [place]
      cases scan p 0 (pos + (part.length + (parts.flatMap (' ' :: ·)).length + 1) + 1) after with
      | error fault => rfl
      | ok ns => simp [Except.map]

/-- A type and elements behind spaces, in brackets, spell their sequence. -/
theorem spells_sequence {head : List Char} {e : Element} (first : Spells head [e])
    {parts : List (List Char)} {ess : List (List Element)}
    (spelled : List.Forall₂ Spells parts ess) :
    Spells ('(' :: head ++ parts.flatMap (' ' :: ·) ++ [')']) [.sequence (e :: ess.flatten)] := by
  intro pos
  obtain ⟨ls, read, within, scans⟩ := first (pos + 1)
  obtain ⟨ms, others, behind, scans'⟩ := scan_elements spelled (pos + 1 + head.length)
  have apart : Apart ls ms := by
    intro l last o head opening
    have stop := (within l (List.mem_of_mem_getLast? last)).2
    have start := behind o head opening
    omega
  refine ⟨⟨.opening .round, "(", pos⟩ :: (ls ++ ms), Spells.of_scan ?_ ?_⟩
  · exact .single (.sequence rfl (read.readsGroup apart others) (by simp))
  · intro p after _
    have text : '(' :: head ++ parts.flatMap (' ' :: ·) ++ [')'] ++ after =
        '(' :: (head ++ (parts.flatMap (' ' :: ·) ++ ')' :: after)) := by simp
    rw [text, scan_opening, scans p _ (delimited_parts parts after), scans' p after]
    have place : pos + 1 + head.length + (parts.flatMap (' ' :: ·)).length + 1 =
        pos + ('(' :: head ++ parts.flatMap (' ' :: ·) ++ [')']).length := by
      simp only [List.length_append, List.length_cons, List.length_nil]
      omega
    rw [place]
    cases scan p 0 (pos + ('(' :: head ++ parts.flatMap (' ' :: ·) ++ [')']).length) after with
    | error fault => rfl
    | ok ns => simp [Except.map]

/-- A text that spells one element which is no rest parses to it. -/
theorem parse_of_spells {text : String} {e : Element} (spelled : Spells text.toList [e])
    (single : e.isRest = false) : parse text = .ok e := by
  obtain ⟨ls, read, -, scans⟩ := spelled 0
  rw [parse_eq_ok_iff]
  refine ⟨ls, ?_, ?_⟩
  · exact Scans.alone scans text
  · cases read with
    | item first others =>
      cases others
      exact first.outside single

end RubyPattern.Lexeme
