/-
  RubyPattern.Proofs.RefusedTexts

  What comes of any text that is read as a pattern. It is a pattern, or it is
  refused for a reason and at a place in the text; and there is one thing that
  reading does not refuse but breaks down at: an escape in a quoted text that
  names a code point beyond Unicode.
-/
import Mathlib.Algebra.Group.Nat.Defs
import RubyPattern.Proofs.NumberLexemes

namespace RubyPattern

open RubyPattern.Text

-- ============================================================================
-- Escapes
-- ============================================================================

theorem Text.hexValue?_lt {c : Char} {d : Nat} (h : hexValue? c = some d) : d < 16 := by
  have zero : '0'.toNat = 48 := rfl
  have nine : '9'.toNat = 57 := rfl
  unfold hexValue? at h
  split at h
  next digit =>
    cases h
    have range := Char.isDigit_iff_toNat.mp digit
    omega
  next =>
    have bound {low high : Char} (range : low ≤ c ∧ c ≤ high) (span : high.toNat = low.toNat + 5) :
        c.toNat - low.toNat + 10 < 16 := by
      have top : c.toNat ≤ high.toNat := UInt32.le_iff_toNat_le.mp range.2
      omega
    split at h
    next letter =>
      cases h
      exact bound letter rfl
    next =>
      split at h
      next letter =>
        cases h
        exact bound letter rfl
      next => cases h

/-- As many hexadecimal digits hold a number below the next power of sixteen. -/
theorem Text.ofHex_lt (digits : List Char) : ofHex digits < 16 ^ digits.length := by
  have step : ∀ (ds : List Char) (total width : Nat), total < 16 ^ width →
      ds.foldl (fun total c => total * 16 + (hexValue? c).getD 0) total <
        16 ^ (width + ds.length) := by
    intro ds
    induction ds with
    | nil => exact fun total width small => small
    | cons c ds ih =>
      intro total width small
      have digit : (hexValue? c).getD 0 < 16 := by
        cases value : hexValue? c with
        | none => decide
        | some d => exact hexValue?_lt value
      have next : total * 16 + (hexValue? c).getD 0 < 16 ^ (width + 1) := by
        rw [Nat.pow_succ]
        omega
      have rest := ih _ _ next
      rw [List.foldl_cons, List.length_cons]
      rwa [Nat.add_assoc, Nat.add_comm 1] at rest
  simpa [ofHex] using step digits 0 0 (by decide)

namespace Escape

/-- The first escape among some characters between quotes that names a code
    point beyond Unicode. Four hexadecimal digits or fewer never do, so it has
    its digits in curly brackets. -/
inductive Oversized : List Char → Nat → Prop
  | here {digits after : List Char} (nonempty : digits ≠ []) (hex : ∀ d ∈ digits, isHex d = true)
      (large : 0x10FFFF < ofHex digits) :
      Oversized ('\\' :: 'u' :: '\x7b' :: (digits ++ '\x7d' :: after)) (ofHex digits)
  | number {cs : List Char} {code n size : Nat} (escape : numeric? cs = some (n, size))
      (small : n ≤ 0x10FFFF) (later : Oversized (cs.drop size) code) : Oversized ('\\' :: cs) code
  | letter {c : Char} {cs : List Char} {code : Nat} (escape : numeric? (c :: cs) = none)
      (later : Oversized cs code) : Oversized ('\\' :: c :: cs) code
  | plain {c : Char} {cs : List Char} {code : Nat} (other : c ≠ '\\')
      (later : Oversized cs code) : Oversized (c :: cs) code

/-- A numeric escape takes at least one character, and names a large code point
    only with its digits in curly brackets. -/
theorem numeric?_spec {cs : List Char} {n size : Nat} (h : numeric? cs = some (n, size)) :
    0 < size ∧ (n ≤ 0x10FFFF ∨ ∃ digits after, cs = 'u' :: '\x7b' :: (digits ++ '\x7d' :: after) ∧
      digits ≠ [] ∧ (∀ d ∈ digits, isHex d = true) ∧ n = ofHex digits) := by
  unfold numeric? at h
  split at h
  next cs =>
    dsimp only at h
    split at h
    next closed =>
      cases h
      refine ⟨by omega, .inr ⟨cs.takeWhile isHex, cs.drop ((cs.takeWhile isHex).length + 1), ?_, ?_,
        fun d mem => List.mem_takeWhile_imp mem, rfl⟩⟩
      · rw [Bool.and_eq_true, beq_iff_eq] at closed
        obtain ⟨inside, bracket⟩ := List.getElem?_eq_some_iff.mp closed.2
        have parts := List.take_append_drop (cs.takeWhile isHex).length cs
        rw [List.drop_eq_getElem_cons inside, bracket,
          ← List.prefix_iff_eq_take.mp (List.takeWhile_prefix isHex)] at parts
        rw [parts]
      · intro none
        simp [none] at closed
    next => cases h
  next cs _ =>
    dsimp only at h
    split at h
    next four =>
      cases h
      have small := ofHex_lt ((cs.take 4).takeWhile isHex)
      rw [four] at small
      exact ⟨by omega, .inl (by omega)⟩
    next => cases h
  next cs =>
    dsimp only at h
    split at h
    next => cases h
    next =>
      cases h
      have few : ((cs.take 2).takeWhile isHex).length ≤ 2 :=
        ((List.takeWhile_prefix isHex).length_le).trans (List.length_take_le 2 cs)
      have small := ofHex_lt ((cs.take 2).takeWhile isHex)
      have power := Nat.pow_le_pow_right (n := 16) (by decide) few
      exact ⟨by omega, .inl (by omega)⟩
  next => cases h

theorem codePoint_eq_error_iff {n : Nat} {fault : Fault} :
    codePoint n = .error fault ↔ 0x10FFFF < n ∧ fault = .badCodePoint n := by
  unfold codePoint
  split
  next large => simp [large, eq_comm]
  next small =>
    split <;> simp [small]

theorem map_eq_error_iff {α β : Type} {result : Except Fault α} {f : α → β} {fault : Fault} :
    result.map f = .error fault ↔ result = .error fault := by
  cases result <;> simp [Except.map]

theorem decodeFrom_plain {c : Char} (other : c ≠ '\\') (cs : List Char) :
    decodeFrom 0 (c :: cs) = (decodeFrom 0 cs).map (c :: ·) := by
  rw [decodeFrom]
  · cases decodeFrom 0 cs <;> rfl
  · exact fun same => absurd same other
  · exact fun _ _ same => absurd same other

theorem decodeFrom_letter {c : Char} {cs : List Char} (escape : numeric? (c :: cs) = none) :
    decodeFrom 0 ('\\' :: c :: cs) = (decodeFrom 0 cs).map (simple c :: ·) := by
  rw [decodeFrom, escape]
  cases decodeFrom 0 cs <;> rfl

/-- Behind a numeric escape decoding goes on where it ends. -/
theorem decodeFrom_number {cs : List Char} {n size : Nat} (escape : numeric? cs = some (n, size)) :
    decodeFrom 0 ('\\' :: cs) = (codePoint n).bind fun d =>
      (decodeFrom 0 (cs.drop size)).map (d :: ·) := by
  obtain ⟨size, rfl⟩ : ∃ k, size = k + 1 := ⟨size - 1, by have := (numeric?_spec escape).1; omega⟩
  cases cs with
  | nil => cases escape
  | cons c cs =>
    rw [decodeFrom, escape, List.drop_succ_cons]
    simp only [Nat.add_sub_cancel, decodeFrom_skip size]
    cases codePoint n with
    | error fault => rfl
    | ok d => cases decodeFrom 0 (cs.drop size) <;> rfl

theorem oversized_of_decodeFrom {cs : List Char} {fault : Fault}
    (h : decodeFrom 0 cs = .error fault) : ∃ code, fault = .badCodePoint code ∧ Oversized cs code := by
  induction length : cs.length using Nat.strongRecOn generalizing cs with
  | ind length ih =>
    subst length
    rcases cs with _ | ⟨b, cs⟩
    · cases h
    by_cases backslash : b = '\\'
    · subst backslash
      cases number : numeric? cs with
      | none =>
        rcases cs with _ | ⟨c, cs⟩
        · cases h
        rw [decodeFrom_letter number, map_eq_error_iff] at h
        obtain ⟨code, rfl, later⟩ := ih cs.length (by rw [List.length_cons, List.length_cons]; omega) h rfl
        exact ⟨code, rfl, .letter number later⟩
      | some hit =>
        obtain ⟨n, size⟩ := hit
        rw [decodeFrom_number number] at h
        cases point : codePoint n with
        | error other =>
          rw [point] at h
          cases h
          obtain ⟨large, rfl⟩ := codePoint_eq_error_iff.mp point
          obtain ⟨digits, after, rfl, nonempty, hex, rfl⟩ :=
            (numeric?_spec number).2.resolve_left (by omega)
          exact ⟨_, rfl, .here nonempty hex large⟩
        | ok d =>
          have small : n ≤ 0x10FFFF := by
            by_contra large
            rw [codePoint_eq_error_iff.mpr ⟨by omega, rfl⟩] at point
            cases point
          rw [point, Except.bind, map_eq_error_iff] at h
          obtain ⟨code, rfl, later⟩ := ih _ (by rw [List.length_drop, List.length_cons]; omega) h rfl
          exact ⟨code, rfl, .number number small later⟩
    · rw [decodeFrom_plain backslash, map_eq_error_iff] at h
      obtain ⟨code, rfl, later⟩ := ih cs.length (by simp) h rfl
      exact ⟨code, rfl, .plain backslash later⟩

theorem Oversized.decodeFrom_eq {cs : List Char} {code : Nat} (h : Oversized cs code) :
    decodeFrom 0 cs = .error (.badCodePoint code) := by
  induction h with
  | here nonempty hex large =>
    rw [decodeFrom_number (numeric?_bracket nonempty hex _), codePoint_eq_error_iff.mpr ⟨large, rfl⟩]
    rfl
  | @number cs code n size escape small later ih =>
    rw [decodeFrom_number escape, ih]
    cases point : codePoint n with
    | ok d => rfl
    | error fault => exact absurd (codePoint_eq_error_iff.mp point).1 (by omega)
  | letter escape later ih =>
    rw [decodeFrom_letter escape, ih]
    rfl
  | plain other later ih =>
    rw [decodeFrom_plain other, ih]
    rfl

/-- Decoding fails exactly at an escape beyond Unicode. -/
theorem decode_eq_error_iff {cs : List Char} {fault : Fault} :
    decode cs = .error fault ↔ ∃ code, fault = .badCodePoint code ∧ Oversized cs code := by
  constructor
  · exact oversized_of_decodeFrom
  · rintro ⟨code, rfl, h⟩
    exact h.decodeFrom_eq

end Escape

-- ============================================================================
-- The scan
-- ============================================================================

namespace Lexeme

open RubyPattern.Number

/-- The first quoted text of a scan with an escape beyond Unicode in it; all
    lexemes in front of it are read. -/
inductive MeetsOversized : List Char → Nat → Prop
  | string {cs : List Char} {reach code : Nat} (found : classify cs = some (.string, reach))
      (body : Escape.Oversized ((cs.take reach).drop 1).dropLast code) : MeetsOversized cs code
  | symbol {cs : List Char} {reach code : Nat} (found : classify cs = some (.quotedSymbol, reach))
      (body : Escape.Oversized ((cs.take reach).drop 2).dropLast code) : MeetsOversized cs code
  | later {cs : List Char} {entry : Class} {reach code : Nat} {kind : Option LexemeKind}
      (found : classify cs = some (entry, reach)) (read : kind? "" 0 (cs.take reach) entry = .ok kind)
      (behind : MeetsOversized (cs.drop reach) code) : MeetsOversized cs code

/-- A refusal of a pattern text at a place between two others. -/
def RefusedWithin (pattern : String) (start stop : Nat) (fault : Fault) : Prop :=
  ∃ reason position, fault = .pattern reason pattern position ∧ start ≤ position ∧ position ≤ stop

/-- What a lexeme fails for: a digit in the name of a function, or an escape. -/
theorem kind?_error {p : String} {pos : Nat} {cs : List Char} {entry : Class} {reach : Nat}
    (found : classify cs = some (entry, reach)) {fault : Fault}
    (h : kind? p pos (cs.take reach) entry = .error fault) :
    (∃ reason, fault = .pattern reason p pos) ∨
      ∃ code, fault = .badCodePoint code ∧ MeetsOversized cs code := by
  obtain ⟨positive, -, f, mem, rfl⟩ := classify_spec found
  have decoded {body : List Char} {wrap : List Char → Option LexemeKind}
      (h : (do let text ← Escape.decode body; return wrap text) = Except.error fault) :
      ∃ code, fault = .badCodePoint code ∧ Escape.Oversized body code := by
    cases found : Escape.decode body with
    | ok text => simp [found, bind, Except.bind, pure, Except.pure] at h
    | error other =>
      simp only [found, bind, Except.bind, Except.error.injEq] at h
      subst h
      exact Escape.decode_eq_error_iff.mp found
  cases entry with
  | quotedSymbol =>
    obtain ⟨code, rfl, body⟩ := decoded h
    exact .inr ⟨code, rfl, .symbol found body⟩
  | string =>
    obtain ⟨code, rfl, body⟩ := decoded h
    exact .inr ⟨code, rfl, .string found body⟩
  | real =>
    obtain rfl : f = realReach := by simpa [classes] using mem
    obtain ⟨x, value⟩ := Option.isSome_iff_exists.mp (isSome_float? positive.ne')
    simp [kind?, value] at h
  | integer =>
    obtain rfl : f = integerReach := by simpa [classes] using mem
    obtain ⟨n, value⟩ := Option.isSome_iff_exists.mp (isSome_integer? positive.ne')
    simp [kind?, value] at h
  | function =>
    rw [kind?] at h
    split at h
    next =>
      cases h
      exact .inl ⟨_, rfl⟩
    next => cases h
  | _ => cases h

/-- What a scan fails for. -/
theorem scan_error {p : String} {pos : Nat} {cs : List Char} {fault : Fault}
    (h : scan p 0 pos cs = .error fault) :
    RefusedWithin p pos (pos + cs.length) fault ∨
      ∃ code, fault = .badCodePoint code ∧ MeetsOversized cs code := by
  induction length : cs.length using Nat.strongRecOn generalizing pos cs with
  | ind length ih =>
    subst length
    cases found : classify cs with
    | none =>
      cases cs with
      | nil => cases h
      | cons c cs =>
        rw [scan, found] at h
        cases h
        exact .inl ⟨_, pos, rfl, Nat.le_refl pos, Nat.le_add_right _ _⟩
    | some hit =>
      obtain ⟨entry, reach⟩ := hit
      obtain ⟨positive, within, -⟩ := classify_spec found
      rw [scan_eq found] at h
      cases kind : kind? p pos (cs.take reach) entry with
      | error other =>
        simp only [kind, bind, Except.bind, Except.error.injEq] at h
        subst h
        rcases kind?_error found kind with ⟨reason, rfl⟩ | broken
        · exact .inl ⟨reason, pos, rfl, Nat.le_refl pos, Nat.le_add_right _ _⟩
        · exact .inr broken
      | ok kind' =>
        cases rest : scan p 0 (pos + reach) (cs.drop reach) with
        | ok ls => simp [kind, rest, bind, Except.bind, pure, Except.pure] at h
        | error other =>
          simp only [kind, rest, bind, Except.bind, Except.error.injEq] at h
          subst h
          have length : (cs.drop reach).length = cs.length - reach := List.length_drop
          rcases ih (cs.drop reach).length (by omega) rest rfl with refused | ⟨code, rfl, behind⟩
          · obtain ⟨reason, position, rfl, start, stop⟩ := refused
            exact .inl ⟨reason, position, rfl, by omega, by omega⟩
          · exact .inr ⟨code, rfl, .later found (kind?_eq_ok kind) behind⟩

/-- Nothing in front of it keeps the scan from such an escape. -/
theorem MeetsOversized.scan_eq_error {cs : List Char} {code : Nat} (h : MeetsOversized cs code)
    (p : String) (pos : Nat) : scan p 0 pos cs = .error (.badCodePoint code) := by
  induction h generalizing pos with
  | string found body =>
    rw [scan_eq found, kind?, Escape.decode_eq_error_iff.mpr ⟨_, rfl, body⟩]
    rfl
  | symbol found body =>
    rw [scan_eq found, kind?, Escape.decode_eq_error_iff.mpr ⟨_, rfl, body⟩]
    rfl
  | later found read _ ih =>
    rw [scan_eq found, kind?_eq_ok read, ih]
    rfl

end Lexeme

-- ============================================================================
-- The descent
-- ============================================================================

namespace Grammar

/-- A refusal at one of the lexemes, or at the end of the text. -/
def RefusedAmong (stop : Nat) (ls : List Lexeme) (refusal : Refusal) : Prop :=
  refusal.2 = stop ∨ ∃ l ∈ ls, refusal.2 = l.position

variable {stop : Nat} {l : Lexeme} {ls ms : List Lexeme} {refusal : Refusal}

theorem refusedAmong_cons (h : refusal.2 = l.position) : RefusedAmong stop (l :: ls) refusal :=
  .inr ⟨l, List.mem_cons_self, h⟩

theorem RefusedAmong.mono (h : RefusedAmong stop ms refusal) (subset : ms ⊆ ls) :
    RefusedAmong stop ls refusal :=
  h.imp id fun ⟨l, mem, same⟩ => ⟨l, subset mem, same⟩

theorem RefusedAmong.cons (h : RefusedAmong stop ls refusal) : RefusedAmong stop (l :: ls) refusal :=
  h.mono (List.subset_cons_self l ls)

theorem refusedAmong_of_arguments (h : arguments stop ls = .error refusal) :
    RefusedAmong stop ls refusal := by
  induction ls with
  | nil =>
    cases h
    exact .inl rfl
  | cons l ls ih =>
    unfold arguments at h
    split at h
    next => cases h
    next =>
      split at h
      next inner =>
        cases h
        exact (ih inner).cons
      next => cases h
    next =>
      cases h
      exact refusedAmong_cons rfl

theorem refusedAmong_of_closeGroup {bracket : Bracket} {es : List Element}
    (h : closeGroup l bracket es = .error refusal) : RefusedAmong stop (l :: ls) refusal := by
  unfold closeGroup at h
  split at h
  next =>
    cases h
    exact refusedAmong_cons rfl
  next =>
    cases bracket with
    | round => cases h
    | square => cases h
    | curly =>
      dsimp only at h
      split at h
      next => cases h
      next =>
        cases h
        exact refusedAmong_cons rfl

/-- An element is refused among its lexemes if everything in shorter lists is. -/
theorem refusedAmong_of_element_step {inSequence : Bool}
    (elements : ∀ {b ms refusal}, ms.length < ls.length →
      element stop b ms = .error refusal → RefusedAmong stop ms refusal)
    (groups : ∀ {opener bracket ms refusal}, ms.length < ls.length →
      group stop opener bracket ms = .error refusal → RefusedAmong stop (opener :: ms) refusal)
    (h : element stop inSequence ls = .error refusal) : RefusedAmong stop ls refusal := by
  unfold element at h
  split at h
  next =>
    cases h
    exact .inl rfl
  next l ls =>
    split at h
    next => cases h
    next => cases h
    next => cases h
    next => cases h
    next =>
      split at h
      next => cases h
      next =>
        cases h
        exact refusedAmong_cons rfl
    next =>
      split at h
      next => cases h
      next =>
        cases h
        exact refusedAmong_cons rfl
    next =>
      split at h
      next =>
        split at h
        next => cases h
        next =>
          cases h
          exact refusedAmong_cons rfl
      next ls noDots =>
        split at h
        next inner =>
          cases h
          exact (elements (Nat.lt_succ_self _) inner).cons
        next => cases h
    next =>
      split at h
      next inner =>
        cases h
        exact (elements (Nat.lt_succ_self _) inner).cons
      next =>
        split at h
        next => cases h
        next =>
          cases h
          exact refusedAmong_cons rfl
    next =>
      split at h
      next inner =>
        cases h
        exact groups (Nat.lt_succ_self _) inner
      next =>
        split at h
        next closed =>
          cases h
          exact refusedAmong_of_closeGroup closed
        next => cases h
    next =>
      cases h
      exact refusedAmong_cons rfl
    next =>
      split at h
      next =>
        split at h
        next =>
          split at h
          next inner =>
            cases h
            exact (refusedAmong_of_arguments inner).cons.cons
          next => cases h
        next => cases h
      next => cases h

/-- A group is refused at its opener or among its lexemes, if its first element
    and all groups of shorter lists are. -/
theorem refusedAmong_of_group_step {opener : Lexeme} {bracket : Bracket}
    (elements : ∀ {b refusal}, element stop b ls = .error refusal → RefusedAmong stop ls refusal)
    (groups : ∀ {opener bracket ms refusal}, ms.length < ls.length →
      group stop opener bracket ms = .error refusal → RefusedAmong stop (opener :: ms) refusal)
    (h : group stop opener bracket ls = .error refusal) :
    RefusedAmong stop (opener :: ls) refusal := by
  unfold group at h
  split at h
  next =>
    cases h
    exact refusedAmong_cons rfl
  next l ls =>
    split at h
    next =>
      split at h
      next => cases h
      next =>
        cases h
        exact (refusedAmong_cons rfl).cons
    next =>
      split at h
      next first =>
        cases h
        exact (elements first).cons
      next e middle shorter first =>
        split at h
        next others =>
          cases h
          have suffix := ((reads_of_eq_ok stop _).1 rfl first).suffix
          exact (groups shorter others).mono
            (List.cons_subset_cons opener suffix.subset)
        next => cases h

/-- Whatever the descent refuses, it refuses at a lexeme or at the end. -/
theorem refusedAmong_of_eq_error (stop length : Nat) :
    (∀ {b ls refusal}, ls.length = length → element stop b ls = .error refusal →
      RefusedAmong stop ls refusal) ∧
    (∀ {opener bracket ls refusal}, ls.length = length →
      group stop opener bracket ls = .error refusal → RefusedAmong stop (opener :: ls) refusal) := by
  induction length using Nat.strongRecOn with
  | ind length ih =>
    have elements : ∀ {b ls refusal}, ls.length = length →
        element stop b ls = .error refusal → RefusedAmong stop ls refusal := by
      intro b ls refusal hlength h
      exact refusedAmong_of_element_step (fun shorter => (ih _ (hlength ▸ shorter)).1 rfl)
        (fun shorter => (ih _ (hlength ▸ shorter)).2 rfl) h
    refine ⟨elements, ?_⟩
    intro opener bracket ls refusal hlength h
    exact refusedAmong_of_group_step (elements hlength)
      (fun shorter => (ih _ (hlength ▸ shorter)).2 rfl) h

theorem refusedAmong_of_ofLexemes (h : ofLexemes stop ls = .error refusal) :
    refusal.2 = 0 ∨ RefusedAmong stop ls refusal := by
  unfold ofLexemes at h
  split at h
  next =>
    cases h
    exact .inl rfl
  next =>
    split at h
    next inner =>
      cases h
      exact .inr ((refusedAmong_of_eq_error stop _).1 rfl inner)
    next => cases h
    next first =>
      cases h
      have suffix := ((reads_of_eq_ok stop _).1 rfl first).suffix
      exact .inr ((refusedAmong_cons rfl).mono suffix.subset)

-- ============================================================================
-- Pattern texts
-- ============================================================================

/-- Reading a pattern text gives a pattern, or refuses the text with a reason
    and a place in it; unless the scan meets an escape beyond Unicode in a quoted
    text, and then, and only then, it is the code point that reading fails for. -/
theorem parse_outcome (text : String) :
    (∀ fault, parse text = .error fault →
      Lexeme.RefusedWithin text 0 text.length fault ∨ ∃ code, fault = .badCodePoint code) ∧
    ∀ code, parse text = .error (.badCodePoint code) ↔ Lexeme.MeetsOversized text.toList code := by
  have scanned : Lexeme.tokenize text = Lexeme.scan text 0 0 text.toList := rfl
  have outcome : ∀ fault, parse text = .error fault →
      Lexeme.RefusedWithin text 0 text.length fault ∨
        ∃ code, fault = .badCodePoint code ∧ Lexeme.MeetsOversized text.toList code := by
    intro fault h
    unfold parse at h
    cases tokens : Lexeme.tokenize text with
    | error other =>
      simp only [tokens, bind, Except.bind, Except.error.injEq] at h
      subst h
      have failed := Lexeme.scan_error (scanned ▸ tokens)
      rwa [Nat.zero_add, String.length_toList] at failed
    | ok ls =>
      simp only [tokens, bind, Except.bind] at h
      split at h
      next => cases h
      next reason position refused =>
        cases h
        refine .inl ⟨reason, position, rfl, Nat.zero_le _, ?_⟩
        have within := Lexeme.within_of_scan (scanned ▸ tokens)
        rw [Nat.zero_add, String.length_toList] at within
        rcases refusedAmong_of_ofLexemes refused with start | stop | ⟨l, mem, place⟩
        · dsimp only at start
          omega
        · dsimp only at stop
          omega
        · have inside := (within l mem).2
          rw [Lexeme.stop] at inside
          dsimp only at place
          omega
  refine ⟨fun fault h => (outcome fault h).imp id (Exists.imp fun _ => And.left), ?_⟩
  intro code
  constructor
  · intro h
    rcases outcome _ h with ⟨_, _, same, -⟩ | ⟨_, same, meets⟩
    · cases same
    · cases same
      exact meets
  · intro meets
    unfold parse
    rw [scanned, meets.scan_eq_error]
    rfl

/-- A string of a single escape, one past the last code point. -/
example : parse "\"\\u\x7b110000\x7d\"" = .error (.badCodePoint 0x110000) :=
  rfl

end Grammar

end RubyPattern
