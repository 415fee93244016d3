/-
  RubyPattern.Proofs.Layouts

  The two printed forms of a tree. One keeps to a line, the other gives every
  nested node a line of its own, and white space is all that differs. Both have
  the same lexemes, and a round bracket is attached to a function's name in
  both or in neither, so they are the same pattern or both no pattern at all.
-/
import RubyPattern.Proofs.NumberLexemes
import RubyPattern.Proofs.Rendering

namespace RubyPattern

open RubyPattern.Text RubyPattern.Number

-- ============================================================================
-- The same lexemes at other places
-- ============================================================================

namespace Grammar

/-- The same lexemes at other places: each has the kind and the text of its
    counterpart, and a round bracket is attached to the lexeme before it in
    both lists or in neither. -/
inductive Alike : List Lexeme → List Lexeme → Prop
  | nil : Alike [] []
  | cons {l m : Lexeme} {ls ms : List Lexeme} (kind : l.kind = m.kind) (text : l.text = m.text)
      (detached : Detached l ls ↔ Detached m ms) (others : Alike ls ms) :
      Alike (l :: ls) (m :: ms)

theorem Alike.symm {ls ms : List Lexeme} (h : Alike ls ms) : Alike ms ls := by
  induction h with
  | nil => exact .nil
  | cons kind text detached _ ih => exact .cons kind.symm text.symm detached.symm ih

theorem detached_shift_iff (distance : Nat) {l : Lexeme} {ls : List Lexeme} :
    Detached (l.shift distance) (ls.map (Lexeme.shift distance)) ↔ Detached l ls := by
  refine ⟨fun h o first opening attached => ?_, .shift distance⟩
  refine h (o.shift distance) ?_ opening ?_
  · rw [List.head?_map, Option.mem_def.mp first]
    rfl
  · rw [Lexeme.stop_shift, ← attached]
    rfl

/-- A move of all lexemes together changes nothing but their places. -/
theorem alike_shift (distance distance' : Nat) (ls : List Lexeme) :
    Alike (ls.map (Lexeme.shift distance)) (ls.map (Lexeme.shift distance')) := by
  induction ls with
  | nil => exact .nil
  | cons l ls ih =>
    exact .cons rfl rfl ((detached_shift_iff distance).trans (detached_shift_iff distance').symm) ih

theorem Alike.append {ls ms ls' ms' : List Lexeme} (h : Alike ls ms) (h' : Alike ls' ms')
    (apart : Apart ls ls') (apart' : Apart ms ms') : Alike (ls ++ ls') (ms ++ ms') := by
  induction h with
  | nil => exact h'
  | @cons l m ls ms kind text detached others ih =>
    refine .cons kind text ?_ (ih (apart.of_suffix (List.suffix_cons _ _))
      (apart'.of_suffix (List.suffix_cons _ _)))
    cases others with
    | nil => exact iff_of_true (apart l rfl) (apart' m rfl)
    | cons => exact detached

theorem ReadsArguments.alike {ls ms rest : List Lexeme} {values : List Scalar}
    (h : ReadsArguments ls values rest) (same : Alike ls ms) :
    ∃ rest', ReadsArguments ms values rest' ∧ Alike rest rest' := by
  induction h generalizing ms with
  | close kind =>
    cases same with
    | cons kind' _ _ others => exact ⟨_, .close (kind'.symm.trans kind), others⟩
  | literal kind _ ih =>
    cases same with
    | cons kind' _ _ others =>
      obtain ⟨rest', more, same'⟩ := ih others
      exact ⟨rest', .literal (kind'.symm.trans kind) more, same'⟩

mutual

/-- A reading sees no more of the places than which brackets are attached. -/
theorem Reads.alike {b : Bool} {ls ms rest : List Lexeme} {e : Element}
    (h : Reads b ls e rest) (same : Alike ls ms) :
    ∃ rest', Reads b ms e rest' ∧ Alike rest rest' := by
  cases same with
  | nil => cases h
  | cons kind' _ detached' others =>
    have other := kind'.symm
    cases h with
    | wildcard kind => exact ⟨_, .wildcard (other.trans kind), others⟩
    | unify kind => exact ⟨_, .unify (other.trans kind), others⟩
    | scalar kind => exact ⟨_, .scalar (other.trans kind), others⟩
    | nodeType kind => exact ⟨_, .nodeType (other.trans kind), others⟩
    | predicate kind known => exact ⟨_, .predicate (other.trans kind) known, others⟩
    | rest kind => exact ⟨_, .rest (other.trans kind), others⟩
    | capturedRest kind dotsKind =>
      cases others with
      | cons dotsKind' _ _ others =>
        exact ⟨_, .capturedRest (other.trans kind) (dotsKind'.symm.trans dotsKind), others⟩
    | capture kind inner =>
      obtain ⟨rest', read, same'⟩ := inner.alike others
      exact ⟨rest', .capture (other.trans kind) read, same'⟩
    | negation kind inner plain =>
      obtain ⟨rest', read, same'⟩ := inner.alike others
      exact ⟨rest', .negation (other.trans kind) read plain, same'⟩
    | sequence kind inner nonempty =>
      obtain ⟨rest', read, same'⟩ := inner.alike others
      exact ⟨rest', .sequence (other.trans kind) read nonempty, same'⟩
    | intersection kind inner nonempty =>
      obtain ⟨rest', read, same'⟩ := inner.alike others
      exact ⟨rest', .intersection (other.trans kind) read nonempty, same'⟩
    | union kind inner nonempty even =>
      obtain ⟨rest', read, same'⟩ := inner.alike others
      exact ⟨rest', .union (other.trans kind) read nonempty even, same'⟩
    | call kind detached =>
      exact ⟨_, .call (other.trans kind) (detached'.mp detached), others⟩
    | @callWith _ _ o _ _ _ _ kind opening attached inner =>
      cases others with
      | cons opening' _ _ others =>
        obtain ⟨rest', read, same'⟩ := inner.alike others
        have bracket := opening'.symm.trans opening
        refine ⟨rest', .callWith (other.trans kind) bracket ?_ read, same'⟩
        by_contra apart
        refine detached'.mpr ?_ o rfl opening attached
        rintro _ ⟨⟩ _
        exact apart

theorem ReadsGroup.alike {bracket : Bracket} {ls ms rest : List Lexeme} {es : List Element}
    (h : ReadsGroup bracket ls es rest) (same : Alike ls ms) :
    ∃ rest', ReadsGroup bracket ms es rest' ∧ Alike rest rest' := by
  cases h with
  | close kind =>
    cases same with
    | cons kind' _ _ others => exact ⟨_, .close (kind'.symm.trans kind), others⟩
  | item first others =>
    obtain ⟨middle, read, same'⟩ := first.alike same
    obtain ⟨rest', reads, same''⟩ := others.alike same'
    exact ⟨rest', .item read reads, same''⟩

end

/-- A text that scans is a pattern or is refused for a reason and a place. -/
theorem parse_of_tokenize {text : String} {ls : List Lexeme}
    (tokens : Lexeme.tokenize text = .ok ls) :
    (∃ e, parse text = .ok e) ∨
      ∃ reason position, parse text = .error (.pattern reason text position) := by
  rw [parse, tokens]
  simp only [bind, Except.bind]
  cases ofLexemes text.length ls with
  | ok e => exact .inl ⟨e, rfl⟩
  | error refusal => exact .inr ⟨refusal.1, refusal.2, rfl⟩

theorem parse_of_alike {text text' : String} {ls ms : List Lexeme} {e : Element}
    (tokens : Lexeme.tokenize text = .ok ls) (tokens' : Lexeme.tokenize text' = .ok ms)
    (same : Alike ls ms) (parsed : parse text = .ok e) : parse text' = .ok e := by
  obtain ⟨ls', tokens'', read⟩ := parse_eq_ok_iff.mp parsed
  rw [tokens] at tokens''
  cases tokens''
  obtain ⟨rest, read', same'⟩ := read.alike same
  cases same'
  exact parse_eq_ok_iff.mpr ⟨ms, tokens', read'⟩

/-- Texts with the same lexemes are the same pattern, or both are refused. -/
theorem parse_alike {text text' : String} {ls ms : List Lexeme}
    (tokens : Lexeme.tokenize text = .ok ls) (tokens' : Lexeme.tokenize text' = .ok ms)
    (same : Alike ls ms) :
    (∃ e, parse text = .ok e ∧ parse text' = .ok e) ∨
      ∃ reason position reason' position',
        parse text = .error (.pattern reason text position) ∧
        parse text' = .error (.pattern reason' text' position') := by
  rcases parse_of_tokenize tokens with ⟨e, parsed⟩ | ⟨reason, position, refused⟩
  · exact .inl ⟨e, parsed, parse_of_alike tokens tokens' same parsed⟩
  · rcases parse_of_tokenize tokens' with ⟨e, parsed⟩ | ⟨reason', position', refused'⟩
    · rw [parse_of_alike tokens' tokens same.symm parsed] at refused
      cases refused
    · exact .inr ⟨reason, position, reason', position', refused, refused'⟩

end Grammar

-- ============================================================================
-- Texts that scan wherever they stand
-- ============================================================================

namespace Lexeme

open Grammar

/-- A scan that succeeds depends on the place in nothing but the places of the
    lexemes. -/
theorem scan_shift {p : String} {skip pos : Nat} {cs : List Char} {ls : List Lexeme}
    (h : scan p skip pos cs = .ok ls) (q : String) (distance : Nat) :
    scan q skip (distance + pos) cs = .ok (ls.map (shift distance)) := by
  induction cs generalizing skip pos ls with
  | nil =>
    cases skip <;> cases h <;> rfl
  | cons c cs ih =>
    cases skip with
    | succ skip => exact ih h
    | zero =>
      cases found : classify (c :: cs) with
      | none => simp [scan, found] at h
      | some hit =>
        obtain ⟨entry, reach⟩ := hit
        simp only [scan, found] at h ⊢
        cases kind : kind? p pos ((c :: cs).take reach) entry with
        | error fault => simp [kind, bind, Except.bind] at h
        | ok kind' =>
          cases rest : scan p (reach - 1) (pos + 1) cs with
          | error fault => simp [kind, rest, bind, Except.bind] at h
          | ok ms =>
            simp only [kind, rest, bind, Except.bind, pure, Except.pure, Except.ok.injEq] at h
            subst h
            rw [kind?_eq_ok kind, Nat.add_assoc, ih rest]
            cases kind' <;> rfl

section Scans

variable {cs ds : List Char} {pos : Nat} {ls ms : List Lexeme}

theorem Scans.blank {c : Char} (blank : isBlank c = true) (h : Scans cs (pos + 1) ls) :
    Scans (c :: cs) pos ls := by
  intro p after delimited
  rw [List.cons_append, scan_blank blank, h p after delimited, List.length_cons, Nat.add_assoc,
    Nat.add_comm 1]

theorem Scans.append (h : Scans cs pos ls) (h' : Scans ds (pos + cs.length) ms)
    (delimited : Delimited ds) : Scans (cs ++ ds) pos (ls ++ ms) := by
  intro p after behind
  rw [List.append_assoc, h p _ (delimited.append behind), h' p after behind, List.length_append,
    Nat.add_assoc]
  cases scan p 0 (pos + (cs.length + ds.length)) after with
  | error fault => rfl
  | ok ns => simp [Except.map]

theorem opensBehind_of_within (h : Within (pos + 1) (pos + 1 + cs.length) ls) :
    OpensBehind pos ls := by
  intro o first _
  have start := (h o (List.mem_of_mem_head? first)).1
  omega

/-- Behind a delimiter no round bracket is attached to what stands before. -/
theorem Scans.opensBehind (h : Scans cs pos ls) (delimited : Delimited cs) :
    OpensBehind pos ls := by
  have alone := h.alone ""
  rcases delimited.eq_or with rfl | ⟨ds, rfl⟩ | ⟨ds, rfl⟩ | ⟨ds, rfl⟩
  · cases alone
    simp [OpensBehind]
  · rw [scan_blank rfl] at alone
    exact opensBehind_of_within (within_of_scan alone)
  · rw [scan_blank rfl] at alone
    exact opensBehind_of_within (within_of_scan alone)
  · rw [scan_closing] at alone
    cases rest : scan "" 0 (pos + 1) ds with
    | error fault => simp [rest, Except.map] at alone
    | ok ns =>
      simp only [rest, Except.map, Except.ok.injEq] at alone
      subst alone
      simp [OpensBehind]

theorem Scans.apart (h : Scans cs pos ls) (h' : Scans ds (pos + cs.length) ms)
    (delimited : Delimited ds) : Apart ls ms := by
  intro l last o first opening
  have stop := (h.within l (List.mem_of_mem_getLast? last)).2
  have start := h'.opensBehind delimited o first opening
  omega

end Scans

/-- A text that has lexemes wherever it stands. -/
def Steady (cs : List Char) : Prop :=
  ∀ pos, ∃ ls, Scans cs pos ls

theorem Spells.steady {cs : List Char} {es : List Element} (h : Spells cs es) : Steady cs := by
  intro pos
  obtain ⟨ls, -, -, scans⟩ := h pos
  exact ⟨ls, scans⟩

theorem steady_nil : Steady [] := by
  intro pos
  refine ⟨[], fun p after _ => ?_⟩
  cases after_ : scan p 0 pos after <;> simp [after_, Except.map]

theorem steady_closing : Steady [')'] := by
  intro pos
  exact ⟨[⟨.closing .round, ")", pos⟩], fun p after _ => scan_closing p pos after⟩

theorem Steady.opening {cs : List Char} (h : Steady cs) : Steady ('(' :: cs) := by
  intro pos
  obtain ⟨ls, scans⟩ := h (pos + 1)
  refine ⟨⟨.opening .round, "(", pos⟩ :: ls, fun p after delimited => ?_⟩
  rw [List.cons_append, scan_opening, scans p after delimited, List.length_cons, Nat.add_assoc,
    Nat.add_comm 1]
  cases scan p 0 (pos + (cs.length + 1)) after <;> rfl

/-- Its lexemes are the same everywhere, moved along. -/
theorem Steady.exists_shift {cs : List Char} (h : Steady cs) :
    ∃ ls : List Lexeme, ∀ pos, Scans cs pos (ls.map (shift pos)) := by
  obtain ⟨ls, start⟩ := h 0
  refine ⟨ls, fun pos => ?_⟩
  obtain ⟨ms, scans⟩ := h pos
  have moved := scan_shift (start.alone "") "" pos
  rw [Nat.add_zero, scans.alone ""] at moved
  cases moved
  exact scans

-- ============================================================================
-- Texts with the same lexemes
-- ============================================================================

/-- Two texts with the same lexemes, wherever each of them stands. -/
def SameLexemes (cs ds : List Char) : Prop :=
  ∀ pos pos', ∃ ls ms, Scans cs pos ls ∧ Scans ds pos' ms ∧ Alike ls ms

theorem Steady.sameLexemes {cs : List Char} (h : Steady cs) : SameLexemes cs cs := by
  intro pos pos'
  obtain ⟨ls, scans⟩ := h.exists_shift
  exact ⟨_, _, scans pos, scans pos', alike_shift pos pos' ls⟩

section SameLexemes

variable {cs ds cs' ds' : List Char}

theorem SameLexemes.append (h : SameLexemes cs ds) (h' : SameLexemes cs' ds')
    (delimited : Delimited cs') (delimited' : Delimited ds') :
    SameLexemes (cs ++ cs') (ds ++ ds') := by
  intro pos pos'
  obtain ⟨ls, ms, scans, scans', same⟩ := h pos pos'
  obtain ⟨ls', ms', behind, behind', same'⟩ := h' (pos + cs.length) (pos' + ds.length)
  exact ⟨ls ++ ls', ms ++ ms', scans.append behind delimited, scans'.append behind' delimited',
    same.append same' (scans.apart behind delimited) (scans'.apart behind' delimited')⟩

/-- One blank is as good as another. -/
theorem SameLexemes.blank (h : SameLexemes cs ds) {c d : Char} (blank : isBlank c = true)
    (blank' : isBlank d = true) : SameLexemes (c :: cs) (d :: ds) := by
  intro pos pos'
  obtain ⟨ls, ms, scans, scans', same⟩ := h (pos + 1) (pos' + 1)
  exact ⟨ls, ms, scans.blank blank, scans'.blank blank', same⟩

theorem SameLexemes.margin (h : SameLexemes cs ds) (n : Nat) :
    SameLexemes cs (List.replicate n ' ' ++ ds) := by
  induction n with
  | zero => exact h
  | succ n ih =>
    intro pos pos'
    obtain ⟨ls, ms, scans, scans', same⟩ := ih pos (pos' + 1)
    exact ⟨ls, ms, scans, scans'.blank rfl, same⟩

/-- Brackets around a type and two bodies with the same lexemes. -/
theorem SameLexemes.node {type : String} (named : isTypeName type.toList = true)
    (h : SameLexemes cs ds) (delimited : Delimited cs) (delimited' : Delimited ds) :
    SameLexemes ('(' :: (type.toList ++ (cs ++ [')'])))
      ('(' :: (type.toList ++ (ds ++ [')']))) := by
  have front : SameLexemes ('(' :: type.toList) ('(' :: type.toList) :=
    (spells_type named).steady.opening.sameLexemes
  have closing := delimited_closing []
  exact front.append (h.append steady_closing.sameLexemes closing closing)
    (delimited.append closing) (delimited'.append closing)

end SameLexemes

end Lexeme

-- ============================================================================
-- The two forms of a tree
-- ============================================================================

namespace Value

open Lexeme

mutual

/-- The trees whose text scans: node types are plain words, floats are finite,
    and the texts of tokens scan on their own and have no comment. -/
def Scannable : Value → Prop
  | .nil => True
  | .bool _ => True
  | .str _ => True
  | .sym _ => True
  | .head _ => True
  | .int _ => True
  | .float x => ∃ negative mantissa exponent,
      Binary.ofFloat x = .finite negative mantissa exponent
  | .token t => (∃ ls, tokenize t.text = .ok ls) ∧ commentFree 0 t.text.toList = true
  | .node type children _ => isTypeName type.text.toList = true ∧ ScannableAll children
  | _ => False

/-- All of the values are such trees. -/
def ScannableAll : List Value → Prop
  | [] => True
  | v :: vs => Scannable v ∧ ScannableAll vs

end

theorem steady_string (s : String) : Steady (Literal.string s).toList := by
  rw [Literal.string, String.toList_ofList]
  exact (spells_string s).steady

theorem steady_symbol (name : String) : Steady (Literal.symbol name).toList := by
  rw [Literal.symbol, String.toList_ofList]
  exact (spells_symbol name).steady

/-- The text of a finite double reads as some double, if not as the same. -/
theorem steady_real {x : Float} {negative : Bool} {mantissa : Nat} {exponent : Int}
    (finite : Binary.ofFloat x = .finite negative mantissa exponent) :
    Steady (Layout.literal.text x).toList := by
  obtain ⟨sign, cs, hsign, hcs, text⟩ := exists_isReal_text finite
  have whole := hcs.reach hsign
  have positive : realReach (sign ++ cs) ≠ 0 := by
    obtain ⟨ds, fraction, exponent, digits, -, -, -, rfl⟩ := hcs
    have := digits.length_ne_zero
    rw [whole]
    simp only [List.length_append]
    omega
  have read := isSome_float? positive
  rw [whole, List.take_length, ← text] at read
  obtain ⟨y, value⟩ := Option.isSome_iff_exists.mp read
  exact (spells_real finite value).steady

/-- Values without children have a text that scans wherever it stands. -/
theorem steady_render {v : Value} (h : v.Scannable)
    (leaf : ∀ type children location, v ≠ .node type children location) :
    ∃ text, v.render = .ok text ∧ Steady text.toList := by
  cases v with
  | node type children location => exact absurd rfl (leaf type children location)
  | nil => exact ⟨"nil", rfl, (spells_type (by decide)).steady⟩
  | bool b =>
    cases b with
    | false => exact ⟨"false", rfl, (spells_type (by decide)).steady⟩
    | true => exact ⟨"true", rfl, (spells_type (by decide)).steady⟩
  | str s => exact ⟨_, rfl, steady_string s⟩
  | sym name => exact ⟨_, rfl, steady_symbol name⟩
  | head type => exact ⟨_, rfl, steady_symbol type⟩
  | int n => exact ⟨_, rfl, (spells_integer n).steady⟩
  | float x =>
    obtain ⟨_, _, _, finite⟩ := h
    exact ⟨_, rfl, steady_real finite⟩
  | token t =>
    obtain ⟨⟨ls, tokens⟩, free⟩ := h
    exact ⟨t.text, rfl, fun pos => ⟨_, scans_of_tokenize tokens free pos⟩⟩
  | _ => exact h.elim

theorem renderPretty_leaf (indent : Int) {v : Value}
    (leaf : ∀ type children location, v ≠ .node type children location) :
    v.renderPretty indent = v.render := by
  rw [renderPretty]
  exact leaf

/-- A child goes on a new line or behind a space, with the other children
    behind it. -/
theorem renderChildren_cons {indent : Int} {v : Value} {vs : List Value} {text others : String}
    (first : v.renderPretty indent = .ok text) (rest : renderChildren indent vs = .ok others) :
    ∃ separator body, renderChildren indent (v :: vs) = .ok body ∧
      body.toList = separator :: (text.toList ++ others.toList) ∧
      separator ∈ delimiters ∧ isBlank separator = true := by
  cases v with
  | node type children location =>
    refine ⟨'\n', "\n" ++ text ++ others, ?_, by simp, by decide, rfl⟩
    rw [renderChildren, first, rest]
    rfl
  | _ =>
    refine ⟨' ', " " ++ text ++ others, ?_, by simp, by decide, rfl⟩
    rw [renderPretty_leaf indent (by nofun)] at first
    rw [renderChildren, first, rest]
    · rfl
    · nofun

theorem delimited_flatMap (parts : List (List Char)) :
    Delimited (parts.flatMap (' ' :: ·)) := by
  cases parts with
  | nil => exact delimited_nil
  | cons => exact delimited_space _

theorem toList_margin (indent : Int) :
    (margin indent).toList = List.replicate (2 * indent.toNat) ' ' :=
  String.toList_ofList

mutual

/-- The two forms of a tree have the same lexemes, however far it is indented. -/
theorem sameLexemes_renderPretty {v : Value} (h : v.Scannable) (indent : Int) :
    ∃ text text', v.render = .ok text ∧ v.renderPretty indent = .ok text' ∧
      SameLexemes text.toList text'.toList := by
  cases v with
  | node type children location =>
    obtain ⟨texts, body, rendered, rendered', delimited', same⟩ :=
      sameLexemes_renderChildren h.2 (indent + 1)
    obtain ⟨text, whole, parts⟩ := exists_render_node type location rendered
    refine ⟨text, margin indent ++ "(" ++ type.text ++ body ++ ")", whole, ?_, ?_⟩
    · rw [renderPretty, rendered']
      rfl
    · have forms := (same.node h.1 (delimited_flatMap _) delimited').margin (2 * indent.toNat)
      simpa [parts, toList_margin] using forms
  | _ =>
    obtain ⟨text, rendered, steady⟩ := steady_render h (by nofun)
    exact ⟨text, text, rendered, rendered, steady.sameLexemes⟩

theorem sameLexemes_renderChildren {vs : List Value} (h : ScannableAll vs) (indent : Int) :
    ∃ texts body, renderAll vs = .ok texts ∧ renderChildren indent vs = .ok body ∧
      Delimited body.toList ∧
      SameLexemes ((texts.map String.toList).flatMap (' ' :: ·)) body.toList := by
  cases vs with
  | nil => exact ⟨[], "", rfl, rfl, delimited_nil, steady_nil.sameLexemes⟩
  | cons v vs =>
    obtain ⟨text, text', rendered, rendered', same⟩ := sameLexemes_renderPretty h.1 indent
    obtain ⟨texts, body, others, others', delimited', sameAll⟩ :=
      sameLexemes_renderChildren h.2 indent
    obtain ⟨separator, body', rendered'', parts, delimiter, blank⟩ :=
      renderChildren_cons rendered' others'
    refine ⟨text :: texts, body', ?_, rendered'', ?_, ?_⟩
    · simp [renderAll, rendered, others, bind, Except.bind, pure, Except.pure]
    · rw [parts]
      exact delimited_cons delimiter _
    · rw [parts, List.map_cons, List.flatMap_cons]
      exact (same.append sameAll (delimited_flatMap _) delimited').blank rfl blank

end

/-- The two forms of a tree have the same lexemes, so they are the same pattern
    or are both refused. -/
theorem parse_renderPretty {v : Value} (h : v.Scannable) (indent : Int) :
    ∃ text text', v.render = .ok text ∧ v.renderPretty indent = .ok text' ∧
      (∃ ls ms, tokenize text = .ok ls ∧ tokenize text' = .ok ms ∧ Grammar.Alike ls ms) ∧
      ((∃ e, Grammar.parse text = .ok e ∧ Grammar.parse text' = .ok e) ∨
        ∃ reason position reason' position',
          Grammar.parse text = .error (.pattern reason text position) ∧
          Grammar.parse text' = .error (.pattern reason' text' position')) := by
  obtain ⟨text, text', rendered, rendered', same⟩ := sameLexemes_renderPretty h indent
  obtain ⟨ls, ms, scans, scans', alike⟩ := same 0 0
  have tokens : tokenize text = .ok ls := scans.alone text
  have tokens' : tokenize text' = .ok ms := scans'.alone text'
  exact ⟨text, text', rendered, rendered', ⟨ls, ms, tokens, tokens', alike⟩,
    Grammar.parse_alike tokens tokens' alike⟩

/-- A function's name in front of a node, a string with a number sign in it, a
    float, and an absent child between the two halves of a sequence. -/
def nameBeforeNode : Value :=
  .node (.plain "array") [.token (.plain "#f"), .node (.plain "str") [.str "# \n", .float 1.5] none,
    .token (.plain "$\n(_a"), .nil, .token (.plain ")")] none

theorem parse_renderPretty_nameBeforeNode :
    nameBeforeNode.Scannable ∧
    nameBeforeNode.render = .ok "(array #f (str \"# \\n\" 1.5) $\n(_a nil ))" ∧
    nameBeforeNode.renderPretty 1 = .ok "  (array #f\n    (str \"# \\n\" 1.5) $\n(_a nil ))" ∧
    (∃ ls ms, tokenize "(array #f (str \"# \\n\" 1.5) $\n(_a nil ))" = .ok ls ∧
      tokenize "  (array #f\n    (str \"# \\n\" 1.5) $\n(_a nil ))" = .ok ms ∧
      Grammar.Alike ls ms) ∧
    ∃ e, Grammar.parse "(array #f (str \"# \\n\" 1.5) $\n(_a nil ))" = .ok e ∧
      Grammar.parse "  (array #f\n    (str \"# \\n\" 1.5) $\n(_a nil ))" = .ok e := by
  have scannable : nameBeforeNode.Scannable :=
    ⟨by decide, ⟨⟨_, rfl⟩, by decide⟩, ⟨by decide, trivial, ⟨_, _, _, rfl⟩, trivial⟩,
      ⟨⟨_, rfl⟩, by decide⟩, trivial, ⟨⟨_, rfl⟩, by decide⟩, trivial⟩
  have form : nameBeforeNode.render = .ok "(array #f (str \"# \\n\" 1.5) $\n(_a nil ))" := rfl
  have form' : nameBeforeNode.renderPretty 1 =
      .ok "  (array #f\n    (str \"# \\n\" 1.5) $\n(_a nil ))" := rfl
  obtain ⟨text, text', rendered, rendered', lexemes, same⟩ := parse_renderPretty scannable 1
  cases form.symm.trans rendered
  cases form'.symm.trans rendered'
  refine ⟨scannable, form, form', lexemes, ?_⟩
  -- The pattern is read off the form on one line, where the name and the bracket are apart too.
  have apart : Grammar.Detached ⟨.function "f", "#f", 7⟩ [⟨.opening .round, "(", 10⟩] := by
    rintro _ ⟨⟩ _
    decide
  have parsed : ∃ e, Grammar.parse "(array #f (str \"# \\n\" 1.5) $\n(_a nil ))" = .ok e :=
    ⟨_, Grammar.parse_eq_ok_iff.mpr ⟨_, rfl, .sequence rfl (.item (.nodeType rfl)
      (.item (.call rfl apart)
      (.item (.sequence rfl (.item (.nodeType rfl) (.item (.scalar rfl)
        (.item (.scalar rfl) (.close rfl)))) (by simp))
      (.item (.capture rfl (.sequence rfl (.item (.unify rfl) (.item (.nodeType rfl)
        (.close rfl))) (by simp))) (.close rfl))))) (by simp)⟩⟩
  rcases same with same | ⟨_, _, _, _, refused, -⟩
  · exact same
  · obtain ⟨e, parsed⟩ := parsed
    cases refused.symm.trans parsed

end Value

end RubyPattern
