/-
  RubyPattern.Proofs.RegexTexts

  The pattern of a regular expression without interpolations. It becomes one text
  in the tree, put together from the pieces of the source, and a piece that is an
  escape is decoded as in a string. Decoding drops every backslash that has
  something behind it. So the tree has the pattern as it is written exactly if no
  escape has such a backslash, and of two regular expressions with escapes the
  trees can be equal though the patterns differ.
-/
import RubyPattern.Proofs.EscapeItems
import RubyPattern.Proofs.LoweringFaults

namespace RubyPattern

-- ============================================================================
-- Texts that decoding keeps
-- ============================================================================

theorem Except.map_eq_ok_iff {α β : Type} {result : Except Fault α} {f : α → β} {b : β} :
    result.map f = .ok b ↔ ∃ a, result = .ok a ∧ f a = b := by
  cases result <;> simp [Except.map]

namespace Escape

/-- Decoding makes no text longer, and shortens it if a backslash has something
    behind it. -/
theorem length_of_decodeFrom {cs ds : List Char} (h : decodeFrom 0 cs = .ok ds) :
    ds.length ≤ cs.length ∧ ('\\' ∈ cs.dropLast → ds.length < cs.length) := by
  -- An escape takes more than one character at once, so the induction is on the length.
  induction length : cs.length using Nat.strongRecOn generalizing cs ds with
  | ind length ih =>
    subst length
    rcases cs with _ | ⟨b, cs⟩
    · cases h
      exact ⟨Nat.le_refl 0, fun mem => nomatch mem⟩
    by_cases backslash : b = '\\'
    · subst backslash
      cases number : numeric? cs with
      | none =>
        rcases cs with _ | ⟨c, cs⟩
        · cases h
          exact ⟨Nat.le_refl 1, fun mem => nomatch mem⟩
        rw [decodeFrom_letter number, Except.map_eq_ok_iff] at h
        obtain ⟨es, later, rfl⟩ := h
        have fewer : cs.length < ('\\' :: c :: cs).length := by
          rw [List.length_cons, List.length_cons]
          omega
        have shorter := (ih cs.length fewer later rfl).1
        rw [List.length_cons, List.length_cons, List.length_cons]
        exact ⟨by omega, fun _ => by omega⟩
      | some hit =>
        obtain ⟨n, size⟩ := hit
        have positive := (numeric?_spec number).1
        have nonempty : cs ≠ [] := by
          rintro rfl
          cases number
        have some := List.length_pos_iff.mpr nonempty
        rw [decodeFrom_number number] at h
        cases point : codePoint n with
        | error fault =>
          rw [point] at h
          cases h
        | ok d =>
          rw [point, Except.bind, Except.map_eq_ok_iff] at h
          obtain ⟨es, later, rfl⟩ := h
          have shorter := (ih _ (by rw [List.length_drop, List.length_cons]; omega) later rfl).1
          rw [List.length_drop] at shorter
          rw [List.length_cons, List.length_cons]
          exact ⟨by omega, fun _ => by omega⟩
    · rw [decodeFrom_plain backslash, Except.map_eq_ok_iff] at h
      obtain ⟨es, later, rfl⟩ := h
      obtain ⟨shorter, strict⟩ := ih cs.length (by simp) later rfl
      rw [List.length_cons, List.length_cons]
      refine ⟨by omega, fun mem => ?_⟩
      have behind : '\\' ∈ cs.dropLast := by
        cases cs with
        | nil => cases mem
        | cons c cs =>
          rw [List.dropLast_cons_cons, List.mem_cons] at mem
          exact mem.resolve_left (Ne.symm backslash)
      have less := strict behind
      omega

/-- Decoding keeps a text exactly if no backslash in it has something behind it. -/
theorem decode_eq_self_iff {cs : List Char} : decode cs = .ok cs ↔ '\\' ∉ cs.dropLast := by
  constructor
  · intro same mem
    exact absurd ((length_of_decodeFrom same).2 mem) (Nat.lt_irrefl _)
  · intro plain
    rcases List.eq_nil_or_concat cs with rfl | ⟨front, last, rfl⟩
    · rfl
    · rw [List.concat_eq_append, List.dropLast_concat] at plain
      have front_plain : ∀ c ∈ front, c ≠ '\\' := fun c mem same => plain (same ▸ mem)
      have alone : decodeFrom 0 [last] = .ok [last] := by
        by_cases backslash : last = '\\'
        · rw [backslash]
          rfl
        · rw [decodeFrom_plain backslash]
          rfl
      rw [List.concat_eq_append, decode, decodeFrom_front front_plain, alone]
      rfl

end Escape

namespace Ruby

open Context

-- ============================================================================
-- Regular expressions without interpolations
-- ============================================================================

/-- What a piece of a regular expression adds to the text in the tree: its source
    text, which is decoded if it is an escape. -/
def Origin.pieceText (o : Origin) (c : Cst) : Except Fault (List Char) :=
  if c.kind = .escapeSequence then Escape.decode (o.sourceOf c) else .ok (o.sourceOf c)

/-- The pattern of a regular expression as it is written. -/
def Origin.patternText (o : Origin) (c : Cst) : List Char :=
  c.plainChildren.flatMap o.sourceOf

/-- A regular expression of characters and escapes only, between characters of
    the source. -/
structure PlainRegex (o : Origin) (c : Cst) : Prop where
  kind : c.kind = .regex
  present : c.head.missing = false
  pieces : ∀ d ∈ c.plainChildren, d.kind = .stringContent ∨ d.kind = .escapeSequence
  readable : ∀ d ∈ c :: c.plainChildren, (slice? o.chars d.head.start d.head.stop).isSome

instance (o : Origin) (c : Cst) : Decidable (PlainRegex o c) :=
  decidable_of_iff
    (c.kind = .regex ∧ c.head.missing = false ∧
      (∀ d ∈ c.plainChildren, d.kind = .stringContent ∨ d.kind = .escapeSequence) ∧
      ∀ d ∈ c :: c.plainChildren, (slice? o.chars d.head.start d.head.stop).isSome)
    ⟨fun ⟨h₁, h₂, h₃, h₄⟩ => ⟨h₁, h₂, h₃, h₄⟩, fun ⟨h₁, h₂, h₃, h₄⟩ => ⟨h₁, h₂, h₃, h₄⟩⟩

/-- No escape of a regular expression has a backslash with something behind it. -/
def KeepsEscapes (o : Origin) (c : Cst) : Prop :=
  ∀ d ∈ c.plainChildren, d.kind = .escapeSequence → '\\' ∉ (o.sourceOf d).dropLast

instance (o : Origin) (c : Cst) : Decidable (KeepsEscapes o c) :=
  inferInstanceAs (Decidable (∀ d ∈ _, _ → _))

/-- The string in the tree that some texts are put together to, if there are any. -/
def patternChildren (texts : List (List Char)) : List Value :=
  if texts.isEmpty then []
  else [(Node.bare "str" [.str (String.ofList texts.flatten)]).toValue]

/-- The node of a regular expression with some texts in it. -/
def Origin.regexNode (o : Origin) (c : Cst) (l : Location) (texts : List (List Char)) : Node :=
  let flags := regexFlags (String.ofList (o.sourceOf c))
  let options := Node.bare "regopt" (flags.map fun flag => .sym (String.singleton flag))
  ⟨.plain "regexp", patternChildren texts ++ [options.toValue], some l⟩

-- ============================================================================
-- How they are lowered
-- ============================================================================

section

variable {o : Origin} {c : Cst}

/-- Texts that stand side by side become one. -/
theorem joinTexts_map_text {texts : List (List Char)} (nonempty : texts ≠ []) :
    joinTexts (texts.map fun cs => .text (String.ofList cs)) =
      [.text (String.ofList texts.flatten)] := by
  induction texts with
  | nil => exact absurd rfl nonempty
  | cons cs texts ih =>
    cases texts with
    | nil => simp [joinTexts]
    | cons ds texts =>
      have later := ih (List.cons_ne_nil ds texts)
      rw [List.map_cons, joinTexts, later]
      simp [String.ofList_append]

theorem map_toValue_joinTexts (texts : List (List Char)) :
    (joinTexts (texts.map fun cs => .text (String.ofList cs))).map Piece.toValue =
      patternChildren texts := by
  cases texts with
  | nil => rfl
  | cons cs texts =>
    rw [joinTexts_map_text (List.cons_ne_nil cs texts)]
    rfl

variable {w : Context} {limit : Int} {room : Nat}

theorem piece_eq {d : Cst} (kind : d.kind = .stringContent ∨ d.kind = .escapeSequence)
    (readable : (slice? w.chars d.head.start d.head.stop).isSome) (s : Scopes) :
    w.piece d s = (w.pieceText d).map fun cs => (.text (String.ofList cs), s) := by
  have text := Origin.text_eq readable s
  rcases kind with kind | kind
  · simp only [piece, kind, bind, StateT.bind, Except.bind, text, Origin.pieceText]
    rfl
  · simp only [piece, kind, bind, StateT.bind, Except.bind, text, Origin.pieceText,
      Escape.decodeString, String.toList_ofList, if_true]
    cases Escape.decode (w.sourceOf d) <;> rfl

theorem pieces_eq {ds : List Cst} (s : Scopes)
    (each : ∀ d ∈ ds, w.piece d s = (w.pieceText d).map fun cs => (.text (String.ofList cs), s)) :
    w.pieces ds s = (ds.mapM w.pieceText).map fun texts =>
      (texts.map fun cs => .text (String.ofList cs), s) := by
  induction ds with
  | nil => rfl
  | cons d ds ih =>
    rw [List.forall_mem_cons] at each
    simp only [pieces, List.mapM_cons, bind, StateT.bind, Except.bind, each.1]
    cases w.pieceText d with
    | error fault => rfl
    | ok cs =>
      simp only [Except.map, ih each.2]
      cases ds.mapM w.pieceText <;> rfl

/-- A regular expression is lowered piece by piece, and has all texts in one. -/
theorem lower_regex (plain : PlainRegex o c) :
    ∃ l, o.Spans c c l ∧ ∀ (limit : Int) (room : Nat) (s : Scopes),
      lower o limit (room + 1) c s =
        (c.plainChildren.mapM o.pieceText).map fun texts => (o.regexNode c l texts, s) := by
  obtain ⟨self, inside⟩ := List.forall_mem_cons.mp plain.readable
  obtain ⟨l, span, place⟩ := Origin.span_eq self
  refine ⟨l, span, fun limit room s => ?_⟩
  have handled : lower o limit (room + 1) c = Context.regex ⟨o, lower o limit room⟩ c := by
    rw [lower, plain.present, plain.kind]
    rfl
  have pieces := pieces_eq (w := ⟨o, lower o limit room⟩) s fun d mem =>
    piece_eq (plain.pieces d mem) (inside d mem) s
  have text := Origin.text_eq self s
  rw [handled]
  simp only [regex, stringPieces, bind, StateT.bind, Except.bind, pieces]
  cases c.plainChildren.mapM o.pieceText with
  | error fault => rfl
  | ok texts =>
    have given : ∀ ps : List Piece, (pure ps : Lowering (List Piece)) s = .ok (ps, s) := fun _ => rfl
    simp only [Except.map, given, text, Origin.located, bind, StateT.bind, Except.bind, place,
      map_toValue_joinTexts]
    rfl

-- ============================================================================
-- The pattern as it is written
-- ============================================================================

/-- What is read of a piece; nothing if an escape in it is beyond Unicode. -/
def Origin.decodedText (o : Origin) (c : Cst) : List Char :=
  (o.pieceText c).toOption.getD []

theorem eq_map_of_mapM_pieceText {ds : List Cst} {texts : List (List Char)}
    (h : ds.mapM o.pieceText = .ok texts) :
    texts = ds.map o.decodedText ∧ ∀ d ∈ ds, o.pieceText d = .ok (o.decodedText d) := by
  induction ds generalizing texts with
  | nil =>
    cases h
    exact ⟨rfl, List.forall_mem_nil _⟩
  | cons d ds ih =>
    rw [List.mapM_cons] at h
    cases here : o.pieceText d with
    | error fault => simp [here, bind, Except.bind] at h
    | ok cs =>
      cases behind : ds.mapM o.pieceText with
      | error fault => simp [here, behind, bind, Except.bind] at h
      | ok rest =>
        simp only [here, behind, bind, Except.bind, pure, Except.pure, Except.ok.injEq] at h
        obtain ⟨same, each⟩ := ih behind
        have read : o.decodedText d = cs := by
          rw [Origin.decodedText, here]
          rfl
        rw [List.map_cons, List.forall_mem_cons, read, ← same]
        exact ⟨h.symm, here, each⟩

theorem mapM_pieceText_eq_ok {ds : List Cst} {text : Cst → List Char}
    (each : ∀ d ∈ ds, o.pieceText d = .ok (text d)) : ds.mapM o.pieceText = .ok (ds.map text) := by
  induction ds with
  | nil => rfl
  | cons d ds ih =>
    rw [List.forall_mem_cons] at each
    rw [List.mapM_cons, each.1, ih each.2]
    rfl

/-- A piece is kept exactly if it is no escape that decoding changes. -/
theorem pieceText_eq_sourceOf_iff {d : Cst} : o.pieceText d = .ok (o.sourceOf d) ↔
    (d.kind = .escapeSequence → '\\' ∉ (o.sourceOf d).dropLast) := by
  rw [Origin.pieceText]
  split
  next escape => simp [escape, Escape.decode_eq_self_iff]
  next other => simp [other]

/-- No piece becomes longer. -/
theorem length_decodedText_le (o : Origin) (d : Cst) :
    (o.decodedText d).length ≤ (o.sourceOf d).length := by
  rw [Origin.decodedText, Origin.pieceText]
  split
  next =>
    cases decoded : Escape.decode (o.sourceOf d) with
    | error fault => exact Nat.zero_le _
    | ok cs => exact (Escape.length_of_decodeFrom decoded).1
  next => exact Nat.le_refl _

theorem flatten_eq_of_patternChildren {texts texts' : List (List Char)}
    (same : patternChildren texts = patternChildren texts') : texts.flatten = texts'.flatten := by
  cases texts with
  | nil =>
    cases texts' with
    | nil => rfl
    | cons cs texts' => cases same
  | cons cs texts =>
    cases texts' with
    | nil => cases same
    | cons ds texts' =>
      simp only [patternChildren, List.isEmpty_cons, Bool.false_eq_true, if_false, Node.toValue,
        Node.bare, List.cons.injEq, Value.node.injEq, Value.str.injEq, String.ofList_inj, true_and,
        and_true] at same
      exact same

/-- Equal trees have the same text in them. -/
theorem flatten_eq_of_same {o' : Origin} {c' : Cst} {l l' : Location}
    {texts texts' : List (List Char)}
    (same : (o.regexNode c l texts).toValue.same (o'.regexNode c' l' texts').toValue = true) :
    texts.flatten = texts'.flatten := by
  rw [Node.toValue, Node.toValue, Value.same, Bool.and_eq_true] at same
  have children := same.2
  dsimp only [Origin.regexNode] at children
  cases texts with
  | nil =>
    cases texts' with
    | nil => rfl
    | cons cs texts' => simp [patternChildren, Value.sameAll] at children
  | cons cs texts =>
    cases texts' with
    | nil => simp [patternChildren, Value.sameAll] at children
    | cons ds texts' =>
      simp only [patternChildren, List.isEmpty_cons, Bool.false_eq_true, if_false,
        List.singleton_append, Value.sameAll, Bool.and_eq_true, Node.toValue, Node.bare,
        Value.sameNan, Value.same, Value.sameLeaf, Bool.false_or, beq_iff_eq,
        String.ofList_inj] at children
      exact children.1.2.1

end

/-- A regular expression of characters and escapes is lowered to one text with its
    pieces in order. This is the pattern as it is written if and only if no escape
    has a backslash with something behind it; and regular expressions without such
    escapes have equal trees only if they have the same pattern. -/
theorem lower_regex_verbatim_iff {o : Origin} {c : Cst} (plain : PlainRegex o c) (limit : Int)
    (room : Nat) :
    ∃ l, o.Spans c c l ∧
      (∀ s, lower o limit (room + 1) c s =
        (c.plainChildren.mapM o.pieceText).map fun texts => (o.regexNode c l texts, s)) ∧
      (∀ s, lower o limit (room + 1) c s =
        .ok (o.regexNode c l (c.plainChildren.map o.sourceOf), s) ↔ KeepsEscapes o c) ∧
      ∀ {o' : Origin} {c' : Cst}, PlainRegex o' c' → KeepsEscapes o c → KeepsEscapes o' c' →
        ∀ {limit' room' s s' t t'} {n n' : Node},
          lower o limit (room + 1) c s = .ok (n, t) →
          lower o' limit' (room' + 1) c' s' = .ok (n', t') → n.toValue.same n'.toValue = true →
          o.patternText c = o'.patternText c' := by
  obtain ⟨l, span, run⟩ := lower_regex plain
  have kept {o : Origin} {c : Cst} (keeps : KeepsEscapes o c) :
      c.plainChildren.mapM o.pieceText = .ok (c.plainChildren.map o.sourceOf) :=
    mapM_pieceText_eq_ok fun d mem => pieceText_eq_sourceOf_iff.mpr (keeps d mem)
  refine ⟨l, span, run limit room, fun s => ⟨fun verbatim => ?_, fun keeps => ?_⟩, ?_⟩
  · rw [run, Except.map_eq_ok_iff] at verbatim
    obtain ⟨texts, read, same⟩ := verbatim
    obtain ⟨rfl, each⟩ := eq_map_of_mapM_pieceText read
    have children := congrArg (Node.children ·.1) same
    have joined := flatten_eq_of_patternChildren (List.append_cancel_right children)
    rw [← List.flatMap_def, ← List.flatMap_def, eq_comm,
      Escape.flatMap_eq_flatMap_iff fun d _ => length_decodedText_le o d] at joined
    intro d mem
    rw [← pieceText_eq_sourceOf_iff, each d mem, joined d mem]
  · rw [run, kept keeps]
    rfl
  · intro o' c' plain' keeps keeps' limit' room' s s' t t' n n' lowered lowered' same
    obtain ⟨l', -, run'⟩ := lower_regex plain'
    rw [run, kept keeps] at lowered
    rw [run', kept keeps'] at lowered'
    cases lowered
    cases lowered'
    have joined := flatten_eq_of_same same
    rw [Origin.patternText, Origin.patternText, List.flatMap_def, List.flatMap_def, joined]

/-- At most one lower-case letter at the end is what the flags are. -/
theorem regexFlags_eq {s : String} {flags : List Char}
    (letters : s.toList.reverse.takeWhile Char.isLower = flags) (few : flags.length ≤ 1) :
    regexFlags s = flags := by
  rw [regexFlags, letters]
  match flags, few with
  | [], _ => rw [List.mergeSort_nil]; rfl
  | [flag], _ => rw [List.mergeSort_singleton]; rfl

/-- The source `/a\d/i`, read as a regular expression of a character and an escape. -/
def letterAndDigit : Cst :=
  .mk ⟨.regex, 0, 6, none, true, false, false⟩
    [.mk ⟨.other "/", 0, 1, none, false, false, false⟩ [],
      .mk ⟨.stringContent, 1, 2, none, true, false, false⟩ [],
      .mk ⟨.escapeSequence, 2, 4, none, true, false, false⟩ [],
      .mk ⟨.other "/i", 4, 6, none, false, false, false⟩ []]

theorem lower_regex_verbatim_iff_letterAndDigit :
    let o : Origin := ⟨"/a\\d/i", "/a\\d/i".toList, "3.3"⟩
    PlainRegex o letterAndDigit ∧ o.patternText letterAndDigit = "a\\d".toList ∧
      ∃ l, (∀ s, lower o 200 200 letterAndDigit s =
          .ok (o.regexNode letterAndDigit l [['a'], ['d']], s)) ∧
        (o.regexNode letterAndDigit l [['a'], ['d']]).toValue.render =
          .ok "(regexp (str \"ad\") (regopt :i))" ∧
        ∀ s, lower o 200 200 letterAndDigit s ≠
          .ok (o.regexNode letterAndDigit l [['a'], ['\\', 'd']], s) := by
  intro o
  have plain : PlainRegex o letterAndDigit := by decide
  have changed : ¬ KeepsEscapes o letterAndDigit := by decide
  obtain ⟨l, -, run, verbatim, -⟩ := lower_regex_verbatim_iff plain 200 199
  have flags : regexFlags (String.ofList (o.sourceOf letterAndDigit)) = ['i'] :=
    regexFlags_eq (by decide) (by decide)
  have rendered : (o.regexNode letterAndDigit l [['a'], ['d']]).toValue.render =
      .ok "(regexp (str \"ad\") (regopt :i))" := by
    rw [Origin.regexNode, flags]
    rfl
  exact ⟨plain, by decide, l, run, rendered, fun s same => changed ((verbatim s).mp same)⟩

/-- The source `/\d/`, read as a regular expression of one escape. -/
def digitClass : Cst :=
  .mk ⟨.regex, 0, 4, none, true, false, false⟩
    [.mk ⟨.other "/", 0, 1, none, false, false, false⟩ [],
      .mk ⟨.escapeSequence, 1, 3, none, true, false, false⟩ [],
      .mk ⟨.other "/", 3, 4, none, false, false, false⟩ []]

/-- The source `/d/`, read as a regular expression of one character. -/
def letterClass : Cst :=
  .mk ⟨.regex, 0, 3, none, true, false, false⟩
    [.mk ⟨.other "/", 0, 1, none, false, false, false⟩ [],
      .mk ⟨.stringContent, 1, 2, none, true, false, false⟩ [],
      .mk ⟨.other "/", 2, 3, none, false, false, false⟩ []]

/-- The tree of `/\d/` is that of `/d/`. -/
theorem same_digitClass_letterClass :
    let o : Origin := ⟨"/\\d/", "/\\d/".toList, "3.3"⟩
    let o' : Origin := ⟨"/d/", "/d/".toList, "3.3"⟩
    ∃ n n', lower o 200 200 digitClass Scopes.initial = .ok (n, Scopes.initial) ∧
      lower o' 200 200 letterClass Scopes.initial = .ok (n', Scopes.initial) ∧
      n.toValue.same n'.toValue = true ∧ o.patternText digitClass ≠ o'.patternText letterClass := by
  intro o o'
  obtain ⟨l, -, run⟩ := lower_regex (o := o) (c := digitClass) (by decide)
  obtain ⟨l', -, run'⟩ := lower_regex (o := o') (c := letterClass) (by decide)
  have flags : regexFlags (String.ofList (o.sourceOf digitClass)) = [] :=
    regexFlags_eq (by decide) (by decide)
  have flags' : regexFlags (String.ofList (o'.sourceOf letterClass)) = [] :=
    regexFlags_eq (by decide) (by decide)
  have same : (o.regexNode digitClass l [['d']]).toValue.same
      (o'.regexNode letterClass l' [['d']]).toValue = true := by
    rw [Origin.regexNode, Origin.regexNode, flags, flags']
    simp [Node.toValue, Node.bare, patternChildren, Value.same, Value.sameAll, Value.sameLeaf]
  exact ⟨_, _, run 200 199 _, run' 200 199 _, same, by decide⟩

end Ruby

end RubyPattern
