/-
  RubyPattern.Proofs.QuotedKeys

  Quoted keys of hashes. A key in quotes is a symbol in front of a colon and a string
  in front of an arrow. The separator is not read off the pair: a key without
  interpolations is a string if the text between key and value has an arrow in it,
  be it in a comment, and a symbol if not; and a key with interpolations is a dynamic
  string in front of either. So the key is of the right sort in front of an arrow,
  and in front of a colon if it has no interpolations and no comment has an arrow.
-/
import RubyPattern.Proofs.MadeTrees
import RubyPattern.Proofs.Offsets

namespace RubyPattern.Ruby

-- ============================================================================
-- Arrows in the source
-- ============================================================================

/-- A hash arrow stands in the source between the end of one construct and the start
    of another. -/
def Origin.ArrowBetween (o : Origin) (c d : Cst) : Prop :=
  ∃ front back, o.chars = front ++ '=' :: '>' :: back ∧ c.head.stop ≤ byteSize front ∧
    byteSize front + 2 ≤ d.head.start

theorem hasArrowFrom_eq_true_iff {start stop offset : Nat} {cs : List Char} :
    hasArrowFrom start stop offset cs = true ↔
      ∃ front back, cs = front ++ '=' :: '>' :: back ∧ start ≤ offset + byteSize front ∧
        offset + byteSize front + 2 ≤ stop := by
  -- The place of an arrow in the text without its first character.
  have later (c : Char) (offset : Nat) (cs : List Char)
      (other : ∀ back, cs = '>' :: back → c ≠ '=' ∨ ¬ (start ≤ offset ∧ offset + 2 ≤ stop)) :
      (∃ front back, cs = front ++ '=' :: '>' :: back ∧
          start ≤ offset + c.utf8Size + byteSize front ∧
          offset + c.utf8Size + byteSize front + 2 ≤ stop) ↔
        ∃ front back, c :: cs = front ++ '=' :: '>' :: back ∧ start ≤ offset + byteSize front ∧
          offset + byteSize front + 2 ≤ stop := by
    constructor
    · rintro ⟨front, back, rfl, starts, stops⟩
      refine ⟨c :: front, back, rfl, ?_, ?_⟩ <;> rw [byteSize_cons] <;> omega
    · rintro ⟨front, back, split, starts, stops⟩
      cases front with
      | nil =>
        cases split
        rcases other back rfl with ne | outside
        · exact absurd rfl ne
        · exact absurd ⟨starts, stops⟩ outside
      | cons d front =>
        cases split
        rw [byteSize_cons] at starts stops
        exact ⟨front, back, rfl, by omega, by omega⟩
  fun_induction hasArrowFrom start stop offset cs with
  | case1 offset cs ih =>
    rw [Bool.or_eq_true, Bool.and_eq_true, Nat.ble_eq, Nat.ble_eq]
    refine (or_congr_right ih).trans ?_
    by_cases here : start ≤ offset ∧ offset + 2 ≤ stop
    · exact ⟨fun _ => ⟨[], cs, rfl, here.1, here.2⟩, fun _ => .inl here⟩
    · rw [or_iff_right here]
      exact later '=' offset ('>' :: cs) fun _ _ => .inr here
  | case2 offset c cs other ih =>
    refine ih.trans (later c offset cs fun back split => .inl ?_)
    rintro rfl
    exact other back rfl split
  | case3 offset =>
    simp

theorem hasArrow_eq_true_iff {o : Origin} {c d : Cst} :
    hasArrow o.chars c.head.stop d.head.start = true ↔ o.ArrowBetween c d := by
  rw [hasArrow, hasArrowFrom_eq_true_iff]
  simp only [Nat.zero_add]
  rfl

theorem exists_of_dropBytes {cs rest : List Char} {n : Nat} (h : dropBytes cs n = some rest)
    (nonempty : rest ≠ []) : ∃ front, cs = front ++ rest ∧ byteSize front = n := by
  fun_induction dropBytes cs n with
  | case1 cs =>
    cases h
    exact ⟨[], rfl, rfl⟩
  | case2 n =>
    cases h
    exact absurd rfl nonempty
  | case3 c cs n fits ih =>
    obtain ⟨front, rfl, size⟩ := ih h
    refine ⟨c :: front, rfl, ?_⟩
    rw [byteSize_cons, size]
    omega
  | case4 => cases h

theorem exists_of_takeBytes {cs stretch : List Char} {n : Nat}
    (h : takeBytes cs n = some stretch) : ∃ back, cs = stretch ++ back ∧ byteSize stretch ≤ n := by
  fun_induction takeBytes cs n generalizing stretch with
  | case1 cs =>
    cases h
    exact ⟨cs, rfl, Nat.le_refl 0⟩
  | case2 n =>
    cases h
    exact ⟨[], rfl, Nat.zero_le _⟩
  | case3 c cs n fits ih =>
    rw [Option.map_eq_some_iff] at h
    obtain ⟨stretch, taken, rfl⟩ := h
    obtain ⟨back, rfl, size⟩ := ih taken
    refine ⟨back, rfl, ?_⟩
    rw [byteSize_cons]
    omega
  | case4 => cases h

/-- A stretch with some text in it stands where its offsets say. -/
theorem exists_of_slice? {cs stretch : List Char} {start stop : Nat}
    (h : slice? cs start stop = some stretch) (nonempty : stretch ≠ []) :
    ∃ front back, cs = front ++ stretch ++ back ∧ byteSize front = start ∧
      start + byteSize stretch ≤ stop := by
  unfold slice? at h
  split at h
  next =>
    cases h
    exact absurd rfl nonempty
  next =>
    obtain ⟨rest, dropped, taken⟩ := Option.bind_eq_some_iff.mp h
    obtain ⟨back, rfl, size⟩ := exists_of_takeBytes taken
    obtain ⟨front, rfl, starts⟩ := exists_of_dropBytes dropped (by simp [nonempty])
    exact ⟨front, back, by rw [List.append_assoc], starts, by omega⟩

-- ============================================================================
-- Strings with interpolations
-- ============================================================================

/-- A string has an interpolation among its pieces. -/
def Cst.Interpolates (c : Cst) : Prop :=
  ∃ d ∈ c.plainChildren, d.kind = .interpolation

instance (c : Cst) : Decidable c.Interpolates :=
  inferInstanceAs (Decidable (∃ d ∈ c.plainChildren, _))

/-- A piece is an interpolation. -/
def Context.Piece.IsCode : Context.Piece → Prop
  | .text _ => False
  | .code _ => True

namespace Context

variable {w : Context}

theorem yields_piece_isCode (d : Cst) :
    Yields (w.piece d) fun p => p.IsCode ↔ d.kind = .interpolation := by
  unfold piece
  split
  next kind => exact .after fun s => .pure (by simp [Piece.IsCode, kind])
  next kind => exact .after fun _ => .after fun s => .pure (by simp [Piece.IsCode, kind])
  next kind => exact .after fun _ => .after fun n => .pure (by simp [Piece.IsCode, kind])
  next => exact .throw _

theorem yields_pieces_isCode (ds : List Cst) :
    Yields (w.pieces ds) fun ps =>
      (∃ p ∈ ps, p.IsCode) ↔ ∃ d ∈ ds, d.kind = .interpolation := by
  induction ds with
  | nil => exact .pure (by simp)
  | cons d ds ih =>
    refine (yields_piece_isCode d).bind fun p hp => ih.bind fun ps hps => .pure ?_
    rw [List.exists_mem_cons_iff, List.exists_mem_cons_iff, hp, hps]

/-- Texts are joined, and interpolations stay. -/
theorem exists_isCode_joinTexts (ps : List Piece) :
    (∃ p ∈ joinTexts ps, p.IsCode) ↔ ∃ p ∈ ps, p.IsCode := by
  fun_induction joinTexts with
  | case1 => rfl
  | case2 n ps ih =>
    rw [List.exists_mem_cons_iff, List.exists_mem_cons_iff]
    exact or_congr_right ih
  | case3 s ps t rest joined ih =>
    rw [joined, List.exists_mem_cons_iff] at ih
    rw [List.exists_mem_cons_iff, List.exists_mem_cons_iff, ← ih]
    exact ⟨fun h => .inr h, fun h => h.elim False.elim id⟩
  | case4 s ps _ ih =>
    rw [List.exists_mem_cons_iff, List.exists_mem_cons_iff]
    exact or_congr_right ih

/-- Without interpolations there is at most one text. -/
theorem joinTexts_of_no_code {ps : List Piece} (texts : ¬ ∃ p ∈ ps, p.IsCode) :
    joinTexts ps = [] ∨ ∃ s, joinTexts ps = [.text s] := by
  induction ps with
  | nil => exact .inl rfl
  | cons p ps ih =>
    rw [List.exists_mem_cons_iff, not_or] at texts
    cases p with
    | code n => exact absurd trivial texts.1
    | text s =>
      rw [joinTexts]
      rcases ih texts.2 with none | ⟨t, one⟩
      · rw [none]
        exact .inr ⟨s, rfl⟩
      · rw [one]
        exact .inr ⟨s ++ t, rfl⟩

/-- A string is dynamic if and only if it has an interpolation. -/
theorem yields_string_type (c : Cst) :
    Yields (w.string c) fun n =>
      n.type = .plain (if c.Interpolates then "dstr" else "str") := by
  by_cases code : c.Interpolates
  · simp only [if_pos code]
    have pieces : Yields (w.stringPieces c) fun ps => ∃ p ∈ ps, p.IsCode :=
      (yields_pieces_isCode c.plainChildren).bind fun ps hps =>
        .pure ((exists_isCode_joinTexts ps).mpr (hps.mpr code))
    refine pieces.bind fun ps hps => ?_
    obtain ⟨p, mem, isCode⟩ := hps
    split
    next => cases mem
    next s =>
      rw [List.mem_singleton.mp mem] at isCode
      exact isCode.elim
    next => exact yields_located_type _ _
  · simp only [if_neg code]
    have pieces : Yields (w.stringPieces c) fun ps => ps = [] ∨ ∃ s, ps = [.text s] :=
      (yields_pieces_isCode c.plainChildren).bind fun ps hps =>
        .pure (joinTexts_of_no_code fun isCode => code (hps.mp isCode))
    refine pieces.bind fun ps hps => ?_
    rcases hps with rfl | ⟨s, rfl⟩
    · exact yields_located_type _ _
    · exact yields_located_type _ _

end Context

-- ============================================================================
-- Pairs with a quoted key
-- ============================================================================

/-- What stands between the key and the value of a pair. -/
inductive Separator where
  | colon
  | arrow
  deriving DecidableEq

namespace Separator

/-- The separator as it is written. -/
def text : Separator → String
  | .colon => ":"
  | .arrow => "=>"

/-- The types that a quoted key is to have in front of the separator. -/
def keyTypes : Separator → List String
  | .colon => ["sym", "dsym"]
  | .arrow => ["str", "dstr"]

end Separator

/-- A pair with a key in quotes, a separator and a value. Between key and value may
    stand whatever else, white space and comments. -/
structure QuotedPair (o : Origin) (separator : Separator) (c key token value : Cst) : Prop where
  kind : c.kind = .pair
  keyed : c.part? "key" = some key
  quoted : key.kind = .string
  valued : c.part? "value" = some value
  child : token ∈ c.children
  unnamed : token.head.named = false
  separates : token.kind.name = separator.text
  spelled : slice? o.chars token.head.start token.head.stop = some separator.text.toList
  behindKey : key.head.stop ≤ token.head.start
  beforeValue : token.head.stop ≤ value.head.start

/-- The type of a quoted key, as the source between key and value has it. -/
def Origin.quotedKeyType (o : Origin) (key value : Cst) : String :=
  if key.Interpolates then "dstr"
  else if hasArrow o.chars key.head.stop value.head.start then "str"
  else "sym"

theorem QuotedPair.arrowBetween {o : Origin} {c key token value : Cst}
    (pair : QuotedPair o .arrow c key token value) : o.ArrowBetween key value := by
  obtain ⟨front, back, split, starts, stops⟩ := exists_of_slice? pair.spelled (by decide)
  have size : byteSize Separator.arrow.text.toList = 2 := by decide
  have behindKey := pair.behindKey
  have beforeValue := pair.beforeValue
  rw [size] at stops
  refine ⟨front, back, ?_, by omega, by omega⟩
  rw [split, List.append_assoc]
  rfl

/-- The key of a pair is lowered to a node of this type. -/
theorem Context.yields_pair_key {w : Context} {c key value : Cst}
    (keyed : c.part? "key" = some key) (quoted : key.kind = .string)
    (valued : c.part? "value" = some value)
    (lowered : Yields (w.lower key) fun n =>
      n.type = .plain (if key.Interpolates then "dstr" else "str")) :
    Yields (w.pair c) fun n => ∃ k v : Node, n.children = [k.toValue, v.toValue] ∧
      k.type = .plain (w.quotedKeyType key value) := by
  -- Whatever the key has become, a value follows and both are put together.
  have finish : ∀ {k : Node}, k.type = .plain (w.quotedKeyType key value) →
      Yields (w.lower value >>= fun v => w.located c "pair" [k.toValue, v.toValue])
        fun n => ∃ k v : Node, n.children = [k.toValue, v.toValue] ∧
          k.type = .plain (w.quotedKeyType key value) :=
    fun {k} type => .after fun v => .after fun l => .pure ⟨k, v, rfl, type⟩
  unfold pair
  rw [keyed, valued]
  refine lowered.bind fun k hk => ?_
  dsimp only
  rw [quoted]
  have typed : ∀ {k : Node}, k.type = .plain (w.quotedKeyType key value) →
      Yields (Pure.pure k : Lowering Node) fun k => k.type = .plain (w.quotedKeyType key value) :=
    fun type => .pure type
  split
  next converts =>
    rw [Bool.and_eq_true, Bool.and_eq_true, Bool.not_eq_true', hk] at converts
    obtain ⟨⟨-, string⟩, noArrow⟩ := converts
    have plain : ¬ key.Interpolates := by
      intro code
      rw [if_pos code] at string
      exact absurd string (by decide)
    have type : w.quotedKeyType key value = "sym" := by
      rw [Origin.quotedKeyType, if_neg plain, noArrow]
      rfl
    refine .after fun name => (typed ?_).bind fun k hk => finish hk
    rw [type]
  next keeps =>
    refine (typed ?_).bind fun k hk => finish hk
    rw [hk] at keeps ⊢
    rw [Origin.quotedKeyType]
    by_cases code : key.Interpolates
    · rw [if_pos code, if_pos code]
    · rw [if_neg code] at keeps ⊢
      have arrow : hasArrow w.chars key.head.stop value.head.start = true := by
        simpa using keeps
      rw [if_neg code, if_pos arrow]

/-- The key of a pair that is lowered is a dynamic string if it has an interpolation,
    and otherwise a string or a symbol as an arrow stands between key and value or
    not, in a comment or by itself. So its type fits the separator if and only if
    this is an arrow, or a colon and the key has no interpolations and no arrow stands
    between key and value. -/
theorem keyType_fits_iff {o : Origin} {separator : Separator} {c key token value : Cst}
    (pair : QuotedPair o separator c key token value) {limit : Int} {room : Nat} {s t : Scopes}
    {n : Node} (run : lower o limit room c s = .ok (n, t)) :
    ∃ k v : Node, n.children = [k.toValue, v.toValue] ∧
      (k.type = .plain "dstr" ↔ key.Interpolates) ∧
      (k.type = .plain "str" ↔ ¬ key.Interpolates ∧ o.ArrowBetween key value) ∧
      (k.type = .plain "sym" ↔ ¬ key.Interpolates ∧ ¬ o.ArrowBetween key value) ∧
      (k.type.text ∈ separator.keyTypes ↔
        separator = .arrow ∨ ¬ key.Interpolates ∧ ¬ o.ArrowBetween key value) := by
  have lowered : ∀ room, Yields (lower o limit room key) fun n =>
      n.type = .plain (if key.Interpolates then "dstr" else "str") := fun room => by
    refine yields_lower_of_handler room fun handler smaller _ found => ?_
    rw [pair.quoted] at found
    cases found
    exact Context.yields_string_type key
  have typed : Yields (lower o limit room c) fun n => ∃ k v : Node,
      n.children = [k.toValue, v.toValue] ∧ k.type = .plain (o.quotedKeyType key value) := by
    refine yields_lower_of_handler room fun handler smaller _ found => ?_
    rw [pair.kind] at found
    cases found
    exact Context.yields_pair_key pair.keyed pair.quoted pair.valued (lowered smaller)
  obtain ⟨k, v, children, type⟩ := typed s n t run
  refine ⟨k, v, children, ?_⟩
  have between : separator = .arrow → o.ArrowBetween key value := by
    rintro rfl
    exact pair.arrowBetween
  rw [type, Label.plain, Origin.quotedKeyType]
  rw [← hasArrow_eq_true_iff] at between ⊢
  by_cases code : key.Interpolates
  · cases separator <;> simp [code, Label.plain, Separator.keyTypes]
  · by_cases arrow : hasArrow o.chars key.head.stop value.head.start = true
    · cases separator <;> simp [code, arrow, Label.plain, Separator.keyTypes]
    · have colon : separator = .colon := by
        cases separator with
        | colon => rfl
        | arrow => exact absurd (between rfl) arrow
      simp [code, arrow, colon, Label.plain, Separator.keyTypes]

-- ============================================================================
-- A colon, and an arrow in a comment
-- ============================================================================

/-- The key of the pair in `{"a": # =>`, whose value `2` is on the next line. -/
def commentedKey : Cst :=
  .mk ⟨.string, 1, 4, some "key", true, false, false⟩
    [.mk ⟨.other "\"", 1, 2, none, false, false, false⟩ [],
     .mk ⟨.stringContent, 2, 3, none, true, false, false⟩ [],
     .mk ⟨.other "\"", 3, 4, none, false, false, false⟩ []]

def commentedColon : Cst :=
  .mk ⟨.other ":", 4, 5, none, false, false, false⟩ []

def commentedValue : Cst :=
  .mk ⟨.integer, 11, 12, some "value", true, false, false⟩ []

/-- The pair, with a comment behind its colon. -/
def commentedPair : Cst :=
  .mk ⟨.pair, 1, 12, none, true, false, false⟩
    [commentedKey, commentedColon, .mk ⟨.comment, 6, 10, none, true, false, false⟩ [],
     commentedValue]

theorem keyType_fits_iff_arrowInComment :
    let source := "\x7b\"a\": # =>\n2\x7d"
    let o : Origin := ⟨source, source.toList, "3.3"⟩
    QuotedPair o .colon commentedPair commentedKey commentedColon commentedValue ∧
      ∃ n t, lower o 200 199 commentedPair Scopes.initial = .ok (n, t) ∧
        ∃ k v : Node, n.children = [k.toValue, v.toValue] ∧ k.type = .plain "str" ∧
          k.type.text ∉ Separator.colon.keyTypes := by
  intro source o
  have pair : QuotedPair o .colon commentedPair commentedKey commentedColon commentedValue :=
    ⟨rfl, rfl, rfl, rfl, .tail _ (.head _), rfl, rfl, by decide, by decide, by decide⟩
  have runs : (lower o 200 199 commentedPair Scopes.initial).isOk = true := by decide +kernel
  obtain ⟨⟨n, t⟩, run⟩ : ∃ result, lower o 200 199 commentedPair Scopes.initial = .ok result := by
    cases run : lower o 200 199 commentedPair Scopes.initial with
    | ok result => exact ⟨result, rfl⟩
    | error fault =>
      rw [run] at runs
      cases runs
  obtain ⟨k, v, children, -, string, -, fits⟩ := keyType_fits_iff pair run
  have plain : ¬ commentedKey.Interpolates := by decide
  have arrow : o.ArrowBetween commentedKey commentedValue :=
    ⟨"\x7b\"a\": # ".toList, "\n2\x7d".toList, by decide, by decide, by decide⟩
  refine ⟨pair, n, t, run, k, v, children, string.mpr ⟨plain, arrow⟩, ?_⟩
  rw [fits]
  rintro (colon | ⟨-, none⟩)
  · cases colon
  · exact none arrow

end RubyPattern.Ruby
