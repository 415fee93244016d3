/-
  RubyPattern.Proofs.EscapeItems

  The text between double quotes, item by item. An item is a plain character or
  an escape of Ruby: octal or hexadecimal digits, code points in curly brackets,
  a letter, or a sign that stands for itself. Decoding takes the text apart where
  the items end. It reads all of them as Ruby does but two: of an octal escape it
  decodes the first digit only, and a list of several code points it leaves as it
  stands.
-/
import RubyPattern.Proofs.RefusedTexts

namespace RubyPattern.Escape

open RubyPattern.Text

-- ============================================================================
-- Items
-- ============================================================================

/-- The octal digits. -/
def octalDigits : List Char :=
  ['0', '1', '2', '3', '4', '5', '6', '7']

/-- The number that a run of octal digits denotes. -/
def ofOctal (digits : List Char) : Nat :=
  digits.foldl (fun total d => total * 8 + (d.toNat - '0'.toNat)) 0

/-- The letters of Ruby's simple escapes, with the characters that they denote. -/
def letters : List (Char × Char) :=
  [('a', '\x07'), ('b', '\x08'), ('e', '\x1b'), ('f', '\x0c'), ('n', '\x0a'), ('r', '\x0d'),
   ('s', ' '), ('t', '\x09'), ('v', '\x0b')]

/-- A character that stands for itself behind a backslash: every punctuation
    character, and whatever else is no letter or digit of ASCII and no line end. -/
def IsSign (c : Char) : Prop :=
  c.isAlphanum = false ∧ c ≠ '\n' ∧ c ≠ '\r'

instance (c : Char) : Decidable (IsSign c) :=
  inferInstanceAs (Decidable (_ ∧ _))

/-- Hexadecimal digits that spell a code point: at most 10FFFF, and no half of a
    surrogate pair. -/
structure CodePoint where
  digits : List Char
  nonempty : digits ≠ []
  hex : digits.all isHex = true
  valid : (ofHex digits).isValidChar

theorem CodePoint.isHex (point : CodePoint) : ∀ d ∈ point.digits, Text.isHex d = true :=
  List.all_eq_true.mp point.hex

/-- The character of a code point. -/
def CodePoint.char (point : CodePoint) : Char :=
  Char.ofNat (ofHex point.digits)

/-- A code point behind the first one of a list, with spaces in front. -/
structure FurtherPoint where
  spaces : Nat
  positive : 0 < spaces
  point : CodePoint

/-- The text of a code point behind the first one. -/
def FurtherPoint.text (p : FurtherPoint) : List Char :=
  List.replicate p.spaces ' ' ++ p.point.digits

/-- An item of double-quoted text. -/
inductive Item where
  | plain (c : Char) (other : c ≠ '\\')
  | octal (digits : List Char) (nonempty : digits ≠ []) (short : digits.length ≤ 3)
      (octal : digits.all octalDigits.contains = true)
  | hex (digits : List Char) (nonempty : digits ≠ []) (short : digits.length ≤ 2)
      (hex : digits.all isHex = true)
  | unicode (point : CodePoint) (four : point.digits.length = 4)
  | points (first : CodePoint) (more : List FurtherPoint)
  | letter (c : Char) (known : c ∈ letters.map Prod.fst)
  | sign (c : Char) (other : IsSign c)

namespace Item

/-- How an item is written. -/
def text : Item → List Char
  | plain c _ => [c]
  | octal digits .. => '\\' :: digits
  | hex digits .. => '\\' :: 'x' :: digits
  | unicode point _ => '\\' :: 'u' :: point.digits
  | points first more =>
    '\\' :: 'u' :: '\x7b' :: (first.digits ++ more.flatMap FurtherPoint.text ++ ['\x7d'])
  | letter c _ => ['\\', c]
  | sign c _ => ['\\', c]

/-- The characters that an item denotes in Ruby; octal and hexadecimal digits are
    code points. -/
def chars : Item → List Char
  | plain c _ => [c]
  | octal digits .. => [Char.ofNat (ofOctal digits)]
  | hex digits .. => [Char.ofNat (ofHex digits)]
  | unicode point _ => [point.char]
  | points first more => first.char :: more.map (·.point.char)
  | letter c _ => (letters.lookup c).toList
  | sign c _ => [c]

/-- What decoding makes of an item. -/
def decoded : Item → List Char
  | octal (d :: digits) .. => simple d :: digits
  | points first (p :: more) => (points first (p :: more)).text.drop 1
  | item => item.chars

/-- Whether decoding reads an item as Ruby does: an octal escape only if it is a
    zero by itself, and a list of code points only if it has one. -/
def IsKept : Item → Prop
  | octal digits .. => digits = ['0']
  | points _ more => more = []
  | _ => True

instance : DecidablePred IsKept := fun item =>
  match item with
  | octal digits .. => inferInstanceAs (Decidable (digits = ['0']))
  | points _ [] => .isTrue rfl
  | points _ (_ :: _) => .isFalse nofun
  | plain .. | hex .. | unicode .. | letter .. | sign .. => .isTrue trivial

/-- The digits of an item do not go on in the text behind it: there are as many
    as an escape can have, or what follows is no digit. -/
def EndsBefore (rest : List Char) : Item → Prop
  | octal digits .. => digits.length < 3 → rest.head?.any octalDigits.contains = false
  | hex digits .. => digits.length < 2 → rest.head?.any isHex = false
  | _ => True

instance (rest : List Char) : DecidablePred (EndsBefore rest) := fun item =>
  match item with
  | octal digits .. =>
    inferInstanceAs (Decidable (digits.length < 3 → rest.head?.any octalDigits.contains = false))
  | hex digits .. =>
    inferInstanceAs (Decidable (digits.length < 2 → rest.head?.any isHex = false))
  | plain .. | unicode .. | points .. | letter .. | sign .. => .isTrue trivial

end Item

/-- The text of some items. -/
def textOf (items : List Item) : List Char :=
  items.flatMap Item.text

/-- The runs of digits of some items are as long as they can be. -/
def Longest : List Item → Prop
  | [] => True
  | item :: items => item.EndsBefore (textOf items) ∧ Longest items

instance decidableLongest : (items : List Item) → Decidable (Longest items)
  | [] => .isTrue trivial
  | _ :: items => @instDecidableAnd _ _ _ (decidableLongest items)

-- ============================================================================
-- Decoding an item
-- ============================================================================

theorem codePoint_of_valid {n : Nat} (valid : n.isValidChar) : codePoint n = .ok (Char.ofNat n) := by
  have inRange : n ≤ 0x10FFFF := by
    rcases valid with low | high
    · omega
    · omega
  rw [codePoint, if_neg (by omega), if_pos valid]

/-- Text without a backslash stands for itself. -/
theorem decodeFrom_front {front : List Char} (plain : ∀ c ∈ front, c ≠ '\\') (rest : List Char) :
    decodeFrom 0 (front ++ rest) = (decodeFrom 0 rest).map (front ++ ·) := by
  induction front with
  | nil =>
    rw [List.nil_append]
    cases decodeFrom 0 rest <;> rfl
  | cons c front ih =>
    rw [List.forall_mem_cons] at plain
    rw [List.cons_append, decodeFrom_plain plain.1, ih plain.2]
    cases decodeFrom 0 rest <;> rfl

/-- A number whose digits are read up to their end stands for its character. -/
theorem decodeFrom_point (front : List Char) {rest : List Char} {n : Nat} (valid : n.isValidChar)
    (number : numeric? (front ++ rest) = some (n, front.length)) :
    decodeFrom 0 ('\\' :: (front ++ rest)) = (decodeFrom 0 rest).map ([Char.ofNat n] ++ ·) := by
  rw [decodeFrom_number number, codePoint_of_valid valid, List.drop_left]
  rfl

/-- One or two digits behind the letter, if no digit follows that could be one of
    them. -/
theorem numeric?_hex {digits rest : List Char} (nonempty : digits ≠ []) (short : digits.length ≤ 2)
    (hex : ∀ d ∈ digits, isHex d = true)
    (ends : digits.length < 2 → rest.head?.any isHex = false) :
    numeric? ('x' :: (digits ++ rest)) = some (ofHex digits, digits.length + 1) := by
  have front : ((digits ++ rest).take 2).takeWhile isHex = digits := by
    rw [List.take_append, List.take_of_length_le short, List.takeWhile_append_of_pos hex]
    by_cases two : digits.length = 2
    · rw [two, Nat.sub_self, List.take_zero, List.takeWhile_nil, List.append_nil]
    · have one : digits.length = 1 := by
        have positive := List.length_pos_iff.mpr nonempty
        omega
      rw [one]
      cases rest with
      | nil => rw [List.take_nil, List.takeWhile_nil, List.append_nil]
      | cons c rest =>
        have other : isHex c = false := ends (by omega)
        rw [List.take_succ_cons, List.takeWhile_cons, other]
        simp
  rw [numeric?, front]
  simp [nonempty]

/-- Several code points in curly brackets are no number. -/
theorem numeric?_several {digits : List Char} (hex : ∀ d ∈ digits, isHex d = true)
    (after : List Char) :
    numeric? ('u' :: '\x7b' :: (digits ++ ' ' :: after)) = none := by
  rw [numeric?, takeWhile_isHex_append (by decide) hex]
  simp

theorem FurtherPoint.exists_text (p : FurtherPoint) : ∃ after, p.text = ' ' :: after := by
  obtain ⟨spaces, positive, point⟩ := p
  cases spaces with
  | zero => exact absurd positive (Nat.lt_irrefl 0)
  | succ spaces => exact ⟨List.replicate spaces ' ' ++ point.digits, rfl⟩

theorem FurtherPoint.plain_text (p : FurtherPoint) : ∀ c ∈ p.text, c ≠ '\\' := by
  intro c mem
  rw [text, List.mem_append, List.mem_replicate] at mem
  rcases mem with ⟨-, rfl⟩ | digit
  · decide
  · exact (isHex_spec (p.point.isHex c digit)).2.1

theorem ne_of_octal {d : Char} (h : octalDigits.contains d = true) :
    d ≠ '\\' ∧ d ≠ 'u' ∧ d ≠ 'x' := by
  have all : octalDigits.all (fun d => d ≠ '\\' ∧ d ≠ 'u' ∧ d ≠ 'x') = true := by decide
  exact of_decide_eq_true (List.all_eq_true.mp all d (List.contains_iff_mem.mp h))

theorem simple_of_letter {c : Char} (known : c ∈ letters.map Prod.fst) :
    c ≠ 'u' ∧ c ≠ 'x' ∧ (letters.lookup c).toList = [simple c] := by
  have all : (letters.map Prod.fst).all (fun c => c ≠ 'u' ∧ c ≠ 'x' ∧
      (letters.lookup c).toList = [simple c]) = true := by decide
  exact of_decide_eq_true (List.all_eq_true.mp all c known)

theorem simple_of_sign {c : Char} (other : IsSign c) : c ≠ 'u' ∧ c ≠ 'x' ∧ simple c = c := by
  have differs {d : Char} (letter : d.isAlphanum = true) : c ≠ d := by
    rintro rfl
    rw [other.1] at letter
    cases letter
  refine ⟨differs (by decide), differs (by decide), ?_⟩
  unfold simple
  split
  all_goals first
    | rfl
    | exact absurd rfl (differs (by decide))

/-- A backslash and a character that begins no number. -/
theorem decodeFrom_simple {c : Char} (noU : c ≠ 'u') (noX : c ≠ 'x') (rest : List Char) :
    decodeFrom 0 ('\\' :: c :: rest) = (decodeFrom 0 rest).map (simple c :: ·) :=
  decodeFrom_letter (by simp [numeric?, noU, noX])

/-- Decoding takes an item off the front of the text, if its digits end there. -/
theorem decodeFrom_item (item : Item) {rest : List Char} (ends : item.EndsBefore rest) :
    decodeFrom 0 (item.text ++ rest) = (decodeFrom 0 rest).map (item.decoded ++ ·) := by
  cases item with
  | plain c other => exact decodeFrom_plain other rest
  | octal digits nonempty short octal =>
    cases digits with
    | nil => exact absurd rfl nonempty
    | cons d digits =>
      rw [List.all_eq_true, List.forall_mem_cons] at octal
      obtain ⟨-, noU, noX⟩ := ne_of_octal octal.1
      have digitsPlain : ∀ c ∈ digits, c ≠ '\\' := fun c mem => (ne_of_octal (octal.2 c mem)).1
      show decodeFrom 0 ('\\' :: d :: (digits ++ rest)) = _
      rw [decodeFrom_simple noU noX, decodeFrom_front digitsPlain]
      cases decodeFrom 0 rest <;> rfl
  | hex digits nonempty short hex =>
    have small : ofHex digits < 16 ^ 2 :=
      (ofHex_lt digits).trans_le (Nat.pow_le_pow_right (by decide) short)
    exact decodeFrom_point ('x' :: digits) (.inl (by omega))
      (numeric?_hex nonempty short (List.all_eq_true.mp hex) ends)
  | unicode point four =>
    have number : numeric? ('u' :: point.digits ++ rest) =
        some (ofHex point.digits, ('u' :: point.digits).length) := by
      rw [List.length_cons, four]
      exact numeric?_fourDigits point.isHex four rest
    exact decodeFrom_point ('u' :: point.digits) point.valid number
  | points first more =>
    cases more with
    | nil =>
      have number := numeric?_bracket first.nonempty first.isHex rest
      have front : 'u' :: '\x7b' :: (first.digits ++ '\x7d' :: rest) =
          'u' :: '\x7b' :: (first.digits ++ ['\x7d']) ++ rest := by simp
      rw [front] at number
      have text : (Item.points first []).text ++ rest =
          '\\' :: ('u' :: '\x7b' :: (first.digits ++ ['\x7d']) ++ rest) := by simp [Item.text]
      rw [text]
      refine decodeFrom_point _ first.valid ?_
      rw [number, List.length_cons, List.length_cons, List.length_append, List.length_singleton]
    | cons p more =>
      obtain ⟨after, spaced⟩ := p.exists_text
      have number := numeric?_several first.isHex (after ++ more.flatMap FurtherPoint.text ++
        '\x7d' :: rest)
      have inside : ∀ c ∈ '\x7b' :: (first.digits ++ (p :: more).flatMap FurtherPoint.text ++
          ['\x7d']), c ≠ '\\' := by
        intro c mem
        rw [List.mem_cons, List.mem_append, List.mem_append, List.mem_flatMap,
          List.mem_singleton] at mem
        rcases mem with rfl | (digit | ⟨q, -, mem⟩) | rfl
        · decide
        · exact (isHex_spec (first.isHex c digit)).2.1
        · exact q.plain_text c mem
        · decide
      have front : '\x7b' :: (first.digits ++ ' ' :: (after ++ more.flatMap FurtherPoint.text ++
          '\x7d' :: rest)) = '\x7b' :: (first.digits ++ (p :: more).flatMap FurtherPoint.text ++
          ['\x7d']) ++ rest := by
        rw [List.flatMap_cons, spaced]
        simp
      rw [front] at number
      show decodeFrom 0 ('\\' :: 'u' :: ('\x7b' :: (first.digits ++
        (p :: more).flatMap FurtherPoint.text ++ ['\x7d']) ++ rest)) = _
      rw [decodeFrom_letter number, decodeFrom_front inside]
      cases decodeFrom 0 rest <;> rfl
  | letter c known =>
    obtain ⟨noU, noX, denoted⟩ := simple_of_letter known
    have same : (Item.letter c known).decoded = [simple c] := denoted
    rw [same]
    exact decodeFrom_simple noU noX rest
  | sign c other =>
    obtain ⟨noU, noX, same⟩ := simple_of_sign other
    have kept := decodeFrom_simple noU noX rest
    rw [same] at kept
    exact kept

/-- Decoding reads a text item by item. -/
theorem decode_textOf {items : List Item} (longest : Longest items) :
    decode (textOf items) = .ok (items.flatMap Item.decoded) := by
  -- The induction is on the items: the digits of each end where the next begins.
  induction items with
  | nil => rfl
  | cons item items ih =>
    have later := ih longest.2
    rw [decode] at later
    rw [textOf, List.flatMap_cons, decode]
    rw [← textOf, decodeFrom_item item longest.1, later]
    rfl

theorem decodeString_items {items : List Item} (longest : Longest items) :
    decodeString (String.ofList (textOf items)) =
      .ok (String.ofList (items.flatMap Item.decoded)) := by
  rw [decodeString, String.toList_ofList, decode_textOf longest]
  rfl

-- ============================================================================
-- What Ruby reads
-- ============================================================================

/-- Two readings of a list, one of which is nowhere shorter than the other, agree
    on the whole list exactly if they agree on each element. -/
theorem flatMap_eq_flatMap_iff {α β : Type} {f g : α → List β} {xs : List α}
    (shorter : ∀ x ∈ xs, (g x).length ≤ (f x).length) :
    xs.flatMap f = xs.flatMap g ↔ ∀ x ∈ xs, f x = g x := by
  have total : ∀ ys : List α, (∀ y ∈ ys, (g y).length ≤ (f y).length) →
      (ys.flatMap g).length ≤ (ys.flatMap f).length := by
    intro ys shorter
    induction ys with
    | nil => exact Nat.le_refl _
    | cons y ys ih =>
      rw [List.forall_mem_cons] at shorter
      rw [List.flatMap_cons, List.flatMap_cons, List.length_append, List.length_append]
      exact Nat.add_le_add shorter.1 (ih shorter.2)
  induction xs with
  | nil => simp
  | cons x xs ih =>
    rw [List.forall_mem_cons] at shorter
    have later := ih shorter.2
    rw [List.flatMap_cons, List.flatMap_cons, List.forall_mem_cons]
    constructor
    · intro same
      have lengths := congrArg List.length same
      rw [List.length_append, List.length_append] at lengths
      have rest := total xs shorter.2
      obtain ⟨here, behind⟩ := List.append_inj same (by omega)
      exact ⟨here, later.mp behind⟩
    · rintro ⟨here, behind⟩
      rw [here, later.mpr behind]

namespace Item

/-- Of several code points decoding makes more characters than Ruby does. -/
theorem length_chars_lt (first : CodePoint) (p : FurtherPoint) (more : List FurtherPoint) :
    (points first (p :: more)).chars.length < (points first (p :: more)).decoded.length := by
  have below : more.length ≤ (more.flatMap FurtherPoint.text).length := by
    induction more with
    | nil => exact Nat.le_refl 0
    | cons q more ih =>
      obtain ⟨after, spaced⟩ := q.exists_text
      rw [List.flatMap_cons, List.length_append, spaced, List.length_cons, List.length_cons]
      omega
  simp only [chars, decoded, text, List.length_cons, List.length_map, List.drop_succ_cons,
    List.drop_zero, List.length_append, List.flatMap_cons]
  omega

/-- Decoding never makes less of an item than Ruby does. -/
theorem length_chars_le (item : Item) : item.chars.length ≤ item.decoded.length := by
  cases item with
  | octal digits nonempty =>
    cases digits with
    | nil => exact absurd rfl nonempty
    | cons d digits => simp [chars, decoded]
  | points first more =>
    cases more with
    | nil => exact Nat.le_refl _
    | cons p more => exact Nat.le_of_lt (length_chars_lt first p more)
  | _ => exact Nat.le_refl _

/-- Where the two readings of an item agree. -/
theorem decoded_eq_chars_iff (item : Item) : item.decoded = item.chars ↔ item.IsKept := by
  cases item with
  | octal digits nonempty short octal =>
    cases digits with
    | nil => exact absurd rfl nonempty
    | cons d digits =>
      rw [List.all_cons, Bool.and_eq_true] at octal
      have all : octalDigits.all (fun d => simple d = Char.ofNat (ofOctal [d]) ↔ d = '0') = true := by
        decide
      have zero : simple d = Char.ofNat (ofOctal [d]) ↔ d = '0' :=
        of_decide_eq_true (List.all_eq_true.mp all d (List.contains_iff_mem.mp octal.1))
      show simple d :: digits = [Char.ofNat (ofOctal (d :: digits))] ↔ d :: digits = ['0']
      rw [List.cons.injEq, List.cons.injEq]
      constructor
      · rintro ⟨same, rfl⟩
        exact ⟨zero.mp same, rfl⟩
      · rintro ⟨rfl, rfl⟩
        exact ⟨rfl, rfl⟩
  | points first more =>
    cases more with
    | nil => exact ⟨fun _ => rfl, fun _ => rfl⟩
    | cons p more =>
      have longer := length_chars_lt first p more
      refine ⟨fun same => ?_, fun none => nomatch none⟩
      rw [same] at longer
      exact absurd longer (Nat.lt_irrefl _)
  | _ => exact ⟨fun _ => trivial, fun _ => rfl⟩

end Item

/-- A double-quoted body decodes item by item. What it decodes to is what Ruby
    reads if and only if each octal escape in it is a zero by itself and each
    list of code points has one of them; every other item is read as in Ruby. -/
theorem decodeString_textOf {items : List Item} (longest : Longest items) :
    decodeString (String.ofList (textOf items)) =
        .ok (String.ofList (items.flatMap Item.decoded)) ∧
      (decodeString (String.ofList (textOf items)) =
        .ok (String.ofList (items.flatMap Item.chars)) ↔ ∀ item ∈ items, item.IsKept) := by
  refine ⟨decodeString_items longest, ?_⟩
  rw [decodeString_items longest, Except.ok.injEq, String.ofList_inj,
    flatMap_eq_flatMap_iff fun item _ => item.length_chars_le]
  exact forall_congr' fun item => imp_congr_right fun _ => item.decoded_eq_chars_iff

/-- The digits end at the next backslash, at the fourth digit and at the bracket. -/
theorem decodeString_textOf_numbers :
    let items : List Item :=
      [.plain 'é' (by decide), .hex ['4'] (by decide) (by decide) (by decide),
        .unicode ⟨['0', '0', '4', '1'], by decide, by decide, by decide⟩ rfl,
        .plain '2' (by decide),
        .points ⟨['1', 'F', '6', '0', '0'], by decide, by decide, by decide⟩ [],
        .letter 'n' (by decide), .sign '"' (by decide),
        .octal ['0'] (by decide) (by decide) (by decide)]
    Longest items ∧ textOf items = "é\\x4\\u00412\\u\x7b1F600\x7d\\n\\\"\\0".toList ∧
      decodeString (String.ofList (textOf items)) = .ok "é\x04A2😀\n\"\x00" := by
  intro items
  have longest : Longest items := by decide
  have kept : ∀ item ∈ items, item.IsKept := by decide
  exact ⟨longest, by decide, (decodeString_textOf longest).2.mpr kept⟩

/-- Ruby reads an `A` and then `AB`; decoding leaves all but the first octal digit
    and both code points as they stand. -/
theorem not_kept_octal_and_points :
    let items : List Item :=
      [.octal ['1', '0', '1'] (by decide) (by decide) (by decide),
        .points ⟨['4', '1'], by decide, by decide, by decide⟩
          [⟨1, by decide, ⟨['4', '2'], by decide, by decide, by decide⟩⟩]]
    Longest items ∧ textOf items = "\\101\\u\x7b41 42\x7d".toList ∧
      items.flatMap Item.chars = ['A', 'A', 'B'] ∧
      decodeString (String.ofList (textOf items)) = .ok "101u\x7b41 42\x7d" := by
  intro items
  have longest : Longest items := by decide
  exact ⟨longest, by decide, by decide, decodeString_items longest⟩

end RubyPattern.Escape
