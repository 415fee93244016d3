/-
  RubyPattern.Proofs.Offsets

  Byte offsets in source text. Between two offsets that fall between characters
  stands a stretch of characters, whose bytes are the bytes of the source from the
  one offset to the other; and the line and column of such an offset are counted
  from the line breaks and the bytes in front of it.
-/
import Mathlib.Data.List.DropRight
import Mathlib.Data.List.Infix
import RubyPattern.Ruby.Lowering

namespace RubyPattern

-- ============================================================================
-- Sizes
-- ============================================================================

/-- The number of bytes of some characters. -/
def byteSize : List Char → Nat
  | [] => 0
  | c :: cs => c.utf8Size + byteSize cs

@[simp] theorem byteSize_nil : byteSize [] = 0 := rfl

@[simp] theorem byteSize_cons (c : Char) (cs : List Char) :
    byteSize (c :: cs) = c.utf8Size + byteSize cs := rfl

@[simp] theorem byteSize_append (front back : List Char) :
    byteSize (front ++ back) = byteSize front + byteSize back := by
  induction front with
  | nil => simp
  | cons c front ih => rw [List.cons_append, byteSize_cons, byteSize_cons, ih, Nat.add_assoc]

theorem size_utf8Encode (cs : List Char) : cs.utf8Encode.size = byteSize cs := by
  induction cs with
  | nil => rfl
  | cons c cs ih =>
    rw [List.utf8Encode_cons, ByteArray.size_append, ih, List.utf8Encode_singleton,
      List.size_toByteArray, String.length_utf8EncodeChar, byteSize_cons]

theorem eq_nil_of_byteSize_eq_zero {cs : List Char} (h : byteSize cs = 0) : cs = [] := by
  cases cs with
  | nil => rfl
  | cons c cs =>
    have positive := c.utf8Size_pos
    rw [byteSize_cons] at h
    omega

/-- An offset that falls between characters, or at an end. -/
def AtBoundary (cs : List Char) (offset : Nat) : Prop :=
  ∃ front, front.IsPrefix cs ∧ byteSize front = offset

instance (cs : List Char) (offset : Nat) : Decidable (AtBoundary cs offset) :=
  decidable_of_iff (∃ front ∈ cs.inits, byteSize front = offset) (by simp [AtBoundary])

/-- The line and column of an offset: one line for each line break in front, and
    one column for each byte behind the last of them. -/
def PointAt (cs : List Char) (offset line column : Nat) : Prop :=
  ∃ front, front.IsPrefix cs ∧ byteSize front = offset ∧
    line = front.count '\n' + 1 ∧ column = byteSize (front.rtakeWhile (· != '\n'))

/-- A location that tells where its source text stands in a source. -/
structure Location.Describes (l : Location) (source : String) : Prop where
  ordered : l.startByte ≤ l.endByte
  slice : l.source.toByteArray = source.toByteArray.extract l.startByte l.endByte
  starts : PointAt source.toList l.startByte l.startLine l.startColumn
  ends : PointAt source.toList l.endByte l.endLine l.endColumn

namespace Ruby

-- ============================================================================
-- Stretches
-- ============================================================================

theorem dropBytes_append (front back : List Char) :
    dropBytes (front ++ back) (byteSize front) = some back := by
  induction front with
  | nil => cases back <;> rfl
  | cons c front ih =>
    have positive := c.utf8Size_pos
    obtain ⟨n, size⟩ : ∃ n, c.utf8Size + byteSize front = n + 1 :=
      ⟨c.utf8Size + byteSize front - 1, by omega⟩
    have behind : n + 1 - c.utf8Size = byteSize front := by omega
    rw [List.cons_append, byteSize_cons, size, dropBytes, if_pos (by omega), behind, ih]

theorem takeBytes_append (front back : List Char) :
    takeBytes (front ++ back) (byteSize front) = some front := by
  induction front with
  | nil => cases back <;> rfl
  | cons c front ih =>
    have positive := c.utf8Size_pos
    obtain ⟨n, size⟩ : ∃ n, c.utf8Size + byteSize front = n + 1 :=
      ⟨c.utf8Size + byteSize front - 1, by omega⟩
    have behind : n + 1 - c.utf8Size = byteSize front := by omega
    rw [List.cons_append, byteSize_cons, size, takeBytes, if_pos (by omega), behind, ih]
    rfl

theorem slice?_append (front stretch back : List Char) :
    slice? (front ++ (stretch ++ back)) (byteSize front) (byteSize (front ++ stretch)) =
      some stretch := by
  rw [byteSize_append]
  unfold slice?
  split
  next none =>
    rw [eq_nil_of_byteSize_eq_zero (by omega : byteSize stretch = 0)]
  next =>
    rw [dropBytes_append, Option.bind_some, Nat.add_sub_cancel_left, takeBytes_append]

/-- Two offsets between characters part the source in three. -/
theorem exists_stretch {cs : List Char} {start stop : Nat} (starts : AtBoundary cs start)
    (stops : AtBoundary cs stop) (ordered : start ≤ stop) :
    ∃ front stretch back, cs = front ++ (stretch ++ back) ∧ byteSize front = start ∧
      byteSize (front ++ stretch) = stop := by
  obtain ⟨front, before, rfl⟩ := starts
  obtain ⟨longer, beforeStop, rfl⟩ := stops
  rcases List.prefix_or_prefix_of_prefix before beforeStop with
    ⟨stretch, rfl⟩ | ⟨stretch, rfl⟩
  · obtain ⟨back, rfl⟩ := beforeStop
    exact ⟨front, stretch, back, by rw [List.append_assoc], rfl, rfl⟩
  · rw [byteSize_append] at ordered
    have none := eq_nil_of_byteSize_eq_zero (by omega : byteSize stretch = 0)
    subst none
    obtain ⟨back, rfl⟩ := beforeStop
    exact ⟨longer, [], back, rfl, by simp, by simp⟩

theorem extract_append_append (front stretch back : ByteArray) :
    (front ++ (stretch ++ back)).extract front.size (front.size + stretch.size) = stretch := by
  have behind := @ByteArray.extract_append_size_add front (stretch ++ back) 0 stretch.size
  rw [Nat.add_zero] at behind
  rw [behind, ByteArray.extract_append_size_left, ByteArray.extract_zero_size]

/-- The text of a slice has the bytes between the offsets. -/
theorem exists_slice {cs : List Char} {start stop : Nat} (starts : AtBoundary cs start)
    (stops : AtBoundary cs stop) (ordered : start ≤ stop) :
    ∃ stretch, slice? cs start stop = some stretch ∧
      stretch.utf8Encode = cs.utf8Encode.extract start stop := by
  obtain ⟨front, stretch, back, rfl, rfl, rfl⟩ := exists_stretch starts stops ordered
  refine ⟨stretch, slice?_append front stretch back, ?_⟩
  rw [List.utf8Encode_append, List.utf8Encode_append, byteSize_append, ← size_utf8Encode,
    ← size_utf8Encode, extract_append_append]

-- ============================================================================
-- Lines and columns
-- ============================================================================

theorem pointFrom_cons (line column : Nat) (c : Char) (cs : List Char) (n : Nat) :
    pointFrom line column (c :: cs) (c.utf8Size + n) =
      if c = '\n' then pointFrom (line + 1) 0 cs n
      else pointFrom line (column + c.utf8Size) cs n := by
  have positive := c.utf8Size_pos
  obtain ⟨k, size⟩ : ∃ k, c.utf8Size + n = k + 1 := ⟨c.utf8Size + n - 1, by omega⟩
  rw [size, pointFrom, if_neg (by omega)]
  by_cases isBreak : c = '\n'
  · have one : c.utf8Size = 1 := by rw [isBreak]; rfl
    have behind : k = n := by omega
    rw [if_pos isBreak, if_pos (beq_iff_eq.mpr isBreak), behind]
  · have behind : k + 1 - c.utf8Size = n := by omega
    rw [if_neg isBreak, if_neg (by simpa using isBreak), behind]

/-- One more character goes on by a line or by its bytes. -/
theorem pointFrom_concat (line column : Nat) (front : List Char) (c : Char) (back : List Char) :
    pointFrom line column (front ++ c :: back) (byteSize (front ++ [c])) =
      if c = '\n' then ((pointFrom line column (front ++ c :: back) (byteSize front)).1 + 1, 0)
      else ((pointFrom line column (front ++ c :: back) (byteSize front)).1,
        (pointFrom line column (front ++ c :: back) (byteSize front)).2 + c.utf8Size) := by
  induction front generalizing line column with
  | nil =>
    have here : ∀ line column cs, pointFrom line column cs 0 = (line, column) := by
      intro line column cs
      cases cs <;> rfl
    rw [List.nil_append, List.nil_append, byteSize_cons, byteSize_nil, pointFrom_cons, here, here,
      here]
  | cons d front ih =>
    rw [List.cons_append, List.cons_append, byteSize_cons, byteSize_cons, pointFrom_cons,
      pointFrom_cons]
    by_cases isBreak : d = '\n'
    · rw [if_pos isBreak, if_pos isBreak, ih]
    · rw [if_neg isBreak, if_neg isBreak, ih]

theorem point_append (front back : List Char) : point (front ++ back) (byteSize front) =
    (front.count '\n', byteSize (front.rtakeWhile (· != '\n'))) := by
  induction front using List.reverseRecOn generalizing back with
  | nil => cases back <;> rfl
  | append_singleton front c ih =>
    rw [List.append_assoc, List.singleton_append, point, pointFrom_concat, ← point, ih,
      List.rtakeWhile_concat, List.count_append]
    by_cases isBreak : c = '\n'
    · simp [isBreak]
    · simp [isBreak]

theorem pointAt_point {cs : List Char} {offset : Nat} (boundary : AtBoundary cs offset) :
    PointAt cs offset ((point cs offset).1 + 1) (point cs offset).2 := by
  obtain ⟨front, ⟨back, rfl⟩, rfl⟩ := boundary
  rw [point_append]
  exact ⟨front, List.prefix_append front back, rfl, rfl, rfl⟩

end Ruby

end RubyPattern
