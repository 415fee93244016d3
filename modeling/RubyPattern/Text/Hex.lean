/-
  RubyPattern.Text.Hex

  Hexadecimal digits: fixed-width writing for numeric escapes, and reading.
-/
namespace RubyPattern.Text

/-- The lower-case hexadecimal digit of a number below sixteen. -/
def hexDigit (d : Nat) : Char :=
  if d < 10 then Char.ofNat ('0'.toNat + d) else Char.ofNat ('a'.toNat + (d - 10))

/-- The last `width` hexadecimal digits of a number, most significant first. -/
def hexPadded : Nat → Nat → List Char
  | 0, _ => []
  | width + 1, n => hexPadded width (n / 16) ++ [hexDigit (n % 16)]

/-- As `hexPadded`, with upper-case letters. -/
def hexPaddedUpper (width n : Nat) : List Char :=
  (hexPadded width n).map Char.toUpper

/-- The value of a hexadecimal digit in either case; ASCII digits only. -/
def hexValue? (c : Char) : Option Nat :=
  if c.isDigit then some (c.toNat - '0'.toNat)
  else if 'a' ≤ c ∧ c ≤ 'f' then some (c.toNat - 'a'.toNat + 10)
  else if 'A' ≤ c ∧ c ≤ 'F' then some (c.toNat - 'A'.toNat + 10)
  else none

/-- Hexadecimal digits in either case. -/
def isHex (c : Char) : Bool :=
  (hexValue? c).isSome

/-- The number that a run of hexadecimal digits denotes. -/
def ofHex (digits : List Char) : Nat :=
  digits.foldl (fun total c => total * 16 + (hexValue? c).getD 0) 0

theorem length_hexPadded (width n : Nat) : (hexPadded width n).length = width := by
  induction width generalizing n with
  | zero => rfl
  | succ width ih => simp [hexPadded, ih]

theorem length_hexPaddedUpper (width n : Nat) : (hexPaddedUpper width n).length = width := by
  rw [hexPaddedUpper, List.length_map, length_hexPadded]

theorem hexValue?_hexDigit {d : Nat} (h : d < 16) : hexValue? (hexDigit d) = some d := by
  have all : ∀ e ∈ List.range 16, hexValue? (hexDigit e) = some e := by decide
  exact all d (List.mem_range.mpr h)

/-- Fixed-width writing reads back, for a number that fits the width. -/
theorem ofHex_hexPadded {width n : Nat} (h : n < Nat.pow 16 width) :
    ofHex (hexPadded width n) = n := by
  induction width generalizing n with
  | zero => simp at h; simp [hexPadded, ofHex, h]
  | succ width ih =>
    have hd : n / 16 < Nat.pow 16 width := by
      have wide : Nat.pow 16 (width + 1) = Nat.pow 16 width * 16 := rfl
      rw [wide] at h
      exact Nat.div_lt_of_lt_mul (by omega)
    have hrec := ih hd
    simp only [ofHex] at hrec
    simp only [hexPadded, ofHex, List.foldl_append, hrec, List.foldl_cons, List.foldl_nil,
      hexValue?_hexDigit (Nat.mod_lt n (by decide)), Option.getD_some]
    omega

theorem isHex_of_mem_hexPadded {width n : Nat} {c : Char} (h : c ∈ hexPadded width n) :
    isHex c = true := by
  induction width generalizing n with
  | zero => cases h
  | succ width ih =>
    rw [hexPadded, List.mem_append, List.mem_singleton] at h
    rcases h with h | rfl
    · exact ih h
    · rw [isHex, hexValue?_hexDigit (Nat.mod_lt n (by decide))]
      rfl

/-- The value of a digit does not depend on its case. -/
theorem hexValue?_toUpper (c : Char) : hexValue? c.toUpper = hexValue? c := by
  by_cases lower : 'a'.toNat ≤ c.toNat ∧ c.toNat ≤ 'z'.toNat
  · obtain ⟨first, last⟩ := lower
    have letters : ∀ k ∈ List.range 26,
        hexValue? (Char.ofNat ('a'.toNat + k)).toUpper =
          hexValue? (Char.ofNat ('a'.toNat + k)) := by
      decide
    have count : 'z'.toNat = 'a'.toNat + 25 := rfl
    have here := letters (c.toNat - 'a'.toNat) (List.mem_range.mpr (by omega))
    rwa [Nat.add_sub_cancel' first, Char.ofNat_toNat] at here
  · have same : c.toUpper = c := dif_neg lower
    rw [same]

theorem isHex_of_mem_hexPaddedUpper {width n : Nat} {c : Char}
    (h : c ∈ hexPaddedUpper width n) : isHex c = true := by
  rw [hexPaddedUpper, List.mem_map] at h
  obtain ⟨d, mem, rfl⟩ := h
  rw [isHex, hexValue?_toUpper]
  exact isHex_of_mem_hexPadded mem

theorem ofHex_hexPaddedUpper {width n : Nat} (h : n < Nat.pow 16 width) :
    ofHex (hexPaddedUpper width n) = n := by
  have upper : ofHex (hexPaddedUpper width n) = ofHex (hexPadded width n) := by
    simp only [ofHex, hexPaddedUpper, List.foldl_map, hexValue?_toUpper]
  rw [upper, ofHex_hexPadded h]

end RubyPattern.Text
