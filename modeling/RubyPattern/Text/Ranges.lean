/-
  RubyPattern.Text.Ranges

  A character class beyond ASCII is given as a table of code point ranges, both ends included.
-/
namespace RubyPattern.Text

/-- Whether a code point lies in one of the ranges of a table. -/
def inRanges (table : List (Nat × Nat)) (code : Nat) : Bool :=
  table.any fun range => Nat.ble range.1 code && Nat.ble code range.2

theorem inRanges_eq_true_iff {table : List (Nat × Nat)} {code : Nat} :
    inRanges table code = true ↔ ∃ range ∈ table, range.1 ≤ code ∧ code ≤ range.2 := by
  simp [inRanges, List.any_eq_true]

end RubyPattern.Text
