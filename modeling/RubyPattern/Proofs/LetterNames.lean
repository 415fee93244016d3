/-
  RubyPattern.Proofs.LetterNames

  The words that predicates are named by. Each word over the letters occurs
  once among the words of its length, so no two of the default names are the
  same, and each of them is made of lower-case letters alone.
-/
import Mathlib.Algebra.Group.Nat.Defs
import Mathlib.Data.List.Nodup
import RubyPattern.Predicate.Names

namespace RubyPattern.Predicate

theorem nodup_letters : letters.Nodup := by
  decide

-- ============================================================================
-- Words of one length
-- ============================================================================

/-- The words of a length are the texts of that length that the letters make. -/
theorem mem_words_iff {n : Nat} {cs : List Char} :
    cs ∈ words n ↔ cs.length = n ∧ ∀ c ∈ cs, c ∈ letters := by
  induction n generalizing cs with
  | zero => cases cs <;> simp [words]
  | succ n ih =>
    cases cs with
    | nil => simp [words]
    | cons c cs =>
      simp only [words, List.mem_flatMap, List.mem_map, List.cons.injEq, List.length_cons,
        List.forall_mem_cons, Nat.add_right_cancel_iff]
      constructor
      · rintro ⟨_, letter, _, word, rfl, rfl⟩
        obtain ⟨length, rest⟩ := ih.mp word
        exact ⟨length, letter, rest⟩
      · rintro ⟨length, letter, rest⟩
        exact ⟨c, letter, cs, ih.mpr ⟨length, rest⟩, rfl, rfl⟩

/-- No word is listed twice: words with one first letter differ behind it. -/
theorem nodup_words (n : Nat) : (words n).Nodup := by
  induction n with
  | zero => simp [words]
  | succ n ih =>
    rw [words, List.nodup_flatMap]
    refine ⟨fun c _ => ih.map fun _ _ same => (List.cons.inj same).2, ?_⟩
    refine List.Pairwise.imp ?_ nodup_letters
    intro c d other word first second
    obtain ⟨_, -, rfl⟩ := List.mem_map.mp first
    obtain ⟨_, -, same⟩ := List.mem_map.mp second
    exact other (List.cons.inj same).1.symm

theorem length_words (n : Nat) : (words n).length = 26 ^ n := by
  induction n with
  | zero => rfl
  | succ n ih =>
    have letterCount : letters.length = 26 := rfl
    simp only [words, List.length_flatMap, List.length_map, ih]
    rw [List.map_const', List.sum_replicate_nat, letterCount, Nat.pow_succ, Nat.mul_comm]

-- ============================================================================
-- The default names
-- ============================================================================

/-- The default names are words of one or two letters. -/
theorem letters_of_mem_defaultNames {name : String} (h : name ∈ defaultNames) :
    name.toList ≠ [] ∧ ∀ c ∈ name.toList, c ∈ letters := by
  obtain ⟨word, mem, rfl⟩ := List.mem_map.mp h
  rw [String.toList_ofList]
  rcases List.mem_append.mp mem with mem | mem <;>
    obtain ⟨length, made⟩ := mem_words_iff.mp mem <;>
    exact ⟨List.ne_nil_of_length_pos (by omega), made⟩

/-- No two default names are the same. -/
theorem nodup_defaultNames : defaultNames.Nodup := by
  have once : (words 1 ++ words 2).Nodup := by
    rw [List.nodup_append]
    refine ⟨nodup_words 1, nodup_words 2, ?_⟩
    rintro word one _ two rfl
    have short := (mem_words_iff.mp one).1
    have long := (mem_words_iff.mp two).1
    omega
  exact once.map fun _ _ same => String.ofList_injective same

theorem length_defaultNames : defaultNames.length = 702 := by
  simp [defaultNames, length_words]

end RubyPattern.Predicate
