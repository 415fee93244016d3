/-
  RubyPattern.Proofs.Equality

  Equality of values is symmetric and transitive, with numbers of different
  kinds, nested nodes, sets and the parts that are one and the same NaN. So is
  `literalEquals`, the equality of patterns, and it is reflexive on values
  free of NaN.
-/
import Mathlib.Data.List.Forall2
import RubyPattern.Tree.Equality

namespace RubyPattern

open RubyPattern.Number

-- ============================================================================
-- Numbers and tests
-- ============================================================================

/-- Integers are equal as exact numbers only if they are equal. -/
theorem Number.Exact.eq_ofInt (m n : Int) :
    (Exact.ofInt m).eq (Exact.ofInt n) = decide (m = n) := by
  have power : ∀ k, 0 < Nat.pow 2 k := fun k => Nat.pow_pos (by decide)
  have positive : Exact.quantaPerUnit ≠ 0 := by
    rw [Exact.quantaPerUnit]
    exact Int.ne_of_gt (Int.natCast_pos.mpr (power 1074))
  simp [Exact.eq, Exact.ofInt, Int.mul_eq_mul_right_iff positive]

theorem Number.Exact.ofFloat_ne {x : Float} (h : Binary.ofFloat x ≠ .notANumber) :
    Exact.ofFloat x ≠ .notANumber := by
  unfold Exact.ofFloat
  cases hx : Binary.ofFloat x with
  | notANumber => exact absurd hx h
  | infinite negative => cases negative <;> simp
  | finite => simp

theorem Number.Steps.same_symm {s t : Steps} (h : s.same t = true) : t.same s = true := by
  unfold Steps.same at h ⊢
  grind

theorem Number.Steps.same_trans {s t u : Steps} (h : s.same t = true) (h' : t.same u = true) :
    s.same u = true := by
  unfold Steps.same at h h' ⊢
  grind

theorem Number.Steps.same_self (s : Steps) : s.same s = true := by
  simp [Steps.same]

theorem Criterion.same_self (c : Criterion) : c.same c = true := by
  cases c <;> simp [Criterion.same, Steps.same_self]

theorem Criterion.same_symm {c d : Criterion} (h : c.same d = true) : d.same c = true := by
  cases c <;> cases d <;> simp [Criterion.same] at h ⊢ <;> first
    | exact h.symm
    | exact Steps.same_symm h

theorem Criterion.same_trans {c d e : Criterion} (h : c.same d = true) (h' : d.same e = true) :
    c.same e = true := by
  cases c with
  | steps s =>
    cases d <;> simp [Criterion.same] at h
    cases e <;> simp [Criterion.same] at h'
    exact Steps.same_trans h h'
  | _ =>
    cases d <;> simp [Criterion.same] at h
    cases h
    exact h'

namespace Value

-- ============================================================================
-- Plain values
-- ============================================================================

/-- The six ways in which plain values are equal. -/
inductive SameLeaf : Value → Value → Prop
  | nil : SameLeaf .nil .nil
  | str (s : String) : SameLeaf (.str s) (.str s)
  | token (t : Token) : SameLeaf (.token t) (.token t)
  | criterion {c d : Criterion} (h : c.same d = true) : SameLeaf (.criterion c) (.criterion d)
  | symbol {a b : Value} {name : String} (ha : a.symbol? = some name)
      (hb : b.symbol? = some name) : SameLeaf a b
  | number {a b : Value} {x : Exact} (ha : a.number? = some x) (hb : b.number? = some x)
      (real : x ≠ .notANumber) : SameLeaf a b

theorem symbol?_eq_some {v : Value} {name : String} (h : v.symbol? = some name) :
    v = .sym name ∨ v = .head name := by
  cases v <;> simp_all [symbol?]

theorem symbol?_eq_none_of_number? {v : Value} {x : Exact} (h : v.number? = some x) :
    v.symbol? = none := by
  cases v <;> simp_all [number?, symbol?]

/-- Values that are no numbers, symbols, texts or tests have no numeric value. -/
theorem sameLeaf_of_number {a b : Value} {x y : Exact} (ha : a.number? = some x)
    (hb : b.number? = some y) : sameLeaf a b = x.eq y := by
  cases a <;> simp [number?] at ha <;> cases b <;> simp [number?] at hb <;>
    subst ha <;> subst hb <;> rfl

theorem sameLeaf_eq_true_iff {a b : Value} : sameLeaf a b = true ↔ SameLeaf a b := by
  constructor
  · intro h
    unfold sameLeaf at h
    split at h
    next => exact .nil
    next => exact eq_of_beq h ▸ .str _
    next => exact eq_of_beq h ▸ .token _
    next => exact .criterion h
    next =>
      split at h
      next ha hb => exact .symbol ha (eq_of_beq h ▸ hb)
      next x y ha hb _ =>
        obtain rfl : x = y := Exact.eq_of_eq_true h
        refine .number ha hb ?_
        rintro rfl
        simp [Exact.eq] at h
      next => cases h
  · intro h
    cases h with
    | nil => rfl
    | str => simp [sameLeaf]
    | token => simp [sameLeaf]
    | criterion h => simpa [sameLeaf] using h
    | symbol ha hb =>
      rcases symbol?_eq_some ha with rfl | rfl <;> rcases symbol?_eq_some hb with rfl | rfl <;>
        simp [sameLeaf, symbol?]
    | number ha hb real => rw [sameLeaf_of_number ha hb, Exact.eq_self real]

theorem SameLeaf.symm {a b : Value} (h : SameLeaf a b) : SameLeaf b a := by
  cases h with
  | nil => exact .nil
  | str => exact .str _
  | token => exact .token _
  | criterion h => exact .criterion (Criterion.same_symm h)
  | symbol ha hb => exact .symbol hb ha
  | number ha hb real => exact .number hb ha real

theorem SameLeaf.trans {a b c : Value} (h : SameLeaf a b) (h' : SameLeaf b c) :
    SameLeaf a c := by
  cases h with
  | nil => exact h'
  | str => exact h'
  | token => exact h'
  | criterion h =>
    cases h' with
    | criterion h' => exact .criterion (Criterion.same_trans h h')
    | symbol hb => simp [symbol?] at hb
    | number hb => simp [number?] at hb
  | symbol ha hb =>
    cases h' with
    | symbol hb' hc =>
      rw [hb] at hb'
      cases hb'
      exact .symbol ha hc
    | number hb' => simp [symbol?_eq_none_of_number? hb'] at hb
    | _ => simp [symbol?] at hb
  | number ha hb real =>
    cases h' with
    | symbol hb' => simp [symbol?_eq_none_of_number? hb] at hb'
    | number hb' hc =>
      rw [hb] at hb'
      cases hb'
      exact .number ha hc real
    | _ => simp [number?] at hb

/-- Whether a value is no node and no collection. -/
def isPlain : Value → Bool
  | .node .. => false
  | .tuple _ => false
  | .list _ => false
  | .set .. => false
  | _ => true

/-- Nothing is equal to a plain value as plain values are but a plain value. -/
theorem SameLeaf.isPlain {a b : Value} (h : SameLeaf a b) :
    a.isPlain = true ∧ b.isPlain = true := by
  cases h with
  | symbol ha hb =>
    rcases symbol?_eq_some ha with rfl | rfl <;> rcases symbol?_eq_some hb with rfl | rfl <;>
      exact ⟨rfl, rfl⟩
  | number ha hb =>
    constructor
    · cases a <;> simp_all [number?, Value.isPlain]
    · cases b <;> simp_all [number?, Value.isPlain]
  | _ => exact ⟨rfl, rfl⟩

theorem same_of_isPlain {a : Value} (h : a.isPlain = true) (b : Value) :
    same a b = sameLeaf a b := by
  cases a <;> simp_all [Value.isPlain, same]

-- ============================================================================
-- Collections
-- ============================================================================

/-- The values directly inside a value. -/
def members : Value → List Value
  | .node _ children _ => children
  | .tuple items => items
  | .list items => items
  | .set _ items => items
  | _ => []

theorem sizeOf_lt_of_mem_members {v w : Value} (h : w ∈ v.members) : sizeOf w < sizeOf v := by
  cases v <;> simp [members] at h <;> have := List.sizeOf_lt_of_mem h <;> simp <;> omega

/-- Induction on values: a property that passes from the members of a value to
    the value holds of all values. -/
theorem induction {motive : Value → Prop}
    (step : ∀ v, (∀ w ∈ v.members, motive w) → motive v) (v : Value) : motive v :=
  step v fun w _ => induction step w
termination_by sizeOf v
decreasing_by exact sizeOf_lt_of_mem_members ‹_›

theorem sameAll_eq_true_iff {as bs : List Value} :
    sameAll as bs = true ↔ List.Forall₂ (fun a b => samePart a b = true) as bs := by
  induction as generalizing bs with
  | nil => cases bs <;> simp [sameAll]
  | cons a as ih => cases bs <;> simp [sameAll, samePart, ih]

theorem allAmong_eq_true_iff {as bs : List Value} :
    allAmong as bs = true ↔ ∀ a ∈ as, ∃ b ∈ bs, samePart a b = true := by
  induction as with
  | nil => simp [allAmong]
  | cons a as ih => simp [allAmong, samePart, ih]

theorem anySame_eq_true_iff {as : List Value} {b : Value} :
    anySame as b = true ↔ ∃ a ∈ as, samePart a b = true := by
  induction as with
  | nil => simp [anySame]
  | cons a as ih => simp [anySame, samePart, ih]

/-- The five ways in which values are equal. -/
inductive Same : Value → Value → Prop
  | node {t : Label} {cs ds : List Value} {l m : Option Location}
      (all : List.Forall₂ (fun a b => samePart a b = true) cs ds) :
      Same (.node t cs l) (.node t ds m)
  | tuple {cs ds : List Value} (all : List.Forall₂ (fun a b => samePart a b = true) cs ds) :
      Same (.tuple cs) (.tuple ds)
  | list {cs ds : List Value} (all : List.Forall₂ (fun a b => samePart a b = true) cs ds) :
      Same (.list cs) (.list ds)
  | set {f g : Bool} {cs ds : List Value} (into : ∀ c ∈ cs, ∃ d ∈ ds, samePart c d = true)
      (onto : ∀ d ∈ ds, ∃ c ∈ cs, samePart c d = true) : Same (.set f cs) (.set g ds)
  | leaf {a b : Value} (h : SameLeaf a b) : Same a b

theorem same_eq_true_iff {a b : Value} : same a b = true ↔ Same a b := by
  constructor
  · intro h
    cases a with
    | node t cs l =>
      cases b <;> simp [same] at h
      obtain ⟨rfl, h⟩ := h
      exact .node (sameAll_eq_true_iff.mp h)
    | tuple cs =>
      cases b <;> simp [same] at h
      exact .tuple (sameAll_eq_true_iff.mp h)
    | list cs =>
      cases b <;> simp [same] at h
      exact .list (sameAll_eq_true_iff.mp h)
    | set f cs =>
      cases b <;> simp [same, allAmong_eq_true_iff, anySame_eq_true_iff] at h
      exact .set h.1 h.2
    | _ => exact .leaf (sameLeaf_eq_true_iff.mp (by simpa [same] using h))
  · intro h
    cases h with
    | node all => simpa [same] using sameAll_eq_true_iff.mpr all
    | tuple all => simpa [same] using sameAll_eq_true_iff.mpr all
    | list all => simpa [same] using sameAll_eq_true_iff.mpr all
    | set into onto => simpa [same, allAmong_eq_true_iff, anySame_eq_true_iff] using ⟨into, onto⟩
    | leaf h => rw [same_of_isPlain h.isPlain.1, sameLeaf_eq_true_iff.mpr h]

-- ============================================================================
-- Symmetry and transitivity
-- ============================================================================

theorem samePart_eq_true_iff {a b : Value} :
    samePart a b = true ↔ (∃ tag, a = .nan tag ∧ b = .nan tag) ∨ same a b = true := by
  unfold samePart
  rw [Bool.or_eq_true]
  refine or_congr_left ?_
  constructor
  · intro h
    unfold sameNan at h
    split at h
    next m n => exact ⟨m, rfl, by rw [eq_of_beq h]⟩
    next => cases h
  · rintro ⟨tag, rfl, rfl⟩
    simp [sameNan]

section Lists

variable {α : Type} {R : α → α → Prop} {as bs cs : List α}

theorem forall₂_symm (h : List.Forall₂ R as bs) (symm : ∀ a ∈ as, ∀ b, R a b → R b a) :
    List.Forall₂ R bs as := by
  induction h with
  | nil => exact .nil
  | cons head _ ih =>
    exact .cons (symm _ (by simp) _ head) (ih fun a ha => symm a (by simp [ha]))

theorem forall₂_trans (h : List.Forall₂ R as bs) (h' : List.Forall₂ R bs cs)
    (trans : ∀ a ∈ as, ∀ b c, R a b → R b c → R a c) : List.Forall₂ R as cs := by
  induction h generalizing cs with
  | nil => exact h'
  | cons head _ ih =>
    cases h' with
    | cons head' tail' =>
      exact .cons (trans _ (by simp) _ _ head head')
        (ih tail' fun a ha => trans a (by simp [ha]))

end Lists

theorem same_symm {a b : Value} (h : same a b = true) : same b a = true := by
  induction a using Value.induction generalizing b with
  | step a ih =>
    have part : ∀ c ∈ a.members, ∀ d, samePart c d = true → samePart d c = true := by
      intro c hc d h
      rw [samePart_eq_true_iff] at h ⊢
      rcases h with ⟨tag, rfl, rfl⟩ | h
      · exact .inl ⟨tag, rfl, rfl⟩
      · exact .inr (ih c hc h)
    rw [same_eq_true_iff] at h ⊢
    cases h with
    | node all => exact .node (forall₂_symm all part)
    | tuple all => exact .tuple (forall₂_symm all part)
    | list all => exact .list (forall₂_symm all part)
    | set into onto =>
      refine .set ?_ ?_
      · intro d hd
        obtain ⟨c, hc, h⟩ := onto d hd
        exact ⟨c, hc, part c hc d h⟩
      · intro c hc
        obtain ⟨d, hd, h⟩ := into c hc
        exact ⟨d, hd, part c hc d h⟩
    | leaf h => exact .leaf h.symm

theorem same_trans {a b c : Value} (h : same a b = true) (h' : same b c = true) :
    same a c = true := by
  induction a using Value.induction generalizing b c with
  | step a ih =>
    have part : ∀ u ∈ a.members, ∀ v w, samePart u v = true → samePart v w = true →
        samePart u w = true := by
      intro u hu v w h h'
      rw [samePart_eq_true_iff] at h h' ⊢
      rcases h with ⟨tag, rfl, rfl⟩ | h
      · exact h'
      · rcases h' with ⟨tag, rfl, rfl⟩ | h'
        · exact .inr h
        · exact .inr (ih u hu h h')
    rw [same_eq_true_iff] at h h' ⊢
    cases h with
    | node all =>
      cases h' with
      | node all' => exact .node (forall₂_trans all all' part)
      | leaf h' => cases h'.isPlain.1
    | tuple all =>
      cases h' with
      | tuple all' => exact .tuple (forall₂_trans all all' part)
      | leaf h' => cases h'.isPlain.1
    | list all =>
      cases h' with
      | list all' => exact .list (forall₂_trans all all' part)
      | leaf h' => cases h'.isPlain.1
    | set into onto =>
      cases h' with
      | set into' onto' =>
        refine .set ?_ ?_
        · intro u hu
          obtain ⟨v, hv, h⟩ := into u hu
          obtain ⟨w, hw, h'⟩ := into' v hv
          exact ⟨w, hw, part u hu v w h h'⟩
        · intro w hw
          obtain ⟨v, hv, h'⟩ := onto' w hw
          obtain ⟨u, hu, h⟩ := onto v hv
          exact ⟨u, hu, part u hu v w h h'⟩
      | leaf h' => cases h'.isPlain.1
    | leaf h =>
      cases h' with
      | leaf h' => exact .leaf (h.trans h')
      | _ => cases h.isPlain.2

-- ============================================================================
-- Values free of NaN
-- ============================================================================

mutual

/-- Whether a value is no NaN and holds none at any depth. -/
def nanFree : Value → Bool
  | .float x => Binary.ofFloat x != .notANumber
  | .nan _ => false
  | .node _ children _ => nanFreeAll children
  | .tuple items => nanFreeAll items
  | .list items => nanFreeAll items
  | .set _ items => nanFreeAll items
  | _ => true

/-- Whether the values of a sequence are free of NaN. -/
def nanFreeAll : List Value → Bool
  | [] => true
  | v :: vs => nanFree v && nanFreeAll vs

end

theorem nanFreeAll_eq_true_iff {vs : List Value} :
    nanFreeAll vs = true ↔ ∀ v ∈ vs, v.nanFree = true := by
  induction vs with
  | nil => simp [nanFreeAll]
  | cons v vs ih => simp [nanFreeAll, ih]

theorem nanFree_of_mem_members {v w : Value} (h : v.nanFree = true) (hw : w ∈ v.members) :
    w.nanFree = true := by
  cases v <;> simp [members] at hw <;> simp [nanFree] at h <;>
    exact nanFreeAll_eq_true_iff.mp h w hw

theorem same_self {v : Value} (h : v.nanFree = true) : same v v = true := by
  induction v using Value.induction with
  | step v ih =>
    have part : ∀ w ∈ v.members, samePart w w = true := by
      intro w hw
      exact samePart_eq_true_iff.mpr (.inr (ih w hw (nanFree_of_mem_members h hw)))
    rw [same_eq_true_iff]
    cases v with
    | node => exact .node (List.forall₂_same.mpr part)
    | tuple => exact .tuple (List.forall₂_same.mpr part)
    | list => exact .list (List.forall₂_same.mpr part)
    | set => exact .set (fun w hw => ⟨w, hw, part w hw⟩) (fun w hw => ⟨w, hw, part w hw⟩)
    | nil => exact .leaf .nil
    | str => exact .leaf (.str _)
    | token => exact .leaf (.token _)
    | criterion => exact .leaf (.criterion (Criterion.same_self _))
    | sym => exact .leaf (.symbol rfl rfl)
    | head => exact .leaf (.symbol rfl rfl)
    | bool => exact .leaf (.number rfl rfl (by simp [Exact.ofInt]))
    | int => exact .leaf (.number rfl rfl (by simp [Exact.ofInt]))
    | float x => exact .leaf (.number rfl rfl (Exact.ofFloat_ne (by simpa [nanFree] using h)))
    | nan => cases h

-- ============================================================================
-- Equality of patterns
-- ============================================================================

/-- The values that patterns compare with their own kind only. -/
inductive PatternKind where
  | symbol
  | bool
  | str
  | other
  deriving DecidableEq

/-- The kind of a value as patterns see it. -/
def patternKind : Value → PatternKind
  | .sym _ => .symbol
  | .head _ => .symbol
  | .bool _ => .bool
  | .str _ => .str
  | _ => .other

theorem same_bool (x y : Bool) : same (.bool x) (.bool y) = (x == y) := by
  simp only [same, sameLeaf, symbol?, number?, Exact.eq_ofInt]
  cases x <;> cases y <;> rfl

/-- Patterns take values for equal that are equal and of one kind. -/
theorem literalEquals_eq_true_iff {a b : Value} :
    literalEquals a b = true ↔ a.patternKind = b.patternKind ∧ same a b = true := by
  cases a <;> cases b <;> simp only [literalEquals, patternKind, same_bool] <;>
    simp [same, sameLeaf, symbol?, number?]

theorem literalEquals_symm {a b : Value} (h : literalEquals a b = true) :
    literalEquals b a = true := by
  rw [literalEquals_eq_true_iff] at h ⊢
  exact ⟨h.1.symm, same_symm h.2⟩

theorem literalEquals_trans {a b c : Value} (h : literalEquals a b = true)
    (h' : literalEquals b c = true) : literalEquals a c = true := by
  rw [literalEquals_eq_true_iff] at h h' ⊢
  exact ⟨h.1.trans h'.1, same_trans h.2 h'.2⟩

theorem literalEquals_self {v : Value} (h : v.nanFree = true) : literalEquals v v = true :=
  literalEquals_eq_true_iff.mpr ⟨rfl, same_self h⟩

end Value

end RubyPattern
