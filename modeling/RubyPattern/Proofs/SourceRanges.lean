/-
  RubyPattern.Proofs.SourceRanges

  Source ranges nest. In tidy concrete syntax the children of a construct lie
  inside it, one behind the other. What lowering makes of it then has its source
  text between its offsets, and holds nothing that lies outside: neither a
  `begin` from the first to the last of some statements, nor the hash of the
  keywords of a call, nor a call that ends in front of its block.
-/
import RubyPattern.Proofs.MadeTrees
import RubyPattern.Proofs.Offsets

namespace RubyPattern

/-- One range lies inside another. -/
def Location.Within (inner outer : Location) : Prop :=
  outer.startByte ≤ inner.startByte ∧ inner.endByte ≤ outer.endByte

namespace Ruby

-- ============================================================================
-- Tidy concrete syntax
-- ============================================================================

/-- One construct ends before another begins. -/
def Cst.Before (c d : Cst) : Prop :=
  c.head.stop ≤ d.head.start

instance (c d : Cst) : Decidable (c.Before d) :=
  inferInstanceAs (Decidable (c.head.stop ≤ d.head.start))

/-- One construct lies inside another. -/
def Cst.Inside (d c : Cst) : Prop :=
  c.head.start ≤ d.head.start ∧ d.head.stop ≤ c.head.stop

instance (c d : Cst) : Decidable (c.Inside d) :=
  inferInstanceAs (Decidable (_ ∧ _))

/-- A construct between characters of the source, whose children lie inside it,
    one behind the other. The parts of a call that its node needs are in order. -/
structure Cst.Neat (source : List Char) (c : Cst) : Prop where
  ordered : c.head.start ≤ c.head.stop
  starts : AtBoundary source c.head.start
  stops : AtBoundary source c.head.stop
  inside : ∀ d ∈ c.children, d.Inside c
  row : c.children.Pairwise Cst.Before
  call : c.kind = .call → c.callParts.Pairwise Cst.Before

instance (source : List Char) (c : Cst) : Decidable (c.Neat source) :=
  decidable_of_iff
    (c.head.start ≤ c.head.stop ∧ AtBoundary source c.head.start ∧
      AtBoundary source c.head.stop ∧ (∀ d ∈ c.children, d.Inside c) ∧
      c.children.Pairwise Cst.Before ∧ (c.kind = .call → c.callParts.Pairwise Cst.Before))
    ⟨fun ⟨h₁, h₂, h₃, h₄, h₅, h₆⟩ => ⟨h₁, h₂, h₃, h₄, h₅, h₆⟩,
      fun ⟨h₁, h₂, h₃, h₄, h₅, h₆⟩ => ⟨h₁, h₂, h₃, h₄, h₅, h₆⟩⟩

namespace Cst

mutual

/-- The construct itself and all constructs in it. -/
def constructs : Cst → List Cst
  | .mk head children => .mk head children :: constructsOf children

/-- The constructs in each of some constructs. -/
def constructsOf : List Cst → List Cst
  | [] => []
  | c :: cs => constructs c ++ constructsOf cs

end

/-- A construct that is neat all the way down. -/
def Tidy (source : List Char) (c : Cst) : Prop :=
  ∀ d ∈ c.constructs, d.Neat source

instance (source : List Char) (c : Cst) : Decidable (c.Tidy source) :=
  inferInstanceAs (Decidable (∀ d ∈ c.constructs, d.Neat source))

variable {source : List Char} {c d : Cst}

theorem mem_constructsOf {cs : List Cst} (hd : d ∈ cs) {e : Cst} (he : e ∈ d.constructs) :
    e ∈ constructsOf cs := by
  induction cs with
  | nil => cases hd
  | cons c cs ih =>
    rw [constructsOf, List.mem_append]
    rcases List.mem_cons.mp hd with rfl | hd
    · exact .inl he
    · exact .inr (ih hd)

theorem mem_constructs_self (c : Cst) : c ∈ c.constructs := by
  obtain ⟨head, children⟩ := c
  rw [constructs]
  exact List.mem_cons_self

theorem mem_constructs_of_mem (hd : d ∈ c.children) {e : Cst} (he : e ∈ d.constructs) :
    e ∈ c.constructs := by
  obtain ⟨head, children⟩ := c
  rw [constructs]
  exact List.mem_cons_of_mem _ (mem_constructsOf hd he)

theorem Tidy.neat (h : c.Tidy source) : c.Neat source :=
  h c (mem_constructs_self c)

theorem Tidy.child (h : c.Tidy source) (hd : d ∈ c.children) : d.Tidy source :=
  fun e he => h e (mem_constructs_of_mem hd he)

theorem Inside.refl (c : Cst) : c.Inside c :=
  ⟨Nat.le_refl _, Nat.le_refl _⟩

theorem Inside.trans {e : Cst} (h : e.Inside d) (h' : d.Inside c) : e.Inside c := by
  obtain ⟨starts, stops⟩ := h
  obtain ⟨starts', stops'⟩ := h'
  exact ⟨by omega, by omega⟩

/-- What is inside constructs that follow one another follows one another. -/
theorem Before.inside {c' d' : Cst} (h : c.Before d) (hc : c'.Inside c) (hd : d'.Inside d) :
    c'.Before d' := by
  have apart : c.head.stop ≤ d.head.start := h
  have ends : c'.head.stop ≤ c.head.stop := hc.2
  have begins : d.head.start ≤ d'.head.start := hd.1
  show c'.head.stop ≤ d'.head.start
  omega

/-- A tidy construct that lies inside one of some constructs. -/
def TidyIn (source : List Char) (cs : List Cst) (d : Cst) : Prop :=
  d.Tidy source ∧ ∃ c ∈ cs, d.Inside c

namespace TidyIn

variable {cs : List Cst}

theorem head (tidy : d.Tidy source) (inside : d.Inside c) : d.TidyIn source (c :: cs) :=
  ⟨tidy, c, List.mem_cons_self, inside⟩

theorem cons (c : Cst) (h : d.TidyIn source cs) : d.TidyIn source (c :: cs) := by
  obtain ⟨tidy, e, he, inside⟩ := h
  exact ⟨tidy, e, List.mem_cons_of_mem c he, inside⟩

theorem inside (h : d.TidyIn source c.children) (neat : c.Neat source) : d.Inside c := by
  obtain ⟨-, e, he, inside⟩ := h
  exact inside.trans (neat.inside e he)

/-- It is behind all that ends before each of these constructs. -/
theorem behind (h : d.TidyIn source cs) (before : ∀ e ∈ cs, c.Before e) {c' : Cst}
    (hc : c'.Inside c) : c'.Before d := by
  obtain ⟨-, e, he, inside⟩ := h
  exact (before e he).inside hc inside

end TidyIn

end Cst

/-- Constructs that are picked from tidy ones in a row are tidy and in a row, and
    each is inside one of those. -/
theorem Picked.tidy {source : List Char} {cs ds : List Cst} (picked : Picked cs ds)
    (tidy : ∀ c ∈ cs, c.Tidy source) (row : cs.Pairwise Cst.Before) :
    ds.Pairwise Cst.Before ∧ ∀ d ∈ ds, d.TidyIn source cs := by
  induction picked with
  | nil => exact ⟨.nil, by simp⟩
  | @skip c cs ds later ih =>
    rw [List.forall_mem_cons] at tidy
    obtain ⟨ordered, within⟩ := ih tidy.2 row.of_cons
    exact ⟨ordered, fun d hd => (within d hd).cons c⟩
  | @keep c cs ds later ih =>
    rw [List.forall_mem_cons] at tidy
    rw [List.pairwise_cons] at row
    obtain ⟨ordered, within⟩ := ih tidy.2 row.2
    rw [List.pairwise_cons, List.forall_mem_cons]
    exact ⟨⟨fun d hd => (within d hd).behind row.1 (.refl c), ordered⟩,
      .head tidy.1 (.refl c), fun d hd => (within d hd).cons c⟩
  | @inside c cs es ds inner later ihInner ih =>
    rw [List.forall_mem_cons] at tidy
    rw [List.pairwise_cons] at row
    obtain ⟨orderedInner, withinInner⟩ :=
      ihInner (fun d hd => tidy.1.child hd) tidy.1.neat.row
    obtain ⟨ordered, within⟩ := ih tidy.2 row.2
    have insideC : ∀ e ∈ es, e.Inside c := fun e he => (withinInner e he).inside tidy.1.neat
    rw [List.pairwise_append, List.forall_mem_append]
    exact ⟨⟨orderedInner, ordered, fun e he d hd => (within d hd).behind row.1 (insideC e he)⟩,
      fun e he => .head (withinInner e he).1 (insideC e he), fun d hd => (within d hd).cons c⟩

/-- No construct of a row begins before its first one. -/
theorem start_le_of_head? {source : List Char} {cs : List Cst} {first : Cst}
    (row : cs.Pairwise Cst.Before) (tidy : ∀ c ∈ cs, c.Tidy source)
    (opens : cs.head? = some first) : ∀ c ∈ cs, first.head.start ≤ c.head.start := by
  obtain ⟨rest, rfl⟩ := List.head?_eq_some_iff.mp opens
  rw [List.pairwise_cons] at row
  rw [List.forall_mem_cons]
  refine ⟨Nat.le_refl _, fun c hc => ?_⟩
  have ordered := (tidy first List.mem_cons_self).neat.ordered
  have apart : first.head.stop ≤ c.head.start := row.1 c hc
  omega

/-- No construct of a row ends behind its last one. -/
theorem stop_le_of_getLast? {source : List Char} {cs : List Cst} {last : Cst}
    (row : cs.Pairwise Cst.Before) (tidy : ∀ c ∈ cs, c.Tidy source)
    (closes : cs.getLast? = some last) : ∀ c ∈ cs, c.head.stop ≤ last.head.stop := by
  obtain ⟨front, rfl⟩ := List.getLast?_eq_some_iff.mp closes
  rw [List.pairwise_append] at row
  rw [List.forall_mem_append, List.forall_mem_singleton]
  refine ⟨fun c hc => ?_, Nat.le_refl _⟩
  have mem : last ∈ front ++ [last] := List.mem_append_right front (List.mem_singleton_self _)
  have ordered := (tidy last mem).neat.ordered
  have apart : c.head.stop ≤ last.head.start := row.2.2 c hc last (List.mem_singleton_self _)
  omega

-- ============================================================================
-- Locations
-- ============================================================================

theorem Origin.Spans.eq {o : Origin} {first last : Cst} {l : Location}
    (h : o.Spans first last l) : ∃ stretch,
      slice? o.chars first.head.start last.head.stop = some stretch ∧ l = {
        startByte := first.head.start
        endByte := last.head.stop
        startLine := (point o.chars first.head.start).1 + 1
        startColumn := (point o.chars first.head.start).2
        endLine := (point o.chars last.head.stop).1 + 1
        endColumn := (point o.chars last.head.stop).2
        source := String.ofList stretch } := by
  obtain ⟨s, t, run⟩ := h
  unfold Origin.span Origin.textBetween at run
  split at run
  next stretch slice =>
    cases run
    exact ⟨stretch, slice, rfl⟩
  next => cases run

theorem Origin.Spans.startByte {o : Origin} {first last : Cst} {l : Location}
    (h : o.Spans first last l) : l.startByte = first.head.start := by
  obtain ⟨stretch, -, rfl⟩ := h.eq
  rfl

theorem Origin.Spans.endByte {o : Origin} {first last : Cst} {l : Location}
    (h : o.Spans first last l) : l.endByte = last.head.stop := by
  obtain ⟨stretch, -, rfl⟩ := h.eq
  rfl

/-- A location between two characters of its source describes what stands there. -/
theorem Origin.Spans.describes {o : Origin} {source : String} (chars : o.chars = source.toList)
    {first last : Cst} {l : Location} (h : o.Spans first last l)
    (starts : AtBoundary source.toList first.head.start)
    (stops : AtBoundary source.toList last.head.stop)
    (ordered : first.head.start ≤ last.head.stop) : l.Describes source := by
  obtain ⟨stretch, slice, rfl⟩ := h.eq
  rw [chars] at slice ⊢
  obtain ⟨stretch', slice', bytes⟩ := exists_slice starts stops ordered
  rw [slice] at slice'
  cases slice'
  have encoded : source.toByteArray = source.toList.utf8Encode := by
    rw [← String.toByteArray_ofList, String.ofList_toList]
  exact ⟨ordered, by rw [String.toByteArray_ofList, bytes, encoded], pointAt_point starts,
    pointAt_point stops⟩

end Ruby

-- ============================================================================
-- Nested ranges
-- ============================================================================

/-- Every located node describes its place in the source and holds none that
    reaches out of its range. -/
def Value.Nested (source : String) (v : Value) : Prop :=
  ∀ n ∈ v.nodes, ∀ l, n.location = some l →
    l.Describes source ∧ ∀ m ∈ n.nodes, ∀ k, m.location = some k → k.Within l

/-- No located node reaches out of a range. -/
def Value.Inside (start stop : Nat) (v : Value) : Prop :=
  ∀ n ∈ v.nodes, ∀ l, n.location = some l → start ≤ l.startByte ∧ l.endByte ≤ stop

/-- Ranges nest in a value, inside a range. -/
structure Value.Placed (source : String) (start stop : Nat) (v : Value) : Prop where
  nested : v.Nested source
  inside : v.Inside start stop

namespace Value

variable {source : String} {start stop start' stop' : Nat} {v : Value} {type : Label}
  {children : List Value} {l : Location}

theorem mem_nodesOf {vs : List Value} {n : Node} (h : n ∈ nodesOf vs) : ∃ v ∈ vs, n ∈ v.nodes := by
  induction vs with
  | nil => cases h
  | cons v vs ih =>
    rw [nodesOf, List.mem_append] at h
    rcases h with h | h
    · exact ⟨v, List.mem_cons_self, h⟩
    · obtain ⟨u, hu, h⟩ := ih h
      exact ⟨u, List.mem_cons_of_mem v hu, h⟩

theorem nodes_eq_nil_of_isLeaf (h : v.isLeaf = true) : v.nodes = [] := by
  cases v <;> first | rfl | cases h

namespace Placed

theorem of_isLeaf (h : v.isLeaf = true) : v.Placed source start stop := by
  have none := nodes_eq_nil_of_isLeaf h
  exact ⟨by simp [Nested, none], by simp [Inside, none]⟩

theorem mono (h : v.Placed source start stop) (starts : start' ≤ start) (stops : stop ≤ stop') :
    v.Placed source start' stop' := by
  refine ⟨h.nested, fun n hn l location => ?_⟩
  obtain ⟨begins, ends⟩ := h.inside n hn l location
  exact ⟨by omega, by omega⟩

/-- Whatever the children are in, the nodes among them are nested. -/
theorem nested_nodesOf (h : ∀ v ∈ children, v.Placed source start stop) :
    ∀ n ∈ nodesOf children, ∀ l, n.location = some l →
      l.Describes source ∧ ∀ m ∈ n.nodes, ∀ k, m.location = some k → k.Within l := by
  intro n hn
  obtain ⟨v, hv, hn⟩ := mem_nodesOf hn
  exact (h v hv).nested n hn

theorem inside_nodesOf (h : ∀ v ∈ children, v.Placed source start stop) :
    ∀ n ∈ nodesOf children, ∀ l, n.location = some l →
      start ≤ l.startByte ∧ l.endByte ≤ stop := by
  intro n hn
  obtain ⟨v, hv, hn⟩ := mem_nodesOf hn
  exact (h v hv).inside n hn

/-- A node that covers its children. -/
theorem located (describes : l.Describes source)
    (covered : ∀ v ∈ children, v.Placed source l.startByte l.endByte)
    (starts : start ≤ l.startByte) (stops : l.endByte ≤ stop) :
    (node type children (some l)).Placed source start stop := by
  have inside : (node type children (some l)).Inside l.startByte l.endByte := by
    rw [Inside, nodes, List.forall_mem_cons]
    refine ⟨?_, inside_nodesOf covered⟩
    rintro _ ⟨⟩
    exact ⟨Nat.le_refl _, Nat.le_refl _⟩
  have nested : (node type children (some l)).Nested source := by
    rw [Nested, nodes, List.forall_mem_cons]
    refine ⟨?_, nested_nodesOf covered⟩
    rintro _ ⟨⟩
    exact ⟨describes, fun m hm k location => inside m hm k location⟩
  exact mono ⟨nested, inside⟩ starts stops

/-- A node without a place of its own. -/
theorem unlocated (covered : ∀ v ∈ children, v.Placed source start stop) :
    (node type children none).Placed source start stop := by
  constructor
  · rw [Nested, nodes, List.forall_mem_cons]
    exact ⟨by simp, nested_nodesOf covered⟩
  · rw [Inside, nodes, List.forall_mem_cons]
    exact ⟨by simp, inside_nodesOf covered⟩

/-- Plain values in the place of a node. -/
theorem renamed {label : Label} {replaced : List Value} {location : Option Location}
    (h : (node label replaced location).Placed source start stop)
    (leaves : ∀ v ∈ children, v.isLeaf = true) :
    (node type children location).Placed source start stop := by
  cases location with
  | none => exact unlocated fun v hv => of_isLeaf (leaves v hv)
  | some l =>
    have self : ⟨label, replaced, some l⟩ ∈ (node label replaced (some l)).nodes := by
      rw [nodes]
      exact List.mem_cons_self
    obtain ⟨starts, stops⟩ := h.inside _ self l rfl
    exact located (h.nested _ self l rfl).1 (fun v hv => of_isLeaf (leaves v hv)) starts stops

end Placed

end Value

namespace Ruby

/-- A call without its block ends inside the call, and behind the parts that it
    needs. -/
theorem Cst.Tidy.callEnd {source : List Char} {c : Cst} (tidy : c.Tidy source)
    (kind : c.kind = .call) :
    (c.callParts.getLast?.getD c).Tidy source ∧ (c.callParts.getLast?.getD c).Inside c ∧
      ∀ d ∈ c.callParts, d.head.stop ≤ (c.callParts.getLast?.getD c).head.stop := by
  have parts : ∀ d ∈ c.callParts, d.Tidy source := fun d hd => tidy.child (mem_of_callParts hd)
  cases closes : c.callParts.getLast? with
  | none =>
    rw [List.getLast?_eq_none_iff] at closes
    rw [closes]
    exact ⟨tidy, .refl c, by simp⟩
  | some last =>
    have mem := List.mem_of_getLast? closes
    exact ⟨parts last mem, tidy.neat.inside last (mem_of_callParts mem),
      stop_le_of_getLast? (tidy.neat.call kind) parts closes⟩

/-- What is made of tidy concrete syntax lies inside it, ranges nested. -/
theorem Made.placed {o : Origin} {source : String} (chars : o.chars = source.toList) {c : Cst}
    {v : Value} (made : Made o c v) (tidy : c.Tidy source.toList) :
    v.Placed source c.head.start c.head.stop := by
  induction made with
  | leaf plain => exact .of_isLeaf plain
  | inside mem made ih =>
    have inside := tidy.neat.inside _ mem
    exact (ih (tidy.child mem)).mono inside.1 inside.2
  | whole span fits made ih =>
    have neat := tidy.neat
    refine .located (span.describes chars neat.starts neat.stops neat.ordered) ?_
      (Nat.le_of_eq span.startByte.symm) (Nat.le_of_eq span.endByte)
    rw [span.startByte, span.endByte]
    exact fun v hv => ih v hv tidy
  | bare fits leaves => exact .unlocated fun v hv => .of_isLeaf (leaves v hv)
  | @row c first last cs type children l picked opens closes span fits lengths made ih =>
    obtain ⟨row, within⟩ := picked.tidy (fun d hd => tidy.child hd) tidy.neat.row
    have tidies : ∀ d ∈ cs, d.Tidy source.toList := fun d hd => (within d hd).1
    have starts := start_le_of_head? row tidies opens
    have stops := stop_le_of_getLast? row tidies closes
    have first_mem := List.mem_of_head? opens
    have last_mem := List.mem_of_getLast? closes
    have firstNeat := (tidies first first_mem).neat
    have ordered := Nat.le_trans firstNeat.ordered (stops first first_mem)
    refine .located (span.describes chars firstNeat.starts (tidies last last_mem).neat.stops ordered)
      ?_ ?_ ?_
    · rw [span.startByte, span.endByte]
      intro v hv
      obtain ⟨d, hd, pair⟩ := exists_mem_zip lengths hv
      exact (ih d v pair (tidies d hd)).mono (starts d hd) (stops d hd)
    · rw [span.startByte]
      exact ((within first first_mem).inside tidy.neat).1
    · rw [span.endByte]
      exact ((within last last_mem).inside tidy.neat).2
  | @call c type children place l kind span fits places made ih =>
    obtain ⟨lastTidy, lastInside, stops⟩ := tidy.callEnd kind
    have ordered := Nat.le_trans lastInside.1 lastTidy.neat.ordered
    refine .located (span.describes chars tidy.neat.starts lastTidy.neat.stops ordered) ?_ ?_ ?_
    · rw [span.startByte, span.endByte]
      intro v hv
      rcases places v hv with plain | part
      · exact .of_isLeaf plain
      · have mem := Cst.mem_of_callParts part
        exact (ih v hv (tidy.child mem)).mono (tidy.neat.inside _ mem).1 (stops _ part)
    · exact Nat.le_of_eq span.startByte.symm
    · rw [span.endByte]
      exact lastInside.2
  | renamed fits leaves made ih => exact (ih tidy).renamed leaves

/-- Source ranges nest. If the concrete syntax is tidy, every located node of the
    tree has the source text between its offsets, with their lines and columns,
    and the range of every located node inside it lies in its own range. -/
theorem Parser.ranges_nest_of_parse {p : Parser} {source : String} {root : Cst} {tree : Node}
    (grammar : p.grammar source = some root) (tidy : root.Tidy source.toList)
    (parsed : p.parse source = .ok tree) :
    ∀ n ∈ tree.nodes, ∀ l, n.location = some l →
      l.Describes source ∧ ∀ m ∈ n.nodes, ∀ k, m.location = some k → k.Within l := by
  have made : Made (p.origin source) root tree.toValue := made_of_parse grammar parsed
  exact (made.placed rfl tidy).nested

/-- The source of four lines, `é(1, b: 2) {`, `  c`, `  d` and `}`. -/
def callWithBlock : Cst :=
  .mk ⟨.other "program", 0, 23, none, true, false, false⟩
    [.mk ⟨.call, 0, 23, none, true, false, false⟩
      [.mk ⟨.identifier, 0, 2, some "method", true, false, false⟩ [],
       .mk ⟨.argumentList, 2, 11, some "arguments", true, false, false⟩
        [.mk ⟨.other "(", 2, 3, none, false, false, false⟩ [],
         .mk ⟨.integer, 3, 4, none, true, false, false⟩ [],
         .mk ⟨.other ",", 4, 5, none, false, false, false⟩ [],
         .mk ⟨.pair, 6, 10, none, true, false, false⟩
          [.mk ⟨.hashKeySymbol, 6, 7, some "key", true, false, false⟩ [],
           .mk ⟨.other ":", 7, 8, none, false, false, false⟩ [],
           .mk ⟨.integer, 9, 10, some "value", true, false, false⟩ []],
         .mk ⟨.other ")", 10, 11, none, false, false, false⟩ []],
       .mk ⟨.other "block", 12, 23, some "block", true, false, false⟩
        [.mk ⟨.other "\x7b", 12, 13, none, false, false, false⟩ [],
         .mk ⟨.blockBody, 16, 21, some "body", true, false, false⟩
          [.mk ⟨.identifier, 16, 17, none, true, false, false⟩ [],
           .mk ⟨.identifier, 20, 21, none, true, false, false⟩ []],
         .mk ⟨.other "\x7d", 22, 23, none, false, false, false⟩ []]]]

/-- The call ends in front of its block, the hash covers the keyword, and the body
    is a `begin` of two lines. -/
theorem Parser.ranges_nest_of_parse_callWithBlock :
    ∃ tree, (Parser.ofGrammar fun _ => some callWithBlock).parse
        "é(1, b: 2) \x7b\n  c\n  d\n\x7d" = .ok tree ∧
      callWithBlock.Tidy "é(1, b: 2) \x7b\n  c\n  d\n\x7d".toList ∧
      tree.nodes.filterMap Node.source? = ["é(1, b: 2) \x7b\n  c\n  d\n\x7d", "é(1, b: 2)", "1",
        "b: 2", "b: 2", "b", "2", "c\n  d", "c", "d"] ∧
      ∀ n ∈ tree.nodes, ∀ l, n.location = some l →
        l.Describes "é(1, b: 2) \x7b\n  c\n  d\n\x7d" ∧
          ∀ m ∈ n.nodes, ∀ k, m.location = some k → k.Within l := by
  have parsed : ∃ tree, (Parser.ofGrammar fun _ => some callWithBlock).parse
      "é(1, b: 2) \x7b\n  c\n  d\n\x7d" = .ok tree ∧ tree.nodes.filterMap Node.source? =
        ["é(1, b: 2) \x7b\n  c\n  d\n\x7d", "é(1, b: 2)", "1", "b: 2", "b: 2", "b", "2",
          "c\n  d", "c", "d"] := ⟨_, rfl, by decide +kernel⟩
  have tidy : callWithBlock.Tidy "é(1, b: 2) \x7b\n  c\n  d\n\x7d".toList := by decide +kernel
  obtain ⟨tree, parsed, texts⟩ := parsed
  exact ⟨tree, parsed, tidy, texts, Parser.ranges_nest_of_parse rfl tidy parsed⟩

end Ruby

end RubyPattern
