/-
  RubyPattern.Ruby.Control

  Conditions, loops, case distinctions and jumps.
-/
import RubyPattern.Ruby.Assignments

namespace RubyPattern.Ruby.Context

/-! ## Conditions -/

/-- A condition with two branches, lowered in the order in which the source has them. -/
def ifStatement (w : Context) (c : Cst) : Lowering Node := do
  let condition ← w.lowerRole c "condition"
  let consequence ← w.clause (c.part? "consequence")
  let alternative ← w.clause (c.part? "alternative")
  w.located c "if" [condition, .ofNode? consequence, .ofNode? alternative]

/-- The opposite condition; the branch of the else part comes first. -/
def unlessStatement (w : Context) (c : Cst) : Lowering Node := do
  let condition ← w.lowerRole c "condition"
  let alternative ← w.clause (c.part? "alternative")
  let consequence ← w.clause (c.part? "consequence")
  w.located c "if" [condition, .ofNode? alternative, .ofNode? consequence]

/-- A condition behind its statement, which is lowered first. -/
def ifModifier (w : Context) (c : Cst) : Lowering Node := do
  let body ← w.lowerRole c "body"
  let condition ← w.lowerRole c "condition"
  w.located c "if" [condition, body, .nil]

/-- The opposite condition behind its statement. -/
def unlessModifier (w : Context) (c : Cst) : Lowering Node := do
  let body ← w.lowerRole c "body"
  let condition ← w.lowerRole c "condition"
  w.located c "if" [condition, .nil, body]

/-! ## Loops -/

/-- A loop that tests before its body. -/
def loop (w : Context) (type : String) (c : Cst) : Lowering Node := do
  let condition ← w.lowerRole c "condition"
  let body ← w.clause (c.part? "body")
  w.located c type [condition, .ofNode? body]

/-- A loop behind its statement. One around a `begin` block tests after the first round. -/
def loopModifier (w : Context) (type : String) (c : Cst) : Lowering Node := do
  let part ← requirePart (c.part? "body")
  let body ← w.lower part
  let condition ← w.lowerRole c "condition"
  w.located c (if part.kind == .beginBlock then type ++ "_post" else type) [condition, body]

/-! ## Case distinctions -/

/-- A case distinction. Its branches are lowered before its subject. -/
def caseStatement (w : Context) (c : Cst) : Lowering Node := do
  let branches ← w.lowerAll (c.plainChildren.filter fun child => child.kind == .whenClause)
  let subject ← w.lowerOptional (c.part? "value")
  let otherwise ← w.clause (c.plainChildren.find? fun child => child.kind == .elseClause)
  w.located c "case" (.ofNode? subject :: asChildren branches ++ [.ofNode? otherwise])

/-- One branch of a case distinction: its patterns and its body. -/
def whenClause (w : Context) (c : Cst) : Lowering Node := do
  let patterns ← w.lowerAll (c.inRole "pattern")
  let body ← w.clause (c.part? "body")
  w.located c "when" (asChildren patterns ++ [.ofNode? body])

/-- The pattern of a branch stands for the one construct inside it. -/
def matchPattern (w : Context) (c : Cst) : Lowering Node :=
  match c.plainChildren with
  | [inner] => w.lower inner
  | _ => throw (w.unsupported c)

/-! ## Jumps -/

/-- What leaves with a jump: the arguments of argument lists, and other children as they are. -/
def jumpValues (w : Context) : List Cst → Lowering (List Node)
  | [] => pure []
  | c :: cs => do
    let here ←
      if c.kind == .argumentList then w.arguments c.plainChildren
      else do
        let n ← w.lower c
        pure [n]
    let rest ← w.jumpValues cs
    return here ++ rest

/-- A return, break, next or yield. -/
def jump (w : Context) (type : String) (c : Cst) : Lowering Node := do
  let values ← w.jumpValues c.plainChildren
  w.located c type (asChildren values)

end RubyPattern.Ruby.Context
