import ByteLift.Expr.Condition
import ByteLift.Nested.SinglePass

/-!
# Taking the scaffolding down

Freshly nested code is full of loops that only serve as something to break out of. A round of
tidying works from the inside out: it gives loops their condition, unwraps loops that run once,
drops what is never reached and jumps that change nothing, and straightens branches. Rounds are
repeated until one changes nothing.
-/

namespace ByteLift

/-! ## Loops -/

mutual

/-- Drops a `continue` of a loop where control would go on with the loop anyway: at the end of its
body. -/
def stripTail (l : Label) : Block → Tracked Block
  | [] => pure []
  | s :: [] => stripTailStmt l s
  | s :: t :: ss => do return s :: (← stripTail l (t :: ss))

/-- Drops a `continue` of a loop from the last statement of its body. -/
def stripTailStmt (l : Label) : Stmt → Tracked Block
  | .ite c a b => do return [.ite c (← stripTail l a) (← stripTail l b)]
  | s => if s = .continueLoop (some l) then .mark [] else pure [s]

end

/-- A body that ends in `if (c) { X; continue L; } break L;` does the same as one that ends in
`if (!c) { break L; } X`. -/
def turnTail (vars : VarTable) (l : Label) (body : Block) : Tracked Block :=
  match body.reverse with
  | last :: .ite c a [] :: before =>
    if last = .breakLoop (some l) && a.getLast? = some (.continueLoop (some l)) then
      .mark (before.reverse ++ .ifThen (c.negate vars) [.breakLoop (some l)] :: a.dropLast)
    else pure body
  | _ => pure body

/-- A loop `while (true)` whose body starts with `if (c) { break L; }` and that can run more than
once has the condition `!c`. -/
def pullCondition (vars : VarTable) (l : Label) (cond : Expr) (body : Block) :
    Tracked (Expr × Block) :=
  match body with
  | .ite c [.breakLoop (some m)] [] :: rest =>
    if m = l && cond.isTrue && (Block.continuesTo body l || Block.completes body) then
      .mark (c.negate vars, rest)
    else pure (cond, body)
  | _ => pure (cond, body)

/-- Straightens a loop whose body is tidy. -/
def tidyLoop (vars : VarTable) (l : Label) (cond : Expr) (body : Block) : Tracked Stmt := do
  let body ← stripTail l body
  let body ← turnTail vars l body
  let (cond, body) ← pullCondition vars l cond body
  return .loop (some l) cond body

/-! ## Blocks -/

/-- Drops what follows a statement that control never runs on behind. -/
def dropUnreached : Block → Tracked Block
  | [] => pure []
  | s :: ss =>
    if s.completes then do return s :: (← dropUnreached ss) else .note [s] (!ss.isEmpty)

/-- A block without its last statement, if that is the given one. -/
def dropLastIf (s : Stmt) (b : Block) : Tracked Block :=
  if b.getLast? = some s then .mark b.dropLast else pure b

/-- Drops a jump at the end of an arm of a branch if the same jump follows the branch. -/
def dropRepeatedJumps : Block → Tracked Block
  | .ite c a b :: jump :: ss => do
    if jump.isJump then
      let a ← dropLastIf jump a
      let b ← dropLastIf jump b
      return .ite c a b :: (← dropRepeatedJumps (jump :: ss))
    else return .ite c a b :: (← dropRepeatedJumps (jump :: ss))
  | s :: ss => do return s :: (← dropRepeatedJumps ss)
  | [] => pure []

/-- Replaces branches that are always taken by their first arm, and turns branches round whose
first arm alone is empty. -/
def straighten (vars : VarTable) : Block → Tracked Block
  | [] => pure []
  | .ite c a b :: ss => do
    let head : Block ←
      if c.isTrue then .mark a
      else if a.isEmpty && !b.isEmpty then .mark [.ite (c.negate vars) b a]
      else pure [.ite c a b]
    return head ++ (← straighten vars ss)
  | s :: ss => do return s :: (← straighten vars ss)

/-- Straightens a block whose statements are tidy. -/
def tidyEnds (vars : VarTable) (b : Block) : Tracked Block := do
  let b ← unwrapSinglePass b
  let b ← dropUnreached b
  let b ← dropRepeatedJumps b
  straighten vars b

mutual

/-- Tidies a statement from the inside out. -/
def tidyStmt (vars : VarTable) : Stmt → Tracked Stmt
  | .ite c a b => do
    let a ← tidyEnds vars (← tidyStmts vars a)
    let b ← tidyEnds vars (← tidyStmts vars b)
    return .ite c a b
  | .loop (some l) c a => do
    let a ← tidyEnds vars (← tidyStmts vars a)
    tidyLoop vars l c a
  | .loop none c a => do return .loop none c (← tidyEnds vars (← tidyStmts vars a))
  | .block a => do return .block (← tidyEnds vars (← tidyStmts vars a))
  | s => pure s

/-- Tidies each statement of a block. -/
def tidyStmts (vars : VarTable) : Block → Tracked Block
  | [] => pure []
  | s :: ss => do return (← tidyStmt vars s) :: (← tidyStmts vars ss)

end

/-- One round of tidying. -/
def tidyRound (vars : VarTable) (b : Block) : Tracked Block := do
  tidyEnds vars (← tidyStmts vars b)

/-- Tidies a block until nothing changes. -/
def tidy (vars : VarTable) (b : Block) : Block :=
  Tracked.settle (tidyRound vars) (2 * Block.size b + 2) b

/-! ## Labels -/

mutual

/-- Drops the label of a jump that goes to the innermost loop around it. -/
def stripLabel (innermost : Option Label) : Stmt → Stmt
  | .breakLoop l => .breakLoop (if l = innermost then none else l)
  | .continueLoop l => .continueLoop (if l = innermost then none else l)
  | .loop l c a => .loop l c (stripLabels l a)
  | .ite c a b => .ite c (stripLabels innermost a) (stripLabels innermost b)
  | .block a => .block (stripLabels innermost a)
  | s => s

/-- Drops the labels of the jumps in a block that go to the innermost loop around them. -/
def stripLabels (innermost : Option Label) : Block → Block
  | [] => []
  | s :: ss => stripLabel innermost s :: stripLabels innermost ss

end

mutual

/-- Drops the labels of loops that no jump names. -/
def dropLabel (used : Label → Bool) : Stmt → Stmt
  | .loop l c a => .loop (l.filter used) c (dropLabels used a)
  | .ite c a b => .ite c (dropLabels used a) (dropLabels used b)
  | .block a => .block (dropLabels used a)
  | s => s

/-- Drops the labels of the loops in a block that no jump names. -/
def dropLabels (used : Label → Bool) : Block → Block
  | [] => []
  | s :: ss => dropLabel used s :: dropLabels used ss

end

end ByteLift
