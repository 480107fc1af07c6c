import ByteLift.Expr.Condition
import ByteLift.Nested.SinglePass
import ByteLift.Stmt.Rewrite

/-!
# Branches

Straightens branches from the inside out: a branch with a constant condition becomes the arm that is
taken, a branch without statements becomes the effect of its condition, a branch inside a branch
becomes one with `&&`, and a branch whose first arm is empty, or a chain of branches, is turned
round. Loops that are left running once are unwrapped.
-/

namespace ByteLift.Cleanup

/-- Blocks that consist of one branch. -/
def isSingleBranch : Block → Bool
  | [.ite ..] => true
  | _ => false

/-- The part of a condition that has to stay when its value is not needed, if it can stand as a
statement. -/
def effectOf : Expr → Option Expr
  | .paren e | .unary _ e _ => effectOf e
  | .compare _ a b =>
    if b.isPure then effectOf a else if a.isPure then effectOf b else none
  | .call k r m args => some (.call k r m args)
  | .staticCall k m args => some (.staticCall k m args)
  | .assign a b => some (.assign a b)
  | .new m args => some (.new m args)
  | _ => none

/-- Both conditions hold; the second is only looked at if the first does. -/
def both (a b : Expr) : Expr := .binary .condAnd a b .boolean

/-- What a branch without statements becomes. -/
def emptyBranch (cond : Expr) : Tracked Block :=
  if cond.isPure then .mark []
  else
    match effectOf cond with
    | some e => .mark [.expr e]
    | none => pure [.ite cond [] []]

/-- Puts the shorter reading first: a chain of branches goes into the second arm. -/
def turnChain (vars : VarTable) (cond : Expr) (a b : Block) : Tracked Block :=
  if isSingleBranch a && !b.isEmpty && !isSingleBranch b then .mark [.ite (cond.negate vars) b a]
  else pure [.ite cond a b]

/-- Straightens a branch whose arms are straight, the first arm not empty. -/
def mergeBranch (vars : VarTable) (cond : Expr) (a b : Block) : Tracked Block :=
  match a, b with
  | [.ite inner [] []], [] => do
    let rest ← emptyBranch (both cond inner)
    .mark rest
  | [.ite inner (s :: ss) []], [] => do
    let rest ← mergeBranch vars (both cond inner) (s :: ss) []
    .mark rest
  | a, b => turnChain vars cond a b
termination_by Stmt.sizeList a
decreasing_by simp only [Stmt.sizeList, Stmt.size]; omega

/-- Straightens a branch whose arms are straight. -/
def straightenBranch (vars : VarTable) (cond : Expr) (a b : Block) : Tracked Block :=
  if cond.isTrue then .mark a
  else if cond.isFalse then .mark b
  else
    match a, b with
    | [], [] => emptyBranch cond
    | [], b => do
      let rest ← mergeBranch vars (cond.negate vars) b []
      .mark rest
    | a, b => mergeBranch vars cond a b

/-- Straightens the branches of a block. -/
def straightenHere (vars : VarTable) : Block → Tracked Block
  | [] => pure []
  | .ite c a b :: ss => do return (← straightenBranch vars c a b) ++ (← straightenHere vars ss)
  | s :: ss => do return s :: (← straightenHere vars ss)

/-- Straightens a block whose statements are straight. -/
def straightenEnds (vars : VarTable) (b : Block) : Tracked Block := do
  unwrapSinglePass (← straightenHere vars b)

/-- Straightens the branches of a method's body. -/
def straightenBranches (vars : VarTable) (b : Block) : Tracked Block :=
  b.rewrite (straightenEnds vars)

end ByteLift.Cleanup
