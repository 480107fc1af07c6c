import ByteLift.Cleanup.Copies
import ByteLift.Stmt.Rewrite

/-!
# Variables that are used once

A variable that is assigned once and read once, by the next statement, is replaced by its value, if
the value can be moved: a literal, a variable, one of the objects that are always there, or a cast
of one of these.
-/

namespace ByteLift.Cleanup

/-- Values that can be moved to where they are used. -/
def isMovable : Expr → Bool
  | .lit _ | .var _ | .this | .super | .outerThis _ => true
  | .cast _ e | .paren e => isMovable e
  | _ => false

/-- Loops. -/
def isLoop : Stmt → Bool
  | .loop .. => true
  | _ => false

/-- The assignment of a statement, if its value can take the place of the variable in the next
statement. The uses are those of the whole method. -/
def inlinable? (uses : List Use) (s next : Stmt) : Option (Var × Expr) :=
  match s.assignment? with
  | some (v, value) =>
    if uses.count (.read v) = 1 && uses.count (.write v) = 1 && isMovable value
        && !value.reads v && !isLoop next && !(Block.written [next]).any value.reads
        && next.exprs.any (·.reads v) then
      some (v, value)
    else none
  | none => none

/-- Inlines values within a block. -/
def inlineHere (uses : List Use) : Block → Tracked Block
  | s :: next :: ss =>
    match inlinable? uses s next with
    | some (v, value) => do
      let next ← replaceStmtReads (Expr.only v value) next
      let rest ← inlineHere uses (next :: ss)
      .mark rest
    | none => do return s :: (← inlineHere uses (next :: ss))
  | b => pure b
termination_by b => b.length

/-- Inlines values in a method's body. -/
def inlineOnce (b : Block) : Tracked Block := b.rewrite (inlineHere (Block.uses b))

end ByteLift.Cleanup
