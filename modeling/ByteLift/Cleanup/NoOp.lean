import ByteLift.Stmt.Rewrite

/-!
# Statements that do nothing

Drops assignments of a variable to itself, and expression statements that can neither fail nor have
an effect.
-/

namespace ByteLift.Cleanup

/-- Whether a statement does nothing. -/
def isNoOp : Stmt → Bool
  | .expr (.assign (.var a) (.var b)) => a = b
  | .expr e => e.isPure
  | _ => false

/-- Drops the statements of a block that do nothing, but not those in its blocks. -/
def dropNoOpsHere : Block → Tracked Block
  | [] => pure []
  | s :: ss =>
    if isNoOp s then do
      let rest ← dropNoOpsHere ss
      .mark rest
    else do return s :: (← dropNoOpsHere ss)

/-- Drops the statements that do nothing from a method's body. -/
def dropNoOps (b : Block) : Tracked Block := b.rewrite dropNoOpsHere

end ByteLift.Cleanup
