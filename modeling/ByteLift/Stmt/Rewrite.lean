import ByteLift.Stmt.Basic
import ByteLift.Tracked

/-!
# Rewriting blocks from the inside out

Most rules look at the statements of one block. They are applied to all blocks of a method, each
after the blocks inside it.
-/

namespace ByteLift

namespace Stmt

mutual

/-- Rewrites the blocks of a statement. -/
def rewriteIn (f : Block → Tracked Block) : Stmt → Tracked Stmt
  | ite c a b => do
    let a ← f (← rewriteEach f a)
    let b ← f (← rewriteEach f b)
    return ite c a b
  | loop l c a => do return loop l c (← f (← rewriteEach f a))
  | block a => do return block (← f (← rewriteEach f a))
  | s => pure s

/-- Rewrites the blocks of each statement. -/
def rewriteEach (f : Block → Tracked Block) : Block → Tracked Block
  | [] => pure []
  | s :: ss => do return (← s.rewriteIn f) :: (← rewriteEach f ss)

end

end Stmt

/-- Rewrites a block and all blocks in it, from the inside out. -/
def Block.rewrite (f : Block → Tracked Block) (b : Block) : Tracked Block := do
  f (← Stmt.rewriteEach f b)

end ByteLift
