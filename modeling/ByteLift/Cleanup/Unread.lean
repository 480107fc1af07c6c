import ByteLift.Stmt.Rewrite
import ByteLift.Stmt.Uses

/-!
# Variables that are never read

Drops the assignments and bare declarations of variables that the method never reads. Of an
assignment whose value may fail or have an effect, the value stays behind.
-/

namespace ByteLift.Cleanup

/-- What is left of a statement when some variables are not needed; nothing if it stays. -/
def leftover? (unread : Var → Bool) (s : Stmt) : Option Block :=
  match s with
  | .declare v none => if unread v then some [] else none
  | s =>
    match s.assignment? with
    | some (v, value) =>
      if unread v then some (if value.isPure then [] else [.expr value]) else none
    | none => none

/-- Drops assignments and bare declarations of variables that are not needed from a block, but not
from the blocks in it. -/
def sweep (unread : Var → Bool) : Block → Tracked Block
  | [] => pure []
  | s :: ss =>
    match leftover? unread s with
    | some left => do
      let rest ← sweep unread ss
      .mark (left ++ rest)
    | none => do return s :: (← sweep unread ss)

/-- Drops what is assigned to variables that a method's body never reads. -/
def dropUnread (b : Block) : Tracked Block :=
  let uses := Block.uses b
  b.rewrite (sweep fun v => !uses.contains (.read v))

end ByteLift.Cleanup
