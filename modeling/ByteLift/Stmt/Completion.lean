import ByteLift.Stmt.Basic

/-!
# Where control can go

Whether control can run on behind a statement, and whether a loop's body can leave the loop or start
it again. The answers are read off the statements alone: a condition other than the literal `true`
may come out either way, and every statement of a block is taken to be run.
-/

namespace ByteLift

/-- The two jumps that name a loop. -/
inductive LoopJump
  | breaking
  | continuing
deriving DecidableEq, Inhabited

namespace Stmt

/-- The loop that a jump of this kind names: `none` stands for the innermost one. -/
def jumpTarget? : LoopJump → Stmt → Option (Option Label)
  | .breaking, breakLoop l => some l
  | .continuing, continueLoop l => some l
  | _, _ => none

mutual

/-- Whether a jump of this kind inside a statement goes to the loop with the given label around it.
`inner` says that the statement stands in a loop inside that one, where jumps without a label no
longer reach it. -/
def jumpsTo (kind : LoopJump) (label : Option Label) (inner : Bool) : Stmt → Bool
  | ite _ a b => jumpsToList kind label inner a || jumpsToList kind label inner b
  | loop _ _ a => jumpsToList kind label true a
  | block a => jumpsToList kind label inner a
  | s =>
    match s.jumpTarget? kind with
    | some none => !inner
    | some (some l) => some l = label
    | none => false

/-- Whether a jump of this kind inside a block goes to the loop with the given label around it. -/
def jumpsToList (kind : LoopJump) (label : Option Label) (inner : Bool) : Block → Bool
  | [] => false
  | s :: ss => s.jumpsTo kind label inner || jumpsToList kind label inner ss

end

end Stmt

/-- Whether a loop's body contains a jump out of the loop with this label. -/
def Block.breaksOutOf (body : Block) (label : Option Label) : Bool :=
  Stmt.jumpsToList .breaking label false body

/-- Whether a loop's body contains a jump to the next round of the loop with this label. -/
def Block.continues (body : Block) (label : Option Label) : Bool :=
  Stmt.jumpsToList .continuing label false body

/-- Whether any `continue` in a block names a label. -/
def Block.continuesTo (b : Block) (l : Label) : Bool :=
  b.stmts.any (· = .continueLoop (some l))

namespace Stmt

mutual

/-- Whether control may run on behind a statement. -/
def completes : Stmt → Bool
  | ite _ a b => b.isEmpty || completesList a || completesList b
  | loop l cond body => !cond.isTrue || Block.breaksOutOf body l
  | block a => completesList a
  | ret _ | throw _ | breakLoop _ | continueLoop _ | goto _ none => false
  | expr _ | declare .. | label _ | goto _ (some _) => true

/-- Whether control may run on behind each statement of a block. -/
def completesList : Block → Bool
  | [] => true
  | s :: ss => s.completes && completesList ss

end

end Stmt

/-- Whether control may run on behind a block. -/
def Block.completes (b : Block) : Bool := Stmt.completesList b

end ByteLift
