import ByteLift.Stmt.Completion
import ByteLift.Tracked

/-!
# Loops that run once

A loop `while (true)` that is never started again runs its body at most once, and every way through
the body leaves the loop or the method. Such a loop is only there so that something can break out of
it, and it can be replaced by its body if the breaks can be taken out: code behind a branch that
breaks moves into the arm that does not.
-/

namespace ByteLift

namespace Stmt

theorem sizeList_append (a b : Block) : sizeList (a ++ b) = sizeList a + sizeList b := by
  induction a with
  | nil => simp [sizeList]
  | cons s ss ih => simp [sizeList, ih, Nat.add_assoc]

end Stmt

/-- The body of a loop that runs at most once, without its breaks. What follows a break is dropped;
what follows a branch that breaks moves into the arm that runs on. There is none if a break stands
where this cannot reach it, or if what follows a branch would have to stand in both arms. -/
def liftBreaks (label : Option Label) : Block → Option Block
  | [] => some []
  | .breakLoop target :: rest =>
    if target = none ∨ target = label then some []
    else (liftBreaks label rest).map (.breakLoop target :: ·)
  | .ite cond a b :: rest =>
    if Block.breaksOutOf a label || Block.breaksOutOf b label then
      match Block.completes a, Block.completes b with
      | true, true =>
        if rest.isEmpty then do return [.ite cond (← liftBreaks label a) (← liftBreaks label b)]
        else none
      | false, false => do return [.ite cond (← liftBreaks label a) (← liftBreaks label b)]
      | true, false => do
        return [.ite cond (← liftBreaks label (a ++ rest)) (← liftBreaks label b)]
      | false, true => do
        return [.ite cond (← liftBreaks label a) (← liftBreaks label (b ++ rest))]
    else (liftBreaks label rest).map (.ite cond a b :: ·)
  | s :: rest =>
    if Block.breaksOutOf [s] label then none else (liftBreaks label rest).map (s :: ·)
termination_by b => Stmt.sizeList b
decreasing_by
  all_goals simp only [Stmt.sizeList, Stmt.size, Stmt.sizeList_append]
  all_goals try omega
  all_goals cases s <;> simp only [Stmt.size] <;> omega

/-- The statements that a loop which runs its body at most once can be replaced by. -/
def singlePass? : Stmt → Option Block
  | .loop label cond body =>
    if cond.isTrue && !Block.continues body label && !Block.completes body then
      liftBreaks label body
    else none
  | _ => none

/-- Replaces the loops of a block that run once by their bodies. Blocks inside the block, and the
statements that come out of a loop, are left as they are. -/
def unwrapSinglePass : Block → Tracked Block
  | [] => pure []
  | s :: ss =>
    match singlePass? s with
    | some body => do
      let rest ← unwrapSinglePass ss
      .mark (body ++ rest)
    | none => do return s :: (← unwrapSinglePass ss)

end ByteLift
