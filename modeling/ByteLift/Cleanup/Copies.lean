import ByteLift.Stmt.Completion
import ByteLift.Stmt.Uses

/-!
# Copies of variables

Reads of a variable that holds a copy of another become reads of that one. The block is walked in
the order of execution with a list of the copies that are sure to hold: an assignment ends those it
takes part in, and so does a loop that assigns them.
-/

namespace ByteLift.Cleanup

/-- Variables that hold copies, each with the variable it is a copy of. -/
abbrev Copies := List (Var × Var)

namespace Copies

/-- The variable that a variable is a copy of. -/
def source? (c : Copies) (v : Var) : Option Var := (c.find? fun e => e.1 = v).map Prod.snd

/-- The expression to read in place of a variable. -/
def substitute (c : Copies) (v : Var) : Option Expr := (c.source? v).map Expr.var

/-- Forgets the copies that a variable takes part in. -/
def kill (c : Copies) (v : Var) : Copies := c.filter fun e => e.1 ≠ v && e.2 ≠ v

/-- Forgets the copies that any variable of a list takes part in. -/
def killAll (c : Copies) (vs : List Var) : Copies := vs.foldl kill c

/-- Notes that a variable is a copy of another. -/
def add (c : Copies) (v source : Var) : Copies :=
  if v = source then c else (v, source) :: c.filter fun e => e.1 ≠ v

/-- The copies that two lists agree on. -/
def meet (a b : Copies) : Copies := a.filter fun e => b.source? e.1 = some e.2

/-- The copies that hold behind a branch, given those behind each arm and whether control runs on
from it. -/
def join (a : Copies) (aRuns : Bool) (b : Copies) (bRuns : Bool) : Copies :=
  match aRuns, bRuns with
  | true, true => a.meet b
  | true, false => a
  | false, true => b
  | false, false => []

/-- The copies that hold behind a statement without blocks. -/
def after (c : Copies) (s : Stmt) : Copies :=
  let c := c.killAll (s.declared?.toList ++ Block.written [s])
  match s.assignment? with
  | some (v, .var source) => c.add v source
  | _ => c

end Copies

/-- Replaces the variables read by the expressions of a statement itself. -/
def replaceStmtReads (f : Var → Option Expr) : Stmt → Tracked Stmt
  | .expr e => do return .expr (← e.replaceReads f)
  | .throw e => do return .throw (← e.replaceReads f)
  | .declare v (some e) => do return .declare v (some (← e.replaceReads f))
  | .ret (some e) => do return .ret (some (← e.replaceReads f))
  | .goto l (some e) => do return .goto l (some (← e.replaceReads f))
  | .ite c a b => do return .ite (← c.replaceReads f) a b
  | .loop l c a => do return .loop l (← c.replaceReads f) a
  | s => pure s

mutual

/-- Replaces copies in a statement, and gives the copies that hold behind it. -/
def copyStmt (c : Copies) : Stmt → Tracked (Stmt × Copies)
  | .ite cond a b => do
    let cond ← cond.replaceReads c.substitute
    let (a, afterA) ← copyBlock c a
    let (b, afterB) ← copyBlock c b
    return (.ite cond a b, afterA.join (Block.completes a) afterB (Block.completes b))
  | .loop l cond a => do
    let c := c.killAll (Block.written a)
    let cond ← cond.replaceReads c.substitute
    let (a, _) ← copyBlock c a
    return (.loop l cond a, c)
  | .block a => do
    let (a, c) ← copyBlock c a
    return (.block a, c)
  | s => do
    let s ← replaceStmtReads c.substitute s
    return (s, c.after s)

/-- Replaces copies in a block, and gives the copies that hold behind it. -/
def copyBlock (c : Copies) : Block → Tracked (Block × Copies)
  | [] => pure ([], c)
  | s :: ss => do
    let (s, c) ← copyStmt c s
    let (ss, c) ← copyBlock c ss
    return (s :: ss, c)

end

/-- Replaces copies in a method's body. -/
def propagateCopies (b : Block) : Tracked Block := Prod.fst <$> copyBlock [] b

end ByteLift.Cleanup
