import ByteLift.Expr.Uses
import ByteLift.Stmt.Basic

/-!
# How blocks use variables and labels

What is done to a variable in a block: its reads and writes, and its declarations. A declaration
with a value also writes the variable.
-/

namespace ByteLift

/-- How often a variable is used. -/
structure UseCount where
  reads : Nat
  writes : Nat
  declarations : Nat
deriving DecidableEq, Inhabited

namespace Stmt

/-- The uses of variables by a statement itself, without those in its blocks. -/
def ownUses : Stmt → List Use
  | declare v (some e) => .write v :: e.uses
  | s => s.exprs.flatMap Expr.uses

/-- The variable that a statement declares. -/
def declared? : Stmt → Option Var
  | declare v _ => some v
  | _ => none

/-- The label that a jump names. -/
def namedLabel? : Stmt → Option Label
  | breakLoop l | continueLoop l => l
  | goto l _ => some l
  | _ => none

end Stmt

namespace Block

/-- The uses of variables in a block, at any depth. -/
def uses (b : Block) : List Use := b.stmts.flatMap Stmt.ownUses

/-- The variables declared in a block, at any depth, in the order of their declarations. -/
def declared (b : Block) : List Var := b.stmts.filterMap Stmt.declared?

/-- How often a block uses a variable. -/
def useCount (b : Block) (v : Var) : UseCount :=
  ⟨b.uses.count (.read v), b.uses.count (.write v), b.declared.count v⟩

/-- Whether a block reads, writes or declares a variable. -/
def mentions (b : Block) (v : Var) : Bool :=
  b.uses.contains (.read v) || b.uses.contains (.write v) || b.declared.contains v

/-- Whether a block writes a variable. -/
def writes (b : Block) (v : Var) : Bool := b.uses.contains (.write v)

/-- The variables that a block writes, in the order of their first write. -/
def written (b : Block) : List Var :=
  (b.uses.filterMap fun
    | .write v => some v
    | .read _ => none).eraseDups

/-- How many jumps in a block name a label. -/
def labelCount (b : Block) (l : Label) : Nat := (b.stmts.filterMap Stmt.namedLabel?).count l

end Block

/-- Whether a statement reads, writes or declares a variable. -/
def Stmt.mentions (s : Stmt) (v : Var) : Bool := Block.mentions [s] v

end ByteLift
