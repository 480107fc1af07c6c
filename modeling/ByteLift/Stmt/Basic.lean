import ByteLift.Expr.Basic

/-!
# Statements

One type of statement serves both for flat code, where control is passed by labels and gotos, and
for nested code, where it is passed by loops, branches and jumps out of them. A block is a list of
statements.
-/

namespace ByteLift

/-- A statement. -/
inductive Stmt
  | expr (e : Expr)
  | declare (v : Var) (init : Option Expr)
  /-- A branch; without an `else` the second block is empty. -/
  | ite (cond : Expr) (thenBlock elseBlock : List Stmt)
  | loop (label : Option Label) (cond : Expr) (body : List Stmt)
  /-- Leaves the innermost loop, or the loop with the label. -/
  | breakLoop (label : Option Label)
  /-- Goes on with the innermost loop, or the loop with the label. -/
  | continueLoop (label : Option Label)
  | ret (value : Option Expr)
  | throw (value : Expr)
  | block (body : List Stmt)
  /-- A place that gotos can name. -/
  | label (l : Label)
  /-- A jump to a label, made only if the condition holds where there is one. -/
  | goto (label : Label) (cond : Option Expr)
deriving Inhabited

/-- A list of statements that are run one after another. -/
abbrev Block := List Stmt

namespace Stmt

/-- A branch without an `else`. -/
def ifThen (cond : Expr) (thenBlock : Block) : Stmt := ite cond thenBlock []

/-- A loop that is only left by a jump. -/
def forever (label : Option Label) (body : Block) : Stmt := loop label (.boolean true) body

/-- The assignment of a value to a variable. -/
def set (v : Var) (value : Expr) : Stmt := expr (.assign (.var v) value)

/-- The expressions of a statement itself, without those of the blocks in it. -/
def exprs : Stmt → List Expr
  | expr e | throw e | ite e _ _ | loop _ e _ => [e]
  | declare _ e | ret e | goto _ e => e.toList
  | breakLoop _ | continueLoop _ | block _ | label _ => []

/-- The blocks of a statement. -/
def blocks : Stmt → List Block
  | ite _ a b => [a, b]
  | loop _ _ a | block a => [a]
  | _ => []

/-- The variable that a statement sets and the value it gets: an assignment to a variable, or a
declaration with a value. -/
def assignment? : Stmt → Option (Var × Expr)
  | expr (.assign (.var v) value) => some (v, value)
  | declare v (some value) => some (v, value)
  | _ => none

/-- The same assignment with another value. -/
def withValue (value : Expr) : Stmt → Stmt
  | expr (.assign (.var v) _) => set v value
  | declare v (some _) => declare v (some value)
  | s => s

/-- Statements that always pass control elsewhere. -/
def isJump : Stmt → Bool
  | ret _ | throw _ | breakLoop _ | continueLoop _ | goto _ none => true
  | _ => false

/-- Branches. -/
def isBranch : Stmt → Bool
  | ite .. => true
  | _ => false

mutual

/-- The number of statements in a statement, itself included. -/
def size : Stmt → Nat
  | ite _ a b => 1 + sizeList a + sizeList b
  | loop _ _ a | block a => 1 + sizeList a
  | _ => 1

/-- The number of statements in a block, at any depth. -/
def sizeList : Block → Nat
  | [] => 0
  | s :: ss => s.size + sizeList ss

end

mutual

/-- A statement and all statements in it, each before those inside it. -/
def nested : Stmt → List Stmt
  | ite c a b => ite c a b :: (nestedList a ++ nestedList b)
  | loop l c a => loop l c a :: nestedList a
  | block a => block a :: nestedList a
  | expr e => [expr e]
  | declare v e => [declare v e]
  | breakLoop l => [breakLoop l]
  | continueLoop l => [continueLoop l]
  | ret e => [ret e]
  | throw e => [throw e]
  | label l => [label l]
  | goto l c => [goto l c]

/-- All statements of a block, at any depth, each before those inside it. -/
def nestedList : Block → List Stmt
  | [] => []
  | s :: ss => s.nested ++ nestedList ss

end

/-! ## Equality -/

mutual

/-- Whether two statements are the same tree. -/
def same : Stmt → Stmt → Bool
  | expr a, expr b => a = b
  | declare v a, declare w b => v = w && a = b
  | ite c a b, ite d x y => c = d && sameList a x && sameList b y
  | loop l c a, loop m d x => l = m && c = d && sameList a x
  | breakLoop l, breakLoop m | continueLoop l, continueLoop m => l = m
  | ret a, ret b => a = b
  | throw a, throw b => a = b
  | block a, block x => sameList a x
  | label l, label m => l = m
  | goto l a, goto m b => l = m && a = b
  | _, _ => false

/-- Whether two blocks are the same. -/
def sameList : Block → Block → Bool
  | [], [] => true
  | a :: as, b :: bs => a.same b && sameList as bs
  | _, _ => false

end

mutual

theorem same_iff : ∀ a b : Stmt, a.same b = true ↔ a = b
  | expr _, b => by cases b <;> simp [same]
  | declare _ _, b => by cases b <;> simp [same]
  | ite _ x y, b => by cases b <;> simp [same, sameList_iff x, sameList_iff y, and_assoc]
  | loop _ _ x, b => by cases b <;> simp [same, sameList_iff x, and_assoc]
  | breakLoop _, b => by cases b <;> simp [same]
  | continueLoop _, b => by cases b <;> simp [same]
  | ret _, b => by cases b <;> simp [same]
  | throw _, b => by cases b <;> simp [same]
  | block x, b => by cases b <;> simp [same, sameList_iff x]
  | label _, b => by cases b <;> simp [same]
  | goto _ _, b => by cases b <;> simp [same]

theorem sameList_iff : ∀ as bs : Block, sameList as bs = true ↔ as = bs
  | [], bs => by cases bs <;> simp [sameList]
  | a :: as, bs => by cases bs <;> simp [sameList, same_iff a, sameList_iff as]

end

instance : DecidableEq Stmt := fun a b => decidable_of_iff _ (same_iff a b)

end Stmt

/-- The number of statements in a block, at any depth. -/
def Block.size (b : Block) : Nat := Stmt.sizeList b

/-- All statements of a block, at any depth, each before those inside it. -/
def Block.stmts (b : Block) : List Stmt := Stmt.nestedList b

/-- All expressions of a block and all their parts. -/
def Block.exprs (b : Block) : List Expr :=
  b.stmts.flatMap fun s => s.exprs.flatMap Expr.subexprs

end ByteLift
