import ByteLift.Stmt.Uses
import ByteLift.Tracked

/-!
# Where variables are declared

All declarations are taken out first. Then each local is declared in the innermost block that holds
all of its uses, right before the first statement that mentions it; if that statement assigns the
variable, the two become one. A declaration only moves into a loop if the variable's value is not
carried from one round to the next.
-/

namespace ByteLift.Cleanup

mutual

/-- Takes the declarations out of the blocks of a statement. -/
def hoistIn : Stmt → Stmt
  | .ite c a b => .ite c (hoist a) (hoist b)
  | .loop l c a => .loop l c (hoist a)
  | .block a => .block (hoist a)
  | s => s

/-- Takes the declarations out of a block. One with a value becomes an assignment. -/
def hoist : Block → Block
  | [] => []
  | .declare _ none :: ss => hoist ss
  | .declare v (some e) :: ss => .set v e :: hoist ss
  | s :: ss => hoistIn s :: hoist ss

end

/-- The variables of a block that are not parameters, in the order of first mention. -/
def localsOf (vars : VarTable) (b : Block) : List Var :=
  ((Block.exprs b).filterMap fun
    | .var v => if (vars.get v).parameter then none else some v
    | _ => none).eraseDups

/-- Whether a statement assigns a variable a value that does not read it. -/
def isFreshSet (v : Var) : Stmt → Bool
  | .expr (.assign (.var w) value) => w = v && !value.reads v
  | _ => false

/-- A statement with the declaration of a variable it mentions. -/
def declareAt (v : Var) (s : Stmt) : Block :=
  match s with
  | .expr (.assign (.var _) value) =>
    if isFreshSet v s then [.declare v (some value)] else [.declare v none, s]
  | s => [.declare v none, s]

/-- Whether a loop's body sets a variable before anything else is done with it. -/
def setFirst (v : Var) (body : Block) : Bool :=
  (body.find? (·.mentions v)).any (isFreshSet v)

mutual

/-- Declares a variable at or in the only statement of a block that mentions it. -/
def placeIn (v : Var) : Stmt → Block
  | .ite c a b =>
    if c.mentions v then [.declare v none, .ite c a b]
    else
      match Block.mentions a v, Block.mentions b v with
      | true, false => [.ite c (place v a) b]
      | false, true => [.ite c a (place v b)]
      | _, _ => [.declare v none, .ite c a b]
  | .loop l c a =>
    if !c.mentions v && setFirst v a then [.loop l c (place v a)]
    else [.declare v none, .loop l c a]
  | .block a => [.block (place v a)]
  | s => declareAt v s

/-- Declares a variable that is declared nowhere in a block. -/
def place (v : Var) : Block → Block
  | [] => []
  | s :: ss =>
    if s.mentions v then (if Block.mentions ss v then declareAt v s else placeIn v s) ++ ss
    else s :: place v ss

end

/-- Places the declarations of a method's body. -/
def placeDeclarations (vars : VarTable) (b : Block) : Tracked Block :=
  let bare := hoist b
  let placed := (localsOf vars bare).foldl (fun acc v => place v acc) bare
  .note placed (placed ≠ b)

end ByteLift.Cleanup
