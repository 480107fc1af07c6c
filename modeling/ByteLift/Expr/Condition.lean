import ByteLift.Expr.Basic

/-!
# Conditions

A negation is pushed inwards: through `&&`, `||` and parentheses, and into a comparison by taking
the opposite operator. That is only right if any two values are ordered, so a comparison of
floating-point values is wrapped in `!` instead. A three-way comparison tested against zero becomes
a direct one, with the same care.
-/

namespace ByteLift.Expr

/-- The logical negation of a condition. -/
def negate (vars : VarTable) : Expr → Expr
  | compare op a b =>
    if (a.ty vars).isFloating || (b.ty vars).isFloating then not (compare op a b)
    else compare op.negate a b
  | unary .not e _ => e
  | lit (.boolean b) => boolean (!b)
  | binary .condAnd a b t => binary .condOr (a.negate vars) (b.negate vars) t
  | binary .condOr a b t => binary .condAnd (a.negate vars) (b.negate vars) t
  | paren e => e.negate vars
  | e => not e

/-- The condition that the three-way comparison of two values compares with zero as `op` says: the
direct comparison if it treats a value that is not a number as the instruction does, and else the
negated opposite one. -/
def foldCompare (kind : ThreeWay) (op : CompareOp) (a b : Expr) : Expr :=
  let exact := match kind.onNaN with
    | none => true
    | some order => op.holds order = op.holdsOnNaN
  if exact then compare op a b else not (compare op.negate a b)

end ByteLift.Expr
