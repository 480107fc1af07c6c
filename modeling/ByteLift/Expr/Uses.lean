import ByteLift.Expr.Basic
import ByteLift.Tracked

/-!
# How expressions use variables

A variable is *written* where it is the whole target of an assignment, and *read* wherever else it
stands, also inside another target. `uses` lists what an expression does to variables from left to
right, and `replaceReads` puts other expressions where variables are read. A flag tells both whether
they stand on a target.
-/

namespace ByteLift

/-- One thing that is done to a variable. -/
inductive Use
  | read (v : Var)
  | write (v : Var)
deriving DecidableEq, Inhabited

namespace Expr

mutual

/-- The uses of variables in an expression. `target` says that the expression is the target of an
assignment. -/
def usesAs (target : Bool) : Expr → List Use
  | var v => if target then [.write v] else [.read v]
  | assign a b => a.usesAs (!target) ++ b.usesAs false
  | field e _ | arrayLength e | unary _ e _ | cast _ e | instanceOf e _ | paren e => e.usesAs false
  | arrayElement a b _ | binary _ a b _ | compare _ a b | threeWay _ a b =>
    a.usesAs false ++ b.usesAs false
  | call _ r _ args | construct r _ args => r.usesAs false ++ usesList args
  | staticCall _ _ args | new _ args | newArray _ args => usesList args
  | lit _ | this | super | outerThis _ | staticField _ | alloc _ => []

/-- The uses of variables in a list of expressions. -/
def usesList : List Expr → List Use
  | [] => []
  | e :: es => e.usesAs false ++ usesList es

end

/-- The uses of variables in an expression, from left to right. -/
def uses (e : Expr) : List Use := e.usesAs false

/-- Whether an expression reads a variable. -/
def reads (e : Expr) (v : Var) : Bool := e.uses.contains (.read v)

/-- Whether an expression reads or writes a variable. -/
def mentions (e : Expr) (v : Var) : Bool := e.uses.contains (.read v) || e.uses.contains (.write v)

mutual

/-- Puts other expressions where variables are read. `target` says that the expression is the
target of an assignment. -/
def replaceAs (f : Var → Option Expr) (target : Bool) : Expr → Tracked Expr
  | var v =>
    if target then pure (var v)
    else match f v with
      | some e => .mark e
      | none => pure (var v)
  | assign a b => do return assign (← a.replaceAs f (!target)) (← b.replaceAs f false)
  | field e m => do return field (← e.replaceAs f false) m
  | arrayLength e => do return arrayLength (← e.replaceAs f false)
  | unary op e t => do return unary op (← e.replaceAs f false) t
  | cast t e => do return cast t (← e.replaceAs f false)
  | instanceOf e t => do return instanceOf (← e.replaceAs f false) t
  | paren e => do return paren (← e.replaceAs f false)
  | arrayElement a b t => do
    return arrayElement (← a.replaceAs f false) (← b.replaceAs f false) t
  | binary op a b t => do return binary op (← a.replaceAs f false) (← b.replaceAs f false) t
  | compare op a b => do return compare op (← a.replaceAs f false) (← b.replaceAs f false)
  | threeWay k a b => do return threeWay k (← a.replaceAs f false) (← b.replaceAs f false)
  | call k r m args => do return call k (← r.replaceAs f false) m (← replaceList f args)
  | construct r m args => do return construct (← r.replaceAs f false) m (← replaceList f args)
  | staticCall k m args => do return staticCall k m (← replaceList f args)
  | new m args => do return new m (← replaceList f args)
  | newArray t dims => do return newArray t (← replaceList f dims)
  | lit l => pure (lit l)
  | this => pure this
  | super => pure super
  | outerThis c => pure (outerThis c)
  | staticField m => pure (staticField m)
  | alloc c => pure (alloc c)

/-- Puts other expressions where variables are read in a list of expressions. -/
def replaceList (f : Var → Option Expr) : List Expr → Tracked (List Expr)
  | [] => pure []
  | e :: es => do return (← e.replaceAs f false) :: (← replaceList f es)

end

/-- Puts other expressions where variables are read: those that `f` gives for them. -/
def replaceReads (f : Var → Option Expr) (e : Expr) : Tracked Expr := e.replaceAs f false

/-- The replacement of one variable by an expression. -/
def only (v : Var) (e : Expr) (w : Var) : Option Expr := if w = v then some e else none

end Expr

end ByteLift
