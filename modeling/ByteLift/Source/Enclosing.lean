import ByteLift.Cleanup.Copies
import ByteLift.Failure
import ByteLift.Source.Tree

/-!
# Inner classes

A compiled inner class keeps the instance of the class around it in a field `this$0`, and its
constructors take it as their first parameter and store it there. Here the field, the parameter and
the store are hidden again, and what read them reads `Outer.this`. A class without the field is
static; other constructors beside it are a failure.
-/

namespace ByteLift

namespace Expr

/-- Whether an expression is the field of `this` with a name. -/
def isOwnField (name : String) : Expr → Bool
  | field .this f => f.name = name
  | _ => false

/-- The instance of the class around, in place of the field that holds it. -/
def hideOwnField (name outer : String) (e : Expr) : Expr :=
  if e.isOwnField name then outerThis outer else e

mutual

/-- Puts the instance of the class around in place of the field of `this` that holds it, from the
inside out. -/
def hideField (name outer : String) : Expr → Expr
  | field e f => hideOwnField name outer (field (e.hideField name outer) f)
  | arrayElement a b t => arrayElement (a.hideField name outer) (b.hideField name outer) t
  | arrayLength e => arrayLength (e.hideField name outer)
  | unary op e t => unary op (e.hideField name outer) t
  | binary op a b t => binary op (a.hideField name outer) (b.hideField name outer) t
  | compare op a b => compare op (a.hideField name outer) (b.hideField name outer)
  | threeWay k a b => threeWay k (a.hideField name outer) (b.hideField name outer)
  | cast t e => cast t (e.hideField name outer)
  | instanceOf e t => instanceOf (e.hideField name outer) t
  | call k r m args => call k (r.hideField name outer) m (hideFields name outer args)
  | staticCall k m args => staticCall k m (hideFields name outer args)
  | construct r m args => construct (r.hideField name outer) m (hideFields name outer args)
  | new m args => new m (hideFields name outer args)
  | newArray t dims => newArray t (hideFields name outer dims)
  | assign a b => assign (a.hideField name outer) (b.hideField name outer)
  | paren e => paren (e.hideField name outer)
  | lit l => lit l
  | var v => var v
  | this => this
  | super => super
  | outerThis c => outerThis c
  | staticField f => staticField f
  | alloc c => alloc c

/-- Puts the instance of the class around in place of its field in a list of expressions. -/
def hideFields (name outer : String) : List Expr → List Expr
  | [] => []
  | e :: es => e.hideField name outer :: hideFields name outer es

end

end Expr

namespace Stmt

mutual

/-- Changes every expression that a statement holds, at any depth. -/
def mapExprs (f : Expr → Expr) : Stmt → Stmt
  | expr e => expr (f e)
  | declare v e => declare v (e.map f)
  | ite c a b => ite (f c) (mapExprsList f a) (mapExprsList f b)
  | loop l c a => loop l (f c) (mapExprsList f a)
  | breakLoop l => breakLoop l
  | continueLoop l => continueLoop l
  | ret e => ret (e.map f)
  | throw e => throw (f e)
  | block a => block (mapExprsList f a)
  | label l => label l
  | goto l c => goto l (c.map f)

/-- Changes every expression that a block holds, at any depth. -/
def mapExprsList (f : Expr → Expr) : Block → Block
  | [] => []
  | s :: ss => s.mapExprs f :: mapExprsList f ss

end

/-- Whether a statement stores a variable in the field of `this` with a name. -/
def storesOwnField (name : String) (v : Var) : Stmt → Bool
  | expr (.assign target (.var w)) => target.isOwnField name && w = v
  | _ => false

end Stmt

/-- A constructor with its parameter for the instance of the class around it hidden. -/
def MethodDecl.hideOuterParam (m : MethodDecl) (className field outer : String) :
    Except Failure MethodDecl :=
  match m.params with
  | [] => .error (.badInnerClass className ("constructor " ++ m.descriptor ++
      " takes no outer instance"))
  | param :: _ =>
    if (m.vars.ty param).className? ≠ some outer then
      .error (.badInnerClass className ("first parameter of constructor " ++ m.descriptor ++
        " is not " ++ outer))
    else
      let hidden := { m with vars := m.vars.modify param ({ · with synthetic := true }) }
      match m.body with
      | none => .ok hidden
      | some body =>
        match body.block.findIdx? (Stmt.storesOwnField field param) with
        | none => .error (.badInnerClass className ("constructor " ++ m.descriptor ++
            " does not store its outer instance into " ++ field))
        | some store =>
          let replace (e : Expr) := (e.replaceReads (Expr.only param (.outerThis outer))).val
          let block := Stmt.mapExprsList replace (body.block.eraseIdx store)
          .ok { hidden with body := some { body with block } }

/-- A method whose body reads `Outer.this` in place of the field that holds it. -/
def MethodDecl.hideField (m : MethodDecl) (field outer : String) : MethodDecl :=
  { m with body := m.body.map fun body =>
      { body with block := Stmt.mapExprsList (Expr.hideField field outer) body.block } }

/-- The constructors of a list of methods with the parameter for the instance of the class around
hidden. -/
def hideOuterParams (className field outer : String) :
    List MethodDecl → Except Failure (List MethodDecl)
  | [] => .ok []
  | m :: ms => do
    let m ← if m.isConstructor then m.hideOuterParam className field outer else .ok m
    return m :: (← hideOuterParams className field outer ms)

/-- A class as nested in another one. -/
def ClassDecl.enclose (c : ClassDecl) (outer : String) : Except Failure ClassDecl :=
  let c := { c with outer := some outer }
  match c.fields.findIdx? fun f =>
      f.isSynthetic && !f.isStatic && ClassName.isOuterReference f.name with
  | none => .ok { c with isStatic := true }
  | some index =>
    let field := (c.fields[index]?.map FieldDecl.name).getD ""
    let ty := (c.fields[index]?.map FieldDecl.ty).getD .unknown
    if ty.className? ≠ some outer then
      .error (.badInnerClass c.name (field ++ " does not hold an instance of " ++ outer))
    else do
      let methods ← hideOuterParams c.name field outer c.methods
      return { c with
        methods := methods.map (·.hideField field outer)
        fields := c.fields.eraseIdx index
        isStatic := false }

end ByteLift
