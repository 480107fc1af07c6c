import ByteLift.Ascending
import ByteLift.Source.Tree

/-!
# Imports

The classes that a source file has to import: the top-level classes of all classes it refers to, as
far as they belong to a package other than its own and `java.lang`.
-/

namespace ByteLift

/-- The names of a list, ascending and without repetitions. -/
def sortNames (names : List String) : List String := sortAscending names

/-- The classes that a type refers to. -/
def Ty.classes : Ty → List String
  | .ref name => [name]
  | .array t => t.classes
  | _ => []

/-- The classes that an expression itself refers to, without its parts. -/
def Expr.ownClasses : Expr → List String
  | .alloc name | .outerThis name => [name]
  | .new m _ => [m.owner]
  | .staticCall _ m _ => [m.owner]
  | .staticField f => [f.owner]
  | .cast t _ | .instanceOf _ t | .newArray t _ => t.classes
  | .lit (.classOf t) => t.classes
  | _ => []

/-- The classes that a method refers to. -/
def MethodDecl.classes (m : MethodDecl) : List String :=
  m.returnType.classes ++ m.exceptions
    ++ m.vars.vars.flatMap (fun v => (m.vars.ty v).classes)
    ++ match m.body with
      | some body => (Block.exprs body.block).flatMap Expr.ownClasses
      | none => []

mutual

/-- The classes that a class and the classes nested in it refer to. -/
def ClassDecl.classes : ClassDecl → List String
  | ⟨_, _, superClass, interfaces, _, _, _, fields, methods, inner⟩ =>
    superClass.toList ++ interfaces ++ fields.flatMap (·.ty.classes)
      ++ methods.flatMap MethodDecl.classes ++ ClassDecl.classesList inner

/-- The classes that a list of classes refers to. -/
def ClassDecl.classesList : List ClassDecl → List String
  | [] => []
  | c :: cs => c.classes ++ ClassDecl.classesList cs

end

/-- Whether a class has to be imported into the package of another one. -/
def needsImport (home : Option String) (name : String) : Bool :=
  match ClassName.package? name with
  | none => false
  | some pkg => home ≠ some pkg && pkg ≠ "java/lang"

/-- The classes that a class has to import, ascending. -/
def ClassDecl.imports (c : ClassDecl) : List String :=
  sortNames ((c.classes.map ClassName.topLevel).filter (needsImport (ClassName.package? c.name)))

end ByteLift
