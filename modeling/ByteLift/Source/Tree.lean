import ByteLift.ClassFile
import ByteLift.Stmt.Basic

/-!
# Declarations of Java source

Methods, fields and classes as they are declared in source. A class is still known by its internal
name; printing spells it.
-/

namespace ByteLift

/-- A method's body, with the names of its labels. -/
structure MethodBody where
  block : Block
  labels : LabelTable
deriving DecidableEq, Inhabited

/-- A method in source. -/
structure MethodDecl where
  name : String
  descriptor : String
  access : MethodAccess
  returnType : Ty
  /-- The parameters and, once there is a body, every local. -/
  vars : VarTable
  /-- The parameters in order, without `this`. -/
  params : List Var
  exceptions : List String
  body : Option MethodBody
  /-- Why there is no body although the method has code. -/
  error : Option String
deriving DecidableEq, Inhabited

namespace MethodDecl

def isStatic (m : MethodDecl) : Bool := m.access.isStatic
def isConstructor (m : MethodDecl) : Bool := m.name = "<init>"
def isStaticInitializer (m : MethodDecl) : Bool := m.name = "<clinit>"
def isSynthetic (m : MethodDecl) : Bool := m.access.isSynthetic

end MethodDecl

/-- A field in source. -/
structure FieldDecl where
  name : String
  ty : Ty
  access : FieldAccess
  initializer : Option Expr
deriving DecidableEq, Inhabited

namespace FieldDecl

def isStatic (f : FieldDecl) : Bool := f.access.isStatic
def isSynthetic (f : FieldDecl) : Bool := f.access.isSynthetic

end FieldDecl

/-- A class or interface in source. -/
structure ClassDecl where
  /-- The internal name. -/
  name : String
  /-- The package, in source spelling. -/
  package : Option String
  /-- The superclass, unless it is the class at the top of every hierarchy. -/
  superClass : Option String
  interfaces : List String
  access : ClassAccess
  /-- The class around a nested class. -/
  outer : Option String
  /-- A nested class without an instance of the class around it. -/
  isStatic : Bool
  fields : List FieldDecl
  methods : List MethodDecl
  /-- The classes nested directly in the class. -/
  inner : List ClassDecl
deriving Inhabited

namespace ClassDecl

def isInterface (c : ClassDecl) : Bool := c.access.isInterface

/-- The first method with this name. -/
def method? (c : ClassDecl) (name : String) : Option MethodDecl :=
  c.methods.find? fun m => m.name = name

end ClassDecl

/-- One source file. -/
structure SourceUnit where
  /-- The package, in source spelling. -/
  package : Option String
  /-- The internal names of the classes imported, ascending. -/
  imports : List String
  classes : List ClassDecl
deriving Inhabited

end ByteLift
