import ByteLift.Member
import ByteLift.Source.Tree

/-!
# Declarations without bodies

The declaration of a class as its class file gives it: header, fields, and methods with their
parameters. Members that the compiler made up are left out unless they are asked for; fields that
hold the instance of the class around an inner class are kept, for they tell inner classes from
static ones.
-/

namespace ByteLift

/-- The parameters of a method, each with the first of its local slots. -/
def paramDecls : List Ty → (number slot : Nat) → List VarDecl
  | [], _, _ => []
  | t :: ts, number, slot =>
    { ty := t, name := "param" ++ toString number, synthetic := false, parameter := true,
      isFinal := false, slot := some slot } :: paramDecls ts (number + 1) (slot + t.width)

/-- The declaration of a method without its body. In a method that is not static, the parameters'
slots start behind that of `this`. -/
def MethodDecl.ofDef (m : MethodDef) : MethodDecl :=
  let (params, returnType) := MethodRef.signature m.descriptor
  let vars : VarTable := ⟨(paramDecls params 0 (if m.access.isStatic then 0 else 1)).toArray⟩
  { name := m.name, descriptor := m.descriptor, access := m.access, returnType, vars,
    params := vars.vars, exceptions := m.exceptions, body := none, error := none }

/-- The declaration of a field. -/
def FieldDecl.ofDef (f : FieldDef) : FieldDecl :=
  ⟨f.name, (Ty.parse? f.descriptor).getD .unknown, f.access, none⟩

/-- The declaration of a class without the bodies of its methods. -/
def ClassDecl.ofDef (c : ClassDef) (includeSynthetic : Bool) : ClassDecl where
  name := c.name
  package := (ClassName.package? c.name).map ClassName.dotted
  superClass := c.superName.filter (· ≠ Ty.objectClass)
  interfaces := c.interfaces
  access := c.access
  outer := none
  isStatic := false
  fields := (c.fields.map FieldDecl.ofDef).filter fun f =>
    includeSynthetic || !f.isSynthetic || ClassName.isOuterReference f.name
  methods := (c.methods.map MethodDecl.ofDef).filter fun m => includeSynthetic || !m.isSynthetic
  inner := []

end ByteLift
