import ByteLift.ClassName

/-!
# Types of values

The types that descriptors can name, together with the type of `null` and a type for what the
available information does not tell. Predicates sort them the way the virtual machine does: by the
words a value takes and by the kind of instruction that computes with it.
-/

namespace ByteLift

/-- The type of a value, a field or a method result. -/
inductive Ty
  | int | long | float | double | byte | char | short | boolean | void
  /-- A class or interface, by internal name. -/
  | ref (name : String)
  | array (element : Ty)
  /-- The type of the literal `null`. -/
  | null
  /-- A type that the available information does not tell. -/
  | unknown
deriving DecidableEq, Inhabited

namespace Ty

/-- The internal name of the class at the top of every hierarchy. -/
def objectClass : String := "java/lang/Object"

/-- The class at the top of every hierarchy. -/
def object : Ty := ref objectClass

/-- The class of string literals. -/
def string : Ty := ref "java/lang/String"

/-- The class of class literals. -/
def classObject : Ty := ref "java/lang/Class"

/-- A value of this type takes two words on the operand stack and two local slots. -/
def isWide : Ty → Bool
  | long | double => true
  | _ => false

/-- The number of local slots a value of this type takes. -/
def width (t : Ty) : Nat := if t.isWide then 2 else 1

/-- Types with a value that differs from itself. -/
def isFloating : Ty → Bool
  | float | double => true
  | _ => false

/-- Classes, arrays and `null`. -/
def isReference : Ty → Bool
  | ref _ | array _ | null => true
  | _ => false

/-- Types the virtual machine computes with as `int`. -/
def isIntLike : Ty → Bool
  | int | byte | char | short | boolean => true
  | _ => false

/-- Types whose values are no references. -/
def isPrimitive (t : Ty) : Bool :=
  t.isIntLike || match t with
    | long | float | double => true
    | _ => false

/-- What an array of this type holds; anything but an array holds nothing known. -/
def element : Ty → Ty
  | array t => t
  | _ => unknown

/-- The class a value of this type is an instance of. -/
def className? : Ty → Option String
  | ref name => some name
  | _ => none

/-- A value whose type is unknown is at least an object. -/
def orObject : Ty → Ty
  | unknown => object
  | t => t

/-- The source spelling, with packages unless `simple`. -/
def source (simple : Bool) : Ty → String
  | int => "int"
  | long => "long"
  | float => "float"
  | double => "double"
  | byte => "byte"
  | char => "char"
  | short => "short"
  | boolean => "boolean"
  | void => "void"
  | ref name => if simple then ClassName.nested name else ClassName.qualified name
  | array t => t.source simple ++ "[]"
  | null | unknown => "Object"

/-- Two types can stand in the same stack slot where control flow joins: both computed with as
`int`, both references, or equal. -/
def joins (a b : Ty) : Bool :=
  (a.isIntLike && b.isIntLike)
    || ((a.isReference || a = unknown) && (b.isReference || b = unknown))
    || a = b

/-- The element type that the operand of a `newarray` instruction stands for. -/
def ofArrayCode : Nat → Ty
  | 4 => boolean
  | 5 => char
  | 6 => float
  | 7 => double
  | 8 => byte
  | 9 => short
  | 10 => int
  | 11 => long
  | _ => unknown

end Ty

end ByteLift
