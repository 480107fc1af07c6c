import ByteLift.Ty.Descriptor

/-!
# Fields and methods as their users see them

A use of a field or a method carries what is known of it: the types its descriptor gives, and
whether a declaration was found. Without one the description is made from the use alone, so that a
class that is missing never stands in the way.
-/

namespace ByteLift

/-- A field as seen from where it is used. -/
structure FieldRef where
  owner : String
  name : String
  ty : Ty
  isStatic : Bool
  /-- Whether a declaration was found. -/
  resolved : Bool
deriving DecidableEq, Inhabited

/-- A field described by its use alone. -/
def FieldRef.unresolved (owner name descriptor : String) (isStatic : Bool) : FieldRef :=
  ⟨owner, name, (Ty.parse? descriptor).getD .unknown, isStatic, false⟩

/-- A method as seen from where it is called. -/
structure MethodRef where
  owner : String
  name : String
  descriptor : String
  params : List Ty
  result : Ty
  isStatic : Bool
  /-- Whether a declaration was found. -/
  resolved : Bool
deriving DecidableEq, Inhabited

namespace MethodRef

/-- The parameters and the result that a descriptor gives; a descriptor that cannot be read gives
no parameters and an unknown result. -/
def signature (descriptor : String) : List Ty × Ty :=
  (Ty.parseMethod? descriptor).getD ([], .unknown)

/-- A method described by its call alone. -/
def unresolved (owner name descriptor : String) (isStatic : Bool) : MethodRef :=
  let (params, result) := signature descriptor
  ⟨owner, name, descriptor, params, result, isStatic, false⟩

/-- Whether the method makes a fresh object ready. -/
def isConstructor (m : MethodRef) : Bool := m.name = "<init>"

/-- Whether a call leaves no value. -/
def isVoid (m : MethodRef) : Bool := m.result = .void

end MethodRef

end ByteLift
