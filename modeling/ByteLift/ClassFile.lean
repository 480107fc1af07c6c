import ByteLift.Bytecode.Instruction

/-!
# Class files

Classes as they are handed over by a reader of class files: names are internal names and the types
of members are descriptors. Access flags are kept as their bits, cut down to those that the kind of
thing can have.
-/

namespace ByteLift

/-- The access flags of a class. -/
structure ClassAccess where
  bits : UInt16
deriving DecidableEq, Inhabited

/-- The access flags of a field. -/
structure FieldAccess where
  bits : UInt16
deriving DecidableEq, Inhabited

/-- The access flags of a method. -/
structure MethodAccess where
  bits : UInt16
deriving DecidableEq, Inhabited

/-- Whether all the bits of a flag are set. -/
def hasBits (bits flag : UInt16) : Bool := bits &&& flag = flag

namespace ClassAccess

/-- Keeps the bits that mean something for a class. -/
def ofBits (bits : UInt16) : ClassAccess := ⟨bits &&& 0x7631⟩

def isPublic (a : ClassAccess) : Bool := hasBits a.bits 0x0001
def isFinal (a : ClassAccess) : Bool := hasBits a.bits 0x0010
def isInterface (a : ClassAccess) : Bool := hasBits a.bits 0x0200
def isAbstract (a : ClassAccess) : Bool := hasBits a.bits 0x0400
def isAnnotation (a : ClassAccess) : Bool := hasBits a.bits 0x2000
def isEnum (a : ClassAccess) : Bool := hasBits a.bits 0x4000

end ClassAccess

namespace FieldAccess

/-- Keeps the bits that mean something for a field. -/
def ofBits (bits : UInt16) : FieldAccess := ⟨bits &&& 0x50df⟩

def isPublic (a : FieldAccess) : Bool := hasBits a.bits 0x0001
def isPrivate (a : FieldAccess) : Bool := hasBits a.bits 0x0002
def isProtected (a : FieldAccess) : Bool := hasBits a.bits 0x0004
def isStatic (a : FieldAccess) : Bool := hasBits a.bits 0x0008
def isFinal (a : FieldAccess) : Bool := hasBits a.bits 0x0010
def isVolatile (a : FieldAccess) : Bool := hasBits a.bits 0x0040
def isTransient (a : FieldAccess) : Bool := hasBits a.bits 0x0080
def isSynthetic (a : FieldAccess) : Bool := hasBits a.bits 0x1000

end FieldAccess

namespace MethodAccess

/-- Keeps the bits that mean something for a method. -/
def ofBits (bits : UInt16) : MethodAccess := ⟨bits &&& 0x1dff⟩

def isPublic (a : MethodAccess) : Bool := hasBits a.bits 0x0001
def isPrivate (a : MethodAccess) : Bool := hasBits a.bits 0x0002
def isProtected (a : MethodAccess) : Bool := hasBits a.bits 0x0004
def isStatic (a : MethodAccess) : Bool := hasBits a.bits 0x0008
def isFinal (a : MethodAccess) : Bool := hasBits a.bits 0x0010
def isSynchronized (a : MethodAccess) : Bool := hasBits a.bits 0x0020
def isVarargs (a : MethodAccess) : Bool := hasBits a.bits 0x0080
def isNative (a : MethodAccess) : Bool := hasBits a.bits 0x0100
def isAbstract (a : MethodAccess) : Bool := hasBits a.bits 0x0400
def isSynthetic (a : MethodAccess) : Bool := hasBits a.bits 0x1000

end MethodAccess

/-- A field of a class file. -/
structure FieldDef where
  name : String
  descriptor : String
  access : FieldAccess
deriving DecidableEq, Inhabited

/-- A method of a class file. -/
structure MethodDef where
  name : String
  descriptor : String
  access : MethodAccess
  /-- Abstract and native methods have no code. -/
  code : Option Code
  /-- The internal names of the exceptions it declares. -/
  exceptions : List String
deriving DecidableEq, Inhabited

/-- Whether the method makes fresh objects ready. -/
def MethodDef.isConstructor (m : MethodDef) : Bool := m.name = "<init>"

/-- A class file. -/
structure ClassDef where
  name : String
  /-- Only the class at the top of the hierarchy has no superclass. -/
  superName : Option String
  interfaces : List String
  access : ClassAccess
  fields : List FieldDef
  methods : List MethodDef
deriving DecidableEq, Inhabited

namespace ClassDef

/-- The first method with this name and descriptor. -/
def findMethod? (c : ClassDef) (name descriptor : String) : Option MethodDef :=
  c.methods.find? fun m => m.name = name && m.descriptor = descriptor

/-- The first field with this name. -/
def findField? (c : ClassDef) (name : String) : Option FieldDef :=
  c.fields.find? fun f => f.name = name

end ClassDef

end ByteLift
