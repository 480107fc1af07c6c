import ByteLift.Ty.Descriptor

/-!
# Instructions

The instructions of the virtual machine, with constants and member references already looked up and
branch targets given as absolute addresses. Families of opcodes that differ only in the kind of
their operands are one instruction with the kind as an operand.
-/

namespace ByteLift

/-- The place of an instruction in its code. Branch targets are addresses too. -/
abbrev Address := Nat

/-- The kind of a local variable, as the opcode that loads or stores it says. -/
inductive LocalKind
  | int | long | float | double | reference
deriving DecidableEq, Inhabited

/-- The kind of local that holds a value of a type. -/
def LocalKind.ofTy (t : Ty) : LocalKind :=
  match t with
  | .long => .long
  | .float => .float
  | .double => .double
  | t => if t.isIntLike then .int else .reference

/-- The kind of the elements that an array instruction loads or stores. Bytes and booleans share
their opcodes. -/
inductive ArrayKind
  | int | long | float | double | reference | byte | char | short
deriving DecidableEq, Inhabited

/-- The kind of the operands of an arithmetic instruction. -/
inductive NumKind
  | int | long | float | double
deriving DecidableEq, Inhabited

/-- The type that an arithmetic instruction of this kind computes. -/
def NumKind.ty : NumKind → Ty
  | int => .int
  | long => .long
  | float => .float
  | double => .double

/-- Arithmetic and bitwise operations. -/
inductive ArithOp
  | add | sub | mul | div | rem | shl | shr | ushr | and | or | xor
deriving DecidableEq, Inhabited

/-- Comparison operators. -/
inductive CompareOp
  | eq | ne | lt | ge | gt | le
deriving DecidableEq, Inhabited

namespace CompareOp

/-- The operator that holds of two ordered values exactly when this one does not. -/
def negate : CompareOp → CompareOp
  | eq => ne
  | ne => eq
  | lt => ge
  | ge => lt
  | gt => le
  | le => gt

/-- The source spelling. -/
def symbol : CompareOp → String
  | eq => "=="
  | ne => "!="
  | lt => "<"
  | ge => ">="
  | gt => ">"
  | le => "<="

/-- Whether the operator holds of two values in this order. -/
def holds : CompareOp → Ordering → Bool
  | eq, o => o == .eq
  | ne, o => o != .eq
  | lt, o => o == .lt
  | ge, o => o != .lt
  | gt, o => o == .gt
  | le, o => o != .gt

/-- Whether the operator holds when one of its operands is not a number: only `!=` does. -/
def holdsOnNaN (op : CompareOp) : Bool := op = ne

end CompareOp

/-- The instructions that compare two values and push -1, 0 or 1. -/
inductive ThreeWay
  | lcmp | fcmpl | fcmpg | dcmpl | dcmpg
deriving DecidableEq, Inhabited

/-- What is pushed when an operand is not a number, seen as an order; longs are all numbers. -/
def ThreeWay.onNaN : ThreeWay → Option Ordering
  | lcmp => none
  | fcmpl | dcmpl => some .lt
  | fcmpg | dcmpg => some .gt

/-- Conversions between primitive types. -/
inductive Conversion
  | i2l | i2f | i2d | l2i | l2f | l2d | f2i | f2l | f2d | d2i | d2l | d2f | i2b | i2c | i2s
deriving DecidableEq, Inhabited

/-- The type a conversion gives. -/
def Conversion.target : Conversion → Ty
  | l2i | f2i | d2i => .int
  | i2l | f2l | d2l => .long
  | i2f | l2f | d2f => .float
  | i2d | l2d | f2d => .double
  | i2b => .byte
  | i2c => .char
  | i2s => .short

/-- The ways of calling a method. -/
inductive InvokeKind
  | virtual | special | static | interface
deriving DecidableEq, Inhabited

/-- A field or method named by its owner's internal name, its own name and its descriptor. -/
structure MemberRef where
  owner : String
  name : String
  descriptor : String
deriving DecidableEq, Inhabited

/-- A constant that `ldc` loads. Floating-point constants are given by their bits. -/
inductive Constant
  | int (value : Int32)
  | float (bits : UInt32)
  | long (value : Int64)
  | double (bits : UInt64)
  | string (value : String)
  /-- An internal class name or an array descriptor. -/
  | classLit (name : String)
deriving DecidableEq, Inhabited

/-- One instruction. -/
inductive Instruction
  | nop
  | aconstNull
  | iconst (value : Int32)
  | lconst (value : Int64)
  | fconst (bits : UInt32)
  | dconst (bits : UInt64)
  | ldc (constant : Constant)
  | load (kind : LocalKind) (slot : Nat)
  | store (kind : LocalKind) (slot : Nat)
  | iinc (slot : Nat) (amount : Int16)
  | arrayLoad (kind : ArrayKind)
  | arrayStore (kind : ArrayKind)
  | arrayLength
  /-- A new array of a primitive type, by its code. -/
  | newArray (code : Nat)
  /-- A new array of references, by class name or array descriptor of its elements. -/
  | anewArray (element : String)
  | multiNewArray (descriptor : String) (dimensions : Nat)
  | pop
  | pop2
  | dup
  | dupX1
  | dupX2
  | dup2
  | dup2X1
  | dup2X2
  | swap
  | arith (op : ArithOp) (kind : NumKind)
  | neg (kind : NumKind)
  | convert (conversion : Conversion)
  | compare (kind : ThreeWay)
  /-- Branches if the top of the stack compares so with zero. -/
  | ifZero (op : CompareOp) (target : Address)
  | ifInt (op : CompareOp) (target : Address)
  | ifRef (op : CompareOp) (target : Address)
  | ifNull (target : Address)
  | ifNonNull (target : Address)
  | goto (target : Address)
  | tableSwitch (default : Address) (low : Int32) (targets : List Address)
  | lookupSwitch (default : Address) (pairs : List (Int32 × Address))
  | getField (member : MemberRef)
  | putField (member : MemberRef)
  | getStatic (member : MemberRef)
  | putStatic (member : MemberRef)
  | invoke (kind : InvokeKind) (member : MemberRef)
  | invokeDynamic (name : String) (descriptor : String)
  | new (className : String)
  | checkCast (operand : String)
  | instanceOf (operand : String)
  /-- Leaves the method, with a value of the kind given. -/
  | methodReturn (kind : Option LocalKind)
  | athrow
  | monitorEnter
  | monitorExit
  | jsr (target : Address)
  | ret (slot : Nat)
deriving DecidableEq, Inhabited

namespace Instruction

/-- All addresses that control may be transferred to, other than by running on to the next
instruction. The default of a switch comes last. -/
def targets : Instruction → List Address
  | ifZero _ t | ifInt _ t | ifRef _ t | ifNull t | ifNonNull t | goto t | jsr t => [t]
  | tableSwitch default _ targets => targets ++ [default]
  | lookupSwitch default pairs => pairs.map Prod.snd ++ [default]
  | _ => []

/-- Whether control never runs on to the next instruction. -/
def endsFlow : Instruction → Bool
  | goto _ | tableSwitch .. | lookupSwitch .. | methodReturn _ | athrow | ret _ => true
  | _ => false

end Instruction

/-- An instruction with its address. -/
structure Addressed where
  address : Address
  instruction : Instruction
deriving DecidableEq, Inhabited

/-- The code of one method. -/
structure Code where
  maxLocals : Nat
  instructions : List Addressed
deriving DecidableEq, Inhabited

/-- Code whose instructions sit at the addresses 0, 1, 2, …, so that branch targets are
positions. -/
def Code.sequential (maxLocals : Nat) (instructions : List Instruction) : Code :=
  ⟨maxLocals, instructions.zipIdx.map fun (i, address) => ⟨address, i⟩⟩

end ByteLift
