import ByteLift.Expr.Basic

/-!
# Values, and what programs can do with them

All types that the virtual machine computes with as `int` have 32-bit values; `false` is 0 and
`true` is 1. What is computed with whole numbers is fixed here; all else is left to a *world*. No
operation fails. The heap is changed only by calls and by stores to fields, static fields and
arrays, the *events* of a run, which a memory lists beside the heap.
-/

namespace ByteLift

/-- A value of the virtual machine, over references `ρ`. Floating-point values are given by their
bits. -/
inductive Value (ρ : Type)
  | int (v : Int32)
  | long (v : Int64)
  | float (bits : UInt32)
  | double (bits : UInt64)
  | ref (r : ρ)
deriving DecidableEq

/-- A value of this kind takes two words on the operand stack and two local slots. -/
def LocalKind.isWide : LocalKind → Bool
  | long | double => true
  | _ => false

/-- The kind of values that the elements an array instruction loads or stores have. -/
def ArrayKind.kind : ArrayKind → LocalKind
  | int | byte | char | short => .int
  | long => .long
  | float => .float
  | double => .double
  | reference => .reference

/-- The kind of values that an arithmetic instruction computes. -/
def NumKind.kind : NumKind → LocalKind
  | int => .int
  | long => .long
  | float => .float
  | double => .double

/-- The kind of values that an instruction compares. -/
def ThreeWay.kind : ThreeWay → LocalKind
  | lcmp => .long
  | fcmpl | fcmpg => .float
  | dcmpl | dcmpg => .double

/-- The kind of values that a conversion takes. -/
def Conversion.source : Conversion → LocalKind
  | i2l | i2f | i2d | i2b | i2c | i2s => .int
  | l2i | l2f | l2d => .long
  | f2i | f2l | f2d => .float
  | d2i | d2l | d2f => .double

namespace Value

variable {ρ : Type}

def kind : Value ρ → LocalKind
  | int _ => .int
  | long _ => .long
  | float _ => .float
  | double _ => .double
  | ref _ => .reference

def isWide (v : Value ρ) : Bool := v.kind.isWide

def ofBool (b : Bool) : Value ρ := int (if b then 1 else 0)

/-- Whether a value counts as true where a condition is wanted. -/
def truth : Value ρ → Bool
  | int v => v ≠ 0
  | _ => true

theorem truth_ofBool (b : Bool) : (ofBool b : Value ρ).truth = b := by
  cases b <;> rfl

end Value

/-- What a program does to the world. -/
inductive Event (ρ : Type)
  | call (kind : InvokeKind) (method : MethodRef) (receiver : Option (Value ρ))
  (args : List (Value ρ))
  | putField (object : Value ρ) (field : FieldRef) (value : Value ρ)
  | putStatic (field : FieldRef) (value : Value ρ)
  | putElement (array index value : Value ρ)
deriving DecidableEq

/-! ## Whole numbers -/

/-- Arithmetic on 32-bit numbers. Shifts use the low bits of the distance only, and division by zero
gives some number. -/
def ArithOp.ints : ArithOp → Int32 → Int32 → Int32
  | add, a, b => a + b
  | sub, a, b => a - b
  | mul, a, b => a * b
  | div, a, b => a / b
  | rem, a, b => a % b
  | shl, a, b => a <<< b
  | shr, a, b => a >>> b
  | ushr, a, b => (a.toUInt32 >>> b.toUInt32).toInt32
  | and, a, b => a &&& b
  | or, a, b => a ||| b
  | xor, a, b => a ^^^ b

/-- Arithmetic on 64-bit numbers. -/
def ArithOp.longs : ArithOp → Int64 → Int64 → Int64
  | add, a, b => a + b
  | sub, a, b => a - b
  | mul, a, b => a * b
  | div, a, b => a / b
  | rem, a, b => a % b
  | shl, a, b => a <<< b
  | shr, a, b => a >>> b
  | ushr, a, b => (a.toUInt64 >>> b.toUInt64).toInt64
  | and, a, b => a &&& b
  | or, a, b => a ||| b
  | xor, a, b => a ^^^ b

/-- Operators whose right operand is the distance of a shift, always a 32-bit number. -/
def ArithOp.isShift : ArithOp → Bool
  | shl | shr | ushr => true
  | _ => false

/-- The number that a three-way comparison pushes. -/
def orderNumber : Ordering → Int32
  | .lt => -1
  | .eq => 0
  | .gt => 1

/-! ## Worlds -/

/-- What a program meets when it runs: references `ρ`, heaps `η` and what is computed with them. -/
structure World (ρ η : Type) where
  null : ρ
  /-- The object of a string literal. -/
  string : String → ρ
  /-- The object that stands for a type. -/
  classOf : Ty → ρ
  floats : ArithOp → UInt32 → UInt32 → UInt32
  doubles : ArithOp → UInt64 → UInt64 → UInt64
  negFloat : UInt32 → UInt32
  negDouble : UInt64 → UInt64
  /-- How two values are ordered; `none` if one of them is not a number. -/
  orderFloats : UInt32 → UInt32 → Option Ordering
  orderDoubles : UInt64 → UInt64 → Option Ordering
  /-- A value as one of another primitive type. -/
  convert : Ty → Value ρ → Value ρ
  isInstance : Ty → Value ρ → Bool
  /-- The value of a field of an object. -/
  field : η → FieldRef → Value ρ → Value ρ
  static : η → FieldRef → Value ρ
  /-- The element of an array at an index. -/
  element : η → Value ρ → Value ρ → Value ρ
  length : η → Value ρ → Int32
  /-- A new array of a type, given the numbers of elements. -/
  newArray : η → Ty → List (Value ρ) → ρ
  /-- The value that a call gives, if it gives one. -/
  result : η → Event ρ → Value ρ
  /-- The heap after an event. -/
  update : η → Event ρ → η
  orderFloats_none : ∀ a b, orderFloats a b = none → orderFloats a a = none ∨ orderFloats b b = none
  orderDoubles_none : ∀ a b, orderDoubles a b = none →
    orderDoubles a a = none ∨ orderDoubles b b = none

/-- A heap, and what was done to it so far. -/
structure Memory (ρ η : Type) where
  heap : η
  events : List (Event ρ)

namespace World

variable {ρ η : Type} (w : World ρ η)

/-- The memory after an event. -/
def after (m : Memory ρ η) (e : Event ρ) : Memory ρ η := ⟨w.update m.heap e, m.events ++ [e]⟩

/-- The value of a literal. -/
def literal : Literal → Value ρ
  | .int v => .int v
  | .long v => .long v
  | .float bits => .float bits
  | .double bits => .double bits
  | .boolean b => .ofBool b
  | .string s => .ref (w.string s)
  | .classOf t => .ref (w.classOf t)
  | .null => .ref w.null

/-- The value of a constant. -/
def constant : Constant → Value ρ
  | .int v => .int v
  | .long v => .long v
  | .float bits => .float bits
  | .double bits => .double bits
  | .string s => .ref (w.string s)
  | .classLit name => .ref (w.classOf (.ofClassOperand name))

/-- Arithmetic on two values, if their kinds go together. -/
def arith (op : ArithOp) : Value ρ → Value ρ → Option (Value ρ)
  | .int a, .int b => some (.int (op.ints a b))
  | .long a, .long b => if op.isShift then none else some (.long (op.longs a b))
  | .long a, .int b => if op.isShift then some (.long (op.longs a b.toInt64)) else none
  | .float a, .float b => some (.float (w.floats op a b))
  | .double a, .double b => some (.double (w.doubles op a b))
  | _, _ => none

def neg : Value ρ → Value ρ
  | .int a => .int (-a)
  | .long a => .long (-a)
  | .float a => .float (w.negFloat a)
  | .double a => .double (w.negDouble a)
  | .ref r => .ref r

/-- How two values are ordered. References are only equal or not. -/
def order [DecidableEq ρ] : Value ρ → Value ρ → Option Ordering
  | .int a, .int b => some (compare a b)
  | .long a, .long b => some (compare a b)
  | .float a, .float b => w.orderFloats a b
  | .double a, .double b => w.orderDoubles a b
  | .ref a, .ref b => some (if a = b then .eq else .lt)
  | _, _ => some .lt

/-- The three-way comparison of two values of its kind. -/
def threeWay [DecidableEq ρ] (kind : ThreeWay) (a b : Value ρ) : Option (Value ρ) :=
  if a.kind = kind.kind && b.kind = kind.kind then
    some (.int (orderNumber ((w.order a b).getD (kind.onNaN.getD .eq))))
  else none

/-- Values that are not numbers. -/
def isNaN [DecidableEq ρ] (v : Value ρ) : Bool := w.order v v = none

theorem isNaN_of_unordered [DecidableEq ρ] (a b : Value ρ) (h : w.order a b = none) :
    w.isNaN a = true ∨ w.isNaN b = true := by
  simp only [isNaN, decide_eq_true_eq]
  unfold order at h
  split at h <;> try cases h
  · exact w.orderFloats_none _ _ h
  · exact w.orderDoubles_none _ _ h

end World

end ByteLift
