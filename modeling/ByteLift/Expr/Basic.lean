import ByteLift.Bytecode.Instruction
import ByteLift.Member
import ByteLift.Vars

/-!
# Expressions

Expressions of Java, with two forms that only occur while code is being lifted: an object that is
allocated but not yet constructed, and the call of its constructor. Trees carry the types that the
bytecode told. The second half of the module says which expressions can be moved, repeated or
dropped.
-/

namespace ByteLift

/-- Constant values. Floating-point values are given by their bits, so that each is equal to
itself. -/
inductive Literal
  | int (value : Int32)
  | long (value : Int64)
  | float (bits : UInt32)
  | double (bits : UInt64)
  | boolean (value : Bool)
  | string (value : String)
  /-- The object that stands for a type, `T.class`. -/
  | classOf (ty : Ty)
  | null
deriving DecidableEq, Inhabited

/-- The type of a literal. -/
def Literal.ty : Literal → Ty
  | int _ => .int
  | long _ => .long
  | float _ => .float
  | double _ => .double
  | boolean _ => .boolean
  | string _ => .string
  | classOf _ => .classObject
  | null => .null

/-- Binary operators. -/
inductive BinOp
  | add | sub | mul | div | rem | shl | shr | ushr | and | or | xor
  /-- The operator `&&`, whose right side is only evaluated if the left one is true. -/
  | condAnd
  /-- The operator `||`, whose right side is only evaluated if the left one is false. -/
  | condOr
deriving DecidableEq, Inhabited

namespace BinOp

/-- The operator of an arithmetic instruction. -/
def ofArith : ArithOp → BinOp
  | .add => add
  | .sub => sub
  | .mul => mul
  | .div => div
  | .rem => rem
  | .shl => shl
  | .shr => shr
  | .ushr => ushr
  | .and => and
  | .or => or
  | .xor => xor

/-- The source spelling. -/
def symbol : BinOp → String
  | add => "+"
  | sub => "-"
  | mul => "*"
  | div => "/"
  | rem => "%"
  | shl => "<<"
  | shr => ">>"
  | ushr => ">>>"
  | and => "&"
  | or => "|"
  | xor => "^"
  | condAnd => "&&"
  | condOr => "||"

/-- Operators that also work on booleans. -/
def isBitwise : BinOp → Bool
  | and | or | xor => true
  | _ => false

/-- Operators that fail on a zero right operand of a whole-number type. -/
def isDivision : BinOp → Bool
  | div | rem => true
  | _ => false

end BinOp

/-- Unary operators. -/
inductive UnaryOp
  | neg
  /-- Logical negation. -/
  | not
deriving DecidableEq, Inhabited

/-- An expression. -/
inductive Expr
  | lit (value : Literal)
  | var (v : Var)
  | this
  /-- The receiver of members of the superclass, and of its constructors. -/
  | super
  /-- The instance of the class around an inner class, `Outer.this`. -/
  | outerThis (className : String)
  | field (object : Expr) (field : FieldRef)
  | staticField (field : FieldRef)
  | arrayElement (array index : Expr) (ty : Ty)
  | arrayLength (array : Expr)
  | unary (op : UnaryOp) (operand : Expr) (ty : Ty)
  | binary (op : BinOp) (left right : Expr) (ty : Ty)
  | compare (op : CompareOp) (left right : Expr)
  /-- The comparison that gives -1, 0 or 1. -/
  | threeWay (kind : ThreeWay) (left right : Expr)
  | cast (ty : Ty) (operand : Expr)
  | instanceOf (operand : Expr) (ty : Ty)
  /-- A call on an object. -/
  | call (kind : InvokeKind) (receiver : Expr) (method : MethodRef) (args : List Expr)
  /-- A call on a class. -/
  | staticCall (kind : InvokeKind) (method : MethodRef) (args : List Expr)
  /-- An object that is allocated but not yet constructed. -/
  | alloc (className : String)
  /-- The call of a constructor on an object that is there already. -/
  | construct (receiver : Expr) (method : MethodRef) (args : List Expr)
  /-- A constructed object. -/
  | new (method : MethodRef) (args : List Expr)
  /-- A new array. The type is that of the array and may have more dimensions than are given. -/
  | newArray (ty : Ty) (dims : List Expr)
  | assign (target value : Expr)
  | paren (inner : Expr)
deriving Inhabited

namespace Expr

/-- An `int` literal. -/
def int (value : Int32) : Expr := lit (.int value)

/-- A boolean literal. -/
def boolean (value : Bool) : Expr := lit (.boolean value)

/-- The literal `null`. -/
def null : Expr := lit .null

/-- The logical negation of an expression, written out. -/
def not (operand : Expr) : Expr := unary .not operand .boolean

/-! ## The parts of an expression -/

/-- The expressions that an expression is directly made of, from left to right. -/
def children : Expr → List Expr
  | lit _ | var _ | this | super | outerThis _ | staticField _ | alloc _ => []
  | field e _ | arrayLength e | paren e | unary _ e _ | cast _ e | instanceOf e _ => [e]
  | arrayElement a b _ | binary _ a b _ | compare _ a b | threeWay _ a b | assign a b => [a, b]
  | call _ receiver _ args | construct receiver _ args => receiver :: args
  | staticCall _ _ args | new _ args | newArray _ args => args

mutual

/-- An expression and all its parts, each before its own parts. -/
def subexprs : Expr → List Expr
  | field e f => field e f :: e.subexprs
  | arrayElement a b t => arrayElement a b t :: (a.subexprs ++ b.subexprs)
  | arrayLength e => arrayLength e :: e.subexprs
  | unary op e t => unary op e t :: e.subexprs
  | binary op a b t => binary op a b t :: (a.subexprs ++ b.subexprs)
  | compare op a b => compare op a b :: (a.subexprs ++ b.subexprs)
  | threeWay k a b => threeWay k a b :: (a.subexprs ++ b.subexprs)
  | cast t e => cast t e :: e.subexprs
  | instanceOf e t => instanceOf e t :: e.subexprs
  | call k r m args => call k r m args :: (r.subexprs ++ subexprsList args)
  | staticCall k m args => staticCall k m args :: subexprsList args
  | construct r m args => construct r m args :: (r.subexprs ++ subexprsList args)
  | new m args => new m args :: subexprsList args
  | newArray t dims => newArray t dims :: subexprsList dims
  | assign a b => assign a b :: (a.subexprs ++ b.subexprs)
  | paren e => paren e :: e.subexprs
  | lit l => [lit l]
  | var v => [var v]
  | this => [this]
  | super => [super]
  | outerThis c => [outerThis c]
  | staticField f => [staticField f]
  | alloc c => [alloc c]

/-- All parts of a list of expressions, in the order of `subexprs`. -/
def subexprsList : List Expr → List Expr
  | [] => []
  | e :: es => e.subexprs ++ subexprsList es

end

mutual

/-- An expression and all its parts, each behind its own parts. -/
def postorder : Expr → List Expr
  | field e f => e.postorder ++ [field e f]
  | arrayElement a b t => a.postorder ++ b.postorder ++ [arrayElement a b t]
  | arrayLength e => e.postorder ++ [arrayLength e]
  | unary op e t => e.postorder ++ [unary op e t]
  | binary op a b t => a.postorder ++ b.postorder ++ [binary op a b t]
  | compare op a b => a.postorder ++ b.postorder ++ [compare op a b]
  | threeWay k a b => a.postorder ++ b.postorder ++ [threeWay k a b]
  | cast t e => e.postorder ++ [cast t e]
  | instanceOf e t => e.postorder ++ [instanceOf e t]
  | call k r m args => r.postorder ++ postorderList args ++ [call k r m args]
  | staticCall k m args => postorderList args ++ [staticCall k m args]
  | construct r m args => r.postorder ++ postorderList args ++ [construct r m args]
  | new m args => postorderList args ++ [new m args]
  | newArray t dims => postorderList dims ++ [newArray t dims]
  | assign a b => a.postorder ++ b.postorder ++ [assign a b]
  | paren e => e.postorder ++ [paren e]
  | lit l => [lit l]
  | var v => [var v]
  | this => [this]
  | super => [super]
  | outerThis c => [outerThis c]
  | staticField f => [staticField f]
  | alloc c => [alloc c]

/-- All parts of a list of expressions, in the order of `postorder`. -/
def postorderList : List Expr → List Expr
  | [] => []
  | e :: es => e.postorder ++ postorderList es

end

/-! ## Equality -/

mutual

/-- Whether two expressions are the same tree. -/
def same : Expr → Expr → Bool
  | lit a, lit b => a = b
  | var a, var b => a = b
  | this, this | super, super => true
  | outerThis a, outerThis b => a = b
  | field a f, field b g => a.same b && f = g
  | staticField f, staticField g => f = g
  | arrayElement a i t, arrayElement b j u => a.same b && i.same j && t = u
  | arrayLength a, arrayLength b => a.same b
  | unary o a t, unary p b u => o = p && a.same b && t = u
  | binary o a c t, binary p b d u => o = p && a.same b && c.same d && t = u
  | compare o a c, compare p b d => o = p && a.same b && c.same d
  | threeWay o a c, threeWay p b d => o = p && a.same b && c.same d
  | cast t a, cast u b => t = u && a.same b
  | instanceOf a t, instanceOf b u => a.same b && t = u
  | call k r m as, call l s n bs => k = l && r.same s && m = n && sameList as bs
  | staticCall k m as, staticCall l n bs => k = l && m = n && sameList as bs
  | alloc a, alloc b => a = b
  | construct r m as, construct s n bs => r.same s && m = n && sameList as bs
  | new m as, new n bs => m = n && sameList as bs
  | newArray t as, newArray u bs => t = u && sameList as bs
  | assign a c, assign b d => a.same b && c.same d
  | paren a, paren b => a.same b
  | _, _ => false

/-- Whether two lists of expressions are the same. -/
def sameList : List Expr → List Expr → Bool
  | [], [] => true
  | a :: as, b :: bs => a.same b && sameList as bs
  | _, _ => false

end

mutual

theorem same_iff : ∀ a b : Expr, a.same b = true ↔ a = b
  | lit _, b => by cases b <;> simp [same]
  | var _, b => by cases b <;> simp [same]
  | this, b => by cases b <;> simp [same]
  | super, b => by cases b <;> simp [same]
  | outerThis _, b => by cases b <;> simp [same]
  | field a _, b => by cases b <;> simp [same, same_iff a]
  | staticField _, b => by cases b <;> simp [same]
  | arrayElement a i _, b => by cases b <;> simp [same, same_iff a, same_iff i, and_assoc]
  | arrayLength a, b => by cases b <;> simp [same, same_iff a]
  | unary _ a _, b => by cases b <;> simp [same, same_iff a, and_assoc]
  | binary _ a c _, b => by cases b <;> simp [same, same_iff a, same_iff c, and_assoc]
  | compare _ a c, b => by cases b <;> simp [same, same_iff a, same_iff c, and_assoc]
  | threeWay _ a c, b => by cases b <;> simp [same, same_iff a, same_iff c, and_assoc]
  | cast _ a, b => by cases b <;> simp [same, same_iff a]
  | instanceOf a _, b => by cases b <;> simp [same, same_iff a]
  | call _ r _ as, b => by cases b <;> simp [same, same_iff r, sameList_iff as, and_assoc]
  | staticCall _ _ as, b => by cases b <;> simp [same, sameList_iff as, and_assoc]
  | alloc _, b => by cases b <;> simp [same]
  | construct r _ as, b => by cases b <;> simp [same, same_iff r, sameList_iff as, and_assoc]
  | new _ as, b => by cases b <;> simp [same, sameList_iff as]
  | newArray _ as, b => by cases b <;> simp [same, sameList_iff as]
  | assign a c, b => by cases b <;> simp [same, same_iff a, same_iff c]
  | paren a, b => by cases b <;> simp [same, same_iff a]

theorem sameList_iff : ∀ as bs : List Expr, sameList as bs = true ↔ as = bs
  | [], bs => by cases bs <;> simp [sameList]
  | a :: as, bs => by cases bs <;> simp [sameList, same_iff a, sameList_iff as]

end

instance : DecidableEq Expr := fun a b => decidable_of_iff _ (same_iff a b)

/-! ## Types and effects -/

/-- The static type of an expression. The class that `this` and `super` belong to is not part of
the tree, so their type is unknown. -/
def ty (vars : VarTable) : Expr → Ty
  | lit l => l.ty
  | var v => vars.ty v
  | this | super => .unknown
  | outerThis c => .ref c
  | field _ f | staticField f => f.ty
  | arrayElement _ _ t | unary _ _ t | binary _ _ _ t | cast t _ | newArray t _ => t
  | arrayLength _ | threeWay .. => .int
  | compare .. | instanceOf .. => .boolean
  | call _ _ m _ | staticCall _ m _ => m.result
  | alloc c => .ref c
  | construct .. => .void
  | new m _ => .ref m.owner
  | assign target _ => target.ty vars
  | paren e => e.ty vars

/-- The literal `true`. -/
def isTrue : Expr → Bool
  | lit (.boolean b) => b
  | _ => false

/-- The literal `false`. -/
def isFalse : Expr → Bool
  | lit (.boolean b) => !b
  | _ => false

/-- Values that can be repeated and moved at will: literals, plain variables and the objects that
are always there. -/
def isSimple : Expr → Bool
  | lit _ | var _ | this | super | outerThis _ => true
  | _ => false

/-- Whether evaluation neither fails nor has an effect besides giving a value. -/
def isPure : Expr → Bool
  | lit _ | var _ | this | super | outerThis _ => true
  | paren e | unary _ e _ | instanceOf e _ => e.isPure
  | cast t e => t.isPrimitive && e.isPure
  | binary op a b t => !(op.isDivision && (t = .int || t = .long)) && a.isPure && b.isPure
  | compare _ a b | threeWay _ a b => a.isPure && b.isPure
  | _ => false

/-- Calls, constructions and assignments. -/
def isEffect : Expr → Bool
  | call .. | staticCall .. | new .. | construct .. | assign .. => true
  | _ => false

/-- Whether a call, a construction or an assignment stands anywhere in the tree. -/
def hasEffects (e : Expr) : Bool := e.subexprs.any isEffect

/-- A value as a value of the given type: where a boolean is wanted, the numbers 0 and 1 are the
boolean literals. -/
def coerce (e : Expr) (t : Ty) : Expr :=
  match t, e with
  | .boolean, lit (.int v) =>
    if v = 0 then boolean false else if v = 1 then boolean true else e
  | _, _ => e

end Expr

end ByteLift
