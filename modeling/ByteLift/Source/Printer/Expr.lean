import ByteLift.Decimal.Layout
import ByteLift.Expr.Basic
import ByteLift.Source.StringLiteral

/-!
# Printing expressions

Expressions are printed with as few parentheses as their operators need. Every form has a
precedence, and an operand is put in parentheses if it binds less tightly than its place asks for.
Binary operators ask for more on their right, for they associate to the left.
-/

namespace ByteLift

/-- The settings of printed source. -/
structure Style where
  /-- One step of indentation. -/
  indent : String := "    "
  /-- Print what the compiler made up as well. -/
  includeSynthetic : Bool := false
  /-- Refer to classes without their packages. -/
  simpleNames : Bool := true
deriving DecidableEq, Inhabited

namespace Style

/-- The spelling of a type. -/
def ty (s : Style) (t : Ty) : String := t.source s.simpleNames

/-- The spelling of a class. -/
def className (s : Style) (name : String) : String :=
  if s.simpleNames then ClassName.nested name else ClassName.qualified name

end Style

/-- Floating-point literals are written without an exponent, and whole numbers without a point. -/
def literalLayout : Decimal.Layout := ⟨none, none, false⟩

/-- A floating-point literal: the number with a letter behind it, or the constant of the class
`owner` that stands for a value that has no literal. -/
def floatLiteral (owner unit : String) (f : Decimal.BinaryFormat) (bits : Nat) : String :=
  match f.value bits with
  | .nan => owner ++ ".NaN"
  | .infinite false => owner ++ ".POSITIVE_INFINITY"
  | .infinite true => owner ++ ".NEGATIVE_INFINITY"
  | .finite .. => literalLayout.render f bits ++ unit

/-- A literal. -/
def Literal.render (style : Style) : Literal → String
  | int v => toString v
  | long v => toString v ++ "L"
  | float bits => floatLiteral "Float" "f" .single bits.toNat
  | double bits => floatLiteral "Double" "d" .double bits.toNat
  | boolean b => if b then "true" else "false"
  | string s => "\"" ++ StringLiteral.escape s ++ "\""
  | classOf t => style.ty t ++ ".class"
  | null => "null"

/-! ## Precedence -/

namespace Precedence

def assignment : Nat := 1
def condOr : Nat := 3
def condAnd : Nat := 4
def or : Nat := 5
def xor : Nat := 6
def and : Nat := 7
def equality : Nat := 8
def relational : Nat := 9
def shift : Nat := 10
def additive : Nat := 11
def multiplicative : Nat := 12
def unary : Nat := 13
def primary : Nat := 15

end Precedence

/-- How tightly a binary operator binds. -/
def BinOp.precedence : BinOp → Nat
  | mul | div | rem => Precedence.multiplicative
  | add | sub => Precedence.additive
  | shl | shr | ushr => Precedence.shift
  | and => Precedence.and
  | xor => Precedence.xor
  | or => Precedence.or
  | condAnd => Precedence.condAnd
  | condOr => Precedence.condOr

/-- How tightly a comparison binds. -/
def CompareOp.precedence : CompareOp → Nat
  | eq | ne => Precedence.equality
  | _ => Precedence.relational

/-- How tightly an expression binds. Negative whole numbers bind like a negation, and `new` must be
put in parentheses before a member of what it makes. -/
def Expr.precedence : Expr → Nat
  | lit (.int v) => if v < 0 then Precedence.unary else Precedence.primary
  | lit (.long v) => if v < 0 then Precedence.unary else Precedence.primary
  | unary .. | cast .. => Precedence.unary
  | binary op _ _ _ => op.precedence
  | compare op _ _ => op.precedence
  | instanceOf .. => Precedence.relational
  | assign .. => Precedence.assignment
  | alloc _ | new .. | newArray .. => Precedence.unary
  | _ => Precedence.primary

/-! ## Expressions -/

/-- A text in parentheses. -/
def parens (s : String) : String := "(" ++ s ++ ")"

/-- The text of an operand, in parentheses if it binds less tightly than `least`. -/
def operandText (e : Expr) (least : Nat) (text : String) : String :=
  match e with
  | .paren _ => text
  | e => if e.precedence < least then parens text else text

/-- The spelling of a unary operator. -/
def UnaryOp.symbol : UnaryOp → String
  | neg => "-"
  | not => "!"

/-- The class whose method compares two values like the instruction does. -/
def ThreeWay.owner : ThreeWay → String
  | lcmp => "Long"
  | fcmpl | fcmpg => "Float"
  | dcmpl | dcmpg => "Double"

/-- What an array holds at the bottom of its dimensions, and how many it has. -/
def Ty.dimensions : Ty → Ty × Nat
  | array t =>
    let (base, depth) := t.dimensions
    (base, depth + 1)
  | t => (t, 0)

/-- The operand of a unary operator: a second minus must not follow the first one. -/
def unaryOperand (text : String) : String :=
  match text.toList with
  | '-' :: _ => parens text
  | _ => text

mutual

/-- The text of an expression. -/
def Expr.render (style : Style) (vars : VarTable) : Expr → String
  | .lit l => l.render style
  | .var v => vars.name v
  | .this => "this"
  | .super => "super"
  | .outerThis c => style.className c ++ ".this"
  | .field e f => operandText e Precedence.primary (e.render style vars) ++ "." ++ f.name
  | .staticField f => style.className f.owner ++ "." ++ f.name
  | .arrayElement a i _ =>
    operandText a Precedence.primary (a.render style vars) ++ "[" ++ i.render style vars ++ "]"
  | .arrayLength a => operandText a Precedence.primary (a.render style vars) ++ ".length"
  | .unary op e _ =>
    op.symbol ++ unaryOperand (operandText e Precedence.unary (e.render style vars))
  | .binary op a b _ =>
    operandText a op.precedence (a.render style vars) ++ " " ++ op.symbol ++ " "
      ++ operandText b (op.precedence + 1) (b.render style vars)
  | .compare op a b =>
    operandText a op.precedence (a.render style vars) ++ " " ++ op.symbol ++ " "
      ++ operandText b (op.precedence + 1) (b.render style vars)
  | .threeWay kind a b =>
    kind.owner ++ ".compare(" ++ a.render style vars ++ ", " ++ b.render style vars ++ ")"
  | .cast t e =>
    parens (style.ty t) ++ " " ++ operandText e Precedence.unary (e.render style vars)
  | .instanceOf e t =>
    operandText e Precedence.relational (e.render style vars) ++ " instanceof " ++ style.ty t
  | .call _ r m args =>
    operandText r Precedence.primary (r.render style vars) ++ "." ++ m.name
      ++ parens (Expr.renderArgs style vars args)
  | .staticCall _ m args =>
    style.className m.owner ++ "." ++ m.name ++ parens (Expr.renderArgs style vars args)
  | .alloc c => "new " ++ style.className c
  | .construct r _ args =>
    let target := match r with
      | .this => "this"
      | .super => "super"
      | r => operandText r Precedence.primary (r.render style vars) ++ "." ++ "<init>"
    target ++ parens (Expr.renderArgs style vars args)
  | .new m args =>
    "new " ++ style.className m.owner ++ parens (Expr.renderArgs style vars args)
  | .newArray t dims =>
    let (base, depth) := t.dimensions
    "new " ++ style.ty base ++ Expr.renderDims style vars dims
      ++ String.join (List.replicate (depth - dims.length) "[]")
  | .assign a b =>
    operandText a Precedence.primary (a.render style vars) ++ " = "
      ++ operandText b Precedence.assignment (b.render style vars)
  | .paren e => parens (e.render style vars)

/-- The text of arguments, divided by commas. -/
def Expr.renderArgs (style : Style) (vars : VarTable) : List Expr → String
  | [] => ""
  | [e] => e.render style vars
  | e :: es => e.render style vars ++ ", " ++ Expr.renderArgs style vars es

/-- The text of the dimensions of a new array. -/
def Expr.renderDims (style : Style) (vars : VarTable) : List Expr → String
  | [] => ""
  | e :: es => "[" ++ e.render style vars ++ "]" ++ Expr.renderDims style vars es

end

end ByteLift
