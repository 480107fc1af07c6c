import ByteLift.Bytecode.Instruction
import ByteLift.Decimal.Layout
import ByteLift.Text.Quoted

/-!
# Instructions in diagnostics

The text by which an instruction is shown in an error or in the listing of a method that could not
be lifted: its name in lower case, operands in brackets, named operands in braces. Names and other
texts among the operands stand between quotes and are put in lower case as well.
-/

namespace ByteLift

/-- Floating-point constants keep a point, and split off a power of ten below `0.0001` and from
`1e16` on. -/
def constantLayout : Decimal.Layout := ⟨some (-3), some 16, true⟩

/-- A text among the operands. -/
def textOperand (s : String) : String := Text.lower (Text.quoted s)

/-- Operands with their names, between braces. -/
def namedOperands (operands : List (String × String)) : String :=
  " \x7b " ++ ", ".intercalate (operands.map fun (name, value) => name ++ ": " ++ value) ++ " \x7d"

/-- Operands between brackets. -/
def operandList (operands : List String) : String := "(" ++ ", ".intercalate operands ++ ")"

/-- A list among the operands. -/
def listOperand (items : List String) : String := "[" ++ ", ".intercalate items ++ "]"

namespace LocalKind

/-- The kind's name. -/
def word : LocalKind → String
  | int => "int"
  | long => "long"
  | float => "float"
  | double => "double"
  | reference => "reference"

end LocalKind

/-- The kind's name. -/
def ArrayKind.word : ArrayKind → String
  | int => "int"
  | long => "long"
  | float => "float"
  | double => "double"
  | reference => "reference"
  | byte => "byte"
  | char => "char"
  | short => "short"

/-- The kind's name. -/
def NumKind.word : NumKind → String
  | int => "int"
  | long => "long"
  | float => "float"
  | double => "double"

/-- The operation's name. -/
def ArithOp.word : ArithOp → String
  | add => "add"
  | sub => "sub"
  | mul => "mul"
  | div => "div"
  | rem => "rem"
  | shl => "shl"
  | shr => "shr"
  | ushr => "ushr"
  | and => "and"
  | or => "or"
  | xor => "xor"

/-- The operator's name. -/
def CompareOp.word : CompareOp → String
  | eq => "eq"
  | ne => "ne"
  | lt => "lt"
  | ge => "ge"
  | gt => "gt"
  | le => "le"

/-- The instruction's name. -/
def ThreeWay.word : ThreeWay → String
  | lcmp => "lcmp"
  | fcmpl => "fcmpl"
  | fcmpg => "fcmpg"
  | dcmpl => "dcmpl"
  | dcmpg => "dcmpg"

/-- The conversion's name. -/
def Conversion.word : Conversion → String
  | i2l => "i2l"
  | i2f => "i2f"
  | i2d => "i2d"
  | l2i => "l2i"
  | l2f => "l2f"
  | l2d => "l2d"
  | f2i => "f2i"
  | f2l => "f2l"
  | f2d => "f2d"
  | d2i => "d2i"
  | d2l => "d2l"
  | d2f => "d2f"
  | i2b => "i2b"
  | i2c => "i2c"
  | i2s => "i2s"

/-- The name of the way of calling. -/
def InvokeKind.word : InvokeKind → String
  | virtual => "virtual"
  | special => "special"
  | static => "static"
  | interface => "interface"

/-- A constant with its kind. -/
def Constant.mnemonic : Constant → String
  | int v => "int" ++ operandList [toString v]
  | float bits => "float" ++ operandList [constantLayout.render .single bits.toNat]
  | long v => "long" ++ operandList [toString v]
  | double bits => "double" ++ operandList [constantLayout.render .double bits.toNat]
  | string s => "string" ++ operandList [textOperand s]
  | classLit s => "class" ++ operandList [textOperand s]

/-- A member reference with its parts. -/
def MemberRef.mnemonic (m : MemberRef) : String :=
  "memberref" ++ namedOperands
    [("owner", textOperand m.owner), ("name", textOperand m.name),
      ("descriptor", textOperand m.descriptor)]

/-- The text by which an instruction is shown. -/
def Instruction.mnemonic : Instruction → String
  | nop => "nop"
  | aconstNull => "aconstnull"
  | iconst v => "iconst" ++ operandList [toString v]
  | lconst v => "lconst" ++ operandList [toString v]
  | fconst bits => "fconst" ++ operandList [constantLayout.render .single bits.toNat]
  | dconst bits => "dconst" ++ operandList [constantLayout.render .double bits.toNat]
  | ldc c => "ldc" ++ operandList [c.mnemonic]
  | load kind slot => "load" ++ operandList [kind.word, toString slot]
  | store kind slot => "store" ++ operandList [kind.word, toString slot]
  | iinc slot amount =>
    "iinc" ++ namedOperands [("index", toString slot), ("value", toString amount)]
  | arrayLoad kind => "arrayload" ++ operandList [kind.word]
  | arrayStore kind => "arraystore" ++ operandList [kind.word]
  | arrayLength => "arraylength"
  | newArray code => "newarray" ++ operandList [toString code]
  | anewArray element => "anewarray" ++ operandList [textOperand element]
  | multiNewArray descriptor dimensions =>
    "multianewarray" ++ namedOperands
      [("array_type", textOperand descriptor), ("dimensions", toString dimensions)]
  | pop => "pop"
  | pop2 => "pop2"
  | dup => "dup"
  | dupX1 => "dupx1"
  | dupX2 => "dupx2"
  | dup2 => "dup2"
  | dup2X1 => "dup2x1"
  | dup2X2 => "dup2x2"
  | swap => "swap"
  | arith op kind => "arith" ++ operandList [op.word, kind.word]
  | neg kind => "neg" ++ operandList [kind.word]
  | convert c => "convert" ++ operandList [c.word]
  | compare kind => "compare" ++ operandList [kind.word]
  | ifZero op t => "if" ++ operandList [op.word, toString t]
  | ifInt op t => "ificmp" ++ operandList [op.word, toString t]
  | ifRef op t => "ifacmp" ++ operandList [op.word, toString t]
  | ifNull t => "ifnull" ++ operandList [toString t]
  | ifNonNull t => "ifnonnull" ++ operandList [toString t]
  | goto t => "goto" ++ operandList [toString t]
  | tableSwitch default low targets =>
    "tableswitch" ++ namedOperands
      [("default", toString default), ("low", toString low),
        ("targets", listOperand (targets.map toString))]
  | lookupSwitch default pairs =>
    "lookupswitch" ++ namedOperands
      [("default", toString default),
        ("pairs", listOperand (pairs.map fun (key, t) => operandList [toString key, toString t]))]
  | getField m => "getfield" ++ operandList [m.mnemonic]
  | putField m => "putfield" ++ operandList [m.mnemonic]
  | getStatic m => "getstatic" ++ operandList [m.mnemonic]
  | putStatic m => "putstatic" ++ operandList [m.mnemonic]
  | invoke kind m => "invoke" ++ operandList [kind.word, m.mnemonic]
  | invokeDynamic _ _ => "invokedynamic"
  | new name => "new" ++ operandList [textOperand name]
  | checkCast operand => "checkcast" ++ operandList [textOperand operand]
  | instanceOf operand => "instanceof" ++ operandList [textOperand operand]
  | methodReturn none => "return(none)"
  | methodReturn (some kind) => "return" ++ operandList ["some" ++ operandList [kind.word]]
  | athrow => "athrow"
  | monitorEnter => "monitorenter"
  | monitorExit => "monitorexit"
  | jsr _ => "jsr"
  | ret _ => "ret"

end ByteLift
