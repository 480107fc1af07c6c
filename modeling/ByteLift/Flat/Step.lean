import ByteLift.Bytecode.Mnemonic
import ByteLift.Flat.Merge

/-!
# One instruction

What each instruction does to the machine. Members are looked up when the instruction that names
them is run; the machine notes which ones were.
-/

namespace ByteLift.Lift

/-! ## Members -/

/-- Looks up a field. -/
def lookupField (env : Env) (m : MemberRef) (isStatic : Bool) : Lift FieldRef := do
  modify fun s => { s with asked := s.asked ++ [.field m isStatic] }
  return env.field m isStatic

/-- Looks up a method. -/
def lookupMethod (env : Env) (m : MemberRef) (isStatic : Bool) : Lift MethodRef := do
  modify fun s => { s with asked := s.asked ++ [.method m isStatic] }
  return env.method m isStatic

/-- The object whose field is used. A field of the superclass that the class hides is reached
through `super`. -/
def fieldReceiver (env : Env) (m : MemberRef) (object : Expr) : Expr :=
  if object = .this && env.cls.superName = some m.owner && (env.cls.findField? m.name).isSome then
    .super
  else object

/-- The call of a constructor. On `this` it is a call of another constructor of the class or of the
superclass; on an object that nothing else refers to it makes the object. -/
def constructorCall (env : Env) (m : MemberRef) (method : MethodRef) (args : List Expr) :
    Expr → Expr
  | .this => .construct (if m.owner = env.cls.name then .this else .super) method args
  | .alloc _ => .new method args
  | receiver => .construct receiver method args

/-- The object that a method is called on. Methods of another class are called on `this` in a
special way if they belong to the superclass. -/
def callReceiver (env : Env) (kind : InvokeKind) (m : MemberRef) (object : Expr) : Expr :=
  if kind = .special && object = .this && m.owner ≠ env.cls.name then .super else object

/-- Calls a method. -/
def invoke (env : Env) (kind : InvokeKind) (m : MemberRef) : Lift Unit := do
  let method ← lookupMethod env m (kind = .static)
  let args ← popArgs method.params
  if method.isConstructor then
    let receiver ← pop
    emit env (.expr (constructorCall env m method args receiver)) none true
  else
    let call ←
      if kind = .static then pure (Expr.staticCall kind method args)
      else do
        let object ← pop
        pure (.call kind (callReceiver env kind m object) method args)
    if method.isVoid then emit env (.expr call) none true else push call

/-! ## Rearranging the stack -/

/-- Puts values on the stack, the first of the list on top. -/
def pushAll (es : List Expr) : Lift Unit := modify fun m => { m with stack := es ++ m.stack }

/-- Repeats the top `group` words below the `under` words beneath them. Values that cannot be
repeated are spilled first. -/
def duplicate (env : Env) (group under : Nat) : Lift Unit := do
  let top ← takeWords env group
  let below ← takeWords env under
  pushAll (top ++ below)
  let depth := (← get).stack.length
  spillStack env fun slot e => depth - top.length ≤ slot && !e.isSimple
  let top ← takeWords env group
  let below ← takeWords env under
  pushAll (top ++ below ++ top)

/-- Exchanges the two topmost values. Values that may fail or have an effect are spilled first. -/
def swap (env : Env) : Lift Unit := do
  let pair ← takeWords env 2
  if pair.length ≠ 2 then mismatch "swap of a category-2 value"
  pushAll pair
  let depth := (← get).stack.length
  spillStack env fun slot e => depth - 2 ≤ slot && !e.isPure
  let b ← pop
  let a ← pop
  push b
  push a

/-- Drops values, keeping their effects. -/
def discard (env : Env) : List Expr → Lift Unit
  | [] => return ()
  | e :: es => do
    if e.hasEffects then emit env (.expr e) none true
    discard env es

/-! ## The instructions -/

/-- The literal of a constant. -/
def constant : Constant → Literal
  | .int v => .int v
  | .float bits => .float bits
  | .long v => .long v
  | .double bits => .double bits
  | .string s => .string s
  | .classLit name => .classOf (Ty.ofClassOperand name)

/-- The type of the elements that an array instruction loads or stores, given the array's type. -/
def elementTy (kind : ArrayKind) (array : Ty) : Ty :=
  match kind with
  | .int => .int
  | .long => .long
  | .float => .float
  | .double => .double
  | .char => .char
  | .short => .short
  | .byte => if array.element = .boolean then .boolean else .byte
  | .reference => array.element.orObject

/-- The type of an arithmetic expression: bitwise operations on booleans give booleans. -/
def arithTy (op : BinOp) (kind : NumKind) (left right : Ty) : Ty :=
  if op.isBitwise && left = .boolean && right = .boolean then .boolean else kind.ty

/-- The value of a variable plus an amount, written with a non-negative number. -/
def increment (v : Var) (ty : Ty) (amount : Int16) : Expr :=
  if amount < 0 then .binary .sub (.var v) (.int (-amount.toInt32)) ty
  else .binary .add (.var v) (.int amount.toInt32) ty

/-- The cases of a switch over consecutive keys. -/
def tableCases (low : Int32) : List Address → List (Int32 × Address)
  | [] => []
  | t :: ts => (low, t) :: tableCases (low + 1) ts

/-- Fails unless the stack is empty. -/
def ensureEmpty : Lift Unit := do
  let m ← get
  if !m.stack.isEmpty then throw (.stackNotEmptyAtExit m.address m.stack.length)

/-- The type of an expression, in the machine's present state. -/
def typeOf (env : Env) (e : Expr) : Lift Ty := return env.typeOf (← get).vars e

/-- Runs one instruction. -/
def step (env : Env) (i : Instruction) : Lift Unit := do
  match i with
  | .nop => return ()
  -- Constants
  | .aconstNull => push .null
  | .iconst v => push (.int v)
  | .lconst v => push (.lit (.long v))
  | .fconst bits => push (.lit (.float bits))
  | .dconst bits => push (.lit (.double bits))
  | .ldc c => push (.lit (constant c))
  -- Locals
  | .load kind slot => push (← loadLocal slot kind)
  | .store kind slot => storeLocal env kind slot
  | .iinc slot amount =>
    match ← loadLocal slot .int with
    | .var v =>
      let ty := (← get).vars.ty v
      emit env (.set v (increment v ty amount)) (some v) false
    | _ => mismatch "iinc on a non-int local"
  -- Arrays
  | .arrayLoad kind =>
    let index ← pop
    let array ← pop
    push (.arrayElement array index (elementTy kind (← typeOf env array)))
  | .arrayStore kind =>
    let value ← pop
    let index ← pop
    let array ← pop
    let ty := elementTy kind (← typeOf env array)
    emit env (.expr (.assign (.arrayElement array index ty) (value.coerce ty))) none true
  | .arrayLength => push (.arrayLength (← pop))
  | .newArray code => push (.newArray (.array (Ty.ofArrayCode code)) [← pop])
  | .anewArray element => push (.newArray (.array (Ty.ofClassOperand element)) [← pop])
  | .multiNewArray descriptor dimensions =>
    push (.newArray ((Ty.parse? descriptor).getD .unknown) (← popMany dimensions))
  -- The stack
  | .pop => discard env (← takeWords env 1).reverse
  | .pop2 => discard env (← takeWords env 2).reverse
  | .dup => duplicate env 1 0
  | .dupX1 => duplicate env 1 1
  | .dupX2 => duplicate env 1 2
  | .dup2 => duplicate env 2 0
  | .dup2X1 => duplicate env 2 1
  | .dup2X2 => duplicate env 2 2
  | .swap => swap env
  -- Arithmetic
  | .arith op kind =>
    let right ← pop
    let left ← pop
    let op := BinOp.ofArith op
    push (.binary op left right (arithTy op kind (← typeOf env left) (← typeOf env right)))
  | .neg kind => push (.unary .neg (← pop) kind.ty)
  | .convert c => push (.cast c.target (← pop))
  | .compare kind =>
    let right ← pop
    let left ← pop
    push (.threeWay kind left right)
  -- Branches
  | .ifZero op target =>
    let value ← pop
    branch env (zeroCondition env (← get).vars op value) target
  | .ifInt op target =>
    let right ← pop
    let left ← pop
    let leftTy ← typeOf env left
    let rightTy ← typeOf env right
    branch env (.compare op (left.coerce rightTy) (right.coerce leftTy)) target
  | .ifRef op target =>
    let right ← pop
    let left ← pop
    branch env (.compare op left right) target
  | .ifNull target => branch env (.compare .eq (← pop) .null) target
  | .ifNonNull target => branch env (.compare .ne (← pop) .null) target
  | .goto target => goto env target
  | .tableSwitch default low targets => switch env (tableCases low targets) default
  | .lookupSwitch default pairs => switch env pairs default
  -- Members and objects
  | .getField m =>
    let object ← pop
    let f ← lookupField env m false
    push (.field (fieldReceiver env m object) f)
  | .putField m =>
    let value ← pop
    let object ← pop
    let f ← lookupField env m false
    emit env (.expr (.assign (.field (fieldReceiver env m object) f) (value.coerce f.ty))) none true
  | .getStatic m => push (.staticField (← lookupField env m true))
  | .putStatic m =>
    let value ← pop
    let f ← lookupField env m true
    emit env (.expr (.assign (.staticField f) (value.coerce f.ty))) none true
  | .invoke kind m => invoke env kind m
  | .new name => push (.alloc name)
  | .checkCast operand => push (.cast (Ty.ofClassOperand operand) (← pop))
  | .instanceOf operand => push (.instanceOf (← pop) (Ty.ofClassOperand operand))
  -- Exits
  | .methodReturn none =>
    ensureEmpty
    append [.ret none]
  | .methodReturn (some _) =>
    let value ← pop
    ensureEmpty
    append [.ret (some (value.coerce env.returnType))]
  | .athrow =>
    let value ← pop
    ensureEmpty
    append [.throw value]
  -- No source for these
  | .invokeDynamic .. | .monitorEnter | .monitorExit | .jsr _ | .ret _ =>
    throw (.unsupportedOpcode (← get).address i.mnemonic)

end ByteLift.Lift
