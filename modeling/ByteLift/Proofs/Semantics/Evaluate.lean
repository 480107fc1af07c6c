import ByteLift.Proofs.Semantics.Condition
import ByteLift.Proofs.Semantics.World

/-!
# Evaluating expressions in a world

Expressions are evaluated from left to right in a store, which holds the variables and the memory;
the target of an assignment comes before the value. An operator given operands it does not take, and
an expression that only occurs while code is being lifted, throws `null`.
-/

namespace ByteLift

/-- The values of variables, and the memory. -/
structure Store (ρ η : Type) where
  vars : Var → Value ρ
  memory : Memory ρ η

namespace Store

variable {ρ η : Type} (s : Store ρ η)

/-- A store with another value for one variable. -/
def put (v : Var) (x : Value ρ) : Store ρ η :=
  { s with vars := fun u => if u = v then x else s.vars u }

variable (v : Var) (x : Value ρ)

@[simp] theorem put_self : (s.put v x).vars v = x := by
  simp [put]

theorem put_of_ne {v u : Var} (h : u ≠ v) : (s.put v x).vars u = s.vars u := by
  simp [put, h]

end Store

/-- The operation of an operator other than `&&` and `||`. -/
def BinOp.arith? : BinOp → Option ArithOp
  | add => some .add
  | sub => some .sub
  | mul => some .mul
  | div => some .div
  | rem => some .rem
  | shl => some .shl
  | shr => some .shr
  | ushr => some .ushr
  | and => some .and
  | or => some .or
  | xor => some .xor
  | condAnd | condOr => none

theorem BinOp.arith?_ofArith (op : ArithOp) : (ofArith op).arith? = some op := by
  cases op <;> rfl

/-- A computation on a store. -/
abbrev Eval (ρ η : Type) := EStateM (Value ρ) (Store ρ η)

namespace World

variable {ρ η : Type} [DecidableEq ρ] (w : World ρ η)

/-- The value of an operation, if there is one. -/
def give : Option (Value ρ) → Eval ρ η (Value ρ)
  | some v => pure v
  | none => throw (.ref w.null)

/-- Reads the heap. -/
def look {α : Type} (f : η → α) : Eval ρ η α := do return f (← get).memory.heap

/-- Does something to the world and gives the result. -/
def perform (e : Event ρ) : Eval ρ η (Value ρ) := do
  let s ← get
  set { s with memory := w.after s.memory e }
  return w.result s.memory.heap e

mutual

/-- Evaluates an expression. -/
def eval : Expr → Eval ρ η (Value ρ)
  | .lit l => pure (w.literal l)
  | .var v => do return (← get).vars v
  | .field o f => do
    let o ← eval o
    look fun h => w.field h f o
  | .staticField f => look fun h => w.static h f
  | .arrayElement a i _ => do
    let a ← eval a
    let i ← eval i
    look fun h => w.element h a i
  | .arrayLength a => do
    let a ← eval a
    look fun h => .int (w.length h a)
  | .unary .neg e _ => w.neg <$> eval e
  | .unary .not e _ => (fun v => .ofBool (!v.truth)) <$> eval e
  | .binary .condAnd a b _ => do
    let v ← eval a
    if v.truth then (fun v => .ofBool v.truth) <$> eval b else pure (.ofBool false)
  | .binary .condOr a b _ => do
    let v ← eval a
    if v.truth then pure (.ofBool true) else (fun v => .ofBool v.truth) <$> eval b
  | .binary op a b _ => do
    let v ← eval a
    let v' ← eval b
    w.give (op.arith?.bind fun op => w.arith op v v')
  | .compare op a b => do
    let v ← eval a
    let v' ← eval b
    pure (.ofBool (op.decides (w.order v v')))
  | .threeWay kind a b => do
    let v ← eval a
    let v' ← eval b
    w.give (w.threeWay kind v v')
  | .cast t e => (fun v => if t.isPrimitive then w.convert t v else v) <$> eval e
  | .instanceOf e t => (fun v => .ofBool (w.isInstance t v)) <$> eval e
  | .call kind r m args => do
    let r ← eval r
    let args ← evalList args
    w.perform (.call kind m (some r) args)
  | .staticCall kind m args => do
    let args ← evalList args
    w.perform (.call kind m none args)
  | .newArray t dims => do
    let dims ← evalList dims
    look fun h => .ref (w.newArray h t dims)
  | .assign (.var v) e => do
    let x ← eval e
    modify (·.put v x)
    return x
  | .assign (.field o f) e => do
    let o ← eval o
    let x ← eval e
    let _ ← w.perform (.putField o f x)
    return x
  | .assign (.staticField f) e => do
    let x ← eval e
    let _ ← w.perform (.putStatic f x)
    return x
  | .assign (.arrayElement a i _) e => do
    let a ← eval a
    let i ← eval i
    let x ← eval e
    let _ ← w.perform (.putElement a i x)
    return x
  | .paren e => eval e
  | .assign _ _ | .this | .super | .outerThis _ | .alloc _ | .construct .. | .new .. => w.give none

/-- Evaluates expressions one after another. -/
def evalList : List Expr → Eval ρ η (List (Value ρ))
  | [] => pure []
  | e :: es => do
    let v ← eval e
    let vs ← evalList es
    pure (v :: vs)

end

/-- The meaning of expressions in a world. -/
def semantics : Semantics (Store ρ η) (Value ρ) where
  eval := w.eval
  truth := Value.truth
  ofBool := Value.ofBool
  order := w.order
  isNaN := w.isNaN
  truth_ofBool := Value.truth_ofBool
  isNaN_of_unordered := w.isNaN_of_unordered
  eval_boolean _ := by simp only [eval, literal]
  eval_paren _ := by simp only [eval]
  eval_not _ _ := by simp only [eval]
  eval_condAnd _ _ _ := by simp only [eval]
  eval_condOr _ _ _ := by simp only [eval]
  eval_compare _ _ _ := by simp only [eval]

end World

end ByteLift
