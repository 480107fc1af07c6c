import ByteLift.Expr.Uses
import ByteLift.Proofs.Semantics.Condition

/-!
# Interpretations

An *interpretation* is a semantics over states that hold the values of variables and a heap. Beyond
conditions and variables all is an *operation*, told by the expression without its operands. It gets
the values of these, changes the heap in any way, and gives or throws any value.

A state also lists the operations done so far, so two runs that end in the same state did the same
things in the same order. So do runs that go on forever, since an operation may throw when the heap
says that it is the one after so many others.
-/

namespace ByteLift

/-- An expression with `this` in place of its operands. -/
def Expr.head : Expr → Expr
  | field _ f => field this f
  | arrayElement _ _ t => arrayElement this this t
  | arrayLength _ => arrayLength this
  | unary op _ t => unary op this t
  | binary op _ _ t => binary op this this t
  | compare op _ _ => compare op this this
  | threeWay k _ _ => threeWay k this this
  | cast t _ => cast t this
  | instanceOf _ t => instanceOf this t
  | call k _ m _ => call k this m []
  | staticCall k m _ => staticCall k m []
  | construct _ m _ => construct this m []
  | new m _ => new m []
  | newArray t _ => newArray t []
  | assign _ _ => assign this this
  | paren _ => paren this
  | lit l => lit l
  | var v => var v
  | this => this
  | super => super
  | outerThis c => outerThis c
  | staticField f => staticField f
  | alloc c => alloc c

/-- The values of variables, a heap, and the operations done so far, each with its operands. -/
structure State (ν η : Type) where
  vars : Var → ν
  heap : η
  done : List (Expr × List ν)

/-- A state with another value for one variable. -/
def State.put {ν η : Type} (s : State ν η) (v : Var) (x : ν) : State ν η :=
  { s with vars := fun u => if u = v then x else s.vars u }

@[simp] theorem State.put_self {ν η : Type} (s : State ν η) (v : Var) (x : ν) :
    (s.put v x).vars v = x := if_pos rfl

theorem State.put_of_ne {ν η : Type} {s : State ν η} {u v : Var} (x : ν) (h : u ≠ v) :
    (s.put v x).vars u = s.vars u := if_neg h

/-- What operations do, over values `ν` and heaps `η`. -/
structure Interpretation (ν η : Type) where
  truth : ν → Bool
  ofBool : Bool → ν
  order : ν → ν → Option Ordering
  isNaN : ν → Bool
  truth_ofBool : ∀ b, truth (ofBool b) = b
  isNaN_of_unordered : ∀ v w, order v w = none → isNaN v = true ∨ isNaN w = true
  /-- Does an operation, given by an expression without its operands, with values. -/
  operate : Expr → List ν → EStateM ν η ν

namespace Interpretation

variable {ν η : Type} (I : Interpretation ν η)

/-- Does an operation and takes note of it. -/
def perform (op : Expr) (operands : List ν) : EStateM ν (State ν η) ν := fun s =>
  match I.operate op operands s.heap with
  | .ok v h => .ok v { s with heap := h, done := s.done ++ [(op, operands)] }
  | .error v h => .error v { s with heap := h, done := s.done ++ [(op, operands)] }

mutual

/-- Evaluates an expression. A target of an assignment that is not a variable is an operation: its
operands are evaluated before the value that is stored. -/
def eval : Expr → EStateM ν (State ν η) ν
  | .var v => do return (← get).vars v
  | .lit (.boolean b) => pure (I.ofBool b)
  | .paren e => eval e
  | .unary .not e _ => (fun v => I.ofBool (!I.truth v)) <$> eval e
  | .binary .condAnd a b _ => do
    let v ← eval a
    if I.truth v then (fun w => I.ofBool (I.truth w)) <$> eval b else pure (I.ofBool false)
  | .binary .condOr a b _ => do
    let v ← eval a
    if I.truth v then pure (I.ofBool true) else (fun w => I.ofBool (I.truth w)) <$> eval b
  | .compare op a b => do
    let v ← eval a
    let w ← eval b
    pure (I.ofBool (op.decides (I.order v w)))
  | .assign (.var v) e => do
    let x ← eval e
    modify (·.put v x)
    return x
  | .assign t e => do
    let vs ← operands t
    let x ← eval e
    I.perform (.assign t.head .this) (vs ++ [x])
  | e@(.field o _) | e@(.arrayLength o) | e@(.unary .neg o _) | e@(.cast _ o)
  | e@(.instanceOf o _) => do
    let v ← eval o
    I.perform e.head [v]
  | e@(.arrayElement a b _) | e@(.binary _ a b _) | e@(.threeWay _ a b) => do
    let v ← eval a
    let w ← eval b
    I.perform e.head [v, w]
  | e@(.call _ r _ args) | e@(.construct r _ args) => do
    let v ← eval r
    let vs ← evalList args
    I.perform e.head (v :: vs)
  | e@(.staticCall _ _ args) | e@(.new _ args) | e@(.newArray _ args) => do
    let vs ← evalList args
    I.perform e.head vs
  | e@(.lit _) | e@.this | e@.super | e@(.outerThis _) | e@(.staticField _) | e@(.alloc _) =>
    I.perform e.head []

/-- Evaluates the operands of an expression. -/
def operands : Expr → EStateM ν (State ν η) (List ν)
  | .lit _ | .var _ | .this | .super | .outerThis _ | .staticField _ | .alloc _ => pure []
  | .field e _ | .arrayLength e | .paren e | .unary _ e _ | .cast _ e | .instanceOf e _ => do
    let v ← eval e
    pure [v]
  | .arrayElement a b _ | .binary _ a b _ | .compare _ a b | .threeWay _ a b | .assign a b => do
    let v ← eval a
    let w ← eval b
    pure [v, w]
  | .call _ r _ args | .construct r _ args => do
    let v ← eval r
    let vs ← evalList args
    pure (v :: vs)
  | .staticCall _ _ args | .new _ args | .newArray _ args => evalList args

/-- Evaluates expressions one after another. -/
def evalList : List Expr → EStateM ν (State ν η) (List ν)
  | [] => pure []
  | e :: es => do
    let v ← eval e
    let vs ← evalList es
    pure (v :: vs)

end

/-- The meaning of expressions under an interpretation. -/
def semantics : Semantics (State ν η) ν where
  eval := I.eval
  truth := I.truth
  ofBool := I.ofBool
  order := I.order
  isNaN := I.isNaN
  truth_ofBool := I.truth_ofBool
  isNaN_of_unordered := I.isNaN_of_unordered
  eval_boolean _ := by simp only [eval]
  eval_paren _ := by simp only [eval]
  eval_not _ _ := by simp only [eval]
  eval_condAnd _ _ _ := by simp only [eval]
  eval_condOr _ _ _ := by simp only [eval]
  eval_compare _ _ _ := by simp only [eval]

variable {I} {s t u : State ν η}

theorem eval_var (v : Var) (s : State ν η) : I.eval (.var v) s = .ok (s.vars v) s := by
  simp only [eval]
  rfl

theorem evalList_cons {e : Expr} {es : List Expr} {x : ν} {xs : List ν} (h : I.eval e s = .ok x t)
    (hs : I.evalList es t = .ok xs u) : I.evalList (e :: es) s = .ok (x :: xs) u := by
  rw [evalList, bind_of_ok h, bind_of_ok hs]
  rfl

end Interpretation

end ByteLift
