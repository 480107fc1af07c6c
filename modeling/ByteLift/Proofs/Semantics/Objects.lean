import Mathlib.Algebra.GroupWithZero.Nat
import Mathlib.Order.Nat
import ByteLift.Proofs.Semantics.Nested
import ByteLift.Proofs.Semantics.Parts

/-!
# Objects that are allocated before they are constructed

An *object* is known by its class and a number. Allocating one takes the next number and is not
among the operations of a run; running its constructor is. An object that has been allocated and not
constructed is *raw*, and is only meant to be found in the variable that it was assigned to. To read
the variable other than as the receiver of a constructor is a *misreading*: it ends the run, and the
state says so.
-/

namespace ByteLift

variable {ν η : Type}

/-- An interpretation with an object for each class and number. -/
structure Objects (ν η : Type) extends Interpretation ν η where
  object : String → ℕ → ν

/-- A state with the number of the next object, the variables that hold raw objects, and whether one
of them has been misread. -/
structure Scene (ν η : Type) extends State ν η where
  next : ℕ
  raw : Var → Bool
  misread : Bool

namespace Expr

/-- Whether an expression is the allocation of an object. -/
def isAlloc : Expr → Bool
  | alloc _ => true
  | _ => false

/-- Whether an expression runs a constructor on the object in a variable. -/
def isConstructionOf (v : Var) : Expr → Bool
  | construct (var u) _ _ => u = v
  | _ => false

/-- The number of places in an expression where a constructor is run on the object in a variable. -/
def constructions (v : Var) (e : Expr) : ℕ := e.subexprs.countP (isConstructionOf v)

/-- Expressions that have to do with objects only through the values of their parts. -/
def isRegular : Expr → Bool
  | var _ | binary .condAnd .. | binary .condOr .. | assign (var _) _ | alloc _
  | construct (var _) _ _ | new _ _ =>
    false
  | _ => true

theorem subexprs_sublist_of_mem_children {d e : Expr} (h : d ∈ e.children) :
    d.subexprs.Sublist e.subexprs := by
  rw [subexprs_eq e]
  exact (List.sublist_flatten_of_mem (List.mem_map_of_mem h)).cons _

theorem constructions_le_of_mem_parts {d e : Expr} (h : d ∈ e.parts) (v : Var) :
    d.constructions v ≤ e.constructions v := by
  have hsublist : d.subexprs.Sublist e.subexprs := by
    unfold parts at h
    split at h
    · exact subexprs_sublist_of_mem_children (List.mem_cons_of_mem _ h)
    · rename_i t e _
      rcases List.mem_append.1 h with h | h
      · exact (subexprs_sublist_of_mem_children h).trans
          (subexprs_sublist_of_mem_children (by simp [children]))
      · exact subexprs_sublist_of_mem_children (List.mem_cons_of_mem _ h)
    · exact subexprs_sublist_of_mem_children h
  exact hsublist.countP_le

end Expr

namespace Scene

/-- A variable's value, and whether it is a raw object. -/
def cell (s : Scene ν η) (v : Var) : ν × Bool := (s.vars v, s.raw v)

/-- A scene with another value for one variable. -/
def store (s : Scene ν η) (v : Var) (x : ν) (raw : Bool) : Scene ν η :=
  { s with toState := s.put v x, raw := fun u => if u = v then raw else s.raw u }

/-- A scene in which the object in a variable is constructed. -/
def finished (s : Scene ν η) (v : Var) : Scene ν η := s.store v (s.vars v) false

@[simp] theorem cell_store_self (s : Scene ν η) (v : Var) (x : ν) (raw : Bool) :
    (s.store v x raw).cell v = (x, raw) := by
  simp [cell, store, State.put]

theorem cell_store_of_ne {u v : Var} (h : u ≠ v) (s : Scene ν η) (x : ν) (raw : Bool) :
    (s.store v x raw).cell u = s.cell u := by
  simp [cell, store, State.put, h]

/-- Runs a computation that has to do with nothing but variables, the heap and the operations
done. -/
def onState {α : Type} (x : EStateM ν (State ν η) α) : EStateM ν (Scene ν η) α := fun s =>
  match x s.toState with
  | .ok a t => .ok a { s with toState := t }
  | .error v t => .error v { s with toState := t }

@[simp] theorem onState_pure {α : Type} (a : α) :
    onState (pure a : EStateM ν (State ν η) α) = (pure a : EStateM ν (Scene ν η) α) := rfl

/-- Reads a variable. -/
def read (v : Var) : EStateM ν (Scene ν η) ν := fun s =>
  if s.raw v then .error (s.vars v) { s with misread := true } else .ok (s.vars v) s

/-- Reads a variable as the receiver of a constructor. -/
def peek (v : Var) : EStateM ν (Scene ν η) ν := fun s => .ok (s.vars v) s

end Scene

namespace Objects

open Scene

variable (O : Objects ν η)

/-- Takes the next object of a class. -/
def allocate (cls : String) : EStateM ν (Scene ν η) ν := fun s =>
  .ok (O.object cls s.next) { s with next := s.next + 1 }

/-- Runs a constructor on an object. -/
def initialise (m : MethodRef) (x : ν) (args : List ν) : EStateM ν (Scene ν η) ν :=
  onState (O.perform (.construct .this m []) (x :: args))

/-- Evaluates an expression. -/
def eval : Expr → EStateM ν (Scene ν η) ν
  | .var v => read v
  | .binary .condAnd a b _ => do
    let v ← eval a
    if O.truth v then (fun w => O.ofBool (O.truth w)) <$> eval b else pure (O.ofBool false)
  | .binary .condOr a b _ => do
    let v ← eval a
    if O.truth v then pure (O.ofBool true) else (fun w => O.ofBool (O.truth w)) <$> eval b
  | .assign (.var v) e => do
    let x ← eval e
    modify (·.store v x e.isAlloc)
    return x
  | .alloc cls => O.allocate cls
  | .construct (.var v) m args => do
    let x ← peek v
    let vs ← args.mapM eval
    let y ← O.initialise m x vs
    modify (·.finished v)
    return y
  | .new m args => do
    let x ← O.allocate m.owner
    let vs ← args.mapM eval
    let _ ← O.initialise m x vs
    return x
  | e => do
    let vs ← e.parts.attach.mapM fun d => eval d.1
    onState (O.finish e vs)
termination_by e => sizeOf e
decreasing_by
  all_goals apply Expr.sizeOf_lt_of_mem_parts
  any_goals (simp [Expr.parts, Expr.children, *]; done)
  exact Subtype.prop _

variable {O}

theorem eval_of_isRegular {e : Expr} (he : e.isRegular = true) :
    O.eval e = e.parts.mapM O.eval >>= fun vs => onState (O.finish e vs) := by
  have hattach : e.parts.attach.mapM (fun d => O.eval d.1) = e.parts.mapM O.eval := by simp
  cases e with
  | assign t e =>
    cases t with
    | var v => cases he
    | _ => rw [eval, hattach] <;> simp
  | binary op a b t =>
    cases op with
    | condAnd | condOr => cases he
    | _ => rw [eval, hattach] <;> simp
  | construct r m args =>
    cases r with
    | var v => cases he
    | _ => rw [eval, hattach] <;> simp
  | var | alloc | new => cases he
  | _ => rw [eval, hattach] <;> simp

variable (O) in
/-- The meaning of expressions where objects are allocated first and constructed later. -/
def semantics : Semantics (Scene ν η) ν where
  eval := O.eval
  truth := O.truth
  ofBool := O.ofBool
  order := O.order
  isNaN := O.isNaN
  truth_ofBool := O.truth_ofBool
  isNaN_of_unordered := O.isNaN_of_unordered
  eval_boolean _ := by
    rw [eval_of_isRegular rfl]; simp [Expr.parts, Expr.children, Interpretation.finish]
  eval_paren _ := by
    rw [eval_of_isRegular rfl]; simp [Expr.parts, Expr.children, Interpretation.finish]
  eval_not _ _ := by
    rw [eval_of_isRegular rfl]; simp [Expr.parts, Expr.children, Interpretation.finish]
  eval_condAnd _ _ _ := by rw [eval]
  eval_condOr _ _ _ := by rw [eval]
  eval_compare _ _ _ := by
    rw [eval_of_isRegular rfl]; simp [Expr.parts, Expr.children, Interpretation.finish]

end Objects

end ByteLift
