import ByteLift.Flat.OfCode

/-!
# What lifting knows of the class

While the code of a method is lifted, the class it belongs to is looked at for its name, its
superclass and its fields. Its methods are never looked at, so the code of one method is lifted in
the same way whatever the others are.
-/

namespace ByteLift

/-- The environment of a method in a class with other methods. -/
def Env.withMethods (env : Env) (methods : List MethodDef) : Env :=
  { env with cls := { env.cls with methods } }

variable (env : Env) (methods : List MethodDef)

theorem Env.typeOf_withMethods_apply (vars : VarTable) :
    ∀ e, (env.withMethods methods).typeOf vars e = env.typeOf vars e
  | .paren e => by
    simp only [typeOf]
    exact typeOf_withMethods_apply vars e
  | .lit _ | .var _ | .this | .super | .outerThis _ | .field .. | .staticField _ | .arrayElement ..
  | .arrayLength _ | .unary .. | .binary .. | .compare .. | .threeWay .. | .cast .. | .instanceOf ..
  | .call .. | .staticCall .. | .alloc _ | .construct .. | .new .. | .newArray .. | .assign .. => by
    simp only [typeOf, withMethods]

@[simp] theorem Env.typeOf_withMethods : (env.withMethods methods).typeOf = env.typeOf := by
  funext vars e
  exact env.typeOf_withMethods_apply methods vars e

namespace Lift

/-! ## The stack -/

@[simp] theorem newTemp_withMethods : newTemp (env.withMethods methods) = newTemp env := rfl

@[simp] theorem takeWords_withMethods : ∀ n, takeWords (env.withMethods methods) n = takeWords env n
  | 0 => rfl
  | 1 => by simp [takeWords]
  | n + 2 => by simp [takeWords, takeWords_withMethods n, takeWords_withMethods (n + 1)]

@[simp] theorem spill_withMethods : spill (env.withMethods methods) = spill env := by
  funext e
  simp [spill]

variable (es : List Expr) (label : Label) (slot : Nat)

@[simp] theorem spillImpure_withMethods :
    spillImpure (env.withMethods methods) es = spillImpure env es := by
  induction es with
  | nil => rfl
  | cons e es ih => simp [spillImpure, ih]

@[simp] theorem spillChosen_withMethods (chosen : Nat → Expr → Bool) (es : List Expr) :
    spillChosen (env.withMethods methods) chosen es = spillChosen env chosen es := by
  induction es with
  | nil => rfl
  | cons e es ih => simp [spillChosen, ih]

@[simp] theorem spillStack_withMethods : spillStack (env.withMethods methods) = spillStack env := by
  funext chosen
  simp [spillStack]

@[simp] theorem emit_withMethods : emit (env.withMethods methods) = emit env := by
  funext s writes effects
  simp [emit]

@[simp] theorem storeLocal_withMethods : storeLocal (env.withMethods methods) = storeLocal env := by
  funext kind slot
  simp [storeLocal]
  rfl

@[simp] theorem discard_withMethods : discard (env.withMethods methods) es = discard env es := by
  induction es with
  | nil => rfl
  | cons e es ih => simp [discard, ih]

@[simp] theorem duplicate_withMethods : duplicate (env.withMethods methods) = duplicate env := by
  funext group under
  simp [duplicate]

@[simp] theorem swap_withMethods : swap (env.withMethods methods) = swap env := by
  simp [swap]

/-! ## Passing control -/

@[simp] theorem mergeTemps_withMethods (ts : List Ty) :
    mergeTemps (env.withMethods methods) label slot ts = mergeTemps env label slot ts := by
  induction ts generalizing slot with
  | nil => rfl
  | cons t ts ih =>
    simp only [mergeTemps, ih]
    rfl

@[simp] theorem checkShape_withMethods (pairs : List (Ty × Ty)) :
    checkShape (env.withMethods methods) label slot pairs = checkShape env label slot pairs := by
  induction pairs generalizing slot with
  | nil => rfl
  | cons pair pairs ih =>
    simp only [checkShape, ih]
    rfl

@[simp] theorem joinShape_withMethods : joinShape (env.withMethods methods) = joinShape env := by
  funext label shape
  simp [joinShape]

@[simp] theorem flowTo_withMethods : flowTo (env.withMethods methods) = flowTo env := by
  funext label
  simp [flowTo]

@[simp] theorem enterLabel_withMethods : enterLabel (env.withMethods methods) = enterLabel env := by
  funext label runsOn
  simp [enterLabel]

@[simp] theorem goto_withMethods : goto (env.withMethods methods) = goto env := by
  funext target
  simp only [goto, flowTo_withMethods]
  rfl

@[simp] theorem branch_withMethods : branch (env.withMethods methods) = branch env := by
  funext cond target
  simp only [branch, Env.typeOf_withMethods, spillStack_withMethods, flowTo_withMethods]
  rfl

@[simp] theorem cases_withMethods (key : Expr) (table : List (Int32 × Address)) :
    cases (env.withMethods methods) key table = cases env key table := by
  induction table with
  | nil => rfl
  | cons entry table ih =>
    simp only [cases, flowTo_withMethods, ih]
    rfl

@[simp] theorem switch_withMethods : switch (env.withMethods methods) = switch env := by
  funext table default
  simp [switch]

/-! ## Instructions -/

@[simp] theorem typeOf_withMethods : typeOf (env.withMethods methods) = typeOf env := by
  funext e
  simp [typeOf]

@[simp] theorem zeroCondition_withMethods :
    zeroCondition (env.withMethods methods) = zeroCondition env := by
  funext vars op e
  unfold zeroCondition
  split <;> simp

@[simp] theorem invoke_withMethods : invoke (env.withMethods methods) = invoke env := by
  funext kind m
  simp only [invoke, emit_withMethods]
  rfl

theorem step_withMethods (i : Instruction) : step (env.withMethods methods) i = step env i := by
  cases i with
  | putField | putStatic | getField | getStatic =>
    simp only [step, emit_withMethods]
    rfl
  | methodReturn kind => cases kind <;> rfl
  | _ => simp [step]

theorem run_withMethods (runsOn : Bool) (items : List (Addressed × Bool)) :
    run (env.withMethods methods) runsOn items = run env runsOn items := by
  induction items generalizing runsOn with
  | nil => rfl
  | cons item items ih =>
    simp only [run, step_withMethods, enterLabel_withMethods, ih]
    rfl

end Lift

/-- The code of a method is lifted in the same way in a class with other methods. -/
theorem FlatCode.ofCode_withMethods (ctx : Context) (methods : List MethodDef) (code : Code)
    (vars : VarTable) (labels : LabelTable) :
    FlatCode.ofCode { ctx with cls := { ctx.cls with methods } } code vars labels =
      FlatCode.ofCode ctx code vars labels := by
  unfold FlatCode.ofCode
  cases code.flow labels with
  | error failure => rfl
  | ok found =>
    have henv : ({ ctx with cls := { ctx.cls with methods } } : Context).env code found.1 =
        (ctx.env code found.1).withMethods methods := rfl
    simp only [henv, Lift.run_withMethods]
    rfl

end ByteLift
