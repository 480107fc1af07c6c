import ByteLift.Expr.Condition
import ByteLift.Flat.Machine

/-!
# Passing control with values on the stack

Where paths of control join, they must agree on the stack. Each label has one *merge temporary* per
slot. A path that goes to the label stores its stack in them, as one parallel assignment, and behind
the label the stack reads them. The types on the stack are recorded the first time and checked after
that; only a slot that held `null` changes its type later.
-/

namespace ByteLift.Lift

/-- The merge temporary of a slot at a label, made when it is first needed. -/
def mergeTemp (env : Env) (label : Label) (slot : Nat) (ty : Ty) : Lift Var := do
  match entered? (label, slot) (← get).merges with
  | some v => return v
  | none =>
    let v ← newTemp env ty
    modify fun m => { m with merges := enter (label, slot) v m.merges }
    return v

/-- The merge temporaries of the slots from `slot` on, for values of the types given. -/
def mergeTemps (env : Env) (label : Label) (slot : Nat) : List Ty → Lift (List Var)
  | [] => return []
  | t :: ts => do
    let v ← mergeTemp env label slot t
    return v :: (← mergeTemps env label (slot + 1) ts)

/-- Gives a slot that held `null` at a label the type of a reference. -/
def refine (env : Env) (label : Label) (slot : Nat) (ty : Ty) : Lift Unit := do
  let v ← mergeTemp env label slot .null
  modify fun m =>
    let shape := (entered? label m.shapes).getD []
    { m with vars := m.vars.setTy v ty, shapes := enter label (shape.set slot ty) m.shapes }

/-- Checks the types on the stack, from `slot` up, against those recorded at a label. -/
def checkShape (env : Env) (label : Label) (slot : Nat) : List (Ty × Ty) → Lift Unit
  | [] => return ()
  | (found, want) :: rest => do
    if !found.joins want then
      let held := found.source false
      let expected := want.source false
      mismatch s!"slot {slot} holds {held} where {expected} was expected"
    if want = .null && found.isReference && found ≠ .null then
      refine env label slot found
    checkShape env label (slot + 1) rest

/-- Records the types on the stack at a label, or checks them against the record. -/
def joinShape (env : Env) (label : Label) (shape : List Ty) : Lift Unit := do
  match entered? label (← get).shapes with
  | some recorded =>
    let depth := shape.length
    let expected := recorded.length
    if recorded.length ≠ shape.length then
      mismatch s!"stack depth {depth} does not match depth {expected} at join point"
    checkShape env label 0 (shape.zip recorded)
  | none => modify fun m => { m with shapes := enter label shape m.shapes }

/-- The assignments that store a stack in temporaries, both from the bottom up. An entry that is
its temporary already needs none. -/
def moves (entries : List Expr) (temps : List Var) : Block :=
  (entries.zip temps).filterMap fun (e, t) => if e = .var t then none else some (.set t e)

/-- Whether an entry reads a temporary that is assigned before the entry is stored: one of a slot
below it that does not hold its temporary already. -/
def conflicts (entries : List Expr) (temps : List Var) (slot : Nat) (e : Expr) : Bool :=
  ((entries.zip temps).take slot).any fun (below, t) => below ≠ .var t && e.reads t

/-- Stores the stack in the merge temporaries of a label. -/
def flowTo (env : Env) (label : Label) : Lift Unit := do
  let m ← get
  let shape := m.stack.reverse.map (env.typeOf m.vars)
  joinShape env label shape
  let temps ← mergeTemps env label 0 shape
  let entries := (← get).stack.reverse
  spillStack env (conflicts entries temps)
  append (moves (← get).stack.reverse temps)

/-- The label of an address. -/
def labelFor (env : Env) (target : Address) : Lift Label := do
  match env.flow.label? target with
  | some l => return l
  | none => throw (.unknownJumpTarget (← get).address target)

/-- Starts the code behind a label. `runsOn` says that control also comes from the instruction
before it. -/
def enterLabel (env : Env) (label : Label) (runsOn : Bool) : Lift Unit := do
  if runsOn then flowTo env label
  else if !(← get).stack.isEmpty then
    mismatch "values left on the stack after an unconditional jump"
  append [.label label]
  let shape := (entered? label (← get).shapes).getD []
  modify fun m => { m with shapes := enter label shape m.shapes }
  let temps ← mergeTemps env label 0 shape
  modify fun m => { m with stack := (temps.map Expr.var).reverse }

/-- Passes control to an address. -/
def goto (env : Env) (target : Address) : Lift Unit := do
  let label ← labelFor env target
  flowTo env label
  append [.goto label none]
  modify fun m => { m with stack := [] }

/-- The stack with the merge temporaries of a label in place of the entries that have one. -/
def merged (merges : List ((Label × Nat) × Var)) (label : Label) : List Expr → List Expr
  | [] => []
  | e :: below =>
    (match entered? (label, below.length) merges with
      | some v => .var v
      | none => e) :: merged merges label below

/-- Passes control to an address if a condition holds. A condition that reads a merge temporary of
the label is stored before these are assigned, behind all entries of the stack. If control runs on,
the stack is in the merge temporaries. -/
def branch (env : Env) (cond : Expr) (target : Address) : Lift Unit := do
  let label ← labelFor env target
  let m ← get
  let readsMerge := m.merges.any fun e => e.1.1 = label && cond.reads e.2
  let cond ←
    if !m.stack.isEmpty && readsMerge then do
      spillStack env fun _ e => !e.isSimple
      let v ← newTemp env (env.typeOf (← get).vars cond)
      append [.set v cond]
      pure (Expr.var v)
    else pure cond
  flowTo env label
  append [.goto label (some cond)]
  modify fun m => { m with stack := merged m.merges label m.stack }

/-- Emits one conditional jump per case. -/
def cases (env : Env) (key : Expr) : List (Int32 × Address) → Lift Unit
  | [] => return ()
  | (value, target) :: rest => do
    let label ← labelFor env target
    flowTo env label
    append [.goto label (some (.compare .eq key (.int value)))]
    cases env key rest

/-- Passes control by the value on top of the stack: to the address of the first case with that
value, or else to the default. The key and the rest of the stack are evaluated first. -/
def switch (env : Env) (table : List (Int32 × Address)) (default : Address) : Lift Unit := do
  let key ← pop
  spillStack env fun _ e => !e.isSimple
  let key ← if key.isSimple then pure key else spill env key
  cases env key table
  goto env default

/-- The condition that a value compares with zero as `op` says. -/
def zeroCondition (env : Env) (vars : VarTable) (op : CompareOp) : Expr → Expr
  | .threeWay kind a b => .foldCompare kind op a b
  | e =>
    if env.typeOf vars e = .boolean then
      match op with
      | .eq => e.negate vars
      | .ne => e
      | op => .compare op e (.int 0)
    else .compare op e (.int 0)

end ByteLift.Lift
