import ByteLift.Bytecode.Flow
import ByteLift.ClassFile
import ByteLift.Expr.Uses
import ByteLift.Stmt.Basic

/-!
# The machine that lifts code

Code is lifted by running it on a stack of expressions. An instruction that only computes builds a
larger expression; one that has an effect emits a statement. Before that, the entries that it could
disturb are *spilled*: their values are stored in fresh temporaries. An entry that may fail or have
an effect is spilled after all such entries below it, which keeps effects in order.

The stack has its top in front. The *slot* of an entry is the number of entries below it.
-/

namespace ByteLift

/-- A reference to a member that was looked up while lifting. -/
inductive Query
  | field (member : MemberRef) (isStatic : Bool)
  | method (member : MemberRef) (isStatic : Bool)
deriving DecidableEq, Inhabited

/-- What is known of a method while its code is lifted. -/
structure Env where
  cls : ClassDef
  isStatic : Bool
  returnType : Ty
  /-- The parameters in order, without `this`. -/
  params : List Var
  maxLocals : Nat
  flow : Flow
  /-- The field that a reference means. -/
  field : MemberRef → Bool → FieldRef
  /-- The method that a reference means. -/
  method : MemberRef → Bool → MethodRef

/-- The type of an expression inside the method's class. -/
def Env.typeOf (env : Env) (vars : VarTable) : Expr → Ty
  | .this => .ref env.cls.name
  | .super => .ref (env.cls.superName.getD Ty.objectClass)
  | .paren e => env.typeOf vars e
  | e => e.ty vars

/-- What a local slot holds. -/
inductive Local
  | this
  | var (v : Var)
deriving DecidableEq, Inhabited

/-- Enters a value under a key, in place of what was there. -/
def enter {κ α : Type} [DecidableEq κ] (key : κ) (a : α) (entries : List (κ × α)) : List (κ × α) :=
  (key, a) :: entries.filter fun e => e.1 ≠ key

/-- The value under a key. -/
def entered? {κ α : Type} [DecidableEq κ] (key : κ) (entries : List (κ × α)) : Option α :=
  (entries.find? fun e => e.1 = key).map Prod.snd

/-- The state of the machine. -/
structure Machine where
  vars : VarTable
  locals : List ((Nat × LocalKind) × Local)
  /-- The operand stack, its top in front. -/
  stack : List Expr
  /-- The statements emitted so far. -/
  out : Block
  /-- The types on the stack at each label that control has reached, from the bottom up. -/
  shapes : List (Label × List Ty)
  /-- The temporaries that hold the stack's entries at a label, by label and slot. -/
  merges : List ((Label × Nat) × Var)
  /-- The number of temporaries made so far. -/
  temps : Nat
  /-- The address of the instruction that is being run. -/
  address : Address
  /-- The references that were looked up, in order. -/
  asked : List Query

/-- A step of the machine, which may fail. -/
abbrev Lift := EStateM Failure Machine

namespace Machine

/-- The local slots at the start: `this`, then the parameters. -/
def paramLocals (vars : VarTable) : Nat → List Var → List ((Nat × LocalKind) × Local)
  | _, [] => []
  | slot, v :: rest =>
    ((slot, LocalKind.ofTy (vars.ty v)), .var v)
      :: paramLocals vars (slot + (vars.ty v).width) rest

/-- The machine before the first instruction. -/
def start (env : Env) (vars : VarTable) : Machine where
  vars := vars
  locals :=
    if env.isStatic then paramLocals vars 0 env.params
    else ((0, .reference), .this) :: paramLocals vars 1 env.params
  stack := []
  out := []
  shapes := []
  merges := []
  temps := 0
  address := 0
  asked := []

end Machine

namespace Lift

/-! ## The stack -/

/-- Puts a value on the stack. -/
def push (e : Expr) : Lift Unit := modify fun m => { m with stack := e :: m.stack }

/-- Fails with what is wrong with the stack. -/
def mismatch {α : Type} (detail : String) : Lift α := do
  throw (.stackMismatch (← get).address detail)

/-- Takes the top off the stack. -/
def pop : Lift Expr := do
  let m ← get
  match m.stack with
  | e :: rest =>
    set { m with stack := rest }
    return e
  | [] => throw (.stackUnderflow m.address)

/-- Takes `n` values off the stack, the topmost last. -/
def popMany : Nat → Lift (List Expr)
  | 0 => return []
  | n + 1 => do
    let e ← pop
    return (← popMany n) ++ [e]

/-- Takes the arguments of a call off the stack, as values of the parameters' types. -/
def popArgs : List Ty → Lift (List Expr)
  | [] => return []
  | t :: ts => do
    let later ← popArgs ts
    return (← pop).coerce t :: later

/-- Takes whole values off the stack that fill a number of words exactly, the topmost first. -/
def takeWords (env : Env) : Nat → Lift (List Expr)
  | 0 => return []
  | n + 1 => do
    let e ← pop
    if (env.typeOf (← get).vars e).isWide then
      match n with
      | 0 => mismatch "instruction splits a category-2 value"
      | n + 1 => return e :: (← takeWords env n)
    else return e :: (← takeWords env n)

/-! ## Variables -/

/-- Makes a fresh temporary. -/
def newTemp (env : Env) (ty : Ty) : Lift Var := do
  let m ← get
  let decl : VarDecl :=
    { ty, name := "var" ++ toString (env.maxLocals + m.temps), synthetic := true,
      parameter := false, isFinal := false, slot := none }
  set { m with vars := m.vars.push decl, temps := m.temps + 1 }
  return m.vars.next

/-- The value of a local. -/
def loadLocal (slot : Nat) (kind : LocalKind) : Lift Expr := do
  let m ← get
  match entered? (slot, kind) m.locals with
  | some .this => return .this
  | some (.var v) => return .var v
  | none => throw (.localReadBeforeStore m.address slot kind)

/-- The type of a local that first gets a value of the given type. -/
def localTy (kind : LocalKind) (valueTy : Ty) : Ty :=
  match kind with
  | .int => if valueTy.isIntLike then valueTy else .int
  | .long => .long
  | .float => .float
  | .double => .double
  | .reference => valueTy.orObject

/-- The variable that stores to a local write. It is made at the first store; one that only ever
held `null` takes the type of the first other reference. -/
def localForStore (slot : Nat) (kind : LocalKind) (valueTy : Ty) : Lift Var := do
  let m ← get
  match entered? (slot, kind) m.locals with
  | some (.var v) =>
    if m.vars.ty v = .null && valueTy.isReference then
      set { m with vars := m.vars.setTy v valueTy }
    return v
  | _ =>
    let decl : VarDecl :=
      { ty := localTy kind valueTy, name := "var" ++ toString slot, synthetic := false,
        parameter := false, isFinal := false, slot := some slot }
    let v := m.vars.next
    set { m with vars := m.vars.push decl, locals := enter (slot, kind) (.var v) m.locals }
    return v

/-! ## Emitting statements -/

/-- Puts statements behind those emitted so far. -/
def append (ss : Block) : Lift Unit := modify fun m => { m with out := m.out ++ ss }

/-- Stores a value in a fresh temporary and gives the temporary. -/
def spill (env : Env) (e : Expr) : Lift Expr := do
  let v ← newTemp env (env.typeOf (← get).vars e).orObject
  append [.set v e]
  return .var v

/-- Spills the entries of a stack that are not pure, from the bottom up. -/
def spillImpure (env : Env) : List Expr → Lift (List Expr)
  | [] => return []
  | e :: below => do
    let below ← spillImpure env below
    if e.isPure then return e :: below else return (← spill env e) :: below

/-- Spills the entries of a stack that are chosen by slot and value, from the bottom up. Before an
entry that is not pure, all such entries below it are spilled as well. -/
def spillChosen (env : Env) (chosen : Nat → Expr → Bool) : List Expr → Lift (List Expr)
  | [] => return []
  | e :: below => do
    let kept ← spillChosen env chosen below
    if chosen below.length e then
      let kept ← if e.isPure then pure kept else spillImpure env kept
      return (← spill env e) :: kept
    else return e :: kept

/-- Spills the chosen entries of the machine's stack. -/
def spillStack (env : Env) (chosen : Nat → Expr → Bool) : Lift Unit := do
  let stack ← spillChosen env chosen (← get).stack
  modify fun m => { m with stack }

/-- Emits a statement, after spilling the entries that it could disturb: those that read the
variable it writes, and, if it has effects, those that are not pure. -/
def emit (env : Env) (s : Stmt) (writes : Option Var) (effects : Bool) : Lift Unit := do
  spillStack env fun _ e => writes.any (e.reads ·) || (effects && !e.isPure)
  append [s]

/-- Stores the top of the stack in a local. A store to the slot of `this` ends its being `this`,
and each such store makes a variable of its own. -/
def storeLocal (env : Env) (kind : LocalKind) (slot : Nat) : Lift Unit := do
  let value ← pop
  let valueTy := env.typeOf (← get).vars value
  if kind = .reference && slot = 0 && !env.isStatic then
    modify fun m => { m with locals := m.locals.filter fun e => e.1 ≠ (0, .reference) }
  let v ← localForStore slot kind valueTy
  let stored := value.coerce ((← get).vars.ty v)
  emit env (.set v stored) (some v) (!value.isPure)

end Lift

end ByteLift
