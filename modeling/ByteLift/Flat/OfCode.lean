import ByteLift.Flat.Step

/-!
# Flat code

Lifting a whole method: its instructions are run in the order in which they stand, whatever order
control takes, and the ones that control never reaches are left out. A label stands before each
instruction that some jump names. The result is a block of expression statements, labels, gotos and
exits.
-/

namespace ByteLift

namespace Lift

/-- Runs instructions, each with a note of whether control reaches it. `runsOn` says that control
comes to the first one from the one before it, or that the method starts there. -/
def run (env : Env) (runsOn : Bool) : List (Addressed × Bool) → Lift Unit
  | [] => return ()
  | (i, reached) :: rest => do
    if reached then
      modify fun m => { m with address := i.address }
      if let some label := env.flow.label? i.address then enterLabel env label runsOn
      step env i.instruction
    run env (reached && !i.instruction.endsFlow) rest

end Lift

/-- Variables that only ever held `null` are objects. -/
def VarTable.finish (t : VarTable) : VarTable :=
  ⟨t.decls.map fun d => if d.ty = .null then { d with ty := .object } else d⟩

/-- A lifted method. -/
structure FlatCode where
  block : Block
  vars : VarTable
  labels : LabelTable

/-- What is known of a method whose code is to be lifted, apart from the flow of its code. -/
structure Context where
  cls : ClassDef
  isStatic : Bool
  returnType : Ty
  params : List Var
  field : MemberRef → Bool → FieldRef
  method : MemberRef → Bool → MethodRef

/-- What is known of a method while its code is lifted. -/
def Context.env (ctx : Context) (code : Code) (flow : Flow) : Env :=
  { cls := ctx.cls, isStatic := ctx.isStatic, returnType := ctx.returnType, params := ctx.params,
    maxLocals := code.maxLocals, flow, field := ctx.field, method := ctx.method }

/-- Lifts a method's code. Locals, temporaries and a label per jump target are added to the tables.
Also gives the references to members that were looked up, in order, whether or not lifting
succeeds. -/
def FlatCode.ofCode (ctx : Context) (code : Code) (vars : VarTable) (labels : LabelTable) :
    Except Failure FlatCode × List Query :=
  match code.flow labels with
  | .error failure => (.error failure, [])
  | .ok (flow, labels) =>
    let env := ctx.env code flow
    match Lift.run env true (code.instructions.zip flow.reachable) (Machine.start env vars) with
    | .ok _ m => (.ok ⟨m.out, m.vars.finish, labels⟩, m.asked)
    | .error failure m => (.error failure, m.asked)

end ByteLift
