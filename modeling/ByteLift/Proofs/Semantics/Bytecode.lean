import ByteLift.Flat.OfCode
import ByteLift.Proofs.Semantics.Nested
import ByteLift.Proofs.Semantics.Steps
import ByteLift.Proofs.Semantics.World

/-!
# Running code on a stack machine

A frame holds an operand stack and local slots; a slot keeps one value of each kind. Every
instruction checks that its operands, and what it gets from the world, are of the kinds it expects.
If not, the machine is *stuck*: the code is not type-correct. Positions in the code stand for
addresses.
-/

namespace ByteLift

variable {ρ η : Type}

/-- The state of a method that runs. -/
structure Frame (ρ η : Type) where
  /-- The position of the next instruction. -/
  pc : Nat
  /-- The operand stack, its top in front. -/
  stack : List (Value ρ)
  locals : Nat × LocalKind → Option (Value ρ)
  memory : Memory ρ η

namespace Frame

/-- Takes whole values off a stack that fill a number of words exactly, the topmost first. Also
gives the rest of the stack. -/
def takeWords : Nat → List (Value ρ) → Option (List (Value ρ) × List (Value ρ))
  | 0, st => some ([], st)
  | _ + 1, [] => none
  | n + 1, v :: st =>
    if v.isWide then
      match n with
      | 0 => none
      | n + 1 => (takeWords n st).map fun (vs, st) => (v :: vs, st)
    else (takeWords n st).map fun (vs, st) => (v :: vs, st)

/-- Repeats the top `group` words below the `under` words beneath them. -/
def duplicate (group under : Nat) (st : List (Value ρ)) : Option (List (Value ρ)) := do
  let (top, st) ← takeWords group st
  let (below, st) ← takeWords under st
  some (top ++ below ++ top ++ st)

/-- Takes the arguments of a call off a stack. -/
def takeArgs (params : List Ty) (st : List (Value ρ)) : Option (List (Value ρ) × List (Value ρ)) :=
  let args := (st.take params.length).reverse
  if args.map Value.kind = params.map LocalKind.ofTy then
    some (args, st.drop params.length) else none

/-- Takes the object that a method is called on off a stack, if there is one. -/
def takeReceiver (kind : InvokeKind) (st : List (Value ρ)) :
    Option (Option (Value ρ) × List (Value ρ)) :=
  if kind = .static then some (none, st)
  else
    match st with
    | .ref o :: st => some (some (.ref o), st)
    | _ => none

/-- The locals at the start of a static method: its arguments, each in as many slots as it has
words. -/
def argLocals : Nat → List (Value ρ) → Nat × LocalKind → Option (Value ρ)
  | _, [] => fun _ => none
  | slot, v :: vs => fun key =>
    if key = (slot, v.kind) then some v
    else argLocals (slot + if v.isWide then 2 else 1) vs key

/-- The frame at the start of a static method. -/
def start (args : List (Value ρ)) (memory : Memory ρ η) : Frame ρ η :=
  ⟨0, [], argLocals 0 args, memory⟩

end Frame

namespace World

variable [DecidableEq ρ] (w : World ρ η) (ctx : Context)

/-- Puts a value on a stack if it is of the kind that is wanted. -/
def expect (kind : LocalKind) (v : Value ρ) (st : List (Value ρ)) (m : Memory ρ η) :
    Option (List (Value ρ) × Memory ρ η) :=
  if v.kind = kind then some (v :: st, m) else none

/-- Calls a method. -/
def invoke (kind : InvokeKind) (r : MemberRef) (st : List (Value ρ)) (m : Memory ρ η) :
    Option (List (Value ρ) × Memory ρ η) := do
  let (params, result) ← Ty.parseMethod? r.descriptor
  let (args, st) ← Frame.takeArgs params st
  let (receiver, st) ← Frame.takeReceiver kind st
  let e : Event ρ := .call kind (ctx.method r (kind = .static)) receiver args
  if result = .void then some (st, w.after m e)
  else expect (.ofTy result) (w.result m.heap e) st (w.after m e)

/-- What an instruction does that neither uses locals nor passes control. -/
def compute (i : Instruction) (st : List (Value ρ)) (m : Memory ρ η) :
    Option (List (Value ρ) × Memory ρ η) :=
  match i with
  | .nop => some (st, m)
  | .aconstNull => some (.ref w.null :: st, m)
  | .iconst v => some (.int v :: st, m)
  | .lconst v => some (.long v :: st, m)
  | .fconst bits => some (.float bits :: st, m)
  | .dconst bits => some (.double bits :: st, m)
  | .ldc c => some (w.constant c :: st, m)
  | .arrayLoad kind =>
    match st with
    | .int i :: .ref a :: st => expect kind.kind (w.element m.heap (.ref a) (.int i)) st m
    | _ => none
  | .arrayStore kind =>
    match st with
    | v :: .int i :: .ref a :: st =>
      if v.kind = kind.kind then some (st, w.after m (.putElement (.ref a) (.int i) v)) else none
    | _ => none
  | .arrayLength =>
    match st with
    | .ref a :: st => some (.int (w.length m.heap (.ref a)) :: st, m)
    | _ => none
  | .newArray code =>
    match st with
    | .int n :: st => some (.ref (w.newArray m.heap (.array (.ofArrayCode code)) [.int n]) :: st, m)
    | _ => none
  | .anewArray element =>
    match st with
    | .int n :: st =>
      some (.ref (w.newArray m.heap (.array (.ofClassOperand element)) [.int n]) :: st, m)
    | _ => none
  | .multiNewArray descriptor dimensions =>
    match Ty.parse? descriptor, Frame.takeArgs (List.replicate dimensions .int) st with
    | some (.array t), some (dims, st) => some (.ref (w.newArray m.heap (.array t) dims) :: st, m)
    | _, _ => none
  | .pop => (Frame.takeWords 1 st).map fun taken => (taken.2, m)
  | .pop2 => (Frame.takeWords 2 st).map fun taken => (taken.2, m)
  | .dup => (Frame.duplicate 1 0 st).map (·, m)
  | .dupX1 => (Frame.duplicate 1 1 st).map (·, m)
  | .dupX2 => (Frame.duplicate 1 2 st).map (·, m)
  | .dup2 => (Frame.duplicate 2 0 st).map (·, m)
  | .dup2X1 => (Frame.duplicate 2 1 st).map (·, m)
  | .dup2X2 => (Frame.duplicate 2 2 st).map (·, m)
  | .swap =>
    match Frame.takeWords 2 st with
    | some ([b, a], st) => some (a :: b :: st, m)
    | _ => none
  | .arith op kind =>
    match st with
    | b :: a :: st =>
      if a.kind = kind.kind then (w.arith op a b).map fun v => (v :: st, m) else none
    | _ => none
  | .neg kind =>
    match st with
    | a :: st => if a.kind = kind.kind then some (w.neg a :: st, m) else none
    | _ => none
  | .convert c =>
    match st with
    | a :: st =>
      if a.kind = c.source then expect (.ofTy c.target) (w.convert c.target a) st m else none
    | _ => none
  | .compare kind =>
    match st with
    | b :: a :: st => (w.threeWay kind a b).map fun v => (v :: st, m)
    | _ => none
  | .getField r =>
    match Ty.parse? r.descriptor, st with
    | some t, .ref o :: st => expect (.ofTy t) (w.field m.heap (ctx.field r false) (.ref o)) st m
    | _, _ => none
  | .putField r =>
    match Ty.parse? r.descriptor, st with
    | some t, v :: .ref o :: st =>
      if v.kind = .ofTy t then some (st, w.after m (.putField (.ref o) (ctx.field r false) v))
      else none
    | _, _ => none
  | .getStatic r =>
    match Ty.parse? r.descriptor with
    | some t => expect (.ofTy t) (w.static m.heap (ctx.field r true)) st m
    | none => none
  | .putStatic r =>
    match Ty.parse? r.descriptor, st with
    | some t, v :: st =>
      if v.kind = .ofTy t then some (st, w.after m (.putStatic (ctx.field r true) v)) else none
    | _, _ => none
  | .invoke kind r => w.invoke ctx kind r st m
  | .checkCast _ =>
    match st with
    | .ref o :: st => some (.ref o :: st, m)
    | _ => none
  | .instanceOf operand =>
    match st with
    | .ref o :: st => some (.ofBool (w.isInstance (.ofClassOperand operand) (.ref o)) :: st, m)
    | _ => none
  | _ => none

/-- What a step comes to. A machine that is stuck gives no result. -/
abbrev FrameStep (ρ η : Type) := Step (Frame ρ η) (Option (Exit (Value ρ) × Memory ρ η))

variable (code : Code)

/-- Goes on at an address, with the stack given. -/
def jump (f : Frame ρ η) (target : Address) (st : List (Value ρ)) : FrameStep ρ η :=
  match code.indexOf? target with
  | some pos => .on { f with pc := pos, stack := st }
  | none => .stop none

/-- Goes on at an address or with the next instruction, with the stack given. -/
def branch (f : Frame ρ η) (holds : Bool) (target : Address) (st : List (Value ρ)) :
    FrameStep ρ η :=
  if holds then jump code f target st else .on { f with pc := f.pc + 1, stack := st }

/-- Runs one instruction. -/
def exec (f : Frame ρ η) (i : Instruction) : FrameStep ρ η :=
  match i with
  | .load kind slot =>
    match f.locals (slot, kind) with
    | some v => .on { f with pc := f.pc + 1, stack := v :: f.stack }
    | none => .stop none
  | .store kind slot =>
    match f.stack with
    | v :: st =>
      if v.kind = kind then
        .on { f with
          pc := f.pc + 1, stack := st
          locals := fun key => if key = (slot, kind) then some v else f.locals key }
      else .stop none
    | [] => .stop none
  | .iinc slot amount =>
    match f.locals (slot, .int) with
    | some (.int v) =>
      .on { f with
        pc := f.pc + 1
        locals := fun key =>
          if key = (slot, .int) then some (.int (v + amount.toInt32)) else f.locals key }
    | _ => .stop none
  | .ifZero op target =>
    match f.stack with
    | .int a :: st => branch code f (op.holds (compare a 0)) target st
    | _ => .stop none
  | .ifInt op target =>
    match f.stack with
    | .int b :: .int a :: st => branch code f (op.holds (compare a b)) target st
    | _ => .stop none
  | .ifRef op target =>
    match f.stack with
    | .ref b :: .ref a :: st => branch code f (op.holds (if a = b then .eq else .lt)) target st
    | _ => .stop none
  | .ifNull target =>
    match f.stack with
    | .ref a :: st => branch code f (a = w.null) target st
    | _ => .stop none
  | .ifNonNull target =>
    match f.stack with
    | .ref a :: st => branch code f (a ≠ w.null) target st
    | _ => .stop none
  | .goto target => jump code f target f.stack
  | .tableSwitch default low targets =>
    match f.stack with
    | .int key :: st => jump code f (targets[(key - low).toUInt32.toNat]?.getD default) st
    | _ => .stop none
  | .lookupSwitch default pairs =>
    match f.stack with
    | .int key :: st => jump code f (((pairs.find? (·.1 = key)).map Prod.snd).getD default) st
    | _ => .stop none
  | .methodReturn none => .stop (some (.returned none, f.memory))
  | .methodReturn (some kind) =>
    match f.stack with
    | v :: _ => if v.kind = kind then .stop (some (.returned (some v), f.memory)) else .stop none
    | [] => .stop none
  | .athrow =>
    match f.stack with
    | .ref r :: _ => .stop (some (.thrown (.ref r), f.memory))
    | _ => .stop none
  | i =>
    match w.compute ctx i f.stack f.memory with
    | some (st, memory) => .on { f with pc := f.pc + 1, stack := st, memory }
    | none => .stop none

/-- Runs the instruction at the position of a frame. -/
def step (f : Frame ρ η) : FrameStep ρ η :=
  match code.instructions[f.pc]? with
  | some i => w.exec ctx code f i.instruction
  | none => .stop none

/-- Runs code for at most `n` steps. -/
def run (n : Nat) (f : Frame ρ η) : Option (Option (Exit (Value ρ) × Memory ρ η)) :=
  runFor (w.step ctx code) n f

end World

end ByteLift
