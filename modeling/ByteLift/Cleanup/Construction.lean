import ByteLift.Stmt.Rewrite
import ByteLift.Stmt.Uses

/-!
# Construction of objects

Bytecode allocates an object, evaluates the arguments and then calls the constructor. Here the
allocation is fused with the call: `t = alloc T; …; t.<init>(args)` becomes `…; t = new T(args)`, if
nothing in between mentions `t`. A new object that is only copied on to another variable is then
assigned to that variable directly.
-/

namespace ByteLift.Cleanup

/-- The variable that an allocated object is stored in, and the object's class. -/
def allocation? (s : Stmt) : Option (Var × String) :=
  match s.assignment? with
  | some (v, .alloc cls) => some (v, cls)
  | _ => none

/-- The call of a constructor, with the statements before and behind it. -/
structure ConstructorSite where
  before : Block
  method : MethodRef
  args : List Expr
  behind : Block

/-- The constructor that a statement calls on the object in a variable, with the arguments. -/
def constructorCall? (v : Var) : Stmt → Option (MethodRef × List Expr)
  | .expr (.construct (.var w) method args) => if w = v then some (method, args) else none
  | _ => none

/-- The call of the constructor of the object in a variable: the first statement that mentions the
variable, if it calls one of the right class with arguments that do not read the variable. -/
def constructorSite? (v : Var) (cls : String) : Block → Option ConstructorSite
  | [] => none
  | s :: ss =>
    match constructorCall? v s with
    | some (method, args) =>
      if !args.any (·.reads v) && method.owner = cls then some ⟨[], method, args, ss⟩ else none
    | none =>
      if s.mentions v then none
      else (constructorSite? v cls ss).map fun site => { site with before := s :: site.before }

theorem length_constructorSite? {v : Var} {cls : String} {b : Block} {site : ConstructorSite}
    (h : constructorSite? v cls b = some site) :
    site.before.length + site.behind.length < b.length := by
  induction b generalizing site with
  | nil => simp [constructorSite?] at h
  | cons s ss ih =>
    rw [constructorSite?] at h
    split at h
    · split at h
      · cases h
        simp
      · cases h
    · split at h
      · cases h
      · obtain ⟨later, hlater, rfl⟩ := Option.map_eq_some_iff.1 h
        have := ih hlater
        simp only [List.length_cons]
        omega

/-- Fuses the allocations of a block with the calls of their constructors. -/
def fuseHere : Block → Tracked Block
  | [] => pure []
  | s :: ss =>
    match allocation? s with
    | none => do return s :: (← fuseHere ss)
    | some (v, cls) =>
      match _h : constructorSite? v cls ss with
      | none => do return s :: (← fuseHere ss)
      | some site => do
        let rest ← fuseHere
          (site.before ++ s.withValue (.new site.method site.args) :: site.behind)
        .mark rest
termination_by b => b.length
decreasing_by
  · simp
  · simp
  · have := length_constructorSite? ‹_›
    simp only [List.length_append, List.length_cons]
    omega

/-- Whether a statement makes a new object for a variable that the next statement copies on, and
that is used for nothing else in the method, whose uses are given. -/
def forwardable (uses : List Use) (s t : Stmt) : Bool :=
  match s.assignment?, t.assignment? with
  | some (v, .new _ _), some (target, .var source) =>
    source = v && target ≠ v && uses.count (.read v) = 1 && uses.count (.write v) = 1
  | _, _ => false

/-- The value that a statement assigns. -/
def assigned (s : Stmt) : Expr := (s.assignment?.map Prod.snd).getD .null

/-- Assigns the new objects of a block to the variables that they are copied on to. -/
def forwardHere (uses : List Use) : Block → Tracked Block
  | s :: t :: ss =>
    if forwardable uses s t then do
      let rest ← forwardHere uses ss
      .mark (t.withValue (assigned s) :: rest)
    else do return s :: (← forwardHere uses (t :: ss))
  | b => pure b

/-- Fuses allocations with constructors, then forwards new objects. -/
def construct (b : Block) : Tracked Block := do
  let b ← b.rewrite fuseHere
  b.rewrite (forwardHere (Block.uses b))

end ByteLift.Cleanup
