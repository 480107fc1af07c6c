import ByteLift.Catalog
import ByteLift.Cleanup.Pipeline
import ByteLift.Flat.OfCode
import ByteLift.Nested.OfFlat
import ByteLift.Source.Enclosing
import ByteLift.Source.Imports
import ByteLift.Source.Names
import ByteLift.Source.Printer.Class
import ByteLift.Source.Shell

/-!
# From class files to source

The code of a method is lifted to flat code, nested and cleaned up, and its variables get unique
names. A method that fails keeps its bare declaration and a report. A unit is a class with the
classes nested in it. What a step looks up in the catalogue is remembered whether or not the step
succeeds.
-/

namespace ByteLift

/-- The settings of decompilation. -/
structure Options where
  style : Style := {}
  /-- Keep members that the compiler made up. -/
  includeSynthetic : Bool := false
  /-- Clean up nested code. -/
  cleanUp : Bool := true
  /-- The largest number of rounds of cleaning up. -/
  maxRounds : Nat := 16
  /-- Hide the instance of the class around in inner classes. -/
  encloseInner : Bool := true
  /-- The order in which the scopes of flat code are listed. -/
  order : ScopeOrder := Enumeration.ofTables

/-- The style that source is printed in. -/
def Options.printStyle (o : Options) : Style :=
  { o.style with includeSynthetic := o.includeSynthetic }

/-- A step that may fail and that uses a catalogue of classes. -/
abbrev Decompile := EStateM Failure Catalog

/-- Enters everything that was looked up while lifting. -/
def Catalog.replay (c : Catalog) (queries : List Query) : Catalog :=
  queries.foldl (fun c q => match q with
    | .field m isStatic => (c.field m isStatic).2
    | .method m isStatic => (c.method m isStatic).2) c

/-- Enters a class. -/
def Decompile.define (c : ClassDef) : Decompile Unit :=
  modify fun catalog => (catalog.define (ClassInfo.ofDef c)).2

/-- Fails if a result is a failure. -/
def Decompile.ofExcept {α : Type} : Except Failure α → Decompile α
  | .ok a => pure a
  | .error f => throw f

/-- A body that declares every local it uses at its start. -/
def declareAtEntry (vars : VarTable) (b : Block) : Block :=
  (vars.vars.filter fun v => !(vars.get v).parameter && Block.mentions b v).map (.declare · none)
    ++ b

namespace MethodDecl

/-- What lifting the code of a method has to know. -/
def context (m : MethodDecl) (cls : ClassDef) (catalog : Catalog) : Context where
  cls := cls
  isStatic := m.isStatic
  returnType := m.returnType
  params := m.params
  field r isStatic := (catalog.field r isStatic).1
  method r isStatic := (catalog.method r isStatic).1

/-- A method's flat code. -/
def lift (m : MethodDecl) (cls : ClassDef) (code : Code) : Decompile FlatCode := do
  let catalog ← get
  let (flat, queries) := FlatCode.ofCode (m.context cls catalog) code m.vars .empty
  set (catalog.replay queries)
  Decompile.ofExcept flat

/-- A nested body, cleaned up as the options say. -/
def finishBlock (options : Options) (vars : VarTable) (b : Block) : Block :=
  if options.cleanUp then (Cleanup.rounds vars options.maxRounds b).2 else declareAtEntry vars b

/-- A method with a body made from its code. -/
def decompile (m : MethodDecl) (options : Options) (cls : ClassDef) (code : Code) :
    Decompile MethodDecl := do
  let flat ← m.lift cls code
  let (nested, labels) ←
    Decompile.ofExcept (Block.nest flat.block flat.labels flat.vars options.order)
  let block := finishBlock options flat.vars nested
  let vars := { m with vars := flat.vars }.uniqueNames block
  return { m with vars, body := some ⟨block, labels⟩, error := none }

end MethodDecl

/-! ## Methods -/

/-- The number of instructions listed in the report of a method that failed. -/
def reportedInstructions : Nat := 20

/-- An address in at least four digits. -/
def addressText (a : Address) : String :=
  let digits := toString a
  String.ofList (List.replicate (4 - digits.length) '0') ++ digits

/-- The report of a method that failed: the reason, and the start of its code. -/
def failureReport (m : MethodDef) (code : Code) (failure : Failure) : String :=
  let listed := (code.instructions.take reportedInstructions).map fun i =>
    "\n  " ++ addressText i.address ++ ": " ++ i.instruction.mnemonic
  let more := code.instructions.length - reportedInstructions
  "Decompilation failed for method '" ++ m.name ++ m.descriptor ++ "': " ++ failure.message
    ++ "\nBytecode:" ++ String.join listed
    ++ if more = 0 then "" else "\n  ... (" ++ toString more ++ " more instructions)"

/-- A method of a class, or the reason why it fails. -/
def decompileMethod (options : Options) (cls : ClassDef) (name descriptor : String) :
    Decompile MethodDecl := do
  match cls.findMethod? name descriptor with
  | none => throw (.notFound (cls.name ++ "." ++ name ++ descriptor))
  | some method =>
    Decompile.define cls
    let decl := MethodDecl.ofDef method
    match method.code with
    | some code => decl.decompile options cls code
    | none => return decl

/-- A method that is declared in a class; a failure is reported in it. -/
def decompileMember (options : Options) (cls : ClassDef) (decl : MethodDecl) :
    Decompile MethodDecl := fun catalog =>
  match cls.findMethod? decl.name decl.descriptor with
  | none => .ok decl catalog
  | some method =>
    match method.code with
    | none => .ok decl catalog
    | some code =>
      match decl.decompile options cls code catalog with
      | .ok m catalog => .ok m catalog
      | .error failure catalog =>
        .ok { MethodDecl.ofDef method with error := some (failureReport method code failure) }
          catalog

/-! ## Classes and units -/

/-- The methods that are declared in a class, one after another. -/
def decompileMembers (options : Options) (cls : ClassDef) :
    List MethodDecl → Decompile (List MethodDecl)
  | [] => return []
  | m :: ms => do
    let m ← decompileMember options cls m
    return m :: (← decompileMembers options cls ms)

/-- A class with the bodies of its methods. -/
def decompileClass (options : Options) (cls : ClassDef) : Decompile ClassDecl := do
  Decompile.define cls
  let shell := ClassDecl.ofDef cls options.includeSynthetic
  return { shell with methods := ← decompileMembers options cls shell.methods }

/-- A class as nested in another one, as the options say. -/
def encloseAs (options : Options) (c : ClassDecl) (outer : String) : Decompile ClassDecl :=
  if options.encloseInner then Decompile.ofExcept (c.enclose outer)
  else return { c with outer := some outer }

mutual

/-- The classes of a list that are nested directly in the class with a name, each with those nested
in it, down to `depth` levels. -/
def nestedIn (options : Options) (all : List ClassDef) (depth : Nat) (outer : String) :
    Decompile (List ClassDecl) :=
  match depth with
  | 0 => return []
  | depth + 1 => nestedEach options all depth outer
      (all.filter fun c => ClassName.outer? c.name = some outer)

/-- Each class of a list as nested in the class with a name. -/
def nestedEach (options : Options) (all : List ClassDef) (depth : Nat) (outer : String) :
    List ClassDef → Decompile (List ClassDecl)
  | [] => return []
  | c :: cs => do
    let decl ← decompileClass options c
    let decl ← encloseAs options decl outer
    let inner ← nestedIn options all depth decl.name
    return { decl with inner } :: (← nestedEach options all depth outer cs)

end

/-- Enters each class of a list. -/
def defineAll : List ClassDef → Decompile Unit
  | [] => return ()
  | c :: cs => do
    Decompile.define c
    defineAll cs

/-- A class with the classes nested in it. Each class of the list goes into the class that its name
says is around it, or is left out if that is not there. A name around another is shorter, so there
are no more levels than classes. -/
def decompileUnit (options : Options) (cls : ClassDef) (inner : List ClassDef) :
    Decompile SourceUnit := do
  defineAll inner
  let top ← decompileClass options cls
  let top := { top with inner := ← nestedIn options inner inner.length top.name }
  return ⟨top.package, top.imports, [top]⟩

end ByteLift
