import ByteLift.Source.Printer.Stmt
import ByteLift.Source.Tree

/-!
# Printing declarations

Methods, fields, classes and source files. Members that the compiler made up are left out unless the
style asks for them. A method without a body ends in a semicolon; one that could not be lifted has
the reason in comments in place of its body.
-/

namespace ByteLift

/-- A word followed by a space, if it applies. -/
def wordIf (applies : Bool) (word : String) : String := if applies then word ++ " " else ""

/-- The visibility of a member, followed by a space. -/
def visibilityText (isPublic isProtected isPrivate : Bool) : String :=
  if isPublic then "public " else if isProtected then "protected "
  else if isPrivate then "private " else ""

/-- A text without a carriage return at its end. -/
def withoutReturn (s : String) : String :=
  match s.toList.reverse with
  | '\r' :: rest => String.ofList rest.reverse
  | _ => s

/-- The lines of a text. A line ends in a line feed, which a carriage return may precede; the last
one need not end at all. -/
def textLines (s : String) : List String :=
  let parts := s.splitOn "\n"
  parts.dropLast.map withoutReturn ++ (parts.getLast?.filter (· ≠ "")).toList

/-! ## Fields and methods -/

/-- The line of a field. -/
def FieldDecl.render (style : Style) (level : Nat) (f : FieldDecl) : String :=
  let a := f.access
  let value := match f.initializer with
    | some e => " = " ++ e.render style .empty
    | none => ""
  style.line level (visibilityText a.isPublic a.isProtected a.isPrivate
    ++ wordIf a.isStatic "static" ++ wordIf a.isFinal "final" ++ wordIf a.isTransient "transient"
    ++ wordIf a.isVolatile "volatile" ++ style.ty f.ty ++ " " ++ f.name ++ value ++ ";")

/-- The text of a parameter. The last parameter of a method that takes any number of arguments is
written with dots. -/
def paramText (style : Style) (decl : VarDecl) (varargs : Bool) : String :=
  let ty := match decl.ty, varargs with
    | .array t, true => style.ty t ++ "..."
    | t, _ => style.ty t
  wordIf decl.isFinal "final" ++ ty ++ " " ++ decl.name

/-- The text of parameters, divided by commas. -/
def paramTexts (style : Style) (varargs : Bool) : List VarDecl → List String
  | [] => []
  | [d] => [paramText style d varargs]
  | d :: ds => paramText style d false :: paramTexts style varargs ds

/-- The parameters of a method that are printed. -/
def MethodDecl.shownParams (m : MethodDecl) (style : Style) : List VarDecl :=
  (m.params.map m.vars.get).filter fun d => style.includeSynthetic || !d.synthetic

/-- The head of a method. -/
def MethodDecl.signature (m : MethodDecl) (style : Style) (className : String)
    (inInterface : Bool) : String :=
  let a := m.access
  let isDefault := inInterface && !(a.isAbstract || a.isStatic || a.isPrivate)
  let name := if m.isConstructor then className else style.ty m.returnType ++ " " ++ m.name
  let throws :=
    if m.exceptions.isEmpty then ""
    else " throws " ++ ", ".intercalate (m.exceptions.map style.className)
  visibilityText a.isPublic a.isProtected a.isPrivate
    ++ wordIf a.isStatic "static" ++ wordIf (a.isAbstract && !inInterface) "abstract"
    ++ wordIf isDefault "default" ++ wordIf a.isFinal "final"
    ++ wordIf a.isSynchronized "synchronized" ++ wordIf a.isNative "native" ++ name
    ++ parens (", ".intercalate (paramTexts style a.isVarargs (m.shownParams style))) ++ throws

/-- A method's statements as they are printed: a `return;` at the end goes without saying. -/
def MethodDecl.shownBlock (m : MethodDecl) (body : MethodBody) : Block :=
  if m.returnType = .void && body.block.getLast? = some (.ret none) then body.block.dropLast
  else body.block

/-- The lines between the braces of a method. -/
def MethodDecl.bodyText (m : MethodDecl) (style : Style) (level : Nat) : String :=
  let comments := (m.error.map textLines).getD []
  let statements := match m.body with
    | some body => Stmt.renderList style ⟨m.vars, body.labels⟩ level (m.shownBlock body)
    | none => ""
  String.join (comments.map fun text => style.line level ("// " ++ text)) ++ statements

/-- The lines of a method. -/
def MethodDecl.render (m : MethodDecl) (style : Style) (className : String)
    (inInterface : Bool) (level : Nat) : String :=
  let block (head : String) :=
    style.line level (head ++ " \x7b") ++ m.bodyText style (level + 1) ++ style.line level "\x7d"
  if m.isStaticInitializer then block "static"
  else
    let head := m.signature style className inInterface
    if m.body.isSome || m.error.isSome then block head else style.line level (head ++ ";")

/-! ## Classes and source files -/

/-- The head of a class. -/
def classHead (style : Style) (name : String) (superClass : Option String)
    (interfaces : List String) (a : ClassAccess) (isStaticNested : Bool) : String :=
  let kind :=
    if a.isAnnotation then "@interface"
    else if a.isInterface then "interface"
    else if a.isEnum then "enum"
    else wordIf a.isAbstract "abstract" ++ wordIf a.isFinal "final" ++ "class"
  let extending := match superClass with
    | some c => if a.isInterface then "" else " extends " ++ style.className c
    | none => ""
  let implementing :=
    if interfaces.isEmpty then ""
    else (if a.isInterface then " extends " else " implements ")
      ++ ", ".intercalate (interfaces.map style.className)
  wordIf a.isPublic "public" ++ wordIf isStaticNested "static" ++ kind ++ " " ++ name
    ++ extending ++ implementing

/-- Members one after another with an empty line between them, and one before the first unless it
opens the class. -/
def spaced (opens : Bool) : List String → String
  | [] => ""
  | t :: ts => (if opens then "" else "\n") ++ t ++ spaced false ts

mutual

/-- The lines of a class. -/
def ClassDecl.render (style : Style) (level : Nat) : ClassDecl → String
  | ⟨name, _, superClass, interfaces, access, outer, isStatic, fields, methods, inner⟩ =>
    let declared := ClassName.declared name
    let shownFields := fields.filter fun f => style.includeSynthetic || !f.isSynthetic
    let shownMethods := methods.filter fun m => style.includeSynthetic || !m.isSynthetic
    let methodTexts := shownMethods.map fun m =>
      m.render style declared access.isInterface (level + 1)
    let head := classHead style declared superClass interfaces access (isStatic && outer.isSome)
    style.line level (head ++ " \x7b")
      ++ String.join (shownFields.map fun f => f.render style (level + 1))
      ++ spaced shownFields.isEmpty (methodTexts ++ ClassDecl.renderList style (level + 1) inner)
      ++ style.line level "\x7d"

/-- The texts of a list of classes. -/
def ClassDecl.renderList (style : Style) (level : Nat) : List ClassDecl → List String
  | [] => []
  | c :: cs => ClassDecl.render style level c :: ClassDecl.renderList style level cs

end

/-- The lines of a source file. -/
def SourceUnit.render (style : Style) (u : SourceUnit) : String :=
  let package := match u.package with
    | some p => "package " ++ p ++ ";\n\n"
    | none => ""
  let imports :=
    if u.imports.isEmpty then ""
    else String.join (u.imports.map fun i => "import " ++ ClassName.qualified i ++ ";\n") ++ "\n"
  package ++ imports ++ spaced true (ClassDecl.renderList style 0 u.classes)

end ByteLift
