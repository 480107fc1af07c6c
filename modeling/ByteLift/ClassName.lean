/-!
# Internal class names

A class is known by its internal name: package parts divided by `/`, nested classes joined to the
class around them by `$`, as in `a/b/Outer$Inner`. This module takes such names apart and spells
them the way Java source does. Everything is decided by the last `/` and by the `$` signs after it.
-/

namespace ByteLift.ClassName

/-- The parts of a text before and after the last occurrence of `c`, if there is one. -/
def splitLast (c : Char) : List Char → Option (List Char × List Char)
  | [] => none
  | x :: xs =>
    match splitLast c xs with
    | some (before, after) => some (x :: before, after)
    | none => if x = c then some ([], xs) else none

/-- The part before the last `/` with that `/`, and the part after it. -/
def splitPackage (name : List Char) : List Char × List Char :=
  match splitLast '/' name with
  | some (pkg, simple) => (pkg ++ ['/'], simple)
  | none => ([], name)

/-- The name without its package. -/
def simple (name : String) : String :=
  String.ofList (splitPackage name.toList).2

/-- The package, in internal form (`java/lang`); a name without `/` has none. -/
def package? (name : String) : Option String :=
  (splitLast '/' name.toList).map fun parts => String.ofList parts.1

/-- The class around a nested class: the name up to the last `$` of its simple part. A simple part
that starts with its only `$` names no class around it. -/
def outer? (name : String) : Option String :=
  let (pkg, simple) := splitPackage name.toList
  match splitLast '$' simple with
  | some (c :: cs, _) => some (String.ofList (pkg ++ c :: cs))
  | _ => none

/-- The name up to its first `$`, unless it starts with one. -/
def topLevel (name : String) : String :=
  match name.toList.takeWhile (· ≠ '$') with
  | [] => name
  | cs => String.ofList cs

/-- The fully qualified source spelling: both `/` and `$` become dots. -/
def qualified (name : String) : String :=
  name.map fun c => if c = '/' ∨ c = '$' then '.' else c

/-- The source spelling without the package, nested classes joined by dots. -/
def nested (name : String) : String :=
  (simple name).map fun c => if c = '$' then '.' else c

/-- The name a class is declared with: the part after the last `$` of its simple name. -/
def declared (name : String) : String :=
  let cs := (simple name).toList
  match splitLast '$' cs with
  | some (_, after) => String.ofList after
  | none => String.ofList cs

/-- A package in source spelling. -/
def dotted (pkg : String) : String :=
  pkg.map fun c => if c = '/' then '.' else c

/-- Fields called `this$0`, `this$1`, … hold the instance of the class around an inner class. -/
def isOuterReference (field : String) : Bool :=
  match field.toList with
  | 't' :: 'h' :: 'i' :: 's' :: '$' :: digits => !digits.isEmpty && digits.all Char.isDigit
  | _ => false

end ByteLift.ClassName
