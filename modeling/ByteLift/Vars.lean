import ByteLift.Ty.Basic

/-!
# Variables and labels of a method

A method's variables stand in a table, and a variable is known by its place there: two variables
are the same only if they are the same entry, whatever their names and types. Labels are kept the
same way.
-/

namespace ByteLift

/-- A variable, by its place in the method's table. -/
structure Var where
  index : Nat
deriving DecidableEq, Inhabited

/-- A label, by its place in the method's table. -/
structure Label where
  index : Nat
deriving DecidableEq, Inhabited

/-- What is known of a variable. -/
structure VarDecl where
  ty : Ty
  name : String
  /-- Made up while lifting, to hold a value of the operand stack, or hidden from the source. -/
  synthetic : Bool
  parameter : Bool
  isFinal : Bool
  /-- The local slot that the variable stands for. -/
  slot : Option Nat
deriving DecidableEq, Inhabited

/-- The variables of one method. -/
structure VarTable where
  decls : Array VarDecl
deriving DecidableEq, Inhabited

namespace VarTable

/-- A table without variables. -/
def empty : VarTable := ⟨#[]⟩

/-- The number of variables. -/
def size (t : VarTable) : Nat := t.decls.size

/-- What is known of a variable. -/
def get (t : VarTable) (v : Var) : VarDecl := t.decls[v.index]?.getD default

/-- The type of a variable. -/
def ty (t : VarTable) (v : Var) : Ty := (t.get v).ty

/-- The name of a variable. -/
def name (t : VarTable) (v : Var) : String := (t.get v).name

/-- The variable that the next addition will make. -/
def next (t : VarTable) : Var := ⟨t.decls.size⟩

/-- Adds a variable behind the others. -/
def push (t : VarTable) (d : VarDecl) : VarTable := ⟨t.decls.push d⟩

/-- Changes what is known of one variable. -/
def modify (t : VarTable) (v : Var) (f : VarDecl → VarDecl) : VarTable :=
  ⟨t.decls.modify v.index f⟩

/-- Gives a variable another type. -/
def setTy (t : VarTable) (v : Var) (ty : Ty) : VarTable := t.modify v ({ · with ty })

/-- Gives a variable another name. -/
def setName (t : VarTable) (v : Var) (name : String) : VarTable := t.modify v ({ · with name })

/-- All variables in the order of the table. -/
def vars (t : VarTable) : List Var := (List.range t.size).map Var.mk

end VarTable

/-- The labels of one method, by name. -/
structure LabelTable where
  names : Array String
deriving DecidableEq, Inhabited

namespace LabelTable

/-- A table without labels. -/
def empty : LabelTable := ⟨#[]⟩

/-- The number of labels. -/
def size (t : LabelTable) : Nat := t.names.size

/-- The name of a label. -/
def name (t : LabelTable) (l : Label) : String := t.names[l.index]?.getD ""

/-- The label that the next addition will make. -/
def next (t : LabelTable) : Label := ⟨t.names.size⟩

/-- Adds a label, named after its place in the table. -/
def grow (t : LabelTable) : LabelTable := ⟨t.names.push ("label" ++ toString t.names.size)⟩

end LabelTable

end ByteLift
