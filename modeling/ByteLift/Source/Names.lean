import ByteLift.Source.Tree
import ByteLift.Stmt.Uses

/-!
# Unique names

Gives the variables of a method names that differ: first the parameters, then the locals in the
order of their declarations. A name that is taken already gets a number behind it, the first one
that makes it free.
-/

namespace ByteLift

/-- The names that are taken, each with the number of variables that wanted it. -/
abbrev NameCounts := List (String × Nat)

namespace NameCounts

/-- How many variables wanted a name. -/
def count (c : NameCounts) (name : String) : Nat :=
  ((c.find? fun e => e.1 = name).map Prod.snd).getD 0

/-- Whether a name is taken. -/
def taken (c : NameCounts) (name : String) : Bool := c.any fun e => e.1 = name

/-- Sets the count of a name. -/
def put (c : NameCounts) (name : String) (n : Nat) : NameCounts :=
  (name, n) :: c.filter fun e => e.1 ≠ name

end NameCounts

/-- A name with a number behind it. -/
def numbered (name : String) (n : Nat) : String := name ++ "_" ++ toString n

/-- The first number from `n` on that makes a name free, among `tries` of them. -/
def freeNumber (c : NameCounts) (name : String) (n : Nat) : Nat → Nat
  | 0 => n
  | tries + 1 => if c.taken (numbered name n) then freeNumber c name (n + 1) tries else n

/-- Gives a variable a name that is not taken. As many numbers as there are names taken are
enough to try. -/
def claimName (state : NameCounts × VarTable) (v : Var) : NameCounts × VarTable :=
  let (counts, vars) := state
  let name := vars.name v
  let wanted := counts.count name + 1
  let counts := counts.put name wanted
  if wanted = 1 then (counts, vars)
  else
    let unique := numbered name (freeNumber counts name (wanted - 1) (counts.length + 1))
    (counts.put unique 1, vars.setName v unique)

/-- The variables of a method with unique names, given its body. -/
def MethodDecl.uniqueNames (m : MethodDecl) (body : Block) : VarTable :=
  ((m.params ++ Block.declared body).foldl claimName ([], m.vars)).2

end ByteLift
