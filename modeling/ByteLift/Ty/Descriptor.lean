import ByteLift.Ty.Basic

/-!
# Descriptors

A descriptor spells a type: a letter for each primitive type, `Lname;` for a class, `[` before the
element of an array. A method descriptor is the parameters between brackets and then the result.
`Ty.read?` takes one type off the front of a text and leaves the rest to the caller. The parameter
list ends at the *first* closing bracket of the text, whatever it is part of.
-/

namespace ByteLift.Ty

/-- The descriptor of a type. A type without one of its own is described as an object. -/
def descriptor : Ty → String
  | int => "I"
  | long => "J"
  | float => "F"
  | double => "D"
  | byte => "B"
  | char => "C"
  | short => "S"
  | boolean => "Z"
  | void => "V"
  | ref name => "L" ++ name ++ ";"
  | array t => "[" ++ t.descriptor
  | null | unknown => "Ljava/lang/Object;"

/-- The type that a text starts with, and the rest of the text. A class name is never empty and an
array never holds `void`. -/
def read? : List Char → Option (Ty × List Char)
  | 'B' :: rest => some (byte, rest)
  | 'C' :: rest => some (char, rest)
  | 'D' :: rest => some (double, rest)
  | 'F' :: rest => some (float, rest)
  | 'I' :: rest => some (int, rest)
  | 'J' :: rest => some (long, rest)
  | 'S' :: rest => some (short, rest)
  | 'Z' :: rest => some (boolean, rest)
  | 'V' :: rest => some (void, rest)
  | 'L' :: rest =>
    match rest.takeWhile (· ≠ ';'), rest.dropWhile (· ≠ ';') with
    | c :: cs, _ :: after => some (ref (String.ofList (c :: cs)), after)
    | _, _ => none
  | '[' :: rest =>
    match read? rest with
    | some (t, after) => if t = void then none else some (array t, after)
    | none => none
  | _ => none

/-- Reading a type takes at least one character. -/
theorem length_lt_of_read? {cs rest : List Char} {t : Ty} (h : read? cs = some (t, rest)) :
    rest.length < cs.length := by
  fun_induction read? cs generalizing t rest with
  | case10 tail c cs sep after hdrop htake =>
    have := (List.dropWhile_sublist (fun x => decide (x ≠ ';')) (l := tail)).length_le
    simp only [Option.some.injEq, Prod.mk.injEq] at h
    rw [hdrop, List.length_cons] at this
    rw [List.length_cons, ← h.2]
    omega
  | case13 tail t' after hread hvoid ih =>
    simp only [Option.some.injEq, Prod.mk.injEq] at h
    have := ih hread
    rw [List.length_cons, ← h.2]
    omega
  | _ => simp_all

/-- The type that a whole text describes. -/
def parse? (text : String) : Option Ty :=
  match read? text.toList with
  | some (t, []) => some t
  | _ => none

/-- What is left of a text after its first `n` bytes, if a character starts there. -/
def dropBytes? : Nat → List Char → Option (List Char)
  | 0, cs => some cs
  | _ + 1, [] => none
  | n + 1, c :: cs => if c.utf8Size ≤ n + 1 then dropBytes? (n + 1 - c.utf8Size) cs else none

/-- The number of bytes of a text. -/
def byteCount (cs : List Char) : Nat :=
  @List.sum Nat instAddNat Zero.ofOfNat0 (cs.map Char.utf8Size)

/-- The type that starts at a byte position of a text, and the position after it. -/
def parseAt? (text : String) (pos : Nat) : Option (Ty × Nat) := do
  let start ← dropBytes? pos text.toList
  let (t, rest) ← read? start
  pure (t, pos + (byteCount start - byteCount rest))

/-- The types that a text starts with, read until at most `stop` characters are left. -/
def readParams? (stop : Nat) (cs : List Char) : Option (List Ty) :=
  if cs.length ≤ stop then some []
  else
    match _h : read? cs with
    | none => none
    | some (t, rest) => if t = void then none else (readParams? stop rest).map (t :: ·)
termination_by cs.length
decreasing_by exact length_lt_of_read? ‹_›

/-- The parameters and the result that a method descriptor describes. -/
def parseMethod? (text : String) : Option (List Ty × Ty) :=
  match text.toList with
  | '(' :: inside =>
    match inside.dropWhile (· ≠ ')') with
    | [] => none
    | close :: after =>
      match readParams? (close :: after).length inside, read? after with
      | some params, some (result, []) => some (params, result)
      | _, _ => none
  | _ => none

/-- The type that a class operand names: an array descriptor, or else an internal class name. -/
def ofClassOperand (operand : String) : Ty :=
  match operand.toList with
  | '[' :: _ => (parse? operand).getD unknown
  | _ => ref operand

end ByteLift.Ty
