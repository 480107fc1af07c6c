import ByteLift.Bytecode.Instruction

/-!
# Failures

Why a method or a class could not be turned into source. Each cause carries what its message names;
the messages themselves stand in one place, `Failure.message`.
-/

namespace ByteLift

/-- Why a method or class could not be turned into source. -/
inductive Failure
  /-- Operand stacks that do not fit together, or an instruction that splits a value. -/
  | stackMismatch (address : Address) (detail : String)
  | stackUnderflow (address : Address)
  | stackNotEmptyAtExit (address : Address) (depth : Nat)
  | localReadBeforeStore (address : Address) (slot : Nat) (kind : LocalKind)
  | unsupportedOpcode (address : Address) (opcode : String)
  | unknownJumpTarget (address : Address) (target : Address)
  /-- Control can run past the last instruction. -/
  | fellOffEnd
  /-- A jump into a loop from outside it, or to a label that does not exist. -/
  | irreducible (label : String)
  | badInnerClass (className : String) (reason : String)
  | notFound (symbol : String)
deriving DecidableEq, Inhabited

/-- The kind of a local as messages name it. -/
def LocalKind.title : LocalKind → String
  | int => "Int"
  | long => "Long"
  | float => "Float"
  | double => "Double"
  | reference => "Reference"

/-- What is wrong, without the words that every message starts with. -/
def Failure.reason : Failure → String
  | stackMismatch a detail => s!"stack mismatch at address {a}: {detail}"
  | stackUnderflow a => s!"stack underflow at address {a}"
  | stackNotEmptyAtExit a depth => s!"{depth} value(s) left on the stack at exit (address {a})"
  | localReadBeforeStore a slot kind =>
    s!"local {slot} (" ++ kind.title ++ s!") read before any store at address {a}"
  | unsupportedOpcode a opcode => s!"unsupported opcode {opcode} at address {a}"
  | unknownJumpTarget a target => s!"jump from {a} to unknown address {target}"
  | fellOffEnd => "execution falls off the end of the code"
  | irreducible label => s!"irreducible control flow at {label}"
  | badInnerClass className reason => s!"unexpected inner class shape in {className}: {reason}"
  | notFound symbol => s!"{symbol} not found"

/-- The message of a failure. -/
def Failure.message (f : Failure) : String := "decompilation not possible: " ++ f.reason

end ByteLift
