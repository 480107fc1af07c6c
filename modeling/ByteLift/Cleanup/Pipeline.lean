import ByteLift.Cleanup.Branches
import ByteLift.Cleanup.Construction
import ByteLift.Cleanup.Declarations
import ByteLift.Cleanup.Inline
import ByteLift.Cleanup.NoOp
import ByteLift.Cleanup.Unread

/-!
# Cleaning up nested code

Seven passes make nested code readable. They are run one after another, round after round, until a
round changes nothing.
-/

namespace ByteLift.Cleanup

/-- One way of cleaning up a method's body. -/
structure Pass where
  name : String
  run : VarTable → Block → Tracked Block

/-- The passes in the order in which they are run. -/
def passes : List Pass :=
  [⟨"self-assignment", fun _ => dropNoOps⟩,
    ⟨"constructor-fusion", fun _ => construct⟩,
    ⟨"alias-propagation", fun _ => propagateCopies⟩,
    ⟨"dead-assignment", fun _ => dropUnread⟩,
    ⟨"scope-narrowing", placeDeclarations⟩,
    ⟨"single-use-inlining", fun _ => inlineOnce⟩,
    ⟨"structural-simplification", straightenBranches⟩]

/-- Runs passes one after another. -/
def runPasses (vars : VarTable) : List Pass → Block → Tracked Block
  | [], b => pure b
  | p :: ps, b => do runPasses vars ps (← p.run vars b)

/-- One round of all passes. -/
def round (vars : VarTable) (b : Block) : Tracked Block := runPasses vars passes b

/-- Runs rounds until one changes nothing, at most `n` of them. Gives the number of rounds run and
the block they leave. -/
def rounds (vars : VarTable) : Nat → Block → Nat × Block
  | 0, b => (0, b)
  | n + 1, b =>
    let next := round vars b
    if next.changed then
      let (count, last) := rounds vars n next.val
      (count + 1, last)
    else (1, next.val)

/-! ## What changed when -/

/-- A pass that changed the code, with the code it left. -/
structure Step where
  round : Nat
  pass : String
  block : Block

/-- The steps of one round, numbered `i`. -/
def roundSteps (vars : VarTable) (i : Nat) : List Pass → Block → List Step
  | [], _ => []
  | p :: ps, b =>
    let next := p.run vars b
    let later := roundSteps vars i ps next.val
    if next.changed then ⟨i, p.name, next.val⟩ :: later else later

/-- The steps of at most `n` rounds, numbered from `i` on. -/
def steps (vars : VarTable) : Nat → Nat → Block → List Step
  | _, 0, _ => []
  | i, n + 1, b =>
    let next := round vars b
    roundSteps vars i passes b ++ if next.changed then steps vars (i + 1) n next.val else []

end ByteLift.Cleanup
