import ByteLift.Nested.Build
import ByteLift.Nested.TableOrder
import ByteLift.Nested.Tidy
import ByteLift.Stmt.Uses

/-!
# Nested code

Flat code is nested in four steps: loops entered at their test are turned round, scopes are laid
over the code and widened until they nest, each scope becomes a loop, and the loops that are not
needed are taken down again. A jump into a loop or to a missing label stands in the way; with
crossing loops the order of the scopes can decide as well.
-/

namespace ByteLift

/-- Nests flat code, with the scopes listed in a given order. Also gives the labels, with those that
nesting added. -/
def Block.nest (flat : Block) (labels : LabelTable) (vars : VarTable)
    (order : ScopeOrder := Enumeration.ofTables) : Except Failure (Block × LabelTable) := do
  let (flat, labels) := rotateLoops vars flat.length flat labels
  let found ← scopes flat (order flat) labels
  let (names, labels) := nameForward found labels
  let tidied := tidy vars (ByteLift.nest flat names found 0 flat.length)
  let stripped := stripLabels none tidied
  let nested := dropLabels (fun l => 0 < Block.labelCount stripped l) stripped
  return (nested, labels)

end ByteLift
