import ByteLift.Failure
import ByteLift.Nested.Rotate
import ByteLift.Tracked

/-!
# Scopes over flat code

Every label that is jumped to gets a stretch of the flat code, a *scope*. A forward scope reaches
from the first jump forward up to the label; jumps will break out of it. A loop scope reaches from
the label behind the last jump back; jumps will continue it.

Scopes that cross are widened until they nest: a forward scope can start earlier and a loop can end
later. A forward scope that a loop crosses from behind cannot be mended.
-/

namespace ByteLift

/-- What a scope is for. -/
inductive ScopeKind
  | forward
  | loop
deriving DecidableEq, Inhabited

/-- A stretch of flat code that jumps to a label stand in. -/
structure Scope where
  kind : ScopeKind
  target : Label
  /-- The position of the first statement in the scope. -/
  start : Nat
  /-- The position behind the last statement in the scope. -/
  stop : Nat
deriving DecidableEq, Inhabited

namespace Scope

/-- The first scope starts earlier and ends inside the second. -/
def crosses (a b : Scope) : Bool := a.start < b.start && b.start < a.stop && a.stop < b.stop

/-- Outer scopes come before inner ones; over the same stretch, a forward scope is outside. -/
def le (a b : Scope) : Bool :=
  a.start < b.start ||
    (a.start = b.start &&
      (b.stop < a.stop ||
        (a.stop = b.stop &&
          ((a.kind = .forward && b.kind = .loop)
            || (a.kind = b.kind && a.target.index ≤ b.target.index)))))

end Scope

/-- The jumps of flat code, with their positions. -/
def gotos (flat : Block) : List (Label × Nat) :=
  flat.zipIdx.filterMap fun
    | (.goto l _, i) => some (l, i)
    | _ => none

/-- The position of a label that is known to be there. -/
def labelPos (flat : Block) (l : Label) : Nat := (labelIndex? flat l).getD 0

/-- The labels that a jump can reach, with their positions, in the order of the code. -/
def labelMarks (flat : Block) : List (Label × Nat) :=
  flat.zipIdx.filterMap fun
    | (.label l, p) => if labelIndex? flat l = some p then some (l, p) else none
    | _ => none

/-- The forward scope of a label at a position: from the first jump forward to it up to the
label. -/
def forwardScope? (flat : Block) (mark : Label × Nat) : Option Scope :=
  ((gotos flat).find? fun j => j.1 = mark.1 && j.2 < mark.2).map fun j =>
    ⟨.forward, mark.1, j.2, mark.2⟩

/-- The loop scope of a label at a position: from the label behind the last jump back to it. -/
def loopScope? (flat : Block) (mark : Label × Nat) : Option Scope :=
  ((gotos flat).reverse.find? fun j => j.1 = mark.1 && mark.2 < j.2).map fun j =>
    ⟨.loop, mark.1, mark.2, j.2 + 1⟩

/-- The forward scopes of all labels, before widening, in the order of the code. -/
def forwardScopes (flat : Block) : List Scope := (labelMarks flat).filterMap (forwardScope? flat)

/-- The loops of all labels, before widening, in the order of the code. -/
def loopScopes (flat : Block) : List Scope := (labelMarks flat).filterMap (loopScope? flat)

/-- The scopes of flat code listed in some order, the forward scopes before the loops. Widening
compares scopes in the order in which they are listed. -/
structure Enumeration (flat : Block) where
  forwards : List Scope
  loops : List Scope
  forwards_perm : forwards.Perm (forwardScopes flat)
  loops_perm : loops.Perm (loopScopes flat)

/-- The scopes in the order of an enumeration, before widening. -/
def Enumeration.scopes {flat : Block} (o : Enumeration flat) : List Scope := o.forwards ++ o.loops

/-- A choice of the order in which the scopes of flat code are listed. -/
abbrev ScopeOrder := (flat : Block) → Enumeration flat

/-- Widens one of two scopes if the first crosses the second. -/
def widenPair (scopes : List Scope) (pair : Nat × Nat) : Except Label (Tracked (List Scope)) :=
  match scopes[pair.1]?, scopes[pair.2]? with
  | some a, some b =>
    if a.crosses b then
      if b.kind = .forward then .ok (.mark (scopes.set pair.2 { b with start := a.start }))
      else if a.kind = .loop then .ok (.mark (scopes.set pair.1 { a with stop := b.stop }))
      else .error a.target
    else .ok (pure scopes)
  | _, _ => .ok (pure scopes)

/-- All pairs of positions below `n`, in order. -/
def pairs (n : Nat) : List (Nat × Nat) :=
  (List.range n).flatMap fun a => (List.range n).map fun b => (a, b)

/-- Widens scopes pair by pair. -/
def widenPairs : List (Nat × Nat) → List Scope → Except Label (Tracked (List Scope))
  | [], scopes => .ok (pure scopes)
  | p :: ps, scopes => do
    let first ← widenPair scopes p
    let rest ← widenPairs ps first.val
    return first >>= fun _ => rest

/-- Widens scopes until none cross, in at most `n` rounds over all pairs. -/
def widen : Nat → List Scope → Except Label (List Scope)
  | 0, scopes => .ok scopes
  | n + 1, scopes => do
    let round ← widenPairs (pairs scopes.length) scopes
    if round.changed then widen n round.val else return round.val

/-- A bound on the rounds of widening: every round but the last moves an end of a scope, and an end
moves at most across the whole code. -/
def widenBound (flat : Block) (scopes : List Scope) : Nat :=
  scopes.length * (2 * (flat.length + 1)) + 1

/-- What the scopes in the order of an enumeration are widened to. -/
def Enumeration.widened {flat : Block} (o : Enumeration flat) : Except Label (List Scope) :=
  widen (widenBound flat o.scopes) o.scopes

/-- The scopes of flat code, widened and sorted from the outside in. A jump to a label that is not
there, and a jump into a loop, are failures. -/
def scopes (flat : Block) (o : Enumeration flat) (labels : LabelTable) :
    Except Failure (List Scope) :=
  match (gotos flat).find? fun j => (labelIndex? flat j.1).isNone with
  | some (l, _) => .error (.irreducible (labels.name l))
  | none =>
    match o.widened with
    | .error l => .error (.irreducible (labels.name l))
    | .ok found => .ok (found.mergeSort Scope.le)

end ByteLift
