import ByteLift.Expr.Condition
import ByteLift.Stmt.Basic

/-!
# Loops entered at their test

A loop that is tested at its end is often entered by a jump to the test. In flat code it reads
`goto C; B: body; C: test; if (c) goto B`. If nothing else jumps into it, it can be turned into a
loop that is tested at its start: `C: test; if (!c) goto X; B: body; goto C; X:`.
-/

namespace ByteLift

/-- The last position of a statement with a property. -/
def lastIndex? (p : Stmt → Bool) : Block → Option Nat
  | [] => none
  | s :: ss =>
    match lastIndex? p ss with
    | some i => some (i + 1)
    | none => if p s then some 0 else none

/-- The position of a label; the last one, if there are several. -/
def labelIndex? (b : Block) (l : Label) : Option Nat := lastIndex? (· = .label l) b

/-- Whether a statement is a jump to a label. -/
def Stmt.isGotoTo (l : Label) : Stmt → Bool
  | .goto m _ => m = l
  | _ => false

/-- A loop entered at its test: the positions of the jump that enters it, of the label of its test
and of the jump back. -/
structure EnteredLoop where
  enters : Nat
  test : Nat
  back : Nat

/-- Whether a jump outside a part of the code goes into that part, other than to its entry. The
part reaches from behind position `first` to position `last`. -/
def enteredElsewhere (flat : Block) (first last : Nat) (entry : Label) : Bool :=
  flat.zipIdx.any fun
    | (.goto l _, i) =>
      (i < first || last < i) && l ≠ entry
        && (labelIndex? flat l).any fun p => first < p && p ≤ last
    | _ => false

/-- The loop entered by the jump at a position, if there is one and nothing else jumps into it. -/
def enteredLoopAt? (flat : Block) (g : Nat) : Option EnteredLoop :=
  match flat[g]?, flat[g + 1]? with
  | some (.goto entry none), some (.label head) =>
    match labelIndex? flat entry, lastIndex? (Stmt.isGotoTo head) flat with
    | some c, some e =>
      if g + 1 < c && c ≤ e && !enteredElsewhere flat g e entry then some ⟨g, c, e⟩ else none
    | _, _ => none
  | _, _ => none

/-- The first loop that is entered at its test. -/
def enteredLoop? (flat : Block) : Option EnteredLoop :=
  (List.range (flat.length - 1)).findSome? (enteredLoopAt? flat)

/-- The part of a block from one position up to another. -/
def slice (b : Block) (first last : Nat) : Block := (b.take last).drop first

/-- Turns a loop entered at its test into one tested at its start. The label `exit` is put behind
it. -/
def rotateLoop (vars : VarTable) (flat : Block) (l : EnteredLoop) (exit : Label) : Block :=
  match flat[l.enters]?, flat[l.enters + 1]?, flat[l.back]? with
  | some (.goto entry _), some (.label head), some (.goto _ cond) =>
    flat.take l.enters ++ slice flat l.test l.back
      ++ (cond.toList.map fun c => .goto exit (some (c.negate vars)))
      ++ .label head :: slice flat (l.enters + 2) l.test
      ++ .goto entry none :: .label exit :: flat.drop (l.back + 1)
  | _, _, _ => flat

/-- Turns loops entered at their test into loops tested at their start, at most `n` of them, each
with a fresh label behind it. -/
def rotateLoops (vars : VarTable) : Nat → Block → LabelTable → Block × LabelTable
  | 0, flat, labels => (flat, labels)
  | n + 1, flat, labels =>
    match enteredLoop? flat with
    | none => (flat, labels)
    | some l => rotateLoops vars n (rotateLoop vars flat l labels.next) labels.grow

end ByteLift
