import ByteLift.Ascending
import ByteLift.Failure
import ByteLift.Vars

/-!
# Control flow of a code

Which instructions control can reach, by a search from the first one along branches and along
running on, and which addresses some jump names. A jump reaches the last instruction at its address.
-/

namespace ByteLift

namespace Code

/-- The position of the last instruction at an address. -/
def indexOf? (c : Code) (a : Address) : Option Nat :=
  (c.instructions.zipIdx.reverse.find? fun (i, _) => i.address = a).map Prod.snd

/-- The addresses that the instructions jump to, each with the address of the instruction. -/
def jumps (c : Code) : List (Address × Address) :=
  c.instructions.flatMap fun i => i.instruction.targets.map fun t => (i.address, t)

/-- The positions that control can go on to from a position. -/
def successors (c : Code) (pos : Nat) : List Nat :=
  match c.instructions[pos]? with
  | none => []
  | some i =>
    i.instruction.targets.filterMap c.indexOf? ++ if i.instruction.endsFlow then [] else [pos + 1]

end Code

/-- Marking a position that is not marked yet leaves fewer such positions. -/
theorem count_set_true_lt {marked : List Bool} {pos : Nat} (h : marked[pos]? = some false) :
    (marked.set pos true).count false < marked.count false := by
  obtain ⟨hlt, hpos⟩ := List.getElem?_eq_some_iff.1 h
  have hmem : 0 < marked.count false := List.count_pos_iff.2 (hpos ▸ List.getElem_mem hlt)
  rw [List.count_set hlt, hpos]
  show marked.count false - 1 + 0 < marked.count false
  omega

namespace Code

/-- Whether control that gets to a position runs past the last instruction. -/
def runsOff (c : Code) (pos : Nat) : Bool :=
  c.instructions.length ≤ pos + 1 && c.instructions[pos]?.any fun i => !i.instruction.endsFlow

/-- Marks the positions on a list of work and all that can be reached from them. The search is given
up at a position from which control runs past the end. -/
def discover (c : Code) (marked : List Bool) : List Nat → Option (List Bool)
  | [] => some marked
  | pos :: work =>
    if marked[pos]? = some false then
      if c.runsOff pos then none
      else discover c (marked.set pos true) (work ++ c.successors pos)
    else discover c marked work
termination_by work => (marked.count false, work.length)
decreasing_by
  · exact Prod.Lex.left _ _ (count_set_true_lt ‹_›)
  · exact Prod.Lex.right _ (Nat.lt_succ_self _)

end Code

/-- Jump targets and reachability of a code. -/
structure Flow where
  /-- The addresses that some jump names, ascending, each with its label. -/
  labels : List (Address × Label)
  /-- For each position, whether control can reach it. -/
  reachable : List Bool

namespace Flow

/-- The label of an address. -/
def label? (f : Flow) (a : Address) : Option Label :=
  (f.labels.find? fun e => e.1 = a).map Prod.snd

/-- Whether control can reach a position. -/
def reaches (f : Flow) (pos : Nat) : Bool := f.reachable[pos]?.getD false

end Flow

namespace Code

/-- The addresses that some jump names, ascending. -/
def targetAddresses (c : Code) : List Address :=
  sortAscending (c.jumps.map Prod.snd)

/-- Gives each address of a list a fresh label, in order. -/
def labelAll : List Address → LabelTable → List (Address × Label) × LabelTable
  | [], labels => ([], labels)
  | a :: rest, labels =>
    let (later, table) := labelAll rest labels.grow
    ((a, labels.next) :: later, table)

/-- The flow of a code, with fresh labels for its jump targets. It fails at a jump to an address
without an instruction, reachable or not, and if control runs past the last instruction. -/
def flow (c : Code) (labels : LabelTable) : Except Failure (Flow × LabelTable) :=
  match c.jumps.find? fun j => (c.indexOf? j.2).isNone with
  | some (address, target) => .error (.unknownJumpTarget address target)
  | none =>
    let (marks, table) := labelAll c.targetAddresses labels
    match c.discover (List.replicate c.instructions.length false) [0] with
    | none => .error .fellOffEnd
    | some reachable => .ok (⟨marks, reachable⟩, table)

end Code

end ByteLift
