import ByteLift.Nested.Scope

/-!
# The order of a hash table

The labels of the jumps forward and of the jumps back are collected in two hash tables, and scopes
are listed in the order of these. What crossing scopes are widened to can depend on it.

A table has a power of two of slots, at most seven in eight taken. A label takes the first free slot
from its hash on. A full table is doubled and filled anew in the order of its slots.
-/

namespace ByteLift

/-- The slots of a table of labels. -/
abbrev Slots := List (Option Label)

namespace Slots

/-- The number of labels that a table takes before it is doubled. -/
def capacity (t : Slots) : Nat :=
  if t.length ≤ 8 then t.length - 1 else t.length / 8 * 7

/-- The slots that a label looks at: stretches of sixteen, each further ahead of the last one. -/
def probes (size : Nat) (l : Label) : List Nat :=
  (List.range (size / 16 + 1)).flatMap fun k => (List.range 16).map fun i =>
    (l.index * 0x517cc1b727220a95 + 8 * k * (k + 1) + i) % size

/-- Enters a label that is not there, if there is a free slot. -/
def put (t : Slots) (l : Label) : Slots :=
  match (probes t.length l).find? fun i => t[i]? = some none with
  | some i => t.set i (some l)
  | none => t

/-- Makes room for one more label. -/
def reserve (t : Slots) : Slots :=
  if t.countP Option.isSome < t.capacity then t
  else (t.filterMap id).foldl put (List.replicate (max 4 (2 * t.length)) none)

/-- Enters the target of a jump forward. Room is only made for a label that is not there. -/
def enterForward (t : Slots) (l : Label) : Slots :=
  if t.contains (some l) then t else t.reserve.put l

/-- Enters the target of a jump back. Room is made in any case. -/
def enterBack (t : Slots) (l : Label) : Slots :=
  if t.contains (some l) then t.reserve else t.reserve.put l

end Slots

namespace Enumeration

/-- The scopes by ascending numbers of their labels, with one numbering for each kind of scope. -/
def byRank (flat : Block) (forward back : Label → Nat) : Enumeration flat where
  forwards := (forwardScopes flat).mergeSort fun s t => forward s.target ≤ forward t.target
  loops := (loopScopes flat).mergeSort fun s t => back s.target ≤ back t.target
  forwards_perm := List.mergeSort_perm _ _
  loops_perm := List.mergeSort_perm _ _

/-- The scopes in the order of the tables that the targets of the jumps are collected in. -/
def ofTables (flat : Block) : Enumeration flat :=
  let (ahead, back) := (gotos flat).partition fun j => j.2 < labelPos flat j.1
  let forwardTable := ahead.foldl (fun t j => Slots.enterForward t j.1) []
  let backTable := back.foldl (fun t j => Slots.enterBack t j.1) []
  byRank flat (fun l => forwardTable.idxOf (some l)) fun l => backTable.idxOf (some l)

end Enumeration

end ByteLift
