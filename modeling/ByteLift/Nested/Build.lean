import ByteLift.Nested.Scope

/-!
# Nesting flat code

Each scope becomes a loop `while (true)` that ends in a break out of it, so that it runs once unless
it is continued. Jumps forward become breaks out of the forward scope of their label, jumps back
become continues of the loop, and the labels themselves are dropped.
-/

namespace ByteLift

/-- The label of the loop that each forward scope becomes, by the label that is jumped to. -/
abbrev ForwardLabels := List (Label × Label)

/-- Gives the forward scopes of a list fresh labels, in order. -/
def nameForward : List Scope → LabelTable → ForwardLabels × LabelTable
  | [], labels => ([], labels)
  | s :: ss, labels =>
    match s.kind with
    | .forward =>
      let (later, table) := nameForward ss labels.grow
      ((s.target, labels.next) :: later, table)
    | .loop => nameForward ss labels

/-- The label of the loop that the forward scope of a label becomes. -/
def ForwardLabels.get (names : ForwardLabels) (l : Label) : Label :=
  ((names.find? fun e => e.1 = l).map Prod.snd).getD l

/-- The label of the loop that a scope becomes. -/
def Scope.label (names : ForwardLabels) (s : Scope) : Label :=
  match s.kind with
  | .forward => names.get s.target
  | .loop => s.target

/-- What the statement at a position of flat code becomes. -/
def nestStmt (flat : Block) (names : ForwardLabels) (pos : Nat) : Block :=
  match flat[pos]? with
  | none | some (.label _) => []
  | some (.goto l cond) =>
    let jump :=
      if pos < labelPos flat l then Stmt.breakLoop (some (names.get l))
      else .continueLoop (some l)
    match cond with
    | some c => [.ifThen c [jump]]
    | none => [jump]
  | some s => [s]

/-- Nests the part of flat code from position `lo` up to `hi`. The scopes in it are given from the
outside in; those that start before the end of the first one lie inside it. -/
def nest (flat : Block) (names : ForwardLabels) (scopes : List Scope) (lo hi : Nat) : Block :=
  if lo < hi then
    match scopes with
    | s :: rest =>
      if s.start = lo ∧ s.stop ≤ hi then
        let label := s.label names
        let inside := rest.takeWhile (·.start < s.stop)
        let behind := rest.dropWhile (·.start < s.stop)
        .forever (some label) (nest flat names inside lo s.stop ++ [.breakLoop (some label)])
          :: nest flat names behind s.stop hi
      else nestStmt flat names lo ++ nest flat names (s :: rest) (lo + 1) hi
    | [] => nestStmt flat names lo ++ nest flat names [] (lo + 1) hi
  else []
termination_by (scopes.length, hi - lo)
decreasing_by
  · apply Prod.Lex.left
    have := (List.takeWhile_sublist (fun s' : Scope => decide (s'.start < s.stop))
      (l := rest)).length_le
    simp only [List.length_cons]
    omega
  · apply Prod.Lex.left
    have := (List.dropWhile_sublist (fun s' : Scope => decide (s'.start < s.stop))
      (l := rest)).length_le
    simp only [List.length_cons]
    omega
  · apply Prod.Lex.right
    omega
  · apply Prod.Lex.right
    omega

end ByteLift
