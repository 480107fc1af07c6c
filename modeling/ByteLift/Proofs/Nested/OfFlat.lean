import Mathlib
import ByteLift.Nested.OfFlat
import ByteLift.Proofs.Cleanup.WellNested
import ByteLift.Proofs.Nested.Follows
import ByteLift.Proofs.Semantics.Rotate

/-!
# Nested code

What nesting flat code gives: code that is well formed, stays so under all cleanup passes, and does
what the flat code does.
-/

namespace ByteLift

open Stmt

variable {flat : Block} {labels : LabelTable} {vars : VarTable} {order : ScopeOrder}

/-- The steps of nesting that succeeded. -/
theorem nest_eq_ok {nested : Block} {table : LabelTable}
    (h : flat.nest labels vars order = .ok (nested, table)) :
    ∃ turned turnedLabels found tidied, rotateLoops vars flat.length flat labels =
      (turned, turnedLabels) ∧
      scopes turned (order turned) turnedLabels = .ok found ∧
      tidied = stripLabels none (tidy vars
        (ByteLift.nest turned (nameForward found turnedLabels).1 found 0 turned.length)) ∧
      nested = dropLabels (fun l => 0 < Block.labelCount tidied l) tidied := by
  simp only [Block.nest] at h
  cases hturned : rotateLoops vars flat.length flat labels with
  | mk turned turnedLabels =>
    rw [hturned] at h
    simp only [bind, Except.bind] at h
    split at h
    · cases h
    · rename_i found hfound
      cases h
      exact ⟨turned, turnedLabels, found, _, rfl, hfound, rfl, rfl⟩

/-- The jumps of freshly nested code stand in the loops they name. -/
theorem wellNested_nest {found : List Scope} (hlaid : Laid flat found)
    (hflat : ∀ s ∈ flat, s.isFlat = true) (hlabels : labels.Holds flat) :
    Block.WellNested (ByteLift.nest flat (nameForward found labels).1 found 0 flat.length) := by
  refine wellNestedList_nest hlaid.laminar hflat ?_ (by simp) (nodup_labels hlaid hlabels)
  intro pos l c _ _ hgoto
  obtain ⟨s, hs, htarget, hstart, hstop, hcase⟩ := hlaid.exists_scope hgoto
  refine .inr ⟨s, hs, hstart, hstop, ?_⟩
  rcases hcase with ⟨hk, hlt, _⟩ | ⟨hk, hlt, _⟩
  · rw [Scope.label, hk, jumpLabel, if_pos hlt, htarget]
  · rw [Scope.label, hk, jumpLabel, if_neg (by omega), htarget]

/-- Nested code, also after any sequence of cleanup passes, has no labels and gotos, every jump in
it stands in the loop that it names, and no loop has the label of one around it. -/
theorem wellNested_runPasses_of_nest {nested : Block} {table : LabelTable}
    {ps : List Cleanup.Pass} (hflat : ∀ s ∈ flat, s.isFlat = true) (hlabels : labels.Holds flat)
    (h : flat.nest labels vars order = .ok (nested, table)) (hps : ∀ p ∈ ps, p ∈ Cleanup.passes) :
    Block.WellNested (Cleanup.runPasses vars ps nested).val := by
  obtain ⟨turned, turnedLabels, found, tidied, hturned, hfound, htidied, rfl⟩ := nest_eq_ok h
  have hrotate := isFlat_rotateLoops vars flat.length hflat hlabels
  rw [hturned] at hrotate
  have hraw := wellNested_nest (laid_of_scopes hfound) hrotate.1 hrotate.2
  have hstripped : tidied.WellNested := by
    rw [htidied]
    exact wellNestedList_stripLabels [] none _ (wellNestedList_tidy hraw)
  refine Cleanup.keepsNesting_runPasses hps vars [] _ ?_
  exact wellNestedList_dropLabels [] tidied hstripped fun t ht l => labelCount_pos ht

/-- `A: if (v) goto B; v; goto A; B: return;` is a loop that is left by a jump forward. -/
def testedLoop (v : Expr) : Block :=
  [.label ⟨0⟩, .goto ⟨1⟩ (some v), .expr v, .goto ⟨0⟩ none, .label ⟨1⟩, .ret none]

/-- A loop nests, and all passes run over it twice leave it well formed. -/
theorem wellNested_testedLoop :
    ∃ nested table,
      (testedLoop (.var ⟨0⟩)).nest ⟨#["A", "B"]⟩ .empty = .ok (nested, table) ∧
        Block.WellNested
          (Cleanup.runPasses .empty (Cleanup.passes ++ Cleanup.passes) nested).val := by
  have hok : (testedLoop (.var ⟨0⟩)).nest ⟨#["A", "B"]⟩ .empty =
      .ok ([.loop none (.not (.var ⟨0⟩)) [.expr (.var ⟨0⟩)], .ret none],
        ⟨#["A", "B", "label2"]⟩) := by
    cbv
  refine ⟨_, _, hok, wellNested_runPasses_of_nest ?_ ?_ hok ?_⟩
  · decide
  · intro l hl
    simp only [testedLoop, List.mem_cons, Stmt.label.injEq, reduceCtorEq,
      List.not_mem_nil, or_false, false_or] at hl
    rcases hl with rfl | rfl <;> decide
  · intro p hp
    simpa using hp

/-! ## What nested code does -/

/-- Nested code and the flat code it comes from end the same way in the same state, or both run
forever. -/
theorem run_iff_exec_of_nest {σ ν : Type} {S : Semantics σ ν} {nested : Block} {table : LabelTable}
    (hnan : S.NaNTyped vars) (hflat : ∀ s ∈ flat, s.isFlat = true)
    (hunique : Flat.UniqueLabels flat) (hlabels : labels.Holds flat)
    (hjumps : labels.HoldsJumps flat) (h : flat.nest labels vars order = .ok (nested, table))
    (s : σ) (r : Exit ν × σ) :
    (∃ n, Flat.run S flat n 0 s = some r) ↔ ∃ n, nested.exec S n s = some r := by
  obtain ⟨turned, turnedLabels, found, tidied, hturned, hfound, htidied, rfl⟩ := nest_eq_ok h
  have hrotate := isFlat_rotateLoops vars flat.length hflat hlabels
  obtain ⟨hunique', hends⟩ := ends_rotateLoops hnan flat.length hunique hlabels hjumps
  rw [hturned] at hrotate hunique' hends
  have hlaid := laid_of_scopes hfound
  have hplan : Planned turned found (nameForward found turnedLabels).1 :=
    ⟨hlaid, hrotate.1, hunique', nodup_labels hlaid hrotate.2⟩
  obtain ⟨y, t⟩ := r
  calc (∃ n, Flat.run S flat n 0 s = some (y, t)) ↔ Flat.Ends S turned 0 s (y, t) := hends s (y, t)
    _ ↔ meaningList S
          (ByteLift.nest turned (nameForward found turnedLabels).1 found 0 turned.length) s y t :=
        hplan.ends_iff_meaning (wellNested_nest hlaid hrotate.1 hrotate.2) s (y, t)
    _ ↔ meaningList S tidied s y t := by
        rw [htidied, meaningList_stripLabels, meaningList_tidy hnan]
    _ ↔ _ := by
        rw [Block.exec_iff, Block.meaning, meaningList_dropLabels _ fun t ht l => labelCount_pos ht]

/-- Evaluates conditions over variables, where reading a variable counts down and says whether there
was anything left to count. Expressions other than conditions are not evaluated. -/
def countDown : Expr → EStateM Bool Nat Bool
  | .lit (.boolean b) => pure b
  | .var _ => fun n => .ok (decide (0 < n)) (n - 1)
  | .paren e => countDown e
  | .unary .not e _ => (fun v => !v) <$> countDown e
  | .binary .condAnd a b _ => do
    let v ← countDown a
    if v then (fun w => w) <$> countDown b else pure false
  | .binary .condOr a b _ => do
    let v ← countDown a
    if v then pure true else (fun w => w) <$> countDown b
  | .compare op a b => do
    let v ← countDown a
    let w ← countDown b
    pure (op.decides (some (compare v w)))
  | _ => pure false

/-- A semantics of one counter. -/
def counter : Semantics Nat Bool where
  eval := countDown
  truth := id
  ofBool := id
  order v w := some (compare v w)
  isNaN _ := false
  truth_ofBool _ := rfl
  isNaN_of_unordered _ _ h := nomatch h
  eval_boolean _ := rfl
  eval_paren _ := rfl
  eval_not _ _ := rfl
  eval_condAnd _ _ _ := rfl
  eval_condOr _ _ _ := rfl
  eval_compare _ _ _ := rfl

/-- `goto B; A: v; B: if (v) goto A; return;` is a loop that is entered at its test. -/
def loopEnteredAtTest (v : Expr) : Block :=
  [.goto ⟨1⟩ none, .label ⟨0⟩, .expr v, .label ⟨1⟩, .goto ⟨0⟩ (some v), .ret none]

/-- A loop that counts down by two in each round ends also when it is nested. -/
theorem exec_loopEnteredAtTest :
    ∃ nested table,
      (loopEnteredAtTest (.var ⟨0⟩)).nest ⟨#["A", "B"]⟩ .empty = .ok (nested, table) ∧
        ∃ n, nested.exec counter n 5 = some (.returned none, 0) := by
  have hok : (loopEnteredAtTest (.var ⟨0⟩)).nest ⟨#["A", "B"]⟩ .empty =
      .ok ([.loop none (.var ⟨0⟩) [.expr (.var ⟨0⟩)], .ret none],
        ⟨#["A", "B", "label2", "label3"]⟩) := by
    cbv
  refine ⟨_, _, hok, (run_iff_exec_of_nest ?_ ?_ ?_ ?_ ?_ hok 5 _).1 ⟨20, by decide⟩⟩
  · intro e s v s' _ hnan
    cases hnan
  · decide
  · decide
  · intro l hl
    simp only [loopEnteredAtTest, List.mem_cons, Stmt.label.injEq, reduceCtorEq, List.not_mem_nil,
      or_false, false_or] at hl
    rcases hl with rfl | rfl <;> decide
  · intro l c hl
    simp only [loopEnteredAtTest, List.mem_cons, Stmt.goto.injEq, reduceCtorEq, List.not_mem_nil,
      or_false, false_or] at hl
    rcases hl with ⟨rfl, _⟩ | ⟨rfl, _⟩ <;> decide

end ByteLift
