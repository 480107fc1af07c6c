import ByteLift.Proofs.Variables.Uses
import ByteLift.Stmt.Completion

/-!
# Nested code is well formed

In nested code control is passed by loops, branches and jumps out of loops alone, and every jump
stands in the loop it names. Here this is stated as `Stmt.WellNested`, relative to the loops around
a statement, and a loop that nothing jumps to is shown not to be needed for it.
-/

namespace ByteLift

namespace Stmt

mutual

/-- A statement without labels and gotos whose jumps stand in the loops they name, and whose loops
have other labels than those around them. The labels of the loops around the statement are given,
the innermost first. -/
def WellNested (around : List (Option Label)) : Stmt → Prop
  | breakLoop l | continueLoop l => around ≠ [] ∧ (l.isSome → l ∈ around)
  | loop l _ a => (l.isSome → l ∉ around) ∧ WellNestedList (l :: around) a
  | ite _ a b => WellNestedList around a ∧ WellNestedList around b
  | block a => WellNestedList around a
  | label _ | goto _ _ => False
  | expr _ | declare .. | ret _ | throw _ => True

/-- A block of such statements. -/
def WellNestedList (around : List (Option Label)) : List Stmt → Prop
  | [] => True
  | s :: ss => s.WellNested around ∧ WellNestedList around ss

end

end Stmt

/-- A method's body whose jumps stand in the loops they name. -/
def Block.WellNested (b : Block) : Prop := Stmt.WellNestedList [] b

section

open Stmt

variable {around : List (Option Label)} {a b : Block} {s : Stmt}

@[simp] theorem wellNestedList_nil : WellNestedList around [] := trivial

@[simp] theorem wellNestedList_cons :
    WellNestedList around (s :: b) ↔ s.WellNested around ∧ WellNestedList around b :=
  Iff.rfl

theorem wellNestedList_iff : WellNestedList around b ↔ ∀ s ∈ b, s.WellNested around := by
  induction b with
  | nil => simp
  | cons s ss ih => simp [ih]

@[simp] theorem wellNestedList_append :
    WellNestedList around (a ++ b) ↔ WellNestedList around a ∧ WellNestedList around b := by
  simp only [wellNestedList_iff, List.mem_append]
  grind

theorem Stmt.WellNestedList.subset (h : WellNestedList around b) (hsub : a ⊆ b) :
    WellNestedList around a :=
  wellNestedList_iff.2 fun s hs => wellNestedList_iff.1 h s (hsub hs)

variable {c e : Expr} {l : Option Label} {v : Var}

@[simp] theorem wellNested_ite :
    (ite c a b).WellNested around ↔ WellNestedList around a ∧ WellNestedList around b :=
  Iff.rfl

@[simp] theorem wellNested_ifThen : (ifThen c a).WellNested around ↔ WellNestedList around a := by
  simp [ifThen]

@[simp] theorem wellNested_loop : (loop l c a).WellNested around ↔
      (l.isSome → l ∉ around) ∧ WellNestedList (l :: around) a :=
  Iff.rfl

@[simp] theorem wellNested_block : (block a).WellNested around ↔ WellNestedList around a := Iff.rfl

@[simp] theorem wellNested_breakLoop :
    (breakLoop l).WellNested around ↔ around ≠ [] ∧ (l.isSome → l ∈ around) :=
  Iff.rfl

@[simp] theorem wellNested_continueLoop :
    (continueLoop l).WellNested around ↔ around ≠ [] ∧ (l.isSome → l ∈ around) :=
  Iff.rfl

@[simp] theorem wellNested_expr : (Stmt.expr e).WellNested around := trivial

@[simp] theorem wellNested_declare {e : Option Expr} : (declare v e).WellNested around := trivial

@[simp] theorem wellNested_set : (Stmt.set v e).WellNested around := by
  simp [Stmt.set]

/-! ## Removing a loop -/

/-- A block that does not jump to one of the loops around it does not need that loop. -/
theorem wellNestedList_remove (inside : List (Option Label)) {label : Option Label}
    (h : WellNestedList (inside ++ label :: around) b)
    (hbreak : jumpsToList .breaking label (!inside.isEmpty) b = false)
    (hcont : jumpsToList .continuing label (!inside.isEmpty) b = false) :
    WellNestedList (inside ++ around) b := by
  induction b using Block.nestedInduction generalizing inside with
  | nil => exact wellNestedList_nil
  | cons s ss ihblocks ih =>
    simp only [wellNestedList_cons, jumpsToList, Bool.or_eq_false_iff] at h hbreak hcont ⊢
    refine ⟨?_, ih inside h.2 hbreak.2 hcont.2⟩
    replace h := h.1
    replace hbreak := hbreak.1
    replace hcont := hcont.1
    cases s with
    | ite c a b =>
      simp only [wellNested_ite, jumpsTo, Bool.or_eq_false_iff] at h hbreak hcont ⊢
      exact ⟨ihblocks a (by simp) inside h.1 hbreak.1 hcont.1,
        ihblocks b (by simp) inside h.2 hbreak.2 hcont.2⟩
    | block a =>
      simp only [wellNested_block, jumpsTo] at h hbreak hcont ⊢
      exact ihblocks a (by simp) inside h hbreak hcont
    | loop l c a =>
      simp only [wellNested_loop, jumpsTo] at h hbreak hcont ⊢
      refine ⟨by grind, ?_⟩
      rw [← List.cons_append] at h ⊢
      exact ihblocks a (by simp) (l :: inside) h.2 (by simpa using hbreak) (by simpa using hcont)
    | breakLoop l | continueLoop l =>
      cases l <;> cases inside <;> simp_all [jumpsTo, jumpTarget?] <;> grind
    | label | goto => simp [Stmt.WellNested] at h
    | _ => simp [Stmt.WellNested]

end

end ByteLift
