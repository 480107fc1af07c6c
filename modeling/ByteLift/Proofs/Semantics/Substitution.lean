import ByteLift.Proofs.Semantics.Moved
import ByteLift.Proofs.Variables.Whole

/-!
# Substitution and the uses of variables

Whatever an expression put in place of a variable does to variables is done once for each read of
the variable. If the expression is pure and no variable is assigned on the way, the result comes to
the same as before, with the variable assigned first.
-/

namespace ByteLift

open Expr State

theorem Use.count_flatMap_replaced (v : Var) (r : Expr) (us : List Use) (u : Use) :
    (us.flatMap (Use.replaced (only v r))).count u =
      (if u = .read v then 0 else us.count u) + r.uses.count u * us.count (.read v) := by
  induction us with
  | nil => simp
  | cons x us ih =>
    rw [List.flatMap_cons, List.count_append, ih]
    by_cases hx : x = .read v
    · -- One more read of the variable stands for the uses of the expression.
      subst hx
      simp only [replaced, only, List.count_cons_self]
      grind
    · have hone : Use.replaced (only v r) x = [x] := by
        cases x with
        | read w => simp [replaced, only, show w ≠ v from fun hw => hx (hw ▸ rfl)]
        | write w => rfl
      rw [hone, List.count_cons_of_ne hx]
      grind

/-- A replacement of the reads of one variable is reported if and only if reads of it are counted,
and the counts of all variables say what the result reads and writes. If nothing is assigned and the
replacement is pure, the result has the value and the effects that the expression has where the
variable holds the value of the replacement. -/
theorem replaceReads_only_agrees (e r : Expr) (v : Var) :
    ((e.replaceReads (only v r)).changed = true ↔ 1 ≤ e.uses.count (.read v)) ∧
      (∀ w, (e.replaceReads (only v r)).val.uses.count (.read w) =
        (if w = v then 0 else e.uses.count (.read w)) + r.uses.count
          (.read w) * e.uses.count (.read v)) ∧
      (∀ w, (e.replaceReads (only v r)).val.uses.count (.write w) =
        e.uses.count (.write w) + r.uses.count (.write w) * e.uses.count (.read v)) ∧
      ∀ {ν η : Type} (I : Interpretation ν η), I.Steady → e.isAssignFree = true → r.isPure = true →
        ∀ s, ∃ x t, I.eval r s = .ok x t ∧
          ResultAlike (Like (· = v)) (I.eval e (s.put v x))
            (I.eval (e.replaceReads (only v r)).val s) := by
  refine ⟨?_, fun w => ?_, fun w => ?_, fun I hI he hr s => ?_⟩
  · rw [← Bool.not_eq_false, changed_replaceReads, List.one_le_count_iff]
    simp [only]
  · rw [uses_replaceReads, Use.count_flatMap_replaced]
    simp
  · rw [uses_replaceReads, Use.count_flatMap_replaced]
    simp
  · obtain ⟨x, t, hx, _⟩ := hI.calm.eval (E := (· = v)) hr s
    have hsame := Interpretation.alike_replaceReads_pure (E := (· = v)) hI hr hx (fun _ _ => id)
      (fun u hu => absurd hu (write_notMem_usesAs u e he))
    have hput : Like (· = v) (s.put v x) s := (Like.refl s).put_left (E := (· = v)) rfl x
    exact ⟨x, t, hx, (hsame ⟨hput, put_self s v x, fun _ _ => rfl⟩).mono fun _ _ h => h.1⟩

end ByteLift
