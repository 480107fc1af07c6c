import ByteLift.Proofs.Nested.OfFlat
import ByteLift.Proofs.Variables.Reshape
import ByteLift.Proofs.Variables.Within

/-!
# Variables of nested code

Nesting flat code adds loops and jumps but no variables: nested code declares nothing and uses only
variables of the flat code.
-/

namespace ByteLift

namespace Block.Within

variable {n : Nat} {a b flat : Block}

variable {vars : VarTable} {names : ForwardLabels}

theorem reshape (h : a.Within n) (hab : Reshapes vars a b) : b.Within n where
  declared := List.eq_nil_iff_forall_not_mem.2 fun v hv => by
    have hle := hab.count_declared_le v
    rw [h.declared, List.count_nil] at hle
    have hmem := List.one_le_count_iff.2 hv
    omega
  whole := hab.follows h.whole
  known u hu := h.known u (hab.uses_subset hu)

section

variable (h : flat.Within n)
include h

theorem rotateLoop {l : EnteredLoop} {exit : Label} : (rotateLoop vars flat l exit).Within n := by
  have hmem {s : Stmt} (hs : s ∈ flat) : Block.Within n [s] := iff_forall.1 h s hs
  refine iff_forall.2 fun s hs => ?_
  unfold ByteLift.rotateLoop at hs
  split at hs
  · rename_i entry _ head _ cond _ hlabel hback
    simp only [List.mem_append, List.mem_map, List.mem_cons, Option.mem_toList] at hs
    rcases hs with (((hs | hs) | ⟨c, hc, rfl⟩) | rfl | hs) | rfl | rfl | hs
    · exact hmem (List.mem_of_mem_take hs)
    · exact hmem (slice_subset _ _ _ hs)
    · cases hc
      refine of_exprs rfl rfl ?_
      simpa [Stmt.exprs, Expr.ReadsBelow]
        using (hmem (List.mem_of_getElem? hback)).readsBelow_of_goto
    · exact hmem (List.mem_of_getElem? hlabel)
    · exact hmem (slice_subset _ _ _ hs)
    · exact of_exprs rfl rfl (by simp [Stmt.exprs])
    · exact of_exprs rfl rfl (by simp [Stmt.exprs])
    · exact hmem (List.mem_of_mem_drop hs)
  · exact hmem hs

theorem rotateLoops (vars : VarTable) (k : Nat) (labels : LabelTable) :
    (rotateLoops vars k flat labels).1.Within n := by
  induction k generalizing flat labels with
  | zero => exact h
  | succ k ih =>
    rw [ByteLift.rotateLoops]
    split
    · exact h
    · exact ih h.rotateLoop _

theorem nestStmt (pos : Nat) : (nestStmt flat names pos).Within n := by
  unfold ByteLift.nestStmt
  split
  · exact nil
  · exact nil
  · rename_i l cond hgoto
    have hjump : Block.Within n [if pos < labelPos flat l then Stmt.breakLoop (some (names.get l))
        else .continueLoop (some l)] := by
      split
      · exact breakLoop _
      · exact continueLoop _
    cases cond with
    | none => exact hjump
    | some c =>
      exact .ite (iff_forall.1 h _ (List.mem_of_getElem? hgoto)).readsBelow_of_goto hjump nil
  · rename_i s _ _ hs
    exact iff_forall.1 h s (List.mem_of_getElem? hs)

theorem nest (scopes : List Scope) (lo hi : Nat) :
    (ByteLift.nest flat names scopes lo hi).Within n := by
  fun_induction ByteLift.nest flat names scopes lo hi with
  | case1 lo hi _ s rest _ label inside behind ihinside ihbehind =>
    have hloop : Block.Within n [.forever (some label)
        (ByteLift.nest flat names inside lo s.stop ++ [.breakLoop (some label)])] :=
      loop ⟨rfl, nofun⟩ (append_iff.2 ⟨ihinside, breakLoop _⟩)
    exact cons_iff.2 ⟨hloop, ihbehind⟩
  | case2 lo hi _ s rest _ ih => exact append_iff.2 ⟨h.nestStmt lo, ih⟩
  | case3 lo hi _ ih => exact append_iff.2 ⟨h.nestStmt lo, ih⟩
  | case4 => exact nil

end

end Block.Within

/-- Nesting adds no variables. -/
theorem within_of_nest {n : Nat} {flat nested : Block} {labels table : LabelTable} {vars : VarTable}
    {order : ScopeOrder} (hflat : flat.Within n)
    (h : flat.nest labels vars order = .ok (nested, table)) : nested.Within n := by
  obtain ⟨turned, turnedLabels, found, tidied, hturned, _, rfl, rfl⟩ := nest_eq_ok h
  have hturned' : turned.Within n := by
    have hrotated := hflat.rotateLoops vars flat.length labels
    rwa [hturned] at hrotated
  have hreshapes (b : Block) (used : Label → Bool) :
      Reshapes vars b (dropLabels used (stripLabels none (tidy vars b))) :=
    .trans (.tidy b) (.trans (.stripLabels none _) (.dropLabels used _))
  exact (hturned'.nest found 0 turned.length).reshape (hreshapes _ _)

end ByteLift
